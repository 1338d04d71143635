import Wimi.Mcap

/-!
# Containers of bitstreams

`bitstream_ioctl`, which is given a container by a user, and `load_boot_firmware`, which finds
one among the firmware files. The bytes at and around a container are a function of the offset
from its start. The copy the driver takes of the header of a user's container is given beside
them, since the user may have changed it since.
-/

open Traced

namespace Wimi

/-- What the driver uses of an `xclBin`. -/
structure XclBin where
  magic : Vector Byte 8
  length : U64
  primaryFirmwareOffset : U64
  primaryFirmwareLength : U64
  secondaryFirmwareOffset : U64
  secondaryFirmwareLength : U64

/-- `"xclbin0"`, with its null byte. -/
def xclbin0 : Vector Byte 8 :=
  #v[0x78, 0x63, 0x6c, 0x62, 0x69, 0x6e, 0x30, 0x00]

/-- A container and the memory around it. -/
structure Container where
  bin : XclBin
  mem : U64 → Byte

def XclBin.offset (bin : XclBin) : Segment → U64
  | .primary => bin.primaryFirmwareOffset
  | .secondary => bin.secondaryFirmwareOffset

def XclBin.segmentLength (bin : XclBin) : Segment → U64
  | .primary => bin.primaryFirmwareLength
  | .secondary => bin.secondaryFirmwareLength

/-- The segments end where the container does at most, as far as their sums tell. -/
def XclBin.segmentsFit (bin : XclBin) : Bool :=
  bin.primaryFirmwareOffset + bin.primaryFirmwareLength ≤ bin.length &&
    bin.secondaryFirmwareOffset + bin.secondaryFirmwareLength ≤ bin.length

/-! ## The ioctl -/

inductive DownloadCmd
  | icap
  | mcap
  | other
  deriving DecidableEq

/-- What the kernel and the device answer in `bitstream_ioctl`, whose argument names the container
by its address `xclbin`. -/
structure BitstreamIoctlEnv where
  argLeft : ℕ
  xclbin : U64
  binLeft : ℕ
  accessOk : Bool
  icap : IcapIoctlEnv
  mcap : McapIoctlEnv
  vmalloc : Bool
  stashLeft : ℕ
  vmallocRest : ℕ → Byte

/-- `bitstream_ioctl` does not refuse the container by its header. -/
def BitstreamIoctlEnv.accepts (e : BitstreamIoctlEnv) (bin : XclBin) : Bool :=
  e.argLeft = 0 && e.binLeft = 0 && bin.magic = xclbin0 && bin.segmentsFit && e.accessOk

/-- The secondary segment is stashed as the clearing bitstream of the next download. `err` is what
the download of the primary returned. -/
def stashSecondary (e : BitstreamIoctlEnv) (c : Container) (err : ℤ) (d : BitDev) :
    Traced Access (ℤ × BitDev) :=
  if c.bin.secondaryFirmwareLength = 0 then pure (err, d)
  else if ¬e.vmalloc then pure (-Errno.enomem.code, { d with stash := none })
  else do
    -- `err` is overwritten
    match ← copyFromUser .secondary c.mem e.stashLeft c.bin.secondaryFirmwareOffset
        c.bin.secondaryFirmwareLength.toNat with
    | none => return (-EFAULT, { d with stash := none })
    | some bytes =>
      let length := c.bin.secondaryFirmwareLength.setWidth 32
      return (0, { d with stash := some ⟨fun i =>
        if i < c.bin.secondaryFirmwareLength.toNat then bytes i else e.vmallocRest i, length⟩ })

/-- `bitstream_ioctl`. -/
def bitstreamIoctl (e : BitstreamIoctlEnv) (cmd : DownloadCmd) (c : Container) (d : BitDev) :
    Traced Access (ℤ × BitDev) :=
  if e.argLeft ≠ 0 then pure (-EFAULT, d)
  else if e.binLeft ≠ 0 then pure (-EFAULT, d)
  else if c.bin.magic ≠ xclbin0 then pure (-Errno.einval.code, d)
  else if ¬c.bin.segmentsFit then pure (-Errno.einval.code, d)
  else if ¬e.accessOk then pure (-EFAULT, d)
  else match cmd with
    | .icap => do
      let (err, d) ← bitstreamIoctlIcap e.icap c.mem c.bin.primaryFirmwareOffset
        c.bin.primaryFirmwareLength d
      stashSecondary e c err d
    | .mcap => do
      let (err, d) ← bitstreamIoctlMcap e.mcap c.mem (e.xclbin + c.bin.primaryFirmwareOffset)
        c.bin.primaryFirmwareOffset c.bin.primaryFirmwareLength d
      stashSecondary e c err d
    | .other => pure (-Errno.einval.code, d)

/-! ## The firmware -/

/-- The names `load_boot_firmware` tries, in order. -/
inductive FirmwareName
  /-- By vendor, device, subsystem and `feature_id`. -/
  | feature
  /-- By vendor and device. -/
  | legacy
  | ku3
  deriving DecidableEq

/-- A firmware file of `size` bytes. -/
structure Firmware extends Container where
  size : U64

/-- What the kernel and the device answer in `load_boot_firmware`. -/
structure FirmwareEnv where
  requestFirmware : FirmwareName → Option Firmware
  mcap : McapEnv
  vmalloc : Bool
  vmallocRest : ℕ → Byte
  stashStrings : StringEnv

/-- The file `load_boot_firmware` finds. -/
def FirmwareEnv.firmware (e : FirmwareEnv) : Option Firmware :=
  (e.requestFirmware .feature).or ((e.requestFirmware .legacy).or (e.requestFirmware .ku3))

/-- The secondary segment is stashed, unless a clearing bitstream was before and there is no
primary. -/
def stashFirmware (e : FirmwareEnv) (c : Container) (d : BitDev) :
    Traced Access (ℤ × BitDev) :=
  if c.bin.secondaryFirmwareLength ≠ 0 ∧ (c.bin.primaryFirmwareLength ≠ 0 ∨ d.stash.isNone) then
    if ¬e.vmalloc then pure (-Errno.enomem.code, { d with stash := none })
    else do
      let length := c.bin.secondaryFirmwareLength.setWidth 32
      emit (.copy .secondary c.bin.secondaryFirmwareOffset length.toNat)
      return (0, { d with stash := some ⟨fun i => if i < length.toNat then
        c.mem (c.bin.secondaryFirmwareOffset + BitVec.ofNat 64 i) else e.vmallocRest i, length⟩ })
  else pure (0, d)

/-- The clearing bitstream that is stashed is dropped if its header is not valid. -/
def checkStash (e : FirmwareEnv) (d : BitDev) : Traced Access (ℤ × BitDev) :=
  match d.stash with
  | none => pure (0, d)
  | some s => do
    match ← parseHeader untouched ⟨e.stashStrings, fun i => s.bytes i.toNat⟩ with
    | none => return (-Errno.einval.code, { d with stash := none })
    | some _ => return (0, d)

/-- The primary segment is written through the MCAP, if there is one. -/
def loadPrimary (e : FirmwareEnv) (c : Container) (d : BitDev) : Traced Access (ℤ × BitDev) :=
  if c.bin.primaryFirmwareLength = 0 then pure (0, d) else do
    let err ← bitstreamMcap e.mcap c.mem c.bin.primaryFirmwareOffset
      (c.bin.primaryFirmwareLength.setWidth 32)
    return (err, { d with stash := none })

/-- `load_boot_firmware`. -/
def loadBootFirmware (e : FirmwareEnv) (d : BitDev) : Traced Access (ℤ × BitDev) :=
  match e.firmware with
  | none => pure (0, d)
  | some fw =>
    if fw.bin.length > fw.size then pure (-Errno.einval.code, d)
    else if ¬fw.bin.segmentsFit then pure (-Errno.einval.code, d)
    else do
      let (err, d) ← loadPrimary e fw.toContainer d
      if err ≠ 0 then return (err, d) else
        let (err, d) ← stashFirmware e fw.toContainer d
        if err ≠ 0 then return (err, d) else checkStash e d

end Wimi
