import Wimi.Icap

/-!
# Bitstreams through the MCAP

The functions that write a bitstream to the data register of the MCAP, in the configuration space
of the device. Each register that is read has a field of its own in the structure of what the
device answers.
-/

open Traced

namespace Wimi

def MCAP_CTRL_MODE_MASK : U32 := 1 <<< 0
def MCAP_CTRL_REG_READ_MASK : U32 := 1 <<< 1
def MCAP_CTRL_RESET_MASK : U32 := 1 <<< 4
def MCAP_CTRL_MOD_RESET_MASK : U32 := 1 <<< 5
def MCAP_CTRL_IN_USE_MASK : U32 := 1 <<< 8
def MCAP_CTRL_DESIGN_SWITCH_MASK : U32 := 1 <<< 12
def MCAP_CTRL_DATA_REG_PROT_MASK : U32 := 1 <<< 16

def MCAP_STS_ERR_MASK : U32 := 1 <<< 0
def MCAP_STS_EOS_MASK : U32 := 1 <<< 1
def MCAP_STS_REG_READ_CMP_MASK : U32 := 1 <<< 4
def MCAP_STS_FIFO_OVERFLOW_MASK : U32 := 1 <<< 8
def MCAP_STS_CFG_MCAP_REQ_MASK : U32 := 1 <<< 24

def MCAP_LOOP_COUNT : ℕ := 1000000
def EMCAP_EOS_RETRY_COUNT : ℕ := 10
def EMCAP_EOS_LOOP_COUNT : ℕ := 100
def EMCAP_NOOP_VAL : U32 := 0x2000000

/-! ## The control register -/

/-- What `MCapClearRequestByConfigure` reads : the control register, and the status register once
and then in its loop. -/
structure ClearRequestEnv where
  control : U32
  status : U32
  polls : ℕ → U32

/-- The loop of `MCapClearRequestByConfigure`, at turn `i` with `loop` to go, and the value it
leaves `loop` with. -/
def clearRequestLoop (polls : ℕ → U32) : ℕ → ℕ → Traced Access ℤ
  | 0, i => do
    emit (.read .MCAP_STATUS (polls i))
    return if polls i &&& MCAP_STS_CFG_MCAP_REQ_MASK = 0 then 0 else -1
  | loop + 1, i => do
    emit (.read .MCAP_STATUS (polls i))
    if polls i &&& MCAP_STS_CFG_MCAP_REQ_MASK = 0 then return loop + 1
    else clearRequestLoop polls loop (i + 1)

/-- `MCapClearRequestByConfigure`, whose `restore` is the control register. -/
def mcapClearRequestByConfigure (e : ClearRequestEnv) : Traced Access ℤ := do
  emit (.read .MCAP_CONTROL e.control)
  emit (.read .MCAP_STATUS e.status)
  if e.status &&& MCAP_STS_CFG_MCAP_REQ_MASK = 0 then return 0 else
    emit (.write .MCAP_CONTROL (e.control ||| (MCAP_CTRL_MODE_MASK ||| MCAP_CTRL_IN_USE_MASK)))
    if (← clearRequestLoop e.polls MCAP_LOOP_COUNT 0) = 0 then
      emit (.write .MCAP_CONTROL e.control)
      return -Errno.eio.code
    else return 0

/-- Whether one of the bits is set, each looked for in a read of the status register of its own,
up to the first that is. -/
def anyStatus : List (U32 × U32) → Traced Access Bool
  | [] => pure false
  | (mask, status) :: checks => do
    emit (.read .MCAP_STATUS status)
    if status &&& mask ≠ 0 then return true else anyStatus checks

/-- What `MCapFullReset` reads. -/
structure FullResetEnv where
  request : ClearRequestEnv
  control : U32
  error : U32
  moduleReset : U32
  reset : U32

/-- The checks of `MCapFullReset`, up to the first that fails. -/
def fullResetFailed (e : FullResetEnv) : Traced Access Bool := do
  if ← anyStatus [(MCAP_STS_ERR_MASK, e.error)] then return true else
    emit (.read .MCAP_CONTROL e.moduleReset)
    if e.moduleReset &&& MCAP_CTRL_MOD_RESET_MASK = 0 then return true else
      emit (.read .MCAP_CONTROL e.reset)
      return e.reset &&& MCAP_CTRL_RESET_MASK = 0

/-- `MCapFullReset`. -/
def mcapFullReset (e : FullResetEnv) : Traced Access ℤ := do
  let err ← mcapClearRequestByConfigure e.request
  if err ≠ 0 then return err else
    emit (.read .MCAP_CONTROL e.control)
    emit (.write .MCAP_CONTROL (e.control ||| (MCAP_CTRL_MODE_MASK ||| MCAP_CTRL_IN_USE_MASK |||
      MCAP_CTRL_RESET_MASK ||| MCAP_CTRL_MOD_RESET_MASK)))
    let failed ← fullResetFailed e
    emit (.write .MCAP_CONTROL e.request.control)
    return if failed then -Errno.eio.code else 0

/-- The loop of `Checkforcompletion`, the `i`-th status read and `left` retries left. -/
def completionLoop (status : ℕ → U32) : ℕ → ℕ → Traced Access ℤ
  | left, i =>
    if status i &&& MCAP_STS_EOS_MASK ≠ 0 then pure 0 else do
      emitAll (List.replicate EMCAP_EOS_LOOP_COUNT (.write .MCAP_DATA EMCAP_NOOP_VAL))
      emit (.read .MCAP_STATUS (status (i + 1)))
      match left with
      | 0 => return -Errno.eio.code
      | left + 1 => completionLoop status left (i + 1)

/-- `Checkforcompletion`. -/
def checkForCompletion (status : ℕ → U32) : Traced Access ℤ := do
  emit (.read .MCAP_STATUS (status 0))
  completionLoop status EMCAP_EOS_RETRY_COUNT 0

/-! ## Bitstreams -/

/-- What `bitstream_mcap_setup` reads. -/
structure McapSetupEnv where
  request : ClearRequestEnv
  error : U32
  regRead : U32
  overflow : U32
  control : U32

/-- The value of the control register a bitstream is written with. -/
def mcapControl (control : U32) (designSwitch : Bool) : U32 :=
  let set := control ||| (MCAP_CTRL_MODE_MASK ||| MCAP_CTRL_IN_USE_MASK |||
    MCAP_CTRL_DATA_REG_PROT_MASK)
  let set := set &&& ~~~(MCAP_CTRL_RESET_MASK ||| MCAP_CTRL_MOD_RESET_MASK |||
    MCAP_CTRL_REG_READ_MASK)
  if designSwitch then set &&& ~~~MCAP_CTRL_DESIGN_SWITCH_MASK else set

/-- `bitstream_mcap_setup`. -/
def bitstreamMcapSetup (e : McapSetupEnv) (designSwitch : Bool) : Traced Access ℤ := do
  let err ← mcapClearRequestByConfigure e.request
  if err ≠ 0 then return err else
    if ← anyStatus [(MCAP_STS_ERR_MASK, e.error), (MCAP_STS_REG_READ_CMP_MASK, e.regRead),
        (MCAP_STS_FIFO_OVERFLOW_MASK, e.overflow)] then
      emit (.write .MCAP_CONTROL e.request.control)
      return -Errno.eio.code
    else
      emit (.read .MCAP_CONTROL e.control)
      emit (.write .MCAP_CONTROL (mcapControl e.control designSwitch))
      return 0

/-- `bitstream_mcap_helper`. `touch` are the accesses of its reads of the words. -/
def bitstreamMcapHelper (touch : ℕ → List Access) (wordBuffer : ℕ → U32) (wordCount : ℕ) :
    Traced Access Unit :=
  emitAll ((List.range wordCount).flatMap fun i =>
    touch i ++ [.write .MCAP_DATA (be32ToCpu (wordBuffer i))])

/-- What is read once a bitstream is written. -/
structure McapFinishEnv where
  completion : ℕ → U32
  error : U32
  overflow : U32
  reset : FullResetEnv

/-- What is done once a bitstream is written, `restore` being the control register to go back to
before a reset. -/
def mcapFinish (e : McapFinishEnv) (restore : U32) : Traced Access ℤ := do
  let err ← checkForCompletion e.completion
  let failed ← (if err ≠ 0 then pure true else
    anyStatus [(MCAP_STS_ERR_MASK, e.error), (MCAP_STS_FIFO_OVERFLOW_MASK, e.overflow)])
  if failed then
    emit (.write .MCAP_CONTROL restore)
    let _ ← mcapFullReset e.reset
    return -Errno.eio.code
  else return 0

/-- `bitstream_clear_mcap`. -/
def bitstreamClearMcap (strings : StringEnv) (d : BitDev) : Traced Access (ℤ × BitDev) :=
  match d.stash with
  | none => pure (0, d)
  | some s => do
    match ← parseHeader untouched ⟨strings, fun i => s.bytes i.toNat⟩ with
    | none => return (-Errno.einval.code, d)
    | some h =>
      if (h.headerLength + h.bitstreamLength).toNat > s.length.toNat then
        return (-Errno.einval.code, d)
      else
        bitstreamMcapHelper untouched (load32 fun i => s.bytes (h.headerLength.toNat + i))
          (h.bitstreamLength.toNat / 4)
        return (0, { d with stash := none })

/-- What the kernel and the MCAP answer in `bitstream_ioctl_mcap`. -/
structure McapIoctlEnv where
  kmalloc : Bool
  headerLeft : ℕ
  heap : U32 → Byte
  strings : StringEnv
  setup : McapSetupEnv
  clearStrings : StringEnv
  chunkLeft : ℕ → ℕ
  finish : McapFinishEnv

/-- A turn of the loop over the chunks, left with an error at a `goto design_switch`. -/
def mcapChunk (e : McapIoctlEnv) (mem : U64 → Byte) (offset : U64) (total byteRead : ℕ) :
    Traced Access (Option ℤ) := do
  match ← copyFromUser .primary mem (e.chunkLeft byteRead) (offset + BitVec.ofNat 64 byteRead)
      (numCharsRead total byteRead) with
  | none => return some (-EFAULT)
  | some buffer =>
    bitstreamMcapHelper untouched (load32 buffer) (numCharsRead total byteRead / 4)
    return none

/-- `bitstream_ioctl_mcap` up to `design_switch`, its header parsed. -/
def writePrimary (e : McapIoctlEnv) (mem : U64 → Byte) (bitBuf : U64) (h : BitHeader)
    (d : BitDev) : Traced Access (ℤ × BitDev) := do
  let err ← bitstreamMcapSetup e.setup false
  if err ≠ 0 then return (err, d) else
    let (err, d) ← bitstreamClearMcap e.clearStrings d
    if err ≠ 0 then return (err, d) else
      match ← untilLeft (mcapChunk e mem (bitBuf + h.headerLength.setWidth 64)
          h.bitstreamLength.toNat) (byteReads h.bitstreamLength.toNat 0) with
      | some err => return (err, d)
      | none => return (← mcapFinish e.finish e.setup.request.control, d)

/-- `bitstream_ioctl_mcap` between the freeze of the gate and `free_buffers`. -/
def mcapPrimary (e : McapIoctlEnv) (mem : U64 → Byte) (bitBuf : U64) (length : U64) (d : BitDev) :
    Traced Access (ℤ × BitDev) :=
  if ¬e.kmalloc then pure (-Errno.enomem.code, d) else do
    match ← copyFromUser .primary mem e.headerLeft bitBuf DMA_HWICAP_BITFILE_BUFFER_SIZE with
    | none => return (-EFAULT, d)
    | some buffer =>
      match ← parseHeader untouched (headerInBuffer e.strings e.heap buffer) with
      | none => return (-Errno.einval.code, d)
      | some h =>
        if (h.headerLength + h.bitstreamLength).toNat > length.toNat then
          return (-Errno.einval.code, d)
        else
          let (err, d) ← writePrimary e mem bitBuf h d
          emit (.write .MCAP_CONTROL e.setup.request.control)
          return (err, d)

/-- `bitstream_ioctl_mcap` of a bitstream at `bitBuf` of the container, whose address is
`address`. -/
def bitstreamIoctlMcap (e : McapIoctlEnv) (mem : U64 → Byte) (address bitBuf length : U64)
    (d : BitDev) : Traced Access (ℤ × BitDev) :=
  if address = 0 ∨ length = 0 then pure (-Errno.einval.code, d) else do
    let d ← freezeAXIGate d
    let (err, d) ← mcapPrimary e mem bitBuf length d
    let d ← freeAXIGate d
    return (err, d)

/-- What the kernel and the MCAP answer in `bitstream_mcap`. -/
structure McapEnv where
  strings : StringEnv
  setup : McapSetupEnv
  finish : McapFinishEnv

/-- `bitstream_mcap` up to `free_buffers`, its header parsed and the words of the bitstream from
`data` on. -/
def writeStage2 (e : McapEnv) (mem : U64 → Byte) (data : U64) (h : BitHeader) :
    Traced Access ℤ := do
  let err ← bitstreamMcapSetup e.setup true
  if err ≠ 0 then return err else
    bitstreamMcapHelper (fun i => [.copy .primary (data + BitVec.ofNat 64 (4 * i)) 4])
      (load32 fun i => mem (data + BitVec.ofNat 64 i)) (h.bitstreamLength.toNat / 4)
    let err ← mcapFinish e.finish e.setup.request.control
    if err ≠ 0 then return err else
      emit (.write .MCAP_CONTROL (e.setup.request.control ||| MCAP_CTRL_DESIGN_SWITCH_MASK))
      return 0

/-- `bitstream_mcap` of a bitstream at `buffer` of the container. -/
def bitstreamMcap (e : McapEnv) (mem : U64 → Byte) (buffer : U64) (length : U32) :
    Traced Access ℤ :=
  if length = 0 then stop else do
    match ← parseHeader (fun i => [.copy .primary (buffer + i.setWidth 64) 1])
        ⟨e.strings, fun i => mem (buffer + i.setWidth 64)⟩ with
    | none => return -Errno.einval.code
    | some h =>
      if (h.headerLength + h.bitstreamLength).toNat > length.toNat then
        return -Errno.einval.code
      else writeStage2 e mem (buffer + h.headerLength.setWidth 64) h

end Wimi
