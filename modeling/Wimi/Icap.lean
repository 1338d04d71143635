import Wimi.BitHeader
import Wimi.Lib.Traced

/-!
# Bitstreams through the HWICAP

The functions that write a bitstream to the FIFO of the HWICAP, and the AXI gate that is frozen
meanwhile. What the registers read and what the kernel answers is given in advance, the answers
of a loop by its turns. The trace has the copies from the container and the accesses to the
registers; the reads of the gate, whose values nothing looks at, are left out.

Bytes of the container are named by their offset from its start, which is 64 bits wide and wraps.
-/

open Traced

namespace Wimi

def DMA_HWICAP_BITFILE_BUFFER_SIZE : ℕ := 1024

/-- `EFAULT`. -/
def EFAULT : ℤ := 14

inductive Reg
  | XHWICAP_WF
  | XHWICAP_CR
  | XHWICAP_SR
  | XHWICAP_WFV
  | AXI_GATE
  | AXI_GATE_READ
  | MCAP_STATUS
  | MCAP_CONTROL
  | MCAP_DATA
  | OCL_CU_CTRL (i : ℕ)
  | OCL_CLKWIZ_STATUS
  | OCL_CLKWIZ_CONFIG (n : ℕ)
  deriving DecidableEq

/-- The segments of a container that are bitstreams. -/
inductive Segment
  | primary
  | secondary
  deriving DecidableEq

inductive Access
  /-- `length` bytes of the container are read, from `offset` of it, for the segment `s`. -/
  | copy (s : Segment) (offset : U64) (length : ℕ)
  | read (r : Reg) (value : U32)
  | write (r : Reg) (value : U32)
  /-- The `BUG_ON` that guards the AXI gate fails. -/
  | gateBug
  deriving DecidableEq

/-! ## Words -/

/-- The word at index `i` of a buffer. -/
def load32 (buffer : ℕ → Byte) (i : ℕ) : U32 :=
  buffer (4 * i + 3) ++ buffer (4 * i + 2) ++ buffer (4 * i + 1) ++ buffer (4 * i)

/-- `be32_to_cpu`. -/
def be32ToCpu (w : U32) : U32 :=
  w.extractLsb' 0 8 ++ w.extractLsb' 8 8 ++ w.extractLsb' 16 8 ++ w.extractLsb' 24 8

/-- The bytes of a word, the most significant first. -/
def bigEndianBytes (w : U32) : List Byte :=
  [w.extractLsb' 24 8, w.extractLsb' 16 8, w.extractLsb' 8 8, w.extractLsb' 0 8]

/-! ## The AXI gate -/

/-- A clearing bitstream, and the memory behind it. -/
structure Stash where
  bytes : ℕ → Byte
  length : U32

/-- What the downloads use of an `xdma_dev`. -/
structure BitDev where
  axiGateFrozen : Bool
  stash : Option Stash

def freezeAXIGate (d : BitDev) : Traced Access BitDev :=
  if d.axiGateFrozen then do
    emit .gateBug
    stop
  else do
    emit (.write .AXI_GATE 0x0)
    return { d with axiGateFrozen := true }

def freeAXIGate (d : BitDev) : Traced Access BitDev :=
  if ¬d.axiGateFrozen then do
    emit .gateBug
    stop
  else do
    emitAll [.write .AXI_GATE 0x2, .write .AXI_GATE 0x0, .write .AXI_GATE 0x2,
      .write .AXI_GATE 0x3]
    return { d with axiGateFrozen := false }

/-! ## The FIFO -/

/-- Read `r` until its value is `done`, at most `n` times. -/
def poll (r : Reg) (done : U32 → Bool) (values : ℕ → U32) : ℕ → ℕ → Traced Access Bool
  | 0, _ => pure false
  | n + 1, i => do
    emit (.read r (values i))
    if done (values i) then return true else poll r done values n (i + 1)

/-- What the HWICAP answers in a turn of `bitstream_icap_helper`. -/
structure IcapTurn where
  vacancy : U32
  control : ℕ → U32

/-- What the HWICAP answers in a download, to each turn for the bytes from `byte_read` on, and
after it. -/
structure IcapEnv where
  turns : ℕ → ℕ → IcapTurn
  status : ℕ → U32

/-- `wait_for_done`, 0 or an error. -/
def waitForDone (e : IcapEnv) : Traced Access ℤ := do
  let done ← poll .XHWICAP_SR (fun w => w &&& 0x5 ≠ 0) e.status 10 0
  return if done then 0 else -Errno.eio.code

/-- `hwicapWrite`. -/
def hwicapWrite (control : ℕ → U32) (wordBuf : ℕ → U32) (size : ℕ) : Traced Access ℤ := do
  emitAll ((List.range size).map fun i => .write .XHWICAP_WF (be32ToCpu (wordBuf i)))
  emit (.write .XHWICAP_CR 0x1)
  let done ← poll .XHWICAP_CR (fun w => w &&& 0x1 = 0) control 10 0
  return if done then 0 else -Errno.eio.code

theorem pos_of_vacancy {v : U32} (h : ¬v.toInt ≤ 0) : 0 < v.toNat := by
  rw [BitVec.toInt_eq_toNat_cond] at h
  split at h <;> omega

/-- `bitstream_icap_helper`, from turn `t` of its loop. -/
def bitstreamIcapHelper (turns : ℕ → IcapTurn) (t : ℕ) (wordBuffer : ℕ → U32)
    (remainWord : ℕ) : Traced Access ℤ :=
  if remainWord = 0 then pure 0 else do
    let vacancy := (turns t).vacancy
    emit (.read .XHWICAP_WFV vacancy)
    if _h : vacancy.toInt ≤ 0 then return -Errno.eio.code else
      let wordWritten := if vacancy.toNat < remainWord then vacancy.toNat else remainWord
      if (← hwicapWrite (turns t).control wordBuffer wordWritten) ≠ 0 then
        return -Errno.eio.code
      else
        bitstreamIcapHelper turns (t + 1) (fun i => wordBuffer (wordWritten + i))
          (remainWord - wordWritten)
termination_by remainWord
decreasing_by
  have hpos : 0 < (turns t).vacancy.toNat := pos_of_vacancy _h
  split <;> omega

/-! ## Bitstreams -/

/-- `numCharsRead` of a turn. -/
def numCharsRead (total byteRead : ℕ) : ℕ :=
  min (total - byteRead) DMA_HWICAP_BITFILE_BUFFER_SIZE

/-- The values of `byte_read` from `byteRead` on, in a loop over `total` bytes. -/
def byteReads (total byteRead : ℕ) : List ℕ :=
  if byteRead < total then
    byteRead :: byteReads total (byteRead + numCharsRead total byteRead)
  else []
termination_by total - byteRead
decreasing_by
  rw [numCharsRead, DMA_HWICAP_BITFILE_BUFFER_SIZE]
  omega

/-- `bitstream_parse_header`, `none` if it returns -1. `touch` are the accesses of its reads of
`Data`. -/
def parseHeader (touch : U32 → List Access) (e : HeaderEnv) : Traced Access (Option BitHeader) :=
  let touched (n : ℕ) := (List.range n).flatMap fun i => touch (BitVec.ofNat 32 i)
  match bitstreamParseHeader e 0 with
  | .ok h n => ⟨touched n, some (some h)⟩
  | .error .invalid n => ⟨touched n, some none⟩
  | .error .fault n => ⟨touched n, none⟩

/-- The accesses to memory of the kernel, none of which is in the container. -/
def untouched {α : Type} (_ : α) : List Access := []

/-- A turn of a download, left with `err` at a `goto free_buffers`. `fetch` gets the bytes from
`byte_read` on. -/
def icapChunk (e : IcapEnv) (total : ℕ) (fetch : ℕ → ℕ → Traced Access (Option (ℕ → Byte)))
    (byteRead : ℕ) : Traced Access (Option ℤ) := do
  match ← fetch byteRead (numCharsRead total byteRead) with
  | none => return some (-EFAULT)
  | some buffer =>
    -- `err` is still 0 when the helper fails
    if (← bitstreamIcapHelper (e.turns byteRead) 0 (load32 buffer)
        (numCharsRead total byteRead / 4)) ≠ 0 then
      return some 0
    else
      return none

/-- The loop over the chunks. -/
def icapChunks (e : IcapEnv) (total : ℕ) (fetch : ℕ → ℕ → Traced Access (Option (ℕ → Byte))) :
    Traced Access (Option ℤ) :=
  untilLeft (icapChunk e total fetch) (byteReads total 0)

/-- What `bitstream_icap` and `bitstream_ioctl_icap` do with a header. -/
def icapDownload (e : IcapEnv) (header : HeaderEnv) (length : ℕ)
    (fetch : BitHeader → ℕ → ℕ → Traced Access (Option (ℕ → Byte))) : Traced Access ℤ := do
  match ← parseHeader untouched header with
  | none => return -Errno.einval.code
  | some h =>
    if (h.headerLength + h.bitstreamLength).toNat > length then
      return -Errno.einval.code
    else
      match ← icapChunks e h.bitstreamLength.toNat (fetch h) with
      | some err => return err
      | none => waitForDone e

/-- `bitstream_icap`. -/
def bitstreamIcap (e : IcapEnv) (strings : StringEnv) (buffer : ℕ → Byte) (length : U32) :
    Traced Access ℤ :=
  if length = 0 then stop else
    icapDownload e ⟨strings, fun i => buffer i.toNat⟩ length.toNat
      fun h byteRead _ => pure (some fun i => buffer (h.headerLength.toNat + byteRead + i))

/-- `bitstream_clear_icap`. -/
def bitstreamClearIcap (e : IcapEnv) (strings : StringEnv) (d : BitDev) :
    Traced Access (ℤ × BitDev) :=
  match d.stash with
  | none => pure (0, d)
  | some s => do
    let err ← bitstreamIcap e strings s.bytes s.length
    return (err, { d with stash := none })

/-- `copy_from_user` of `n` bytes of a segment, `left` of which cannot be copied. -/
def copyFromUser (s : Segment) (mem : U64 → Byte) (left : ℕ) (offset : U64) (n : ℕ) :
    Traced Access (Option (ℕ → Byte)) := do
  emit (.copy s offset (n - left))
  return if left = 0 ∨ n = 0 then some fun i => mem (offset + BitVec.ofNat 64 i) else none

/-- What the kernel and the HWICAP answer in `bitstream_ioctl_icap`. `heap` is the memory behind
the buffer of the header. -/
structure IcapIoctlEnv where
  clear : IcapEnv
  clearStrings : StringEnv
  kmalloc : Bool
  headerLeft : ℕ
  heap : U32 → Byte
  strings : StringEnv
  chunkLeft : ℕ → ℕ
  icap : IcapEnv

/-- What the parser is given of a header that was copied to a buffer. -/
def headerInBuffer (strings : StringEnv) (heap : U32 → Byte) (buffer : ℕ → Byte) : HeaderEnv where
  toStringEnv := strings
  data i := if i.toNat < DMA_HWICAP_BITFILE_BUFFER_SIZE then buffer i.toNat else heap i

/-- `bitstream_ioctl_icap` between the freeze of the gate and `free_buffers`, once the clearing
bitstream is downloaded. -/
def downloadPrimary (e : IcapIoctlEnv) (mem : U64 → Byte) (bitBuf : U64) (length : U64) :
    Traced Access ℤ :=
  if ¬e.kmalloc then pure (-Errno.enomem.code) else do
    match ← copyFromUser .primary mem e.headerLeft bitBuf DMA_HWICAP_BITFILE_BUFFER_SIZE with
    | none => return -EFAULT
    | some buffer =>
      icapDownload e.icap (headerInBuffer e.strings e.heap buffer) length.toNat
        fun h byteRead n => copyFromUser .primary mem (e.chunkLeft byteRead)
          (bitBuf + h.headerLength.setWidth 64 + BitVec.ofNat 64 byteRead) n

/-- `bitstream_ioctl_icap`. -/
def bitstreamIoctlIcap (e : IcapIoctlEnv) (mem : U64 → Byte) (bitBuf : U64) (length : U64)
    (d : BitDev) : Traced Access (ℤ × BitDev) := do
  let d ← freezeAXIGate d
  let (err, d) ← bitstreamClearIcap e.clear e.clearStrings d
  let err ← (if err ≠ 0 then pure err else downloadPrimary e mem bitBuf length)
  let d ← freeAXIGate d
  return (err, d)

end Wimi
