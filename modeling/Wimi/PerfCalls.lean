import Wimi.Cyclic
import Wimi.PerfStats
import Wimi.TransferBuild

/-!
# Performance measurements

The calls IOCTL_XDMA_PERF_START, STOP and GET of an SG DMA engine, and `xdma_performance_submit`,
which queues a ring of descriptors for START. Allocations and copies can fail, the user chooses the
size of a descriptor, and what the registers answer is an argument.

The size goes through an `int`. A product that does not fit one is a fault here, as are a division
by zero and a `BUG_ON` : the call does not return.
-/

namespace Wimi

def IOCTL_XDMA_PERF_V1 : U32 := 1

def XDMA_PERF_RUN : U32 := 1 <<< 0
def XDMA_PERF_CLEAR : U32 := 1 <<< 1
def XDMA_PERF_AUTO : U32 := 1 <<< 2

/-! ## Arithmetic -/

/-- What ends a call without a return. -/
inductive PerfFault
  | bug
  | overflow
  | divisionByZero
  deriving DecidableEq

/-- `BUG_ON(!x)`. -/
def orBug {α : Type} : Option α → Except PerfFault α
  | some a => .ok a
  | none => .error .bug

/-- The product of two values of type `int`. -/
def mulInt (a b : ℤ) : Except PerfFault ℤ :=
  if -2 ^ 31 ≤ a * b ∧ a * b < 2 ^ 31 then .ok (a * b) else .error .overflow

/-- The quotient of two values of type `int`. -/
def divInt (a b : ℤ) : Except PerfFault ℤ :=
  if b = 0 then .error .divisionByZero else .ok (a.tdiv b)

/-! ## Submitting -/

/-- `max_consistent_size`. -/
def maxConsistentSize : U32 := 128 * 32 * 1024

/-- The size of the buffer and the number of descriptors of the loop. The limit is unsigned, and so
are the comparisons with it. -/
def loopSize (sizeInDesc : ℤ) : Except PerfFault (ℤ × ℤ) := do
  let numDescInALoop := 128
  let size ← mulInt sizeInDesc numDescInALoop
  if BitVec.ofInt 32 sizeInDesc > maxConsistentSize then .error .bug
  else if BitVec.ofInt 32 size > maxConsistentSize then
    let size := maxConsistentSize.toInt
    let numDescInALoop ← divInt size sizeInDesc
    .ok (size, numDescInALoop)
  else .ok (size, numDescInALoop)

/-- The memory `xdma_performance_submit` asks for. `pciAlloc` is `pci_alloc_consistent` for the
buffer, and `bufferBus` what `buffer_bus` holds without one. -/
structure SubmitEnv where
  pciAlloc : ℤ → Option U64
  bufferBus : U64
  transfer : Option Ptr
  descs : Option (DescTable × U64)
  fits : ∀ size bus, pciAlloc size = some bus → bus.toNat + size.toNat ≤ 2 ^ 64

/-- The loop that fills in the descriptors, after its first `i` turns. -/
def fillDescs (dirToDev : Bool) (bufferBus : U64) (sizeInDesc : ℤ) (t : DescTable) :
    ℕ → Except PerfFault DescTable
  | 0 => .ok t
  | i + 1 => do
    let t ← fillDescs dirToDev bufferBus sizeInDesc t i
    let offset ← mulInt sizeInDesc i
    .ok (Function.update t i
      (xdmaDescSet (t i) (bufferBus + BitVec.ofInt 64 offset) 0 (BitVec.ofInt 32 sizeInDesc)
        dirToDev))

/-- A ring for the engine to go round, of the transfer at `p`, and the size of the buffer it is
for. -/
structure PerfRing where
  p : Ptr
  transfer : BuiltTransfer
  size : ℤ

/-- The `xdma_transfer` as it is queued. -/
def BuiltTransfer.cyclic (x : BuiltTransfer) : XdmaTransfer where
  descBus := x.descBus
  descAdjacent := x.descAdjacent
  descNum := BitVec.ofNat 32 x.descNum
  state := .new
  cyclic := true
  iocb := none
  lastInRequest := false
  sizeOfRequest := 0
  wakeUps := 0

/-- `xdma_performance_submit` up to `transfer_queue`. -/
def perfRing (dirToDev : Bool) (transferSize : U32) (env : SubmitEnv) :
    Except PerfFault PerfRing := do
  let sizeInDesc := transferSize.toInt
  let (size, numDescInALoop) ← loopSize sizeInDesc
  let descNum := numDescInALoop.toNat
  let buffer := env.pciAlloc size
  let p ← orBug env.transfer
  let (mem, descBus) ← orBug env.descs
  let t ← orBug (xdmaDescAlloc mem descBus descNum)
  let t ← fillDescs dirToDev (buffer.getD env.bufferBus) sizeInDesc t descNum
  let first ← orBug (xdmaDescControl (t 0) 0)
  let t := Function.update t 0 first
  let last := descNum - 1
  let t := Function.update t last (xdmaDescLink (t last) (some descBus))
  .ok ⟨p, ⟨t, descBus, descNum, 0⟩, size⟩

/-- `xdma_performance_submit` : the engine, the ring, and what `transfer_queue` has returned. -/
def xdmaPerformanceSubmit (e : XdmaEngine) (transferSize : U32) (env : SubmitEnv) :
    Except PerfFault (XdmaEngine × PerfRing × ℤ) := do
  let ring ← perfRing e.dirToDev transferSize env
  match transferQueue (e.setTransfer ring.p ring.transfer.cyclic) ring.p with
  | .ok (e, rc) => .ok (e, ring, rc)
  | .error _ => .error .bug

/-! ## The calls -/

/-- An engine and the measurement it points to. `measuring` : START has queued a transfer that no
STOP has come to since. -/
structure PerfEngine where
  engine : XdmaEngine
  xdmaPerf : Option PerformanceIoctl
  perfCtrl : U32
  measuring : Bool

/-- The engine as `engine_create` leaves it. -/
def PerfEngine.create (pollMode streaming dirToDev nonIncrAddr : Bool)
    (transfers : Ptr → XdmaTransfer) : PerfEngine :=
  ⟨engineCreate pollMode streaming dirToDev nonIncrAddr transfers, none, 0, false⟩

/-- What the engine uses of a measurement. -/
def PerformanceIoctl.inEngine (perf : PerformanceIoctl) : PerfIoctl :=
  ⟨perf.iterations, perf.stopped ≠ 0⟩

/-- The engine with its measurement. -/
def PerfEngine.self (s : PerfEngine) : XdmaEngine :=
  { s.engine with xdmaPerf := s.xdmaPerf.map PerformanceIoctl.inEngine }

/-- How a call returns. `queued` is the ring it has queued and `reply` what the user gets. -/
structure PerfReturn where
  engine : PerfEngine
  rc : ℤ
  queued : Option PerfRing
  reply : Option PerformanceIoctl

/-- A call that returns an error and does nothing else. -/
def PerfEngine.refuse (s : PerfEngine) (e : Errno) : PerfReturn :=
  ⟨s, -e.code, none, none⟩

/-- What START gets : whether there is memory for the measurement, what `copy_from_user` leaves in
it, and how many bytes it does not copy. -/
structure StartEnv where
  memory : Bool
  copied : PerformanceIoctl
  notCopied : ℕ
  submit : SubmitEnv

/-- How START returns behind `xdma_performance_submit`. What `transfer_queue` has returned is
dropped. -/
def PerfEngine.started (s : PerfEngine) : XdmaEngine × PerfRing × ℤ → PerfReturn
  | (e, ring, rc) =>
    ⟨{ s with engine := e, measuring := rc = 0 }, 0, if rc = 0 then some ring else none, none⟩

/-- `ioctl_do_perf_start`. The number of bytes not copied is never negative. -/
def ioctlDoPerfStart (s : PerfEngine) (env : StartEnv) : Except PerfFault PerfReturn :=
  if s.xdmaPerf.isSome then .ok (s.refuse .ebusy)
  else if ¬ env.memory then .ok (s.refuse .enomem)
  else
    let s := { s with xdmaPerf := some env.copied }
    let rc : ℤ := env.notCopied
    if rc < 0 then .ok (s.refuse .einval)
    else if env.copied.version ≠ IOCTL_XDMA_PERF_V1 then .ok (s.refuse .einval)
    else
      let s := { s with perfCtrl := XDMA_PERF_CLEAR }
      let s := { s with perfCtrl := XDMA_PERF_AUTO ||| XDMA_PERF_RUN }
      (xdmaPerformanceSubmit s.self env.copied.transferSize env.submit).map s.started

/-- What STOP and GET get : the answers of the registers, and how many bytes `copy_to_user` does not
copy. -/
structure ReplyEnv where
  regs : PerfReads
  notCopied : ℕ

/-- `ioctl_do_perf_stop`. -/
def ioctlDoPerfStop (s : PerfEngine) (env : ReplyEnv) : PerfReturn :=
  match s.xdmaPerf with
  | none => s.refuse .einval
  | some perf =>
    let s := { s with engine := engineCyclicStop s.self, measuring := false }
    let perf := getPerfStats perf env.regs
    let s := { s with xdmaPerf := some perf }
    if env.notCopied ≠ 0 then s.refuse .einval
    else ⟨{ s with xdmaPerf := none }, 0, none, some perf⟩

/-- `ioctl_do_perf_get`. -/
def ioctlDoPerfGet (s : PerfEngine) (env : ReplyEnv) : PerfReturn :=
  match s.xdmaPerf with
  | none => s.refuse .eproto
  | some perf =>
    let perf := getPerfStats perf env.regs
    let s := { s with xdmaPerf := some perf }
    if env.notCopied ≠ 0 then s.refuse .einval
    else ⟨s, 0, none, some perf⟩

/-! ## The ways START goes -/

section Start

variable {s : PerfEngine} {env : StartEnv}

theorem start_of_busy (h : s.xdmaPerf.isSome) :
    ioctlDoPerfStart s env = .ok (s.refuse .ebusy) :=
  if_pos h

theorem start_of_no_memory (hidle : s.xdmaPerf = none) (h : env.memory = false) :
    ioctlDoPerfStart s env = .ok (s.refuse .enomem) := by
  rw [ioctlDoPerfStart, hidle, h]
  rfl

/-- A measurement of another version is refused with `xdma_perf` set. -/
theorem start_of_version (hidle : s.xdmaPerf = none) (hmemory : env.memory = true)
    (h : env.copied.version ≠ IOCTL_XDMA_PERF_V1) :
    ioctlDoPerfStart s env =
      .ok (PerfEngine.refuse { s with xdmaPerf := some env.copied } .einval) := by
  have hidle' : ¬ s.xdmaPerf.isSome := by simp [hidle]
  have hcopied : ¬ (env.notCopied : ℤ) < 0 := by omega
  rw [ioctlDoPerfStart, if_neg hidle', if_neg (not_not.mpr hmemory)]
  dsimp only
  rw [if_neg hcopied, if_pos h]

/-- The engine as START submits its transfer. -/
def PerfEngine.submitted (s : PerfEngine) (env : StartEnv) : PerfEngine :=
  { s with xdmaPerf := some env.copied, perfCtrl := XDMA_PERF_AUTO ||| XDMA_PERF_RUN }

theorem start_of_submit (hidle : s.xdmaPerf = none) (hmemory : env.memory = true)
    (h : env.copied.version = IOCTL_XDMA_PERF_V1) :
    ioctlDoPerfStart s env =
      (xdmaPerformanceSubmit (s.submitted env).self env.copied.transferSize env.submit).map
        (s.submitted env).started := by
  have hidle' : ¬ s.xdmaPerf.isSome := by simp [hidle]
  have hcopied : ¬ (env.notCopied : ℤ) < 0 := by omega
  rw [ioctlDoPerfStart, if_neg hidle', if_neg (not_not.mpr hmemory)]
  dsimp only
  rw [if_neg hcopied, if_neg (not_not.mpr h)]
  rfl

end Start

end Wimi
