import Wimi.Retire

/-!
# Requests in chunks

`transfer_data` moves a request in chunks : for each it creates a transfer, queues it, waits
for it in `transfer_monitor` and goes by what state it finds it in. A `Call` holds the locals
of one call between the steps that touch the engine.
-/

namespace Wimi

open XdmaEngine

/-- `XDMA_TRANSFER_MAX_BYTES`. -/
def XDMA_TRANSFER_MAX_BYTES : ℤ := 2048 * 4096

/-- Where a call of `transfer_data` is. -/
inductive Phase
  /-- No call, or one that has returned `ret`. -/
  | returned (ret : ℤ)
  /-- At the head of the loop. -/
  | loop
  /-- In `transfer_monitor`, the transfer at `p` queued. -/
  | monitor (p : Ptr)
  /-- In `engine_service_poll`, with the word the writeback was polled to. -/
  | polled (p : Ptr) (descWb : U32)
  /-- Back from `transfer_monitor` with `rc`. -/
  | monitored (p : Ptr) (rc : ℤ)
  /-- The thread was killed at a `BUG_ON`, or by a null pointer, with the transfer it had. -/
  | killed (p : Option Ptr)
  deriving DecidableEq

/-- The transfer a call has queued and not yet gone by. -/
def Phase.transfer : Phase → Option Ptr
  | .monitor p | .polled p _ | .monitored p _ => some p
  | .killed p => p
  | _ => none

/-- The locals of `transfer_data`. -/
structure Call where
  remaining : ℤ
  res : ℤ
  done : ℤ
  pos : ℤ
  transferLen : ℤ
  phase : Phase
  deriving DecidableEq

namespace Call

/-- A call about to enter its loop. -/
def enter (remaining pos : ℤ) : Call :=
  ⟨remaining, 0, 0, pos, 0, .loop⟩

/-- The loop goes on. -/
def Continues (c : Call) : Prop :=
  c.res = 0 ∧ c.remaining > 0

instance (c : Call) : Decidable c.Continues :=
  inferInstanceAs (Decidable (_ ∧ _))

/-- The length of the next chunk. -/
def chunk (c : Call) : ℤ :=
  if c.remaining > XDMA_TRANSFER_MAX_BYTES then XDMA_TRANSFER_MAX_BYTES else c.remaining

/-- The transfer of the next chunk, with what `transfer_create` built for it. -/
def newTransfer (c : Call) (descBus : U64) (descNum : U32) : NewTransfer where
  descBus := descBus
  descAdjacent := descNum.toNat
  descNum := descNum
  iocb := none
  lastInRequest := c.chunk ≥ c.remaining
  sizeOfRequest := if c.chunk ≥ c.remaining then c.done + c.chunk else 0

/-- The loop ends. -/
def leave (c : Call) : Call :=
  { c with phase := .returned (if c.res ≠ 0 then c.res else c.done) }

/-- `transfer_create` failed. -/
def noTransfer (c : Call) : Call :=
  leave { c with remaining := 0, res := -Errno.eio.code }

/-- The thread is killed, with the transfer `p`. -/
def killed (c : Call) (p : Option Ptr) : Call :=
  { c with phase := .killed p }

/-- The transfer at `p` is queued for the next chunk. -/
def queued (c : Call) (p : Ptr) : Call :=
  { c with transferLen := c.chunk, phase := .monitor p }

/-- `res` after `transfer_monitor` returned `rc` and left the transfer in `state`. -/
def outcome (state : TransferState) (rc : ℤ) : ℤ :=
  if state ≠ .submitted then
    if state ≠ .completed then -Errno.eio.code else 0
  else if rc ≠ 0 then -Errno.erestartsys.code
  else 0

/-- The end of the loop's body. -/
def settle (c : Call) (state : TransferState) (rc : ℤ) : Call :=
  let res := outcome state rc
  let transferLen := if res ≠ 0 then 0 else c.transferLen
  let remaining := if res ≠ 0 then 0 else c.remaining
  { remaining := remaining - transferLen
    res := res
    done := c.done + transferLen
    pos := c.pos + transferLen
    transferLen := transferLen
    phase := .loop }

/-- The loop goes on after a completed transfer, and after one that is still submitted when
the monitor returned no error. -/
theorem outcome_eq_zero {state : TransferState} {rc : ℤ} :
    outcome state rc = 0 ↔ state = .completed ∨ state = .submitted ∧ rc = 0 := by
  unfold outcome
  by_cases hrc : rc = 0 <;> cases state <;> simp [hrc, Errno.code]

/-- Counts are added to only when the loop goes on. -/
theorem outcome_of_settle {c : Call} {state : TransferState} {rc : ℤ}
    (h : (c.settle state rc).done ≠ c.done ∨ (c.settle state rc).pos ≠ c.pos) :
    outcome state rc = 0 := by
  by_contra hres
  simp [settle, hres] at h

end Call

/-- What a call does to the engine on its way back to the loop : it destroys a transfer that
was taken off the engine, and only reads the status when the monitor returned an error. -/
def settleEngine (e : XdmaEngine) (p : Ptr) (rc : ℤ) (status : U32) : XdmaEngine :=
  if e.stateOf p ≠ .submitted then transferDestroy e p
  else if rc ≠ 0 then engineStatusRead e status
  else e

/-- It leaves the queue, the transfers on it and the run alone. -/
theorem settleEngine_frame (e : XdmaEngine) (p : Ptr) (rc : ℤ) (status : U32) :
    (settleEngine e p rc status).transferList = e.transferList ∧
      (settleEngine e p rc status).transfers = e.transfers ∧
      SameRun e (settleEngine e p rc status) := by
  unfold settleEngine
  split
  · exact ⟨rfl, rfl, ⟨rfl, rfl, rfl, rfl⟩⟩
  split
  · exact ⟨rfl, rfl, ⟨rfl, rfl, rfl, rfl⟩⟩
  · exact ⟨rfl, rfl, .refl e⟩

/-- `transfer_monitor` in interrupt mode : `wait_event_interruptible` returns when the transfer
has left the submitted state, and with an error when a signal comes before that. -/
def waitTransfer (e : XdmaEngine) (p : Ptr) (signal : Bool) : Option ℤ :=
  if e.stateOf p ≠ .submitted then some 0
  else if signal then some (-Errno.erestartsys.code)
  else none

/-- One turn of the loop of `engine_service_wb_monitor` : the word it returns, if it returns.
`timeout` is whether the time is up. -/
def engineServiceWbMonitor (expectedWb descWb : U32) (timeout : Bool) : Option U32 :=
  if expectedWb = 0 then some 0
  else if descWb &&& WB_ERR_MASK ≠ 0 then some descWb
  else if descWb = expectedWb then some descWb
  else if timeout then
    some (if descWb &&& WB_COUNT_MASK > expectedWb then expectedWb ||| WB_ERR_MASK else descWb)
  else none

/-- The first part of `engine_service_poll` : a count too large to be polled is an error. -/
def pollTooLarge (expectedDescCount : U32) : Bool :=
  expectedDescCount &&& WB_COUNT_MASK ≠ expectedDescCount

end Wimi
