import Wimi.Cyclic
import Wimi.ServiceTurns
import Wimi.TransferData

/-!
# The driver on one engine

All of the driver that can free memory the hardware was given, on one engine : threads in
`transfer_data`, in interrupt and in poll mode, the deferred work, and the opening and closing
of a streaming C2H engine. The hardware stops when it likes, and its status is busy until then.

A service call goes on turn by turn, and in between the others do what they do without the lock.
At a `BUG_ON`, and at a null pointer, only the thread is killed : with the lock, if it held it.
-/

namespace Wimi

open XdmaEngine

/-! ## Sessions -/

/-- Where the opening or closing of a streaming C2H engine is. -/
inductive FilePhase
  /-- Not open; the last call returned `rc`. -/
  | closed (rc : ℤ)
  /-- `cyclic_transfer_setup` has released the lock, and goes on to queue the transfer. -/
  | setUp
  | opened
  /-- `cyclic_transfer_teardown` waits for the engine to be no longer running. -/
  | stopping
  /-- Its wait has returned `rc`. -/
  | waited (rc : ℤ)
  /-- It goes on to release the resources. -/
  | stopped (rc : ℤ)
  /-- The thread that opens it was killed. -/
  | killed
  deriving DecidableEq

/-- An engine with the threads and the file that use it. `busy` are the transfers the hardware
works on. The ring and the result buffer stand for themselves under the pointer of the transfer
made for them. -/
structure DriverSession where
  engine : XdmaEngine
  next : Ptr
  busy : List Ptr
  calls : ℕ → Call
  rxTransferCyclic : Option Ptr
  rxBuffer : Option Ptr
  resultBuffer : Option Ptr
  file : FilePhase
  lock : EngineLock

/-- How far `cyclic_transfer_setup` gets with its allocations. -/
inductive Allocated
  | nothing
  | rxBuffer
  | transfer (descBus : U64) (descNum : U32)
  | all (descBus : U64) (descNum : U32)

inductive DriverStep
  /-- The thread calls `transfer_data`. -/
  | enter (tid : ℕ) (remaining pos : ℤ)
  /-- The thread creates and queues its next transfer, or leaves the loop. -/
  | submit (tid : ℕ) (built : Option (U64 × U32))
  /-- The thread waits for its transfer, in interrupt mode. -/
  | wait (tid : ℕ) (signal : Bool)
  /-- The thread reads the writeback word once, in poll mode. -/
  | poll (tid : ℕ) (timeout : Bool)
  /-- The thread begins to service the engine with what it polled. -/
  | service (tid : ℕ) (hw : HwReads) (eopCount : ℕ)
  /-- The thread goes by the state of its transfer. -/
  | settle (tid : ℕ) (status : U32)
  /-- The deferred work, or a polling reader of the ring, begins to service the engine. -/
  | work (hw : HwReads) (eopCount : ℕ)
  /-- The service call goes on. -/
  | turn
  /-- The hardware is done with the transfer, or stops. -/
  | stop (p : Ptr)
  /-- The hardware writes the polled word. -/
  | writeback (w : U32)
  /-- `char_sgdma_open`. -/
  | openFile (allocated : Allocated)
  /-- It queues the cyclic transfer. -/
  | queueCyclic
  /-- `char_sgdma_close`, up to `engine_cyclic_stop`. -/
  | closeFile
  /-- The wait of `cyclic_shutdown_interrupt`. -/
  | shutdown (signal : Bool)
  /-- The test behind the wait. -/
  | recheck
  /-- `cyclic_shutdown_polled`. -/
  | shutdownPolled (status : U32)
  /-- `cyclic_transfer_teardown` releases the resources. -/
  | free

namespace DriverSession

/-- A status word the hardware can answer. -/
def Answers (s : DriverSession) (status : U32) : Prop :=
  status &&& XDMA_STAT_BUSY = 0 ↔ s.busy = []

instance (s : DriverSession) (status : U32) : Decidable (s.Answers status) :=
  inferInstanceAs (Decidable (_ ↔ _))

/-- The session after a call that left the engine at `e` : the hardware also works on what it
was started on in the call. -/
def follow (s : DriverSession) (e : XdmaEngine) : DriverSession :=
  { s with
    engine := e
    busy :=
      if e.started.length = s.engine.started.length then s.busy
      else (e.started.head?.map Prod.fst).toList ++ s.busy }

/-- A thread is killed under the lock, which it keeps. -/
def loseLock (s : DriverSession) (e : XdmaEngine) : DriverSession :=
  { s with engine := e, lock := .lost }

/-- The session with a new transfer created. -/
def create (s : DriverSession) (t : XdmaTransfer) : DriverSession :=
  { s with engine := s.engine.setTransfer s.next t, next := s.next + 1 }

/-- The session with the thread's locals replaced. -/
def setCall (s : DriverSession) (tid : ℕ) (c : Call) : DriverSession :=
  { s with calls := Function.update s.calls tid c }

/-- A read of an engine with its ring set up goes to `char_sgdma_read_cyclic`. -/
def enter (s : DriverSession) (tid : ℕ) (remaining pos : ℤ) : Option DriverSession :=
  match (s.calls tid).phase with
  | .returned _ =>
    if ¬ s.engine.dirToDev ∧ s.rxBuffer.isSome ∧ s.rxTransferCyclic.isSome then none
    else some (s.setCall tid (.enter remaining pos))
  | _ => none

def submit (s : DriverSession) (tid : ℕ) (built : Option (U64 × U32)) : Option DriverSession :=
  let c := s.calls tid
  if c.phase ≠ .loop then none
  else if ¬ c.Continues then some (s.setCall tid c.leave)
  else
    match built with
    | none => some (s.setCall tid c.noTransfer)
    | some (descBus, descNum) =>
      if s.lock ≠ .free then none
      else
        let s' := (s.create (c.newTransfer descBus descNum).create).setCall tid (c.queued s.next)
        match transferQueue s'.engine s.next with
        | .ok (e, _) => some (s'.follow e)
        -- it is killed before it takes the lock
        | .error e => some ({ s' with engine := e }.setCall tid (c.killed (some s.next)))

def wait (s : DriverSession) (tid : ℕ) (signal : Bool) : Option DriverSession :=
  let c := s.calls tid
  match c.phase with
  | .monitor p =>
    if s.engine.pollMode then none
    else (waitTransfer s.engine p signal).map fun rc =>
      s.setCall tid { c with phase := .monitored p rc }
  | _ => none

/-- The number of descriptors is read under the lock, but never changes. -/
def poll (s : DriverSession) (tid : ℕ) (timeout : Bool) : Option DriverSession :=
  let c := s.calls tid
  match c.phase with
  | .monitor p =>
    if ¬ s.engine.pollMode then none
    else
      let expected := s.engine.descNumOf p
      if pollTooLarge expected then some (s.setCall tid { c with phase := .monitored p (-1) })
      else
        match engineServiceWbMonitor expected s.engine.completedDescCountWb timeout with
        | none => some s
        | some w => some (s.setCall tid { c with phase := .polled p w })
  | _ => none

/-- A service call releases the lock and returns to its caller. -/
def served (s : DriverSession) (caller : Option ℕ) (rc : ℤ) : DriverSession :=
  let s := { s with lock := .free }
  match caller with
  | none => s
  | some tid =>
    match (s.calls tid).phase with
    | .polled p _ => s.setCall tid { s.calls tid with phase := .monitored p rc }
    | _ => s

/-- Begin to service the engine, as a streaming C2H engine if its ring is set up. -/
def serve (s : DriverSession) (hw : HwReads) (w : U32) (eopCount : ℕ) (caller : Option ℕ) :
    DriverSession :=
  match s.rxTransferCyclic with
  | some p =>
    match engineServiceCyclic s.engine p hw.status eopCount with
    | .ok (e, rc) => { s with engine := e }.served caller rc
    | .error e => s.loseLock e
  | none =>
    if ¬ s.engine.running then { s with engine := serviceIdle s.engine hw w }.served caller 0
    else
      let (e, f) := serviceBegin s.engine hw w
      { s with engine := e, lock := .service f caller (if w &&& WB_ERR_MASK ≠ 0 then -1 else 0) }

def service (s : DriverSession) (tid : ℕ) (hw : HwReads) (eopCount : ℕ) : Option DriverSession :=
  match (s.calls tid).phase with
  | .polled _ w =>
    if s.lock ≠ .free ∨ ¬ s.Answers hw.status then none
    else some (s.serve hw w eopCount (some tid))
  | _ => none

/-- The next turn of the service call that is under way. -/
def turn (s : DriverSession) : Option DriverSession :=
  match s.lock with
  | .service f caller rc =>
    match serviceTurn s.engine f with
    | .ok (e, some f) => some { s with engine := e, lock := .service f caller rc }
    | .ok (e, none) => some ((s.follow e).served caller rc)
    | .error e => some (s.loseLock e)
  | _ => none

def settle (s : DriverSession) (tid : ℕ) (status : U32) : Option DriverSession :=
  let c := s.calls tid
  match c.phase with
  | .monitored p rc =>
    some { s with
      engine := settleEngine s.engine p rc status
      calls := Function.update s.calls tid (c.settle (s.engine.stateOf p) rc) }
  | _ => none

def work (s : DriverSession) (hw : HwReads) (eopCount : ℕ) : Option DriverSession :=
  if s.lock ≠ .free ∨ ¬ s.Answers hw.status then none
  else some (s.serve hw 0 eopCount none)

/-- The transfer `cyclic_transfer_setup` creates. -/
def newCyclic (descBus : U64) (descNum : U32) : NewTransfer :=
  ⟨descBus, descNum.toNat, descNum, none, false, 0⟩

/-- `cyclic_transfer_setup`, up to the release of the lock, which it keeps when the ring is
there already and when there is no memory for it. Without memory for the transfer it works on
a null pointer. -/
def openFile (s : DriverSession) (allocated : Allocated) : Option DriverSession :=
  if ¬ (s.engine.streaming ∧ ¬ s.engine.dirToDev) ∨ s.lock ≠ .free then none
  else if s.rxBuffer.isSome then some (s.loseLock s.engine)
  else
    match allocated with
    | .nothing => some (s.loseLock s.engine)
    | .rxBuffer => some { s.loseLock s.engine with rxBuffer := some s.next }
    | .transfer descBus descNum =>
      let s' := s.create (newCyclic descBus descNum).create
      some { s' with
        engine := transferDestroy s'.engine s.next
        rxTransferCyclic := none
        file := .closed (-Errno.enomem.code) }
    | .all descBus descNum =>
      let s' := s.create { (newCyclic descBus descNum).create with cyclic := true }
      some { s' with
        rxTransferCyclic := some s.next
        rxBuffer := some s.next
        resultBuffer := some s.next
        file := .setUp }

def queueCyclic (s : DriverSession) : Option DriverSession :=
  match s.file with
  | .setUp =>
    if s.lock ≠ .free then none
    else
      match s.rxTransferCyclic with
      | none => some { s with file := .opened }
      | some p =>
        match transferQueue s.engine p with
        | .ok (e, _) => some { s.follow e with file := .opened }
        | .error e => some { s with engine := e, file := .killed }
  | _ => none

def closeFile (s : DriverSession) : Option DriverSession :=
  match s.file with
  | .opened => some { s with engine := engineCyclicStop s.engine, file := .stopping }
  | _ => none

def shutdown (s : DriverSession) (signal : Bool) : Option DriverSession :=
  match s.file with
  | .stopping =>
    if s.engine.pollMode then none
    else if ¬ s.engine.running then some { s with file := .waited 0 }
    else if signal then some { s with file := .waited (-Errno.erestartsys.code) }
    else none
  | _ => none

def recheck (s : DriverSession) : Option DriverSession :=
  match s.file with
  | .waited rc =>
    some { s with
      file := .stopped (if rc = 0 ∧ s.engine.running then -Errno.einval.code else rc) }
  | _ => none

/-- It holds the lock until the status is no longer busy. -/
def shutdownPolled (s : DriverSession) (status : U32) : Option DriverSession :=
  match s.file with
  | .stopping =>
    if ¬ s.engine.pollMode ∨ s.lock ≠ .free ∨ ¬ s.Answers status ∨
        status &&& XDMA_STAT_BUSY ≠ 0 then none
    else
      match cyclicShutdownPolled s.engine s.rxTransferCyclic status with
      | .ok e => some { s with engine := e, file := .stopped 0 }
      | .error e => some (s.loseLock e)
  | _ => none

/-- Destroy the transfer at `rx`, if there is one. -/
def destroyCyclic (e : XdmaEngine) (rx : Option Ptr) : XdmaEngine :=
  match rx with
  | none => e
  | some p => transferDestroy e p

def free (s : DriverSession) : Option DriverSession :=
  match s.file with
  | .stopped rc =>
    if s.lock ≠ .free then none
    else
      some { s with
        engine := destroyCyclic s.engine s.rxTransferCyclic
        rxTransferCyclic := none
        rxBuffer := none
        resultBuffer := none
        file := .closed rc }
  | _ => none

/-- One step; none is a step that is not enabled. -/
def step (s : DriverSession) : DriverStep → Option DriverSession
  | .enter tid remaining pos => s.enter tid remaining pos
  | .submit tid built => s.submit tid built
  | .wait tid signal => s.wait tid signal
  | .poll tid timeout => s.poll tid timeout
  | .service tid hw eopCount => s.service tid hw eopCount
  | .settle tid status => s.settle tid status
  | .work hw eopCount => s.work hw eopCount
  | .turn => s.turn
  | .stop p => some { s with busy := s.busy.filter (· ≠ p) }
  | .writeback w => some { s with engine := { s.engine with completedDescCountWb := w } }
  | .openFile allocated => s.openFile allocated
  | .queueCyclic => s.queueCyclic
  | .closeFile => s.closeFile
  | .shutdown signal => s.shutdown signal
  | .recheck => s.recheck
  | .shutdownPolled status => s.shutdownPolled status
  | .free => s.free

/-- An idle engine, no thread in a call, and the file closed. -/
def start (pollMode streaming dirToDev nonIncrAddr : Bool) (memory : Ptr → XdmaTransfer)
    (next : Ptr) : DriverSession where
  engine := engineCreate pollMode streaming dirToDev nonIncrAddr memory
  next := next
  busy := []
  calls _ := ⟨0, 0, 0, 0, 0, .returned 0⟩
  rxTransferCyclic := none
  rxBuffer := none
  resultBuffer := none
  file := .closed 0
  lock := .free

end DriverSession

end Wimi
