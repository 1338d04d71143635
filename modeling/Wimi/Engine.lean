import Wimi.Kernel
import Wimi.Descriptor

/-!
# SG DMA engines

The state of an `xdma_engine` with the transfers it can reach, and the functions that run
under its lock : starting and stopping the hardware, retiring transfers, `engine_service`
and `transfer_queue`. Nothing is assumed of the values the hardware answers; they are
arguments.

A transfer is found under a pointer in `transfers`. Freeing one leaves its memory as it is
and records the pointer in `freed`.
-/

namespace Wimi

/-! ## Constants -/

def XDMA_CTRL_RUN_STOP : U32 := 1 <<< 0
def XDMA_CTRL_IE_DESC_STOPPED : U32 := 1 <<< 1
def XDMA_CTRL_IE_DESC_COMPLETED : U32 := 1 <<< 2
def XDMA_CTRL_IE_DESC_ALIGN_MISMATCH : U32 := 1 <<< 3
def XDMA_CTRL_IE_MAGIC_STOPPED : U32 := 1 <<< 4
def XDMA_CTRL_IE_IDLE_STOPPED : U32 := 1 <<< 6
def XDMA_CTRL_IE_READ_ERROR : U32 := 0x1F <<< 9
def XDMA_CTRL_IE_DESC_ERROR : U32 := 0x1F <<< 19
def XDMA_CTRL_NON_INCR_ADDR : U32 := 1 <<< 25
def XDMA_CTRL_POLL_MODE_WB : U32 := 1 <<< 26

def XDMA_STAT_BUSY : U32 := 1 <<< 0
def XDMA_STAT_DESC_STOPPED : U32 := 1 <<< 1
def XDMA_STAT_DESC_COMPLETED : U32 := 1 <<< 2
def XDMA_STAT_ALIGN_MISMATCH : U32 := 1 <<< 3
def XDMA_STAT_MAGIC_STOPPED : U32 := 1 <<< 4
def XDMA_STAT_READ_ERROR : U32 := 0x1F <<< 9
def XDMA_STAT_DESC_ERROR : U32 := 0x1F <<< 19

def WB_COUNT_MASK : U32 := 0x00ffffff
def WB_ERR_MASK : U32 := 1 <<< 31

def ENGINE_SHUTDOWN_NONE : U32 := 0
def ENGINE_SHUTDOWN_REQUEST : U32 := 1
def ENGINE_SHUTDOWN_IDLE : U32 := 2

/-- `err_flags` of `engine_service_final_transfer`. -/
def errFlags : U32 :=
  XDMA_STAT_MAGIC_STOPPED ||| XDMA_STAT_ALIGN_MISMATCH ||| XDMA_STAT_READ_ERROR |||
    XDMA_STAT_DESC_ERROR

/-! ## State -/

/-- `enum transfer_state`. -/
inductive TransferState
  | new
  | submitted
  | completed
  | failed
  deriving DecidableEq, Repr

/-- The address of an `xdma_transfer`. -/
abbrev Ptr := ℕ

/-- What the engine uses of an `xdma_transfer`. `wakeUps` counts the wake-ups of its wait
queue. -/
structure XdmaTransfer where
  descBus : U64
  descAdjacent : ℕ
  descNum : U32
  state : TransferState
  cyclic : Bool
  iocb : Option ℕ
  lastInRequest : Bool
  sizeOfRequest : ℤ
  wakeUps : ℕ
  deriving DecidableEq

/-- What `transfer_create` and its caller decide about a non-cyclic transfer. `iocb` is the
asynchronous request it belongs to, if any. -/
structure NewTransfer where
  descBus : U64
  descAdjacent : ℕ
  descNum : U32
  iocb : Option ℕ
  lastInRequest : Bool
  sizeOfRequest : ℤ

/-- The transfer before it is queued. -/
def NewTransfer.create (t : NewTransfer) : XdmaTransfer where
  descBus := t.descBus
  descAdjacent := t.descAdjacent
  descNum := t.descNum
  state := .new
  cyclic := false
  iocb := t.iocb
  lastInRequest := t.lastInRequest
  sizeOfRequest := t.sizeOfRequest
  wakeUps := 0

/-- Registers the driver writes. -/
structure EngineRegs where
  control : U32
  interruptEnableMask : U32
  firstDescLo : U32
  firstDescHi : U32
  firstDescAdjacent : ℕ
  deriving DecidableEq

/-- The part of an `xdma_performance_ioctl` the engine writes. -/
structure PerfIoctl where
  iterations : U32
  stopped : Bool
  deriving DecidableEq

/-- An `xdma_engine`, with the registers, the writeback word and the memory it works on.
`started` lists the transfers handed to the hardware, as they were then, last one first. -/
structure XdmaEngine where
  pollMode : Bool
  streaming : Bool
  dirToDev : Bool
  nonIncrAddr : Bool
  shutdown : U32
  running : Bool
  descDequeued : U32
  status : U32
  transferList : List Ptr
  xdmaPerf : Option PerfIoctl
  shutdownWakeUps : ℕ
  perfWakeUps : ℕ
  regs : EngineRegs
  completedDescCountWb : U32
  transfers : Ptr → XdmaTransfer
  freed : List Ptr
  aioCompleted : List (ℕ × ℤ)
  started : List (Ptr × XdmaTransfer)

/-- The word `engine_create` writes to the interrupt enable mask of the engine. -/
def enableWord (pollMode streaming dirToDev : Bool) : U32 :=
  let w := XDMA_CTRL_IE_DESC_ALIGN_MISMATCH ||| XDMA_CTRL_IE_MAGIC_STOPPED |||
    XDMA_CTRL_IE_READ_ERROR ||| XDMA_CTRL_IE_DESC_ERROR
  if pollMode then w
  else
    let w := w ||| XDMA_CTRL_IE_DESC_STOPPED ||| XDMA_CTRL_IE_DESC_COMPLETED
    if streaming ∧ ¬ dirToDev then w ||| XDMA_CTRL_IE_IDLE_STOPPED else w

/-- The engine as `engine_create` leaves it, with an empty queue. -/
def engineCreate (pollMode streaming dirToDev nonIncrAddr : Bool)
    (transfers : Ptr → XdmaTransfer) : XdmaEngine where
  pollMode := pollMode
  streaming := streaming
  dirToDev := dirToDev
  nonIncrAddr := nonIncrAddr
  shutdown := ENGINE_SHUTDOWN_NONE
  running := false
  descDequeued := 0
  status := 0
  transferList := []
  xdmaPerf := none
  shutdownWakeUps := 0
  perfWakeUps := 0
  regs := ⟨0, enableWord pollMode streaming dirToDev, 0, 0, 0⟩
  completedDescCountWb := 0
  transfers := transfers
  freed := []
  aioCompleted := []
  started := []

/-- What the registers of the engine answer during one call. -/
structure HwReads where
  status : U32
  completedDescCount : U32

namespace XdmaEngine

/-- The state of the transfer at `p`. -/
def stateOf (e : XdmaEngine) (p : Ptr) : TransferState :=
  (e.transfers p).state

/-- The number of descriptors of the transfer at `p`. -/
def descNumOf (e : XdmaEngine) (p : Ptr) : U32 :=
  (e.transfers p).descNum

/-- The transfer at `p` is cyclic. -/
def cyclicOf (e : XdmaEngine) (p : Ptr) : Bool :=
  (e.transfers p).cyclic

/-- Overwrite the transfer at `p`. -/
def setTransfer (e : XdmaEngine) (p : Ptr) (t : XdmaTransfer) : XdmaEngine :=
  { e with transfers := Function.update e.transfers p t }

@[simp] theorem transfers_setTransfer_self (e : XdmaEngine) (p : Ptr) (t : XdmaTransfer) :
    (e.setTransfer p t).transfers p = t :=
  Function.update_self _ _ _

end XdmaEngine

/-! ## Starting and stopping -/

/-- `engine_status_read`, with the value the register answers. -/
def engineStatusRead (e : XdmaEngine) (value : U32) : XdmaEngine :=
  { e with status := value }

/-- The word `xdma_engine_stop` writes to the control register : no `RUN_STOP`. -/
def stopWord (e : XdmaEngine) : U32 :=
  let w := XDMA_CTRL_IE_DESC_ALIGN_MISMATCH ||| XDMA_CTRL_IE_MAGIC_STOPPED |||
    XDMA_CTRL_IE_READ_ERROR ||| XDMA_CTRL_IE_DESC_ERROR
  if e.pollMode then w ||| XDMA_CTRL_POLL_MODE_WB
  else
    let w := w ||| XDMA_CTRL_IE_DESC_STOPPED ||| XDMA_CTRL_IE_DESC_COMPLETED
    if (e.streaming ∧ ¬ e.dirToDev) ∨ e.xdmaPerf.isSome then w ||| XDMA_CTRL_IE_IDLE_STOPPED
    else w

/-- `xdma_engine_stop`. -/
def xdmaEngineStop (e : XdmaEngine) : XdmaEngine :=
  { e with regs := { e.regs with control := stopWord e } }

/-- The word `engine_start_mode_config` writes to the control register. -/
def startWord (e : XdmaEngine) : U32 :=
  let w := XDMA_CTRL_RUN_STOP ||| XDMA_CTRL_IE_READ_ERROR ||| XDMA_CTRL_IE_DESC_ERROR |||
    XDMA_CTRL_IE_DESC_ALIGN_MISMATCH ||| XDMA_CTRL_IE_MAGIC_STOPPED
  if e.pollMode then w ||| XDMA_CTRL_POLL_MODE_WB
  else
    let w := w ||| XDMA_CTRL_IE_DESC_STOPPED ||| XDMA_CTRL_IE_DESC_COMPLETED
    let w := if e.streaming ∧ ¬ e.dirToDev then w ||| XDMA_CTRL_IE_IDLE_STOPPED else w
    let w := if e.xdmaPerf.isSome then w ||| XDMA_CTRL_IE_IDLE_STOPPED else w
    if e.nonIncrAddr then w ||| XDMA_CTRL_NON_INCR_ADDR else w

/-- `engine_start_mode_config`. -/
def engineStartModeConfig (e : XdmaEngine) : XdmaEngine :=
  let mask := XDMA_CTRL_IE_DESC_STOPPED ||| XDMA_CTRL_IE_DESC_COMPLETED |||
    XDMA_CTRL_IE_DESC_ALIGN_MISMATCH ||| XDMA_CTRL_IE_MAGIC_STOPPED |||
    XDMA_CTRL_IE_IDLE_STOPPED ||| XDMA_CTRL_IE_READ_ERROR ||| XDMA_CTRL_IE_DESC_ERROR
  { e with
    regs := { e.regs with
      interruptEnableMask := if e.xdmaPerf.isSome then mask else e.regs.interruptEnableMask
      control := startWord e } }

/-- The outcome of a call under the lock of the engine. An error is a `BUG_ON`, with the engine
as it was when the kernel stopped there. -/
abbrev Locked (α : Type) := Except XdmaEngine α

/-- `engine_start`. It stops the kernel on a running engine and on an empty queue. -/
def engineStart (e : XdmaEngine) : Locked XdmaEngine :=
  if e.running then .error e
  else
    match e.transferList with
    | [] => .error e
    | p :: _ =>
      let transfer := e.transfers p
      let e := { e with
        shutdown := ENGINE_SHUTDOWN_NONE
        descDequeued := 0
        regs := { e.regs with
          firstDescLo := pciDmaL transfer.descBus
          firstDescHi := pciDmaH transfer.descBus
          firstDescAdjacent := min (transfer.descAdjacent - 1) 15 } }
      .ok { engineStartModeConfig e with running := true, started := (p, transfer) :: e.started }

/-- `engine_service_shutdown`. -/
def engineServiceShutdown (e : XdmaEngine) : XdmaEngine :=
  { xdmaEngineStop e with running := false, shutdownWakeUps := e.shutdownWakeUps + 1 }

/-! ## Retiring transfers -/

/-- `transfer_destroy`. -/
def transferDestroy (e : XdmaEngine) (p : Ptr) : XdmaEngine :=
  { e with freed := p :: e.freed }

/-- `engine_transfer_completion`. An asynchronous transfer that is the last of its request
is destroyed and its request completed; otherwise the waiter is woken. -/
def engineTransferCompletion (e : XdmaEngine) (p : Ptr) : XdmaEngine :=
  let transfer := e.transfers p
  match transfer.iocb, transfer.lastInRequest with
  | some iocb, true =>
    { transferDestroy e p with
      aioCompleted := (iocb, transfer.sizeOfRequest) :: e.aioCompleted }
  | _, _ => e.setTransfer p { transfer with wakeUps := transfer.wakeUps + 1 }

/-- Set the state of the head of the queue and take it off. -/
def dequeueHead (e : XdmaEngine) (p : Ptr) (s : TransferState) : XdmaEngine :=
  { e.setTransfer p { e.transfers p with state := s } with
    transferList := e.transferList.tail
    descDequeued := e.descDequeued + (e.transfers p).descNum }

/-- Set the state of the head of the queue, take it off and complete it : the steps
`engine_service_transfer_list` and `engine_service_final_transfer` share. -/
def retireHead (e : XdmaEngine) (p : Ptr) (s : TransferState) : XdmaEngine :=
  engineTransferCompletion (dequeueHead e p s) p

/-- The loop of `engine_service_transfer_list`, over the queue from its head on : the engine,
the transfer it stopped at and the descriptors left. -/
def retireLoop (e : XdmaEngine) (descCompleted : U32) :
    List Ptr → XdmaEngine × Option Ptr × U32
  | [] => (e, none, descCompleted)
  | p :: queue =>
    let transfer := e.transfers p
    if ¬ transfer.cyclic ∧ descCompleted > transfer.descNum then
      retireLoop (retireHead e p .completed) (descCompleted - transfer.descNum) queue
    else (e, some p, descCompleted)

/-- `engine_service_transfer_list`. -/
def engineServiceTransferList (e : XdmaEngine) (transfer : Option Ptr) (descCompleted : U32) :
    Locked (XdmaEngine × Option Ptr × U32) :=
  match transfer with
  | none => .error e
  | some _ => .ok (retireLoop e descCompleted e.transferList)

/-- `engine_err_handle`. -/
def engineErrHandle (e : XdmaEngine) (p : Ptr) : XdmaEngine :=
  xdmaEngineStop (e.setTransfer p { e.transfers p with state := .failed })

/-- What `engine_service_final_transfer` does with the transfer at `p`. -/
def finalTransfer (e : XdmaEngine) (p : Ptr) (descCompleted : U32) : XdmaEngine :=
  if e.status &&& errFlags ≠ 0 then engineErrHandle e p
  else if descCompleted < (e.transfers p).descNum then retireHead e p .failed
  else retireHead e p .completed

/-- `engine_service_final_transfer`. -/
def engineServiceFinalTransfer (e : XdmaEngine) (transfer : Option Ptr) (descCompleted : U32) :
    Locked XdmaEngine :=
  match transfer with
  | none => .error e
  | some p => .ok (finalTransfer e p descCompleted)

/-! ## Service -/

/-- `engine_service_perf`. -/
def engineServicePerf (e : XdmaEngine) (descCompleted : U32) : XdmaEngine :=
  match e.xdmaPerf with
  | none => e
  | some perf =>
    let perf := if e.status &&& XDMA_STAT_DESC_COMPLETED ≠ 0 then
      { perf with iterations := descCompleted } else perf
    if e.status &&& XDMA_STAT_DESC_STOPPED ≠ 0 then
      { e with xdmaPerf := some { perf with stopped := true }, perfWakeUps := e.perfWakeUps + 1 }
    else { e with xdmaPerf := some perf }

/-- `engine_service_resume`. -/
def engineServiceResume (e : XdmaEngine) : Locked XdmaEngine :=
  if ¬ e.running then
    if e.shutdown &&& ENGINE_SHUTDOWN_REQUEST ≠ 0 then
      .ok { e with
        shutdown := e.shutdown ||| ENGINE_SHUTDOWN_IDLE
        shutdownWakeUps := e.shutdownWakeUps + 1 }
    else if e.transferList ≠ [] then engineStart e
    else .ok e
  else .ok e

/-- The status `engine_service` goes by : read anew unless the writeback counted descriptors
without an error. -/
def serviceStatus (e : XdmaEngine) (hw : HwReads) (descWriteback : U32) : U32 :=
  if descWriteback &&& WB_COUNT_MASK = 0 ∨ descWriteback &&& WB_ERR_MASK ≠ 0 then hw.status
  else e.status

/-- The completed descriptors `engine_service` goes by. -/
def serviceCount (hw : HwReads) (descWriteback : U32) : U32 :=
  if descWriteback &&& WB_COUNT_MASK = 0 then hw.completedDescCount
  else descWriteback &&& WB_COUNT_MASK

/-- Clear the writeback word, in poll mode. -/
def clearWriteback (e : XdmaEngine) : XdmaEngine :=
  if e.pollMode then { e with completedDescCountWb := 0 } else e

/-- The first part of `engine_service` on a running engine : the status, and the shutdown of
an engine that is no longer busy or has written back. -/
def serviceEntry (e : XdmaEngine) (hw : HwReads) (descWriteback : U32) : XdmaEngine :=
  let e := { e with status := serviceStatus e hw descWriteback }
  if e.status &&& XDMA_STAT_BUSY = 0 ∨ descWriteback &&& WB_COUNT_MASK ≠ 0 then
    engineServiceShutdown e
  else e

/-- `engine_service`. -/
def engineService (e : XdmaEngine) (hw : HwReads) (descWriteback : U32) :
    Locked (XdmaEngine × ℤ) :=
  let rc : ℤ := if descWriteback &&& WB_ERR_MASK ≠ 0 then -1 else 0
  if ¬ e.running then
    .ok (if descWriteback = 0 then engineStatusRead e hw.status else e, 0)
  else do
    let e := serviceEntry e hw descWriteback
    let descCount := serviceCount hw descWriteback
    let transfer := e.transferList.head?
    let e := if transfer.isSome then engineServicePerf e descCount else e
    let descCount := descCount - e.descDequeued
    let (e, transfer, descCount) ← engineServiceTransferList e transfer descCount
    let e ← engineServiceFinalTransfer e transfer descCount
    let e ← engineServiceResume (clearWriteback e)
    .ok (e, rc)

/-! ## Queueing -/

/-- Mark the transfer submitted and add it to the tail of the queue. -/
def submit (e : XdmaEngine) (p : Ptr) : XdmaEngine :=
  { e.setTransfer p { e.transfers p with state := .submitted } with
    transferList := e.transferList ++ [p] }

/-- `transfer_queue`. It stops the kernel on a transfer without descriptors. -/
def transferQueue (e : XdmaEngine) (p : Ptr) : Locked (XdmaEngine × ℤ) :=
  if (e.transfers p).descNum = 0 then .error e
  else if e.shutdown &&& ENGINE_SHUTDOWN_REQUEST ≠ 0 then .ok (e, -1)
  else if e.running then .ok (submit e p, 0)
  else (engineStart (submit e p)).map fun e => (e, 0)

end Wimi
