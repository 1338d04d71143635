import Wimi.Cyclic
import Wimi.EngineRuns
import Wimi.Events

/-!
# Interrupt enables

The interrupt handlers of a device and the deferred work of its engines. With MSI-X,
`xdma_channel_irq` saves the enable mask of its engine and clears it; otherwise `xdma_isr`
disables the channel interrupts that are requested. `engine_service_work` restores what they
cleared. Handlers and work items run step by step, in any order.

`enables_kept` : interrupts are enabled as they were configured whenever nothing of an engine is
pending or running, as long as no delivery saves a mask that is cleared and not about to be
restored, and in poll mode no channel requests an interrupt of `xdma_isr`.
-/

open Machine

namespace Wimi

/-! ## Calls keep the enables -/

/-- Unless a performance test runs, the interrupt enable mask is the same. -/
structure KeepsEnables (e e' : XdmaEngine) : Prop extends SameConfig e e' where
  perf : e.xdmaPerf = none → e'.xdmaPerf = none
  mask : e.xdmaPerf = none → e'.regs.interruptEnableMask = e.regs.interruptEnableMask

namespace KeepsEnables

variable {e e' e₁ e₂ e₃ : XdmaEngine} {p : Ptr} {hw : HwReads} {w : U32} {rc : ℤ}

@[refl] theorem refl (e : XdmaEngine) : KeepsEnables e e :=
  ⟨.refl e, id, fun _ => rfl⟩

theorem trans (h : KeepsEnables e₁ e₂) (h' : KeepsEnables e₂ e₃) : KeepsEnables e₁ e₃ :=
  ⟨h.toSameConfig.trans h'.toSameConfig, fun hp => h'.perf (h.perf hp),
    fun hp => (h'.mask (h.perf hp)).trans (h.mask hp)⟩

/-- What changes neither the settings nor the mask nor the test. -/
theorem of_eq (hc : SameConfig e e') (hp : e'.xdmaPerf = e.xdmaPerf)
    (hm : e'.regs.interruptEnableMask = e.regs.interruptEnableMask) : KeepsEnables e e' :=
  ⟨hc, fun h => hp.trans h, fun _ => hm⟩

theorem engineStart (h : Wimi.engineStart e = .ok e') : KeepsEnables e e' := by
  unfold Wimi.engineStart at h
  split at h
  · cases h
  split at h
  · cases h
  obtain rfl := Except.ok.inj h
  refine ⟨⟨rfl, rfl, rfl⟩, id, fun hp => ?_⟩
  simp [engineStartModeConfig, hp]

theorem retireHead (e : XdmaEngine) (p : Ptr) (s : TransferState) :
    KeepsEnables e (Wimi.retireHead e p s) := by
  rcases engineTransferCompletion_cases (dequeueHead e p s) p with ⟨_, _, h⟩ | h <;>
    rw [Wimi.retireHead, h] <;>
    exact .of_eq ⟨rfl, rfl, rfl⟩ rfl rfl

theorem engineServiceResume (h : Wimi.engineServiceResume e = .ok e') : KeepsEnables e e' := by
  unfold Wimi.engineServiceResume at h
  split at h
  · split at h
    · obtain rfl := Except.ok.inj h
      exact .of_eq ⟨rfl, rfl, rfl⟩ rfl rfl
    split at h
    · exact engineStart h
    · obtain rfl := Except.ok.inj h
      exact .refl e
  · obtain rfl := Except.ok.inj h
    exact .refl e

theorem serviceEntry (e : XdmaEngine) (hw : HwReads) (w : U32) :
    KeepsEnables e (Wimi.serviceEntry e hw w) := by
  unfold Wimi.serviceEntry
  dsimp only
  split <;> exact .of_eq ⟨rfl, rfl, rfl⟩ rfl rfl

theorem engineServicePerf (e : XdmaEngine) (count : U32) :
    KeepsEnables e (Wimi.engineServicePerf e count) := by
  rcases hperf : e.xdmaPerf with _ | perf
  · simp only [Wimi.engineServicePerf, hperf]
    exact .refl e
  · have hsame : SameConfig e (Wimi.engineServicePerf e count) := by
      simp only [Wimi.engineServicePerf, hperf]
      split <;> exact ⟨rfl, rfl, rfl⟩
    refine ⟨hsame, fun h => ?_, fun h => ?_⟩ <;> cases hperf.symm.trans h

theorem clearWriteback (e : XdmaEngine) : KeepsEnables e (Wimi.clearWriteback e) := by
  unfold Wimi.clearWriteback
  split
  · exact .of_eq ⟨rfl, rfl, rfl⟩ rfl rfl
  · exact .refl e

theorem frame : ServiceFrame KeepsEnables where
  refl := refl
  trans := trans
  entry := serviceEntry
  perf := engineServicePerf
  retire := retireHead
  fail _ _ := .of_eq ⟨rfl, rfl, rfl⟩ rfl rfl
  clear := clearWriteback

/-- A service call keeps the enables. -/
theorem engineService (h : Wimi.engineService e hw w = .ok (e', rc)) : KeepsEnables e e' := by
  rcases hrun : e.running with _ | _
  · obtain ⟨rfl, -⟩ := Prod.mk.inj (Except.ok.inj ((engineService_idle hrun).symm.trans h))
    split
    · exact .of_eq ⟨rfl, rfl, rfl⟩ rfl rfl
    · exact .refl e
  · rw [engineService_eq hrun] at h
    obtain ⟨e₁, hretire, h⟩ := Except.bind_eq_ok h
    obtain ⟨e₂, hresume, hpair⟩ := Except.map_eq_ok h
    obtain ⟨rfl, -⟩ := Prod.mk.inj hpair
    exact (frame.service (.inl hretire)).trans (engineServiceResume hresume)

theorem shutdownWhenIdle {rx : Option Ptr} (h : Wimi.shutdownWhenIdle e rx = .ok e') :
    KeepsEnables e e' := by
  unfold Wimi.shutdownWhenIdle at h
  split at h
  · obtain ⟨e₁, he₁, rfl⟩ := Except.map_eq_ok h
    split at he₁
    · obtain ⟨_, _, -, -, rfl⟩ := engineTransferDequeue_cases he₁
      exact .of_eq ⟨rfl, rfl, rfl⟩ rfl rfl
    · obtain rfl := Except.ok.inj he₁
      exact .of_eq ⟨rfl, rfl, rfl⟩ rfl rfl
  · obtain rfl := Except.ok.inj h
    exact .refl e

/-- A service call on a streaming engine keeps the enables. -/
theorem engineServiceCyclic {eopCount : ℕ}
    (h : Wimi.engineServiceCyclic e p w eopCount = .ok (e', rc)) : KeepsEnables e e' := by
  have hread : KeepsEnables e (engineStatusRead e w) := .of_eq ⟨rfl, rfl, rfl⟩ rfl rfl
  unfold Wimi.engineServiceCyclic at h
  split at h
  · unfold engineServiceCyclicPolled at h
    split at h
    · obtain ⟨e₁, he₁, hpair⟩ := Except.map_eq_ok h
      obtain ⟨rfl, -⟩ := Prod.mk.inj hpair
      exact hread.trans (shutdownWhenIdle he₁)
    · obtain ⟨rfl, -⟩ := Prod.mk.inj (Except.ok.inj h)
      exact .refl e
  · unfold engineServiceCyclicInterrupt at h
    obtain ⟨e₁, he₁, hpair⟩ := Except.map_eq_ok h
    obtain ⟨rfl, -⟩ := Prod.mk.inj hpair
    split at he₁
    · have hwake : KeepsEnables (engineStatusRead e w) (wakeUp (engineStatusRead e w) p) :=
        .of_eq ⟨rfl, rfl, rfl⟩ rfl rfl
      exact hread.trans (hwake.trans (shutdownWhenIdle he₁))
    · exact hread.trans (shutdownWhenIdle he₁)

theorem transferQueue (h : Wimi.transferQueue e p = .ok (e', rc)) : KeepsEnables e e' := by
  have hsubmit : KeepsEnables e (submit e p) := .of_eq ⟨rfl, rfl, rfl⟩ rfl rfl
  unfold Wimi.transferQueue at h
  split at h
  · cases h
  split at h
  · obtain ⟨rfl, -⟩ := Prod.mk.inj (Except.ok.inj h)
    exact .refl e
  split at h
  · obtain ⟨rfl, -⟩ := Prod.mk.inj (Except.ok.inj h)
    exact hsubmit
  · obtain ⟨e₁, hstart, heq⟩ := Except.map_eq_ok h
    obtain ⟨rfl, -⟩ := Prod.mk.inj heq
    exact hsubmit.trans (engineStart hstart)

end KeepsEnables

/-! ## Sessions -/

def XDMA_ENG_IRQ_NUM : ℕ := 1

/-- `irq_bitmask` of engine `i`, in the order they are created. -/
def irqBitmask (i : ℕ) : U32 :=
  ((1 <<< XDMA_ENG_IRQ_NUM) - 1) <<< (i * XDMA_ENG_IRQ_NUM)

/-- The channel interrupts `probe` enables. -/
def channelEnableWord (pollMode : Bool) : U32 :=
  if pollMode then 0 else ~~~0

/-- Where `xdma_channel_irq` is on the vector of an engine. -/
inductive ChannelIrq
  | idle
  /-- It has read `value` off the mask. -/
  | read (value : U32)
  /-- It has saved the value. -/
  | saved
  /-- It has cleared what it saved off the mask. -/
  | cleared
  deriving DecidableEq

/-- Where `engine_service_work` is. -/
inductive ServiceWork
  | idle
  /-- It is about to take the lock. -/
  | begun
  /-- It has serviced the engine, and holds the lock. -/
  | serviced
  /-- It has loaded the value it is to write to the mask. -/
  | loaded (value : U32)
  deriving DecidableEq

/-- An engine with its interrupt and its work item, which is `pending` while it is on the work
queue. -/
structure IrqEngine where
  engine : XdmaEngine
  rxTransferCyclic : Option Ptr
  interruptEnableMaskValue : U32
  irq : ChannelIrq
  pending : Bool
  work : ServiceWork

/-- Where `xdma_isr` is. -/
inductive Isr
  | idle
  /-- It has read the requests `chIrq`. -/
  | read (chIrq : U32)
  /-- It has disabled them. -/
  | disabled (chIrq : U32)
  /-- It has yet to look at `engines`. -/
  | scheduling (chIrq : U32) (engines : List ℕ)
  deriving DecidableEq

/-- A device with the engines below `enginesNum`. -/
structure IrqSession where
  msixEnabled : Bool
  pollMode : Bool
  enginesNum : ℕ
  engines : ℕ → IrqEngine
  channelIntEnable : U32
  eventsIrq : ℕ → U32
  isr : Isr
  halted : Bool

inductive IrqStep
  /-- `xdma_channel_irq` reads the mask of engine `i`. -/
  | irqRead (i : ℕ)
  /-- It saves what it read. -/
  | irqSave (i : ℕ)
  /-- It clears what it saved. -/
  | irqClear (i : ℕ)
  /-- It schedules the work of the engine, and returns. -/
  | irqSchedule (i : ℕ)
  /-- `xdma_isr` reads the channels' requests. -/
  | isrRead (chIrq : U32)
  /-- It disables them. -/
  | isrDisable
  /-- It reads the user interrupts' requests, and services them. -/
  | isrUser (userIrq : U32)
  /-- It looks at the next engine, or returns. -/
  | isrSchedule
  /-- `engine_service_work` is taken off the work queue. -/
  | workBegin (i : ℕ)
  /-- It takes the lock and services the engine. -/
  | workService (i : ℕ) (hw : HwReads) (eopCount : ℕ)
  /-- It loads what was saved of the mask. -/
  | workLoad (i : ℕ)
  /-- It enables the interrupts of the engine, and releases the lock. -/
  | workRestore (i : ℕ)
  /-- A thread queues the transfer `t` at `p`. -/
  | queue (i : ℕ) (p : Ptr) (t : XdmaTransfer)
  /-- The ring of a streaming engine is set up, or torn down. -/
  | setCyclic (i : ℕ) (rx : Option Ptr)

namespace IrqEngine

/-- The mask as `engine_create` configured it. -/
def config (g : IrqEngine) : U32 :=
  enableWord g.engine.pollMode g.engine.streaming g.engine.dirToDev

/-- The interrupt enable mask. -/
def mask (g : IrqEngine) : U32 :=
  g.engine.regs.interruptEnableMask

/-- Overwrite the interrupt enable mask. -/
def setMask (g : IrqEngine) (mask : U32) : IrqEngine :=
  { g with engine := { g.engine with
    regs := { g.engine.regs with interruptEnableMask := mask } } }

def irqRead (g : IrqEngine) : Option IrqEngine :=
  match g.irq with
  | .idle => some { g with irq := .read g.mask }
  | _ => none

def irqSave (g : IrqEngine) : Option IrqEngine :=
  match g.irq with
  | .read value => some { g with interruptEnableMaskValue := value, irq := .saved }
  | _ => none

def irqClear (g : IrqEngine) : Option IrqEngine :=
  match g.irq with
  | .saved =>
    some { g.setMask (g.mask &&& ~~~g.interruptEnableMaskValue) with irq := .cleared }
  | _ => none

/-- Work that is pending already is not queued again. -/
def irqSchedule (g : IrqEngine) : Option IrqEngine :=
  match g.irq with
  | .cleared => some { g with pending := true, irq := .idle }
  | _ => none

/-- A work item does not run twice at a time. -/
def workBegin (g : IrqEngine) : Option IrqEngine :=
  match g.work with
  | .idle => if g.pending then some { g with pending := false, work := .begun } else none
  | _ => none

def workLoad (g : IrqEngine) : Option IrqEngine :=
  match g.work with
  | .serviced => some { g with work := .loaded g.interruptEnableMaskValue }
  | _ => none

/-- Nobody else has the lock of the engine. -/
def Unlocked (g : IrqEngine) : Prop :=
  g.work = .idle ∨ g.work = .begun

instance (g : IrqEngine) : Decidable g.Unlocked :=
  inferInstanceAs (Decidable (_ ∨ _))

/-- Service the engine, as a streaming C2H engine if its ring is set up. -/
def serve (g : IrqEngine) (hw : HwReads) (eopCount : ℕ) : Locked (XdmaEngine × ℤ) :=
  match g.rxTransferCyclic with
  | some p => engineServiceCyclic g.engine p hw.status eopCount
  | none => engineService g.engine hw 0

def setCyclic (g : IrqEngine) (rx : Option Ptr) : Option IrqEngine :=
  if g.Unlocked then some { g with rxTransferCyclic := rx } else none

end IrqEngine

namespace IrqSession

/-- The session with engine `i` replaced. -/
def setEngine (s : IrqSession) (i : ℕ) (g : IrqEngine) : IrqSession :=
  { s with engines := Function.update s.engines i g }

/-- A step of engine `i` alone. -/
def onEngine (s : IrqSession) (i : ℕ) (f : IrqEngine → Option IrqEngine) : Option IrqSession :=
  if i < s.enginesNum then (f (s.engines i)).map (s.setEngine i) else none

/-- The session after a call under the lock of engine `i`, which a `BUG_ON` stops. -/
def afterCall (s : IrqSession) (i : ℕ) (g : IrqEngine) : Locked (XdmaEngine × ℤ) → IrqSession
  | .ok (e, _) => s.setEngine i { g with engine := e }
  | .error _ => { s with halted := true }

def isrRead (s : IrqSession) (chIrq : U32) : Option IrqSession :=
  match s.isr with
  | .idle => some { s with isr := .read chIrq }
  | _ => none

def isrDisable (s : IrqSession) : Option IrqSession :=
  match s.isr with
  | .read chIrq =>
    some { s with
      channelIntEnable := s.channelIntEnable &&& ~~~chIrq
      isr := .disabled chIrq }
  | _ => none

def isrUser (s : IrqSession) (userIrq : U32) : Option IrqSession :=
  match s.isr with
  | .disabled chIrq =>
    some { s with
      eventsIrq := fun bit =>
        if bit < MAX_USER_IRQ ∧ userIrq.getLsbD bit then userIrqService (s.eventsIrq bit)
        else s.eventsIrq bit
      isr := .scheduling chIrq (List.range s.enginesNum) }
  | _ => none

def isrSchedule (s : IrqSession) : Option IrqSession :=
  match s.isr with
  | .scheduling _ [] => some { s with isr := .idle }
  | .scheduling chIrq (i :: engines) =>
    let s' := { s with isr := .scheduling chIrq engines }
    if irqBitmask i &&& chIrq ≠ 0 then
      some (s'.setEngine i { s.engines i with pending := true })
    else some s'
  | _ => none

def workService (s : IrqSession) (i : ℕ) (hw : HwReads) (eopCount : ℕ) : Option IrqSession :=
  let g := s.engines i
  if i < s.enginesNum ∧ g.work = .begun then
    some (s.afterCall i { g with work := .serviced } (g.serve hw eopCount))
  else none

/-- With MSI-X the value it has loaded goes to the mask, and to the channel's enable bit
otherwise. -/
def workRestore (s : IrqSession) (i : ℕ) : Option IrqSession :=
  let g := s.engines i
  if i < s.enginesNum then
    match g.work with
    | .loaded value => some (s.setEngine i { g.setMask (g.mask ||| value) with work := .idle })
    | .serviced =>
      if s.msixEnabled then none
      else
        some { s.setEngine i { g with work := .idle } with
          channelIntEnable := s.channelIntEnable ||| irqBitmask i }
    | _ => none
  else none

def queue (s : IrqSession) (i : ℕ) (p : Ptr) (t : XdmaTransfer) : Option IrqSession :=
  let g := s.engines i
  if i < s.enginesNum ∧ g.Unlocked then
    some (s.afterCall i g (transferQueue (g.engine.setTransfer p t) p))
  else none

/-- One step; none is a step that is not enabled. -/
def step (s : IrqSession) (i : IrqStep) : Option IrqSession :=
  if s.halted then none
  else
    match i with
    | .irqRead i => if s.msixEnabled then s.onEngine i IrqEngine.irqRead else none
    | .irqSave i => s.onEngine i IrqEngine.irqSave
    | .irqClear i => s.onEngine i IrqEngine.irqClear
    | .irqSchedule i => s.onEngine i IrqEngine.irqSchedule
    | .isrRead chIrq => if s.msixEnabled then none else s.isrRead chIrq
    | .isrDisable => s.isrDisable
    | .isrUser userIrq => s.isrUser userIrq
    | .isrSchedule => s.isrSchedule
    | .workBegin i => s.onEngine i IrqEngine.workBegin
    | .workService i hw eopCount => s.workService i hw eopCount
    | .workLoad i => if s.msixEnabled then s.onEngine i IrqEngine.workLoad else none
    | .workRestore i => s.workRestore i
    | .queue i p t => s.queue i p t
    | .setCyclic i rx => s.onEngine i (IrqEngine.setCyclic · rx)

/-- A device that was just probed. `streaming` and `dirToDev` tell what its engines are. -/
def start (msixEnabled pollMode : Bool) (enginesNum : ℕ) (streaming dirToDev : ℕ → Bool)
    (memory : Ptr → XdmaTransfer) : IrqSession where
  msixEnabled := msixEnabled
  pollMode := pollMode
  enginesNum := enginesNum
  engines i :=
    ⟨engineCreate pollMode (streaming i) (dirToDev i) false memory, none, 0, .idle, false, .idle⟩
  channelIntEnable := channelEnableWord pollMode
  eventsIrq _ := 0
  isr := .idle
  halted := false

end IrqSession

/-! ## Enables -/

/-- No handler is under way that could concern engine `i`, and its work item is neither pending
nor running. -/
structure Quiet (s : IrqSession) (i : ℕ) : Prop where
  irq : (s.engines i).irq = .idle
  isr : s.isr = .idle
  pending : (s.engines i).pending = false
  work : (s.engines i).work = .idle

/-- Whatever engine is quiet has its interrupts enabled as they were configured. -/
def EnablesKept (s : IrqSession) : Prop :=
  ∀ i < s.enginesNum, Quiet s i →
    (s.engines i).mask = (s.engines i).config ∧
      s.channelIntEnable &&& irqBitmask i = channelEnableWord s.pollMode &&& irqBitmask i

/-- The mask is as it was configured, or about to be. -/
def IrqEngine.Restored (g : IrqEngine) : Prop :=
  g.mask = g.config ∨ g.work = .loaded g.config

/-- Whatever `xdma_channel_irq` saves is restored already, and in poll mode none of the requests
`xdma_isr` reads is that of an engine. -/
structure DeliveredEnabled (s : IrqSession) (i : IrqStep) : Prop where
  saved : ∀ k, i = .irqSave k → (s.engines k).Restored
  requested : ∀ chIrq, i = .isrRead chIrq → s.pollMode = true →
    ∀ k < s.enginesNum, irqBitmask k &&& chIrq = 0

/-! ## Saving and restoring the mask -/

/-- The work item of an engine is pending or running. -/
def IrqEngine.Busy (g : IrqEngine) : Prop :=
  g.pending = true ∨ g.work ≠ .idle

/-- With MSI-X the mask is cleared or as configured, and so is every copy of it. A mask that is
cleared is about to be restored, or saved for work that has yet to load it; what a delivery saves
in place of that copy is no loss, since the mask is restored by then. -/
structure MaskInv (g : IrqEngine) : Prop where
  perf : g.engine.xdmaPerf = none
  mask : g.mask = 0 ∨ g.mask = g.config
  value : g.interruptEnableMaskValue = 0 ∨ g.interruptEnableMaskValue = g.config
  loaded : ∀ value, g.work = .loaded value → value = 0 ∨ value = g.config
  read : ∀ value, g.irq = .read value → value = 0 ∨ value = g.config
  saved : g.irq = .saved → g.Restored
  armed : g.irq ≠ .saved → g.Restored ∨ g.interruptEnableMaskValue = g.config ∧
    (g.irq = .cleared ∨ g.pending = true ∨ g.work = .begun ∨ g.work = .serviced)

section Engines

variable {g g' : IrqEngine} {e : XdmaEngine}

/-- A quiet engine has its mask. -/
theorem MaskInv.mask_eq (h : MaskInv g) (hirq : g.irq = .idle) (hpending : g.pending = false)
    (hwork : g.work = .idle) : g.mask = g.config := by
  rcases h.armed (by simp [hirq]) with (hmask | hloaded) | ⟨-, hbusy⟩
  · exact hmask
  · simp [hwork] at hloaded
  · simp [hirq, hpending, hwork] at hbusy

theorem KeepsEnables.config (h : KeepsEnables g.engine e) :
    { g with engine := e }.config = g.config := by
  simp only [IrqEngine.config, h.pollMode, h.streaming, h.dirToDev]

/-- A call that keeps the enables keeps the invariant. -/
theorem MaskInv.call (h : MaskInv g) (he : KeepsEnables g.engine e) :
    MaskInv { g with engine := e } := by
  have hmask : { g with engine := e }.mask = g.mask := he.mask h.perf
  have hrestored : { g with engine := e }.Restored ↔ g.Restored := by
    simp only [IrqEngine.Restored, hmask, he.config]
  exact
    { perf := he.perf h.perf
      mask := by rw [hmask, he.config]; exact h.mask
      value := by rw [he.config]; exact h.value
      loaded := by rw [he.config]; exact h.loaded
      read := by rw [he.config]; exact h.read
      saved := by rw [hrestored]; exact h.saved
      armed := by rw [hrestored, he.config]; exact h.armed }

theorem MaskInv.irqRead (h : MaskInv g) (hstep : g.irqRead = some g') : MaskInv g' := by
  unfold IrqEngine.irqRead at hstep
  split at hstep <;> cases hstep
  next hirq =>
  have harmed := h.armed (by simp [hirq])
  simp only [hirq, reduceCtorEq, false_or] at harmed
  exact
    { perf := h.perf, mask := h.mask, value := h.value, loaded := h.loaded
      read := fun value hr => by cases hr; exact h.mask
      saved := fun hs => by cases hs
      armed := fun _ => harmed.imp_right fun ⟨hvalue, hbusy⟩ => ⟨hvalue, .inr hbusy⟩ }

theorem MaskInv.irqSave (h : MaskInv g) (hrestored : g.Restored)
    (hstep : g.irqSave = some g') : MaskInv g' := by
  unfold IrqEngine.irqSave at hstep
  split at hstep <;> cases hstep
  next value hirq =>
  exact
    { perf := h.perf, mask := h.mask, value := h.read value hirq, loaded := h.loaded
      read := fun value hr => by cases hr
      saved := fun _ => hrestored
      armed := fun hne => absurd rfl hne }

/-- What is cleared off the mask is the whole of it, and saved, or nothing. -/
theorem MaskInv.irqClear (h : MaskInv g) (hstep : g.irqClear = some g') : MaskInv g' := by
  unfold IrqEngine.irqClear at hstep
  split at hstep <;> cases hstep
  next hirq =>
  rcases h.value with hvalue | hvalue
  · have hmask : g.mask &&& ~~~g.interruptEnableMaskValue = g.mask := by
      rw [hvalue]
      exact BitVec.and_allOnes
    rw [hmask]
    exact
      { perf := h.perf, mask := h.mask, value := h.value, loaded := h.loaded
        read := fun value hr => by cases hr
        saved := fun hs => by cases hs
        armed := fun _ => .inl (h.saved hirq) }
  · have hmask : g.mask &&& ~~~g.interruptEnableMaskValue = 0 := by
      rcases h.mask with h0 | h1
      · simp [h0]
      · simp [h1, hvalue]
    exact
      { perf := h.perf, mask := .inl hmask, value := h.value, loaded := h.loaded
        read := fun value hr => by cases hr
        saved := fun hs => by cases hs
        armed := fun _ => .inr ⟨hvalue, .inl rfl⟩ }

theorem MaskInv.irqSchedule (h : MaskInv g) (hstep : g.irqSchedule = some g') : MaskInv g' := by
  unfold IrqEngine.irqSchedule at hstep
  split at hstep <;> cases hstep
  next hirq =>
  exact
    { perf := h.perf, mask := h.mask, value := h.value, loaded := h.loaded
      read := fun value hr => by cases hr
      saved := fun hs => by cases hs
      armed := fun _ => (h.armed (by simp [hirq])).imp_right fun hr => ⟨hr.1, .inr (.inl rfl)⟩ }

/-- Work that has loaded nothing yet goes on, and loads nothing but the copy. -/
theorem MaskInv.work {work : ServiceWork} {pending : Bool} (h : MaskInv g)
    (hnone : ∀ value, g.work ≠ .loaded value) (hbusy : work ≠ .idle)
    (hloaded : ∀ value, work = .loaded value → value = g.interruptEnableMaskValue) :
    MaskInv { g with work := work, pending := pending } := by
  have hrestored : g.Restored → g.mask = g.config := fun hr => hr.resolve_right (hnone g.config)
  exact
    { perf := h.perf, mask := h.mask, value := h.value
      loaded := fun value hl => hloaded value hl ▸ h.value
      read := h.read
      saved := fun hs => .inl (hrestored (h.saved hs))
      armed := fun hs => by
        rcases h.armed hs with hr | ⟨hvalue, -⟩
        · exact .inl (.inl (hrestored hr))
        cases work with
        | idle => exact absurd rfl hbusy
        | begun => exact .inr ⟨hvalue, .inr (.inr (.inl rfl))⟩
        | serviced => exact .inr ⟨hvalue, .inr (.inr (.inr rfl))⟩
        | loaded value =>
          exact .inl (.inr (congrArg ServiceWork.loaded ((hloaded value rfl).trans hvalue))) }

theorem MaskInv.workBegin (h : MaskInv g) (hstep : g.workBegin = some g') : MaskInv g' := by
  unfold IrqEngine.workBegin at hstep
  split at hstep
  case h_2 => cases hstep
  next hwork =>
  split_ifs at hstep
  cases hstep
  exact h.work (by simp [hwork]) (by simp) (by simp)

/-- Servicing goes on from work that has begun. -/
theorem MaskInv.workService (h : MaskInv g) (hwork : g.work = .begun) :
    MaskInv { g with work := .serviced } :=
  h.work (by simp [hwork]) (by simp) (by simp)

/-- What is loaded is the copy that was saved, unless the mask is restored already. -/
theorem MaskInv.workLoad (h : MaskInv g) (hstep : g.workLoad = some g') : MaskInv g' := by
  unfold IrqEngine.workLoad at hstep
  split at hstep <;> cases hstep
  next hwork =>
  exact h.work (by simp [hwork]) (by simp) fun value hl => (ServiceWork.loaded.inj hl).symm

theorem MaskInv.workRestore {value : U32} (h : MaskInv g) (hwork : g.work = .loaded value) :
    MaskInv { g.setMask (g.mask ||| value) with work := .idle } := by
  have hor : g.mask ||| value = 0 ∧ ¬ g.Restored ∨ g.mask ||| value = g.config := by
    by_cases hr : g.Restored
    · right
      rcases hr with hmask | hloaded
      · rcases h.loaded value hwork with rfl | rfl
        · simp [hmask]
        · simp [hmask]
      · obtain rfl : value = g.config := ServiceWork.loaded.inj (hwork.symm.trans hloaded)
        rcases h.mask with h0 | h1
        · simp [h0]
        · simp [h1]
    · left
      rw [IrqEngine.Restored, not_or, hwork] at hr
      have hmask : g.mask = 0 := h.mask.resolve_right hr.1
      have hvalue : value = 0 :=
        (h.loaded value hwork).resolve_right fun heq => hr.2 (congrArg ServiceWork.loaded heq)
      refine ⟨by simp [hmask, hvalue], ?_⟩
      rw [IrqEngine.Restored, not_or, hwork]
      exact hr
  have hrestored : g.Restored → g.mask ||| value = g.config := fun hr =>
    hor.resolve_left fun h0 => h0.2 hr
  exact
    { perf := h.perf
      mask := hor.imp_left And.left
      value := h.value
      loaded := fun value hl => by cases hl
      read := h.read
      saved := fun hs => .inl (hrestored (h.saved hs))
      armed := fun hs => (h.armed hs).imp (fun hr => .inl (hrestored hr)) fun hr => by
        refine ⟨hr.1, hr.2.imp_right fun hb => hb.imp_right fun hb => ?_⟩
        simp [hwork] at hb }

end Engines

/-! ## Runs with MSI-X -/

section Runs

variable {s s' : IrqSession} {i : ℕ} {g g' : IrqEngine}

@[simp] theorem IrqSession.setEngine_self : (s.setEngine i g).engines i = g :=
  Function.update_self ..

theorem IrqSession.setEngine_of_ne {k : ℕ} (hne : k ≠ i) :
    (s.setEngine i g).engines k = s.engines k :=
  Function.update_of_ne hne ..

/-- What holds of every engine, and of a new one in the place of one, holds of every engine. -/
theorem forall_setEngine {P : IrqEngine → Prop} (h : ∀ k < s.enginesNum, P (s.engines k))
    (hg : P g) : ∀ k < s.enginesNum, P ((s.setEngine i g).engines k) := by
  intro k hk
  rcases eq_or_ne k i with rfl | hne
  · rwa [IrqSession.setEngine_self]
  · rw [IrqSession.setEngine_of_ne hne]
    exact h k hk

theorem IrqSession.onEngine_cases {f : IrqEngine → Option IrqEngine}
    (h : s.onEngine i f = some s') :
    ∃ g', i < s.enginesNum ∧ f (s.engines i) = some g' ∧ s' = s.setEngine i g' := by
  unfold IrqSession.onEngine at h
  split at h
  · next hi =>
    obtain ⟨g', hg', rfl⟩ := Option.map_eq_some_iff.mp h
    exact ⟨g', hi, hg', rfl⟩
  · cases h

/-- A call under the lock of an engine keeps its enables, or stops the kernel. -/
theorem IrqSession.afterCall_cases {r : Locked (XdmaEngine × ℤ)}
    (hkeeps : ∀ e rc, r = .ok (e, rc) → KeepsEnables g.engine e) :
    s.afterCall i g r = { s with halted := true } ∨
      ∃ e, KeepsEnables g.engine e ∧ s.afterCall i g r = s.setEngine i { g with engine := e } := by
  rcases r with e | ⟨e, rc⟩
  · exact .inl rfl
  · exact .inr ⟨e, hkeeps e rc rfl, rfl⟩

theorem IrqEngine.serve_keeps {hw : HwReads} {eopCount : ℕ} {e : XdmaEngine} {rc : ℤ}
    (h : g.serve hw eopCount = .ok (e, rc)) : KeepsEnables g.engine e := by
  unfold IrqEngine.serve at h
  split at h
  · exact .engineServiceCyclic h
  · exact .engineService h

theorem IrqEngine.queue_keeps {p : Ptr} {t : XdmaTransfer} {e : XdmaEngine} {rc : ℤ}
    (h : transferQueue (g.engine.setTransfer p t) p = .ok (e, rc)) :
    KeepsEnables g.engine e := by
  have hset : KeepsEnables g.engine (g.engine.setTransfer p t) := .of_eq ⟨rfl, rfl, rfl⟩ rfl rfl
  exact hset.trans (.transferQueue h)

/-- With MSI-X, the masks are saved and restored and nothing else changes. -/
structure MsixInv (s : IrqSession) : Prop where
  msix : s.msixEnabled = true
  isr : s.isr = .idle
  channel : s.channelIntEnable = channelEnableWord s.pollMode
  engines : ∀ i < s.enginesNum, MaskInv (s.engines i)

theorem MsixInv.enablesKept (h : MsixInv s) : EnablesKept s := fun i hi hquiet =>
  ⟨(h.engines i hi).mask_eq hquiet.irq hquiet.pending hquiet.work, by rw [h.channel]⟩

theorem MsixInv.setEngine (h : MsixInv s) (hg : MaskInv g) : MsixInv (s.setEngine i g) where
  msix := h.msix
  isr := h.isr
  channel := h.channel
  engines := forall_setEngine h.engines hg

theorem MsixInv.onEngine {f : IrqEngine → Option IrqEngine} (h : MsixInv s)
    (hf : ∀ g', MaskInv (s.engines i) → f (s.engines i) = some g' → MaskInv g')
    (hstep : s.onEngine i f = some s') : MsixInv s' := by
  obtain ⟨g', hi, hg', rfl⟩ := IrqSession.onEngine_cases hstep
  exact h.setEngine (hf g' (h.engines i hi) hg')

theorem MsixInv.afterCall {r : Locked (XdmaEngine × ℤ)} (h : MsixInv s) (hg : MaskInv g)
    (hkeeps : ∀ e rc, r = .ok (e, rc) → KeepsEnables g.engine e) :
    MsixInv (s.afterCall i g r) := by
  rcases s.afterCall_cases (i := i) hkeeps with heq | ⟨e, he, heq⟩ <;> rw [heq]
  · exact ⟨h.msix, h.isr, h.channel, h.engines⟩
  · exact h.setEngine (hg.call he)

/-- The inversion lemma for the restoration. -/
theorem IrqSession.workRestore_cases (h : s.workRestore i = some s') :
    i < s.enginesNum ∧
      ((∃ value, (s.engines i).work = .loaded value ∧ s' = s.setEngine i
          { (s.engines i).setMask ((s.engines i).mask ||| value) with work := .idle }) ∨
        s.msixEnabled = false ∧ (s.engines i).work = .serviced ∧
          s' = { s.setEngine i { s.engines i with work := .idle } with
            channelIntEnable := s.channelIntEnable ||| irqBitmask i }) := by
  unfold IrqSession.workRestore at h
  dsimp only at h
  rw [Option.ite_none_right_eq_some] at h
  obtain ⟨hi, h⟩ := h
  refine ⟨hi, ?_⟩
  rcases hwork : (s.engines i).work with _ | _ | _ | value
  · simp [hwork] at h
  · simp [hwork] at h
  · simp only [hwork, Option.ite_none_left_eq_some, Option.some.injEq] at h
    exact .inr ⟨Bool.eq_false_iff.mpr h.1, rfl, h.2.symm⟩
  · simp only [hwork, Option.some.injEq] at h
    exact .inl ⟨value, rfl, h.symm⟩

/-- A step whose delivery saves what is restored keeps the masks. -/
theorem MsixInv.step {j : IrqStep} (h : MsixInv s) (hstep : s.step j = some s')
    (hc : DeliveredEnabled s j) : MsixInv s' := by
  unfold IrqSession.step at hstep
  rw [Option.ite_none_left_eq_some] at hstep
  obtain ⟨-, hstep⟩ := hstep
  cases j with
  | irqRead i =>
    rw [Option.ite_none_right_eq_some] at hstep
    exact h.onEngine (fun _ hg => hg.irqRead) hstep.2
  | irqSave i => exact h.onEngine (fun _ hg => hg.irqSave (hc.saved i rfl)) hstep
  | irqClear i => exact h.onEngine (fun _ hg => hg.irqClear) hstep
  | irqSchedule i => exact h.onEngine (fun _ hg => hg.irqSchedule) hstep
  | isrRead chIrq => simp [h.msix] at hstep
  | isrDisable => simp [IrqSession.isrDisable, h.isr] at hstep
  | isrUser userIrq => simp [IrqSession.isrUser, h.isr] at hstep
  | isrSchedule => simp [IrqSession.isrSchedule, h.isr] at hstep
  | workBegin i => exact h.onEngine (fun _ hg => hg.workBegin) hstep
  | workService i hw eopCount =>
    obtain ⟨⟨hi, hwork⟩, heq⟩ := Option.ite_none_right_eq_some.mp hstep
    obtain rfl := Option.some.inj heq
    exact h.afterCall ((h.engines i hi).workService hwork) fun _ _ => IrqEngine.serve_keeps
  | workLoad i =>
    rw [Option.ite_none_right_eq_some] at hstep
    exact h.onEngine (fun _ hg => hg.workLoad) hstep.2
  | workRestore i =>
    obtain ⟨hi, ⟨value, hwork, rfl⟩ | ⟨hmsix, -⟩⟩ := IrqSession.workRestore_cases hstep
    · exact h.setEngine ((h.engines i hi).workRestore hwork)
    · exact absurd (h.msix.symm.trans hmsix) (by decide)
  | queue i p t =>
    obtain ⟨⟨hi, -⟩, heq⟩ := Option.ite_none_right_eq_some.mp hstep
    obtain rfl := Option.some.inj heq
    exact h.afterCall (h.engines i hi) fun _ _ => IrqEngine.queue_keeps
  | setCyclic i rx =>
    refine h.onEngine (fun g' hg hf => ?_) hstep
    obtain ⟨-, heq⟩ := Option.ite_none_right_eq_some.mp hf
    obtain rfl := Option.some.inj heq
    exact ⟨hg.perf, hg.mask, hg.value, hg.loaded, hg.read, hg.saved, hg.armed⟩

/-! ## Runs with MSI or legacy interrupts -/

theorem and_not_and {e c b : U32} (h : b &&& c = 0) : e &&& ~~~c &&& b = e &&& b := by
  ext k hk
  have hbit := congrArg (fun x : U32 => x[k]) h
  simp only [BitVec.getElem_and] at hbit
  simp only [BitVec.getElem_and, BitVec.getElem_not]
  grind

theorem or_and_of_and_eq {e c b : U32} (h : e &&& b = b) : (e ||| c) &&& b = b := by
  ext k hk
  have hbit := congrArg (fun x : U32 => x[k]) h
  simp only [BitVec.getElem_and] at hbit
  simp only [BitVec.getElem_and, BitVec.getElem_or]
  grind

theorem or_and_self {e b : U32} : (e ||| b) &&& b = b := by
  ext k hk
  simp only [BitVec.getElem_and, BitVec.getElem_or]
  grind

/-- The requests `xdma_isr` goes by. -/
def Isr.chIrq : Isr → U32
  | .idle => 0
  | .read chIrq | .disabled chIrq | .scheduling chIrq _ => chIrq

/-- It has disabled the interrupt of engine `i` and is yet to schedule its work. -/
def Isr.Owes (i : ℕ) : Isr → Prop
  | .idle | .read _ => False
  | .disabled chIrq => irqBitmask i &&& chIrq ≠ 0
  | .scheduling chIrq engines => irqBitmask i &&& chIrq ≠ 0 ∧ i ∈ engines

/-- Without MSI-X the mask of an engine is left alone. -/
structure MsiEngine (g : IrqEngine) : Prop where
  perf : g.engine.xdmaPerf = none
  mask : g.mask = g.config
  irq : g.irq = .idle
  loaded : ∀ value, g.work ≠ .loaded value

/-- A channel interrupt that is disabled is owed its work, or its work is pending or running. In
poll mode there is no work. -/
structure MsiInv (s : IrqSession) : Prop where
  msi : s.msixEnabled = false
  engines : ∀ i < s.enginesNum, MsiEngine (s.engines i)
  left : ∀ chIrq l, s.isr = .scheduling chIrq l → ∀ i ∈ l, i < s.enginesNum
  channel : s.pollMode = false → ∀ i < s.enginesNum,
    s.channelIntEnable &&& irqBitmask i = irqBitmask i ∨ s.isr.Owes i ∨ (s.engines i).Busy
  polled : s.pollMode = true → s.channelIntEnable = 0 ∧
    ∀ i < s.enginesNum, ¬ (s.engines i).Busy ∧ irqBitmask i &&& s.isr.chIrq = 0

theorem MsiInv.enablesKept (h : MsiInv s) : EnablesKept s := by
  refine fun i hi hquiet => ⟨(h.engines i hi).mask, ?_⟩
  rcases hpoll : s.pollMode with _ | _
  · rcases h.channel hpoll i hi with heq | howes | hbusy
    · rw [heq]
      exact (BitVec.allOnes_and ..).symm
    · rw [hquiet.isr] at howes
      exact howes.elim
    · simp [IrqEngine.Busy, hquiet.pending, hquiet.work] at hbusy
  · rw [(h.polled hpoll).1]
    rfl

theorem MsiEngine.call {e : XdmaEngine} (h : MsiEngine g) (he : KeepsEnables g.engine e) :
    MsiEngine { g with engine := e } where
  perf := he.perf h.perf
  mask := by
    rw [he.config, ← h.mask]
    exact he.mask h.perf
  irq := h.irq
  loaded := h.loaded

/-- An engine may change as long as it stays busy if it is, and only then. -/
theorem MsiInv.setEngine (h : MsiInv s) (hg : MsiEngine g)
    (hbusy : g.Busy ↔ (s.engines i).Busy) : MsiInv (s.setEngine i g) := by
  have hengine (k : ℕ) : ((s.setEngine i g).engines k).Busy ↔ (s.engines k).Busy := by
    rcases eq_or_ne k i with rfl | hne
    · rwa [IrqSession.setEngine_self]
    · rw [IrqSession.setEngine_of_ne hne]
  exact
    { msi := h.msi
      engines := forall_setEngine h.engines hg
      left := h.left
      channel := by
        simp only [hengine]
        exact h.channel
      polled := by
        simp only [hengine]
        exact h.polled }

theorem MsiInv.onEngine {f : IrqEngine → Option IrqEngine} (h : MsiInv s)
    (hf : ∀ g', MsiEngine (s.engines i) → f (s.engines i) = some g' →
      MsiEngine g' ∧ (g'.Busy ↔ (s.engines i).Busy))
    (hstep : s.onEngine i f = some s') : MsiInv s' := by
  obtain ⟨g', hi, hg', rfl⟩ := IrqSession.onEngine_cases hstep
  obtain ⟨hengine, hbusy⟩ := hf g' (h.engines i hi) hg'
  exact h.setEngine hengine hbusy

theorem MsiInv.afterCall {r : Locked (XdmaEngine × ℤ)} (h : MsiInv s) (hg : MsiEngine g)
    (hbusy : g.Busy ↔ (s.engines i).Busy)
    (hkeeps : ∀ e rc, r = .ok (e, rc) → KeepsEnables g.engine e) :
    MsiInv (s.afterCall i g r) := by
  rcases s.afterCall_cases (i := i) hkeeps with heq | ⟨e, he, heq⟩ <;> rw [heq]
  · exact ⟨h.msi, h.engines, h.left, h.channel, h.polled⟩
  · exact h.setEngine (hg.call he) hbusy

theorem MsiInv.isrRead {chIrq : U32} (h : MsiInv s)
    (hreq : s.pollMode = true → ∀ k < s.enginesNum, irqBitmask k &&& chIrq = 0)
    (hstep : s.isrRead chIrq = some s') : MsiInv s' := by
  unfold IrqSession.isrRead at hstep
  split at hstep <;> cases hstep
  next hisr =>
  exact
    { msi := h.msi
      engines := h.engines
      left := fun _ _ hl => by cases hl
      channel := fun hpoll i hi => by
        have hchannel := h.channel hpoll i hi
        rw [hisr] at hchannel
        exact hchannel
      polled := fun hpoll =>
        ⟨(h.polled hpoll).1, fun i hi => ⟨((h.polled hpoll).2 i hi).1, hreq hpoll i hi⟩⟩ }

/-- What is disabled is owed its work. -/
theorem MsiInv.isrDisable (h : MsiInv s) (hstep : s.isrDisable = some s') : MsiInv s' := by
  unfold IrqSession.isrDisable at hstep
  split at hstep <;> cases hstep
  next chIrq hisr =>
  exact
    { msi := h.msi
      engines := h.engines
      left := fun _ _ hl => by cases hl
      channel := fun hpoll i hi => by
        have hchannel := h.channel hpoll i hi
        rw [hisr] at hchannel
        by_cases hreq : irqBitmask i &&& chIrq = 0
        · exact hchannel.imp (fun heq => (and_not_and hreq).trans heq)
            fun hr => .inr (hr.resolve_left id)
        · exact .inr (.inl hreq)
      polled := fun hpoll => by
        have hpolled := h.polled hpoll
        rw [hisr] at hpolled
        refine ⟨?_, hpolled.2⟩
        change s.channelIntEnable &&& ~~~chIrq = 0
        rw [hpolled.1]
        exact BitVec.zero_and }

theorem MsiInv.isrUser {userIrq : U32} (h : MsiInv s) (hstep : s.isrUser userIrq = some s') :
    MsiInv s' := by
  unfold IrqSession.isrUser at hstep
  split at hstep <;> cases hstep
  next chIrq hisr =>
  exact
    { msi := h.msi
      engines := h.engines
      left := fun _ _ hl i hi => by
        cases hl
        exact List.mem_range.mp hi
      channel := fun hpoll i hi => by
        have hchannel := h.channel hpoll i hi
        rw [hisr] at hchannel
        exact hchannel.imp_right (Or.imp_left fun hreq => ⟨hreq, List.mem_range.mpr hi⟩)
      polled := fun hpoll => by
        have hpolled := h.polled hpoll
        rw [hisr] at hpolled
        exact hpolled }

/-- An engine that was requested is scheduled. -/
theorem MsiInv.isrSchedule (h : MsiInv s) (hstep : s.isrSchedule = some s') : MsiInv s' := by
  unfold IrqSession.isrSchedule at hstep
  split at hstep
  case h_3 => cases hstep
  · next chIrq hisr =>
    cases hstep
    exact
      { msi := h.msi
        engines := h.engines
        left := fun _ _ hl => by cases hl
        channel := fun hpoll i hi => by
          have hchannel := h.channel hpoll i hi
          rw [hisr] at hchannel
          exact hchannel.imp_right fun hr => .inr (hr.resolve_left fun howes => by cases howes.2)
        polled := fun hpoll =>
          ⟨(h.polled hpoll).1, fun i hi => ⟨((h.polled hpoll).2 i hi).1, BitVec.and_zero⟩⟩ }
  · next chIrq i l hisr =>
    have hi : i < s.enginesNum := h.left chIrq _ hisr i List.mem_cons_self
    have hleft : ∀ k ∈ l, k < s.enginesNum := fun k hk =>
      h.left chIrq _ hisr k (List.mem_cons_of_mem i hk)
    have hchannel := h.channel
    have hpolled := h.polled
    rw [hisr] at hchannel hpolled
    dsimp only at hstep
    split_ifs at hstep with hreq <;> cases hstep
    · -- its work is scheduled
      have hg := h.engines i hi
      have hbusy (k : ℕ) (hne : k ≠ i) :
          ((s.setEngine i { s.engines i with pending := true }).engines k).Busy ↔
            (s.engines k).Busy := by
        rw [IrqSession.setEngine_of_ne hne]
      exact
        { msi := h.msi
          engines := forall_setEngine h.engines ⟨hg.perf, hg.mask, hg.irq, hg.loaded⟩
          left := fun _ _ hl => by
            cases hl
            exact hleft
          channel := fun hpoll k hk => by
            rcases eq_or_ne k i with rfl | hne
            · exact .inr (.inr (.inl (by simp [IrqSession.setEngine])))
            · exact (hchannel hpoll k hk).imp_right (Or.imp
                (fun howes => ⟨howes.1, (List.mem_cons.mp howes.2).resolve_left hne⟩)
                (hbusy k hne).mpr)
          polled := fun hpoll => absurd ((hpolled hpoll).2 i hi).2 hreq }
    · exact
        { msi := h.msi
          engines := h.engines
          left := fun _ _ hl => by
            cases hl
            exact hleft
          channel := fun hpoll k hk => (hchannel hpoll k hk).imp_right (Or.imp_left
            fun howes => ⟨howes.1, (List.mem_cons.mp howes.2).resolve_left fun heq =>
              howes.1 (heq ▸ not_not.mp hreq)⟩)
          polled := hpolled }

/-- The work restores the interrupt of its engine. -/
theorem MsiInv.workRestore (h : MsiInv s) (hstep : s.workRestore i = some s') : MsiInv s' := by
  obtain ⟨hi, ⟨value, hwork, -⟩ | ⟨-, hwork, rfl⟩⟩ := IrqSession.workRestore_cases hstep
  · exact absurd hwork ((h.engines i hi).loaded value)
  have hg := h.engines i hi
  have hbusy : (s.engines i).Busy := .inr (by simp [hwork])
  have hengines (k : ℕ) (hne : k ≠ i) :
      (s.setEngine i { s.engines i with work := .idle }).engines k = s.engines k :=
    IrqSession.setEngine_of_ne hne
  exact
    { msi := h.msi
      engines := forall_setEngine h.engines
        ⟨hg.perf, hg.mask, hg.irq, fun value hl => by cases hl⟩
      left := h.left
      channel := fun hpoll k hk => by
        rcases eq_or_ne k i with rfl | hne
        · exact .inl or_and_self
        · refine (h.channel hpoll k hk).imp or_and_of_and_eq (Or.imp_right fun hb => ?_)
          exact (hengines k hne).symm ▸ hb
      polled := fun hpoll => absurd hbusy ((h.polled hpoll).2 i hi).1 }

/-- A step that in poll mode reads no request of an engine keeps the channel interrupts. -/
theorem MsiInv.step {j : IrqStep} (h : MsiInv s) (hstep : s.step j = some s')
    (hc : DeliveredEnabled s j) : MsiInv s' := by
  unfold IrqSession.step at hstep
  rw [Option.ite_none_left_eq_some] at hstep
  obtain ⟨-, hstep⟩ := hstep
  cases j with
  | irqRead i => simp [h.msi] at hstep
  | irqSave i =>
    refine h.onEngine (fun g' hg hf => ?_) hstep
    simp [IrqEngine.irqSave, hg.irq] at hf
  | irqClear i =>
    refine h.onEngine (fun g' hg hf => ?_) hstep
    simp [IrqEngine.irqClear, hg.irq] at hf
  | irqSchedule i =>
    refine h.onEngine (fun g' hg hf => ?_) hstep
    simp [IrqEngine.irqSchedule, hg.irq] at hf
  | isrRead chIrq =>
    rw [Option.ite_none_left_eq_some] at hstep
    exact h.isrRead (hc.requested chIrq rfl) hstep.2
  | isrDisable => exact h.isrDisable hstep
  | isrUser userIrq => exact h.isrUser hstep
  | isrSchedule => exact h.isrSchedule hstep
  | workBegin i =>
    refine h.onEngine (fun g' hg hf => ?_) hstep
    unfold IrqEngine.workBegin at hf
    split at hf
    case h_2 => cases hf
    obtain ⟨hpending, heq⟩ := Option.ite_none_right_eq_some.mp hf
    obtain rfl := Option.some.inj heq
    exact ⟨⟨hg.perf, hg.mask, hg.irq, fun value hl => by cases hl⟩,
      iff_of_true (.inr (by simp)) (.inl hpending)⟩
  | workService i hw eopCount =>
    obtain ⟨⟨hi, hwork⟩, heq⟩ := Option.ite_none_right_eq_some.mp hstep
    obtain rfl := Option.some.inj heq
    have hg := h.engines i hi
    exact h.afterCall ⟨hg.perf, hg.mask, hg.irq, fun value hl => by cases hl⟩
      (iff_of_true (.inr (by simp)) (.inr (by simp [hwork]))) fun _ _ => IrqEngine.serve_keeps
  | workLoad i => simp [h.msi] at hstep
  | workRestore i => exact h.workRestore hstep
  | queue i p t =>
    obtain ⟨⟨hi, -⟩, heq⟩ := Option.ite_none_right_eq_some.mp hstep
    obtain rfl := Option.some.inj heq
    exact h.afterCall (h.engines i hi) Iff.rfl fun _ _ => IrqEngine.queue_keeps
  | setCyclic i rx =>
    refine h.onEngine (fun g' hg hf => ?_) hstep
    obtain ⟨-, heq⟩ := Option.ite_none_right_eq_some.mp hf
    obtain rfl := Option.some.inj heq
    exact ⟨⟨hg.perf, hg.mask, hg.irq, hg.loaded⟩, Iff.rfl⟩

end Runs

section Start

variable {pollMode : Bool} {enginesNum : ℕ} {streaming dirToDev : ℕ → Bool}
  {memory : Ptr → XdmaTransfer}

theorem MsixInv.start :
    MsixInv (.start true pollMode enginesNum streaming dirToDev memory) where
  msix := rfl
  isr := rfl
  channel := rfl
  engines _ _ :=
    { perf := rfl
      mask := .inr rfl
      value := .inl rfl
      loaded := fun value hl => by cases hl
      read := fun value hr => by cases hr
      saved := fun hs => by cases hs
      armed := fun _ => .inl (.inl rfl) }

theorem MsiInv.start :
    MsiInv (.start false pollMode enginesNum streaming dirToDev memory) where
  msi := rfl
  engines _ _ := ⟨rfl, rfl, rfl, fun value hl => by cases hl⟩
  left _ _ hl := by cases hl
  channel hpoll i _ := by
    have hword : channelEnableWord pollMode = BitVec.allOnes 32 := by
      rw [channelEnableWord, show pollMode = false from hpoll]
      rfl
    refine .inl ?_
    change channelEnableWord pollMode &&& irqBitmask i = irqBitmask i
    rw [hword]
    exact BitVec.allOnes_and
  polled hpoll := by
    refine ⟨?_, fun i _ => ⟨fun hbusy => ?_, BitVec.and_zero⟩⟩
    · change channelEnableWord pollMode = 0
      rw [channelEnableWord, show pollMode = true from hpoll]
      rfl
    · simp [IrqEngine.Busy, IrqSession.start] at hbusy

/-- Interrupts are enabled as they were configured whenever an engine is quiet, along every run
whose deliveries save restored masks and whose polled engines request no interrupt. -/
theorem enables_kept (msixEnabled pollMode : Bool) (enginesNum : ℕ) (streaming dirToDev : ℕ → Bool)
    (memory : Ptr → XdmaTransfer) (is : List IrqStep)
    (h : Along IrqSession.step (fun s i _ => DeliveredEnabled s i)
      (.start msixEnabled pollMode enginesNum streaming dirToDev memory) is) :
    Along IrqSession.step (fun _ _ s' => EnablesKept s')
      (.start msixEnabled pollMode enginesNum streaming dirToDev memory) is := by
  cases msixEnabled with
  | true =>
    refine along_of_step (fun s i s' hs hstep hc => ?_) MsixInv.start h
    exact ⟨hs.step hstep hc, (hs.step hstep hc).enablesKept⟩
  | false =>
    refine along_of_step (fun s i s' hs hstep hc => ?_) MsiInv.start h
    exact ⟨hs.step hstep hc, (hs.step hstep hc).enablesKept⟩

end Start

/-- A device of one engine with MSI-X. -/
def oneEngine : IrqSession :=
  .start true false 1 (fun _ => false) (fun _ => true)
    fun _ => (⟨0, 0, 1, none, false, 0⟩ : NewTransfer).create

/-- A delivery and its work, behind which the engine is quiet. -/
theorem enables_kept_one_delivery : ∃ s, exec IrqSession.step oneEngine
      [.irqRead 0, .irqSave 0, .irqClear 0, .irqSchedule 0, .workBegin 0, .workService 0 ⟨0, 0⟩ 0,
        .workLoad 0, .workRestore 0] = some s ∧ Quiet s 0 ∧
    Along IrqSession.step (fun _ _ s' => EnablesKept s') oneEngine
      [.irqRead 0, .irqSave 0, .irqClear 0, .irqSchedule 0, .workBegin 0, .workService 0 ⟨0, 0⟩ 0,
        .workLoad 0, .workRestore 0] := by
  refine ⟨_, rfl, ⟨rfl, rfl, rfl, rfl⟩, enables_kept _ _ _ _ _ _ _ (.cons rfl ⟨nofun, nofun⟩
    (.cons rfl ⟨fun k hk => ?_, nofun⟩ (.cons rfl ⟨nofun, nofun⟩ (.cons rfl ⟨nofun, nofun⟩
    (.cons rfl ⟨nofun, nofun⟩ (.cons rfl ⟨nofun, nofun⟩ (.cons rfl ⟨nofun, nofun⟩
    (.cons rfl ⟨nofun, nofun⟩ trivial))))))))⟩
  cases hk
  exact .inl rfl

/-- The second of two deliveries before the work runs saves a cleared mask. -/
theorem not_enables_kept : ¬ ∀ (msixEnabled pollMode : Bool) (enginesNum : ℕ)
    (streaming dirToDev : ℕ → Bool) (memory : Ptr → XdmaTransfer) (is : List IrqStep),
    Along IrqSession.step (fun _ _ s' => EnablesKept s')
      (.start msixEnabled pollMode enginesNum streaming dirToDev memory) is := by
  intro h
  have h : Along IrqSession.step (fun _ _ s' => EnablesKept s') oneEngine
      [.irqRead 0, .irqSave 0, .irqClear 0, .irqSchedule 0, .irqRead 0, .irqSave 0, .irqClear 0,
        .irqSchedule 0, .workBegin 0, .workService 0 ⟨0, 0⟩ 0, .workLoad 0, .workRestore 0] :=
    h ..
  iterate 11 obtain ⟨-, h⟩ := h _ rfl
  obtain ⟨h, -⟩ := h _ rfl
  exact absurd (h 0 (by decide) ⟨rfl, rfl, rfl, rfl⟩).1 (by decide)

end Wimi
