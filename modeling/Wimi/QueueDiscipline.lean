import Wimi.Service
import Wimi.Lib.Run

/-!
# The state of a transfer and its place on the queue

Runs of `transfer_queue`, `engine_service` and the destruction `transfer_data` leaves a
transfer to, in any order and with any answer of the hardware. A waiter frees every transfer
that is no longer submitted, so a transfer should leave that state only as it leaves the
queue.

`queue_discipline_iff` : this holds in exactly the runs in which no service call on a running
engine goes by a status with an error. There `engine_err_handle` marks the head failed and
`engine_service_resume` starts it once more.
-/

open Machine

namespace Wimi

open XdmaEngine

/-! ## Runs -/

/-- An engine, and the next address `kzalloc` gives a transfer. -/
structure QueueSession where
  engine : XdmaEngine
  next : Ptr

/-- What happens under the lock of the engine : a new transfer is queued, the engine is
serviced, or a waiter destroys the transfer at `p`. -/
inductive QueueStep
  | queue (t : NewTransfer)
  | service (hw : HwReads) (w : U32)
  | reap (p : Ptr)

namespace QueueSession

/-- Create a transfer and queue it; only synchronous ones take part. -/
def queue (s : QueueSession) (t : NewTransfer) : Option QueueSession :=
  if t.iocb = none then
    (transferQueue (s.engine.setTransfer s.next t.create) s.next).toOption.map
      fun r => ⟨r.1, s.next + 1⟩
  else none

/-- Service the engine. -/
def service (s : QueueSession) (hw : HwReads) (w : U32) : Option QueueSession :=
  (engineService s.engine hw w).toOption.map fun r => { s with engine := r.1 }

/-- Destroy a transfer that is no longer submitted, as `transfer_data` does. -/
def reap (s : QueueSession) (p : Ptr) : Option QueueSession :=
  if p < s.next ∧ p ∉ s.engine.freed ∧ s.engine.stateOf p ≠ .submitted then
    some { s with engine := transferDestroy s.engine p }
  else none

/-- One step; none is a step that is not enabled, or a `BUG_ON`, at which the lock is never
free again. -/
def step (s : QueueSession) : QueueStep → Option QueueSession
  | .queue t => s.queue t
  | .service hw w => s.service hw w
  | .reap p => s.reap p

/-- An idle engine with an empty queue. -/
def start (pollMode streaming dirToDev nonIncrAddr : Bool) (memory : Ptr → XdmaTransfer)
    (next : Ptr) : QueueSession :=
  ⟨engineCreate pollMode streaming dirToDev nonIncrAddr memory, next⟩

end QueueSession

/-- The discipline of a step : a transfer leaves the submitted state only in the service call
that takes it off the queue and wakes its waiter, and after the step the queue holds distinct
submitted transfers, none of them freed, and the hardware was only ever handed submitted
ones. -/
structure Disciplined (s : QueueSession) (i : QueueStep) (s' : QueueSession) : Prop where
  leaves : ∀ p < s.next, s.engine.stateOf p = .submitted → s'.engine.stateOf p ≠ .submitted →
    (∃ hw w, i = .service hw w) ∧ p ∈ s.engine.transferList ∧ p ∉ s'.engine.transferList ∧
      (s'.engine.transfers p).wakeUps = (s.engine.transfers p).wakeUps + 1
  nodup : s'.engine.transferList.Nodup
  submitted : ∀ p ∈ s'.engine.transferList, s'.engine.stateOf p = .submitted
  started : ∀ r ∈ s'.engine.started, r.2.state = .submitted
  freed : ∀ p ∈ s'.engine.freed, p ∉ s'.engine.transferList

/-- A service call on a running engine goes by a status without an error. -/
def ErrorFree (s : QueueSession) (i : QueueStep) : Prop :=
  ∀ hw w, i = .service hw w → s.engine.running = true → ¬ ServiceErr s.engine hw w

/-! ## Invariant -/

/-- What holds whenever the lock is free. -/
structure QueueInv (s : QueueSession) : Prop where
  nodup : s.engine.transferList.Nodup
  allocated : ∀ p ∈ s.engine.transferList, p < s.next
  submitted : ∀ p ∈ s.engine.transferList, s.engine.stateOf p = .submitted
  sync : ∀ p ∈ s.engine.transferList, (s.engine.transfers p).Sync
  started : ∀ r ∈ s.engine.started, r.2.state = .submitted
  freed : ∀ p ∈ s.engine.freed, p < s.next ∧ p ∉ s.engine.transferList

theorem queueInv_start (pollMode streaming dirToDev nonIncrAddr : Bool)
    (memory : Ptr → XdmaTransfer) (next : Ptr) :
    QueueInv (.start pollMode streaming dirToDev nonIncrAddr memory next) where
  nodup := List.nodup_nil
  allocated _ hp := nomatch hp
  submitted _ hp := nomatch hp
  sync _ hp := nomatch hp
  started _ hr := nomatch hr
  freed _ hp := nomatch hp

variable {s s' : QueueSession}

/-- After a step that keeps the invariant only the leaving of the submitted state is left to
be shown. -/
theorem QueueInv.disciplined {i : QueueStep} (h : QueueInv s')
    (hleaves : ∀ p < s.next, s.engine.stateOf p = .submitted → s'.engine.stateOf p ≠ .submitted →
      (∃ hw w, i = .service hw w) ∧ p ∈ s.engine.transferList ∧ p ∉ s'.engine.transferList ∧
        (s'.engine.transfers p).wakeUps = (s.engine.transfers p).wakeUps + 1) :
    Disciplined s i s' :=
  ⟨hleaves, h.nodup, h.submitted, h.started, fun p hp => (h.freed p hp).2⟩

/-- Nothing leaves the submitted state in a step that keeps the state of every transfer. -/
theorem QueueInv.disciplined_of_kept {i : QueueStep} (h : QueueInv s')
    (hkept : ∀ p < s.next, s'.engine.stateOf p = s.engine.stateOf p) : Disciplined s i s' :=
  h.disciplined fun p hp hs hs' => absurd ((hkept p hp).trans hs) hs'

/-- The queue, the transfers and what was started and freed may stay the same while the rest
of the engine changes. -/
theorem QueueInv.congr (h : QueueInv s) {e : XdmaEngine} (hq : SameQueue s.engine e)
    (hstarted : e.started = s.engine.started) : QueueInv { s with engine := e } where
  nodup := hq.list ▸ h.nodup
  allocated := hq.list ▸ h.allocated
  submitted p hp := by
    rw [hq.stateOf]
    exact h.submitted p (hq.list ▸ hp)
  sync p hp := by
    rw [hq.transfers]
    exact h.sync p (hq.list ▸ hp)
  started := hstarted ▸ h.started
  freed := by
    rw [hq.list, hq.freed]
    exact h.freed

/-- A new transfer takes no address of a queued one. -/
theorem QueueInv.create (h : QueueInv s) (t : NewTransfer) :
    QueueInv ⟨s.engine.setTransfer s.next t.create, s.next + 1⟩ := by
  have hold : ∀ p < s.next,
      (s.engine.setTransfer s.next t.create).transfers p = s.engine.transfers p :=
    fun p hp => Function.update_of_ne hp.ne _ _
  refine
    { h with
      allocated := fun p hp => (h.allocated p hp).trans (Nat.lt_succ_self _)
      submitted := fun p hp => ?_
      sync := fun p hp => ?_
      freed := fun p hp => ⟨(h.freed p hp).1.trans (Nat.lt_succ_self _), (h.freed p hp).2⟩ }
  · rw [stateOf, hold p (h.allocated p hp)]
    exact h.submitted p hp
  · rw [hold p (h.allocated p hp)]
    exact h.sync p hp

/-- A call that starts the hardware on the head of its queue at most starts it on a submitted
transfer. -/
theorem QueueInv.started_submitted (h : QueueInv s) {e : XdmaEngine}
    (hsubmitted : ∀ p ∈ e.transferList, e.stateOf p = .submitted)
    (hstarted : e.started = s.engine.started ∨ ∃ q, e.transferList.head? = some q ∧
      e.started = (q, e.transfers q) :: s.engine.started) :
    ∀ r ∈ e.started, r.2.state = .submitted := by
  rcases hstarted with hsame | ⟨q, hhead, hstarted⟩
  · exact hsame ▸ h.started
  · intro r hr
    rcases List.mem_cons.mp (hstarted ▸ hr) with rfl | hr
    · exact hsubmitted q (List.mem_of_mem_head? hhead)
    · exact h.started r hr

/-- Queueing a synchronous transfer keeps the invariant. -/
theorem Queued.queueInv {e : XdmaEngine} {p : Ptr} (h : QueueInv s) (hp : p < s.next)
    (hnew : p ∉ s.engine.transferList) (hlive : p ∉ s.engine.freed)
    (hsync : (s.engine.transfers p).Sync) (hq : Queued s.engine e p) :
    QueueInv { s with engine := e } := by
  have hsubmitted : ∀ q ∈ e.transferList, e.stateOf q = .submitted :=
    hq.forall_mem (P := fun t => t.state = .submitted) h.submitted rfl
  refine
    { nodup := hq.nodup h.nodup hnew
      allocated := fun q hmem => (hq.mem_iff.mp hmem).elim (h.allocated q) fun heq => heq ▸ hp
      submitted := hsubmitted
      sync := hq.forall_mem h.sync hsync
      started := h.started_submitted hsubmitted hq.started_cases
      freed := fun q hfreed => ?_ }
  replace hfreed := hq.freed ▸ hfreed
  refine ⟨(h.freed q hfreed).1, fun hmem => ?_⟩
  rcases hq.mem_iff.mp hmem with hold | rfl
  · exact (h.freed q hfreed).2 hold
  · exact hlive hfreed

theorem queue_disciplined {t : NewTransfer} (h : QueueInv s) (hstep : s.queue t = some s') :
    QueueInv s' ∧ Disciplined s (.queue t) s' := by
  obtain ⟨hiocb, hstep⟩ := Option.ite_none_right_eq_some.mp hstep
  obtain ⟨⟨e, rc⟩, hq, rfl⟩ := Option.map_eq_some_iff.mp hstep
  replace hq := Except.toOption_eq_some hq
  have hcreate := h.create t
  have hold : ∀ p < s.next,
      (s.engine.setTransfer s.next t.create).transfers p = s.engine.transfers p :=
    fun p hp => Function.update_of_ne hp.ne _ _
  have hsync : ((s.engine.setTransfer s.next t.create).transfers s.next).Sync := by
    change (Function.update s.engine.transfers s.next t.create s.next).Sync
    rw [Function.update_self]
    exact hiocb
  rcases transferQueue_cases hq with ⟨-, rfl, -⟩ | ⟨-, hqueued⟩
  · -- a shutdown was requested, and nothing is queued
    refine ⟨hcreate, hcreate.disciplined_of_kept fun p hp => ?_⟩
    rw [stateOf, hold p hp, stateOf]
  · have hinv : QueueInv ⟨e, s.next + 1⟩ :=
      hqueued.queueInv hcreate (Nat.lt_succ_self _) (fun hmem => lt_irrefl _ (h.allocated _ hmem))
        (fun hfreed => lt_irrefl _ (h.freed _ hfreed).1) hsync
    refine ⟨hinv, hinv.disciplined_of_kept fun p hp => ?_⟩
    rw [stateOf, hqueued.others p hp.ne, hold p hp, stateOf]

/-- A service call that goes by no error keeps the invariant. -/
theorem Serviced.queueInv {e : XdmaEngine} {hw : HwReads} {w d : U32} {done rest : List Ptr}
    {p : Ptr} (h : QueueInv s) (herr : ¬ ServiceErr s.engine hw w)
    (hfreed : e.freed = s.engine.freed) (hs : Serviced s.engine e hw w done p rest d) :
    QueueInv { s with engine := e } := by
  have hsubmitted : ∀ q ∈ e.transferList, e.stateOf q = .submitted := by
    intro q hq
    rw [stateOf, hs.kept h.nodup herr hq]
    exact h.submitted q (hs.subset q hq)
  refine
    { nodup := hs.nodup h.nodup
      allocated := fun q hq => h.allocated q (hs.subset q hq)
      submitted := hsubmitted
      sync := fun q hq => ?_
      started := h.started_submitted hsubmitted hs.started_cases
      freed := fun q hq => ?_ }
  · rw [hs.kept h.nodup herr hq]
    exact h.sync q (hs.subset q hq)
  · obtain ⟨hlt, hnot⟩ := h.freed q (hfreed ▸ hq)
    exact ⟨hlt, fun hmem => hnot (hs.subset q hmem)⟩

theorem service_disciplined {hw : HwReads} {w : U32} (h : QueueInv s)
    (hstep : s.service hw w = some s') (herr : ErrorFree s (.service hw w)) :
    QueueInv s' ∧ Disciplined s (.service hw w) s' := by
  obtain ⟨⟨e, rc⟩, hservice, rfl⟩ := Option.map_eq_some_iff.mp hstep
  replace hservice := Except.toOption_eq_some hservice
  rcases hrun : s.engine.running with _ | _
  · obtain ⟨hsame, hr, -⟩ := engineService_idle_cases hrun hservice
    have hinv := h.congr hsame hr.started
    exact ⟨hinv, hinv.disciplined_of_kept fun p _ => hsame.stateOf p⟩
  obtain ⟨-, done, p, rest, d, hs⟩ := engineService_cases hrun h.nodup hservice
  have hnoerr := herr hw w rfl hrun
  obtain ⟨hoff, hpoff⟩ := hs.not_mem h.nodup
  obtain ⟨hfreed, hdonewoken, hpwoken⟩ := hs.sync fun q hq => h.sync q (hs.queued q hq)
  have hinv := hs.queueInv h hnoerr hfreed
  refine ⟨hinv, hinv.disciplined fun q _ hbefore hleft => ⟨⟨hw, w, rfl⟩, ?_⟩⟩
  -- only the retired transfers change
  by_cases hq : q ∈ done
  · exact ⟨hs.queued q (List.mem_cons_of_mem _ hq), hoff q hq, hdonewoken q hq⟩
  · obtain rfl : q = p := by
      by_contra hne
      exact hleft (by rw [stateOf, hs.others q hq hne]; exact hbefore)
    exact ⟨hs.queued q List.mem_cons_self, hpoff hnoerr, hpwoken hnoerr⟩

theorem reap_disciplined {p : Ptr} (h : QueueInv s) (hstep : s.reap p = some s') :
    QueueInv s' ∧ Disciplined s (.reap p) s' := by
  obtain ⟨hreap, hstep⟩ := Option.ite_none_right_eq_some.mp hstep
  obtain rfl := Option.some.inj hstep
  have hinv : QueueInv { s with engine := transferDestroy s.engine p } :=
    { h with
      freed := fun q hq => by
        rcases List.mem_cons.mp hq with rfl | hq
        · exact ⟨hreap.1, fun hmem => hreap.2.2 (h.submitted q hmem)⟩
        · exact h.freed q hq }
  exact ⟨hinv, hinv.disciplined_of_kept fun _ _ => rfl⟩

/-- The step lemma. -/
theorem step_disciplined {i : QueueStep} (h : QueueInv s) (hstep : s.step i = some s')
    (herr : ErrorFree s i) : QueueInv s' ∧ Disciplined s i s' := by
  cases i with
  | queue t => exact queue_disciplined h hstep
  | service hw w => exact service_disciplined h hstep herr
  | reap p => exact reap_disciplined h hstep

/-- A service call that goes by an error leaves a failed transfer on the queue. -/
theorem errorFree_of_disciplined {i : QueueStep} (h : QueueInv s) (hstep : s.step i = some s')
    (hd : Disciplined s i s') : ErrorFree s i := by
  rintro hw w rfl hrun herr
  obtain ⟨⟨e, rc⟩, hservice, rfl⟩ := Option.map_eq_some_iff.mp hstep
  replace hservice := Except.toOption_eq_some hservice
  obtain ⟨-, done, p, rest, d, hs⟩ := engineService_cases hrun h.nodup hservice
  obtain ⟨hlist', hp'⟩ := hs.failed herr
  have hsubmitted := hd.submitted p (by
    show p ∈ e.transferList
    rw [hlist']
    exact List.mem_cons_self)
  rw [stateOf, hp'] at hsubmitted
  cases hsubmitted

/-- Every step of a run from an idle engine is disciplined if and only if no service call of
the run goes by a status with an error on a running engine. -/
theorem queue_discipline_iff (pollMode streaming dirToDev nonIncrAddr : Bool)
    (memory : Ptr → XdmaTransfer) (next : Ptr) (is : List QueueStep) :
    Along QueueSession.step Disciplined
        (.start pollMode streaming dirToDev nonIncrAddr memory next) is ↔
      Along QueueSession.step (fun s i _ => ErrorFree s i)
        (.start pollMode streaming dirToDev nonIncrAddr memory next) is :=
  along_iff (fun _ i _ h hstep herr => step_disciplined (i := i) h hstep herr)
    (fun _ i _ h hstep hd => errorFree_of_disciplined (i := i) h hstep hd) (queueInv_start ..)

/-- One descriptor at bus address 0x1000. -/
def oneDescriptor : NewTransfer :=
  ⟨0x1000, 1, 1, none, true, 4096⟩

/-- The engine stops with a descriptor error : the service call marks the transfer failed,
leaves it on the queue and starts the hardware on it again. -/
theorem queue_discipline_fails_on_error :
    ¬ ∀ (memory : Ptr → XdmaTransfer) (is : List QueueStep),
      Along QueueSession.step Disciplined (.start false false true false memory 0) is := by
  intro h
  have hrun := h (fun _ => oneDescriptor.create)
    [.queue oneDescriptor, .service ⟨XDMA_STAT_DESC_ERROR, 0⟩ 0]
  have hd := ((hrun _ rfl).2 _ rfl).1
  exact absurd (hd.submitted 0 List.mem_cons_self) (by decide)

end Wimi
