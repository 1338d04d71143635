import Wimi.Cyclic
import Wimi.EngineRuns

/-!
# Writebacks without an error

What a service call makes of a writeback that counts the descriptors of the head and reports no
error, behind any history of the engine. Such a call does not read the status, and the final
transfer goes by the status that was read last.

`cleanWriteback_iff` : in a run of the engine in poll mode these calls all complete the head
exactly when each comes to a stored status without an error flag.
-/

open Machine

namespace Wimi

open XdmaEngine

/-! ## Histories -/

/-- What may happen to the engine between two calls. -/
inductive HistoryStep
  /-- A transfer is queued, or the engine is serviced. -/
  | call (c : EngineCall)
  /-- A cyclic transfer is queued. -/
  | queueCyclic (t : NewTransfer)
  /-- `engine_service_cyclic`, with `rx_transfer_cyclic` at `p`. -/
  | serviceCyclic (p : Ptr) (status : U32) (eopCount : ℕ)
  /-- `engine_cyclic_stop`. -/
  | stopCyclic
  /-- `cyclic_shutdown_polled`, with `rx_transfer_cyclic` at `rx`. -/
  | shutdownPolled (rx : Option Ptr) (status : U32)
  /-- `engine_status_read`, as on the way out of an interrupted request. -/
  | readStatus (value : U32)

namespace EngineRun

/-- A cyclic transfer is created. -/
def createCyclic (s : EngineRun) (t : NewTransfer) : EngineRun :=
  { s with
    engine := s.engine.setTransfer s.next { t.create with cyclic := true }
    next := s.next + 1 }

def historyStep (s : EngineRun) (i : HistoryStep) : Option EngineRun :=
  if s.stopped then none
  else
    match i with
    | .call c => s.step c
    | .queueCyclic t =>
      if t.descNum = 0 then none
      else some ((s.createCyclic t).afterCall (transferQueue (s.createCyclic t).engine s.next))
    | .serviceCyclic p status eopCount =>
      some (s.afterCall (engineServiceCyclic s.engine p status eopCount))
    | .stopCyclic => some { s with engine := engineCyclicStop s.engine }
    | .shutdownPolled rx status =>
      if status &&& XDMA_STAT_BUSY ≠ 0 then none
      else some (s.afterCall ((cyclicShutdownPolled s.engine rx status).map fun e => (e, 0)))
    | .readStatus value => some { s with engine := engineStatusRead s.engine value }

end EngineRun

/-! ## Clean writebacks -/

/-- The engine runs the transfer at `p`, which is not cyclic, and has dequeued nothing in this run;
the writeback `w` counts the descriptors of that transfer and has no error. -/
structure CleanWriteback (e : XdmaEngine) (w : U32) (p : Ptr) (rest : List Ptr) : Prop where
  unrequested : e.shutdown &&& ENGINE_SHUTDOWN_REQUEST = 0
  running : e.running = true
  list : e.transferList = p :: rest
  plain : e.cyclicOf p = false
  descDequeued : e.descDequeued = 0
  noError : w &&& WB_ERR_MASK = 0
  count : w &&& WB_COUNT_MASK = e.descNumOf p

/-- Whoever waits for the transfer at `p` learns of its completion : its asynchronous request is
completed if it was the last of it, and otherwise its wait queue is woken. -/
def Woken (e e' : XdmaEngine) (p : Ptr) : Prop :=
  match (e.transfers p).iocb, (e.transfers p).lastInRequest with
  | some iocb, true => e'.freed = p :: e.freed ∧
      e'.aioCompleted = (iocb, (e.transfers p).sizeOfRequest) :: e.aioCompleted
  | _, _ => (e'.transfers p).wakeUps = (e.transfers p).wakeUps + 1

/-- The head of the queue is completed, and the engine goes on with what is behind it. -/
structure CompletesHead (e e' : XdmaEngine) (p : Ptr) (rest : List Ptr) : Prop where
  completed : e'.stateOf p = .completed
  list : e'.transferList = rest
  unlinked : p ∉ e'.transferList
  woken : Woken e e' p
  restarted : (∃ r, e'.started = r :: e.started) ↔ rest ≠ []

/-! ## Waking -/

/-- The transfers are the same, and so are those who have learnt of their completion. -/
structure SameWaiters (e e' : XdmaEngine) : Prop where
  transfers : e'.transfers = e.transfers
  freed : e'.freed = e.freed
  aioCompleted : e'.aioCompleted = e.aioCompleted

theorem SameWaiters.trans {e e₁ e₂ : XdmaEngine} (h : SameWaiters e e₁) (h' : SameWaiters e₁ e₂) :
    SameWaiters e e₂ :=
  ⟨h'.transfers.trans h.transfers, h'.freed.trans h.freed, h'.aioCompleted.trans h.aioCompleted⟩

theorem sameWaiters_entry (e : XdmaEngine) (hw : HwReads) (w : U32) :
    SameWaiters e (serviceEntry e hw w) := by
  unfold serviceEntry
  dsimp only
  split <;> exact ⟨rfl, rfl, rfl⟩

theorem sameWaiters_perf (e : XdmaEngine) (count : U32) :
    SameWaiters e (engineServicePerf e count) := by
  unfold engineServicePerf
  split
  · exact ⟨rfl, rfl, rfl⟩
  · dsimp only
    split <;> exact ⟨rfl, rfl, rfl⟩

theorem sameWaiters_clear (e : XdmaEngine) : SameWaiters e (clearWriteback e) := by
  unfold clearWriteback
  split <;> exact ⟨rfl, rfl, rfl⟩

theorem sameWaiters_resume {e e' : XdmaEngine} (h : engineServiceResume e = .ok e') :
    SameWaiters e e' := by
  unfold engineServiceResume at h
  split at h
  · split at h
    · obtain rfl := Except.ok.inj h
      exact ⟨rfl, rfl, rfl⟩
    split at h
    · unfold engineStart at h
      split at h
      · cases h
      split at h
      · cases h
      · obtain rfl := Except.ok.inj h
        exact ⟨rfl, rfl, rfl⟩
    · obtain rfl := Except.ok.inj h
      exact ⟨rfl, rfl, rfl⟩
  · obtain rfl := Except.ok.inj h
    exact ⟨rfl, rfl, rfl⟩

/-- Retiring a transfer wakes who waits for it. -/
theorem woken_retireHead (e : XdmaEngine) (p : Ptr) (s : TransferState) :
    Woken e (retireHead e p s) p := by
  have hself : (dequeueHead e p s).transfers p = { e.transfers p with state := s } :=
    Function.update_self _ _ _
  simp only [Woken, retireHead, engineTransferCompletion, hself]
  rcases (e.transfers p).iocb with _ | iocb
  · simp only [setTransfer, Function.update_self]
  · rcases (e.transfers p).lastInRequest with _ | _
    · simp only [setTransfer, Function.update_self]
    · exact ⟨rfl, rfl⟩

theorem Woken.congr {e₀ e₁ e₂ e₃ : XdmaEngine} {p : Ptr} (h : Woken e₁ e₂ p)
    (hbefore : SameWaiters e₀ e₁) (hafter : SameWaiters e₂ e₃) : Woken e₀ e₃ p := by
  rw [Woken, hbefore.transfers, hbefore.freed, hbefore.aioCompleted] at h
  rw [Woken, hafter.transfers, hafter.freed, hafter.aioCompleted]
  exact h

/-! ## The service call -/

section Service

variable {e e' : XdmaEngine} {hw : HwReads} {w : U32} {p : Ptr} {rest : List Ptr}

variable (hw) in
/-- A clean writeback does not have the status read. -/
theorem CleanWriteback.status (h : CleanWriteback e w p rest) (hnum : e.descNumOf p ≠ 0) :
    serviceStatus e hw w = e.status ∧ serviceCount hw w = e.descNumOf p ∧ ¬ ServiceBusy e hw w := by
  have hcount : w &&& WB_COUNT_MASK ≠ 0 := h.count ▸ hnum
  refine ⟨if_neg ?_, (if_neg hcount).trans h.count, fun hbusy => hcount hbusy.2⟩
  rintro (hzero | herr)
  · exact hcount hzero
  · exact herr h.noError

variable (hw) in
/-- A service call disposes of the head alone. -/
theorem CleanWriteback.serviced (h : CleanWriteback e w p rest) (hnum : e.descNumOf p ≠ 0)
    (hnodup : e.transferList.Nodup) :
    ∃ e', engineService e hw w = .ok (e', 0) ∧
      Serviced e e' hw w [] p rest (e.descNumOf p) := by
  obtain ⟨-, hcount, -⟩ := h.status hw hnum
  have hleft : serviceCount hw w - e.descDequeued = e.descNumOf p := by
    rw [hcount, h.descDequeued]
    exact BitVec.sub_zero _
  obtain ⟨⟨e', rc⟩, hservice⟩ := engineService_ok hw w h.running (h.list ▸ List.cons_ne_nil _ _)
    (by rw [hleft, h.list]; rintro q ⟨⟩; exact BitVec.le_refl _)
  obtain ⟨rfl, done, q, rest', d, hs⟩ := engineService_cases h.running hnodup hservice
  have hretires := hs.retires
  rw [hleft] at hretires
  have hsplit := hs.list.symm.trans h.list
  obtain ⟨rfl, rfl⟩ := hretires.eq_nil
    (by rw [hsplit]; rintro r ⟨⟩; exact BitVec.le_refl _)
  obtain ⟨rfl, rfl⟩ := List.cons.inj hsplit
  rw [if_neg (not_not.mpr h.noError)] at hservice
  exact ⟨e', hservice, hs⟩

variable (hw) in
/-- What a service call does up to the resumption. -/
theorem CleanWriteback.retire (h : CleanWriteback e w p rest) (hnum : e.descNumOf p ≠ 0) :
    ∃ e₀, SameWaiters e e₀ ∧ e₀.status = e.status ∧
      engineServiceRetire e hw w = .ok (clearWriteback (finalTransfer e₀ p (e.descNumOf p))) := by
  obtain ⟨hstatus, hcount, -⟩ := h.status hw hnum
  have hentry := entered_serviceEntry hw w h.running
  have hent := hentry.perf (serviceCount hw w)
  refine ⟨_, (sameWaiters_entry e hw w).trans (sameWaiters_perf _ (serviceCount hw w)),
    hent.status.trans hstatus, ?_⟩
  have hleft : serviceCount hw w - e.descDequeued = e.descNumOf p := by
    rw [hcount, h.descDequeued]
    exact BitVec.sub_zero _
  have hloop : retireLoop (engineServicePerf (serviceEntry e hw w) (serviceCount hw w))
      (e.descNumOf p) (p :: rest) = (engineServicePerf (serviceEntry e hw w) (serviceCount hw w),
        some p, e.descNumOf p) := by
    have hnum₀ := congrFun hent.queue.descNumOf p
    rw [retireLoop, ← hnum₀]
    exact if_neg fun hpay => BitVec.lt_irrefl _ hpay.2
  simp only [engineServiceRetire, hentry.queue.list, h.list, List.head?_cons, Option.isSome_some,
    if_true, hent.descDequeued, hleft, engineServiceTransferList, hent.queue.list, hloop]
  rfl

/-- A clean writeback wakes who waits for the head when the stored status has no error. -/
theorem CleanWriteback.woken (h : CleanWriteback e w p rest) (hnum : e.descNumOf p ≠ 0)
    (hstored : e.status &&& errFlags = 0) (hservice : engineService e hw w = .ok (e', 0)) :
    Woken e e' p := by
  obtain ⟨e₀, hsame, hstatus, hretire⟩ := h.retire hw hnum
  rcases finalTransfer_cases e₀ p (e.descNumOf p) with ⟨herr, -⟩ | ⟨-, hfinal⟩
  · exact absurd hstored (hstatus ▸ herr)
  rw [engineService_eq h.running, hretire, hfinal, Except.bind] at hservice
  obtain ⟨e₁, hresume, heq⟩ := Except.map_eq_ok hservice
  obtain ⟨rfl, -⟩ := Prod.mk.inj heq
  exact (woken_retireHead e₀ p _).congr hsame
    ((sameWaiters_clear _).trans (sameWaiters_resume hresume))

variable (hw) in
/-- A clean writeback completes the head exactly when the status was stored without an error. -/
theorem CleanWriteback.completesHead_iff (h : CleanWriteback e w p rest)
    (hnum : e.descNumOf p ≠ 0) (hnodup : e.transferList.Nodup) :
    ∃ e', engineService e hw w = .ok (e', 0) ∧
      (CompletesHead e e' p rest ↔ e.status &&& errFlags = 0) := by
  obtain ⟨e', hservice, hs⟩ := h.serviced hw hnum hnodup
  obtain ⟨hstatus, -, hbusy⟩ := h.status hw hnum
  refine ⟨e', hservice, ?_⟩
  by_cases hstored : e.status &&& errFlags = 0
  · have herr : ¬ ServiceErr e hw w := by
      rw [ServiceErr, hstatus, not_not]
      exact hstored
    obtain ⟨hlist, n, hp⟩ := hs.final herr
    refine iff_of_true ⟨?_, hlist, (hs.not_mem hnodup).2 herr, h.woken hnum hstored hservice, ?_⟩
      hstored
    · rw [stateOf, hp, finalState, if_neg (BitVec.lt_irrefl _)]
    · rcases hs.idle hbusy with ⟨-, hsame, hempty | hreq⟩ | ⟨q, hq, -, -, hstart⟩
      · refine iff_of_false ?_ (not_not.mpr (hlist.symm.trans hempty))
        rintro ⟨r, hr⟩
        exact List.cons_ne_self _ _ (hr.symm.trans hsame)
      · exact absurd h.unrequested hreq
      · refine iff_of_true ⟨_, hstart⟩ ?_
        rw [← hlist]
        exact List.ne_nil_of_mem (List.mem_of_mem_head? hq)
  · -- the transfer is marked failed where it is
    have herr : ServiceErr e hw w := by
      rw [ServiceErr, hstatus]
      exact hstored
    refine iff_of_false (fun hcomplete => ?_) hstored
    exact List.cons_ne_self _ _ ((hs.failed herr).1.symm.trans hcomplete.list)

end Service

/-! ## Runs -/

/-- A clean writeback of the run completes the head. -/
def CompletesClean (s : EngineRun) (i : HistoryStep) (s' : EngineRun) : Prop :=
  ∀ hw w p rest, i = .call (.service hw w) → CleanWriteback s.engine w p rest →
    s'.stopped = false ∧ CompletesHead s.engine s'.engine p rest

/-- A clean writeback of the run comes to a stored status without an error. -/
def StoredClean (s : EngineRun) (i : HistoryStep) : Prop :=
  ∀ hw w p rest, i = .call (.service hw w) → CleanWriteback s.engine w p rest →
    s.engine.status &&& errFlags = 0

/-- What holds whenever the lock is free. -/
structure HistoryInv (s : EngineRun) : Prop where
  nodup : s.engine.transferList.Nodup
  allocated : ∀ p ∈ s.engine.transferList, p < s.next
  pos : ∀ p ∈ s.engine.transferList, s.engine.descNumOf p ≠ 0

section Runs

variable {s s' : EngineRun}

/-- Queueing a new transfer, cyclic or not. -/
theorem HistoryInv.queue (h : HistoryInv s) {t : XdmaTransfer}
    (hlive : (EngineRun.afterCall ⟨s.engine.setTransfer s.next t, s.next + 1, s.stopped⟩
      (transferQueue (s.engine.setTransfer s.next t) s.next)).stopped = false) :
    HistoryInv (EngineRun.afterCall ⟨s.engine.setTransfer s.next t, s.next + 1, s.stopped⟩
      (transferQueue (s.engine.setTransfer s.next t) s.next)) := by
  have hnew : s.next ∉ s.engine.transferList := fun hmem => lt_irrefl _ (h.allocated _ hmem)
  have hkept (p : Ptr) (hp : p ∈ s.engine.transferList) :
      (s.engine.setTransfer s.next t).descNumOf p ≠ 0 := by
    have hsame : (s.engine.setTransfer s.next t).descNumOf p = s.engine.descNumOf p :=
      congrArg XdmaTransfer.descNum (Function.update_of_ne (h.allocated p hp).ne _ _)
    rw [hsame]
    exact h.pos p hp
  have hgrown (p : Ptr) (hp : p ∈ s.engine.transferList) : p < s.next + 1 :=
    (h.allocated p hp).trans (Nat.lt_succ_self _)
  rcases hqueue : transferQueue (s.engine.setTransfer s.next t) s.next with e | ⟨e, rc⟩
  · rw [hqueue] at hlive
    cases hlive
  rcases transferQueue_cases hqueue with ⟨-, rfl, -⟩ | ⟨-, hq⟩
  · exact ⟨h.nodup, hgrown, hkept⟩
  · refine ⟨hq.nodup h.nodup hnew, fun p hp => ?_, fun p hp => ?_⟩
    · rcases hq.mem_iff.mp hp with hold | rfl
      · exact hgrown p hold
      · exact Nat.lt_succ_self _
    · change e.descNumOf p ≠ 0
      rw [hq.descNumOf]
      rcases hq.mem_iff.mp hp with hold | rfl
      · exact hkept p hold
      · exact hq.pos

/-- A service call. -/
theorem HistoryInv.service (h : HistoryInv s) {hw : HwReads} {w : U32}
    (hlive : (s.afterCall (engineService s.engine hw w)).stopped = false) :
    HistoryInv (s.afterCall (engineService s.engine hw w)) := by
  rcases hs : engineService s.engine hw w with e | ⟨e, rc⟩
  · rw [hs] at hlive
    cases hlive
  rcases hrun : s.engine.running with _ | _
  · obtain ⟨hsame, -, -⟩ := engineService_idle_cases hrun hs
    refine ⟨hsame.list ▸ h.nodup, hsame.list ▸ h.allocated, fun p hp => ?_⟩
    change e.descNumOf p ≠ 0
    rw [hsame.descNumOf]
    exact h.pos p (hsame.list ▸ hp)
  · obtain ⟨-, done, p, rest, d, hserviced⟩ := engineService_cases hrun h.nodup hs
    refine ⟨hserviced.nodup h.nodup, fun q hq => h.allocated q (hserviced.subset q hq),
      fun q hq => ?_⟩
    change e.descNumOf q ≠ 0
    rw [hserviced.descNumOf]
    exact h.pos q (hserviced.subset q hq)

/-- Servicing or shutting down a streaming engine. -/
theorem HistoryInv.cyclic (h : HistoryInv s) {e : XdmaEngine} {rx : Option Ptr} {status : U32}
    (hc : CyclicServiced s.engine e rx status) : HistoryInv { s with engine := e } := by
  refine ⟨h.nodup.sublist hc.sublist, fun p hp => h.allocated p (hc.sublist.subset hp),
    fun p hp => ?_⟩
  obtain ⟨n, hn⟩ := hc.transfers p
  have hsame : e.descNumOf p = s.engine.descNumOf p := by
    rw [descNumOf, hn]
    rfl
  change e.descNumOf p ≠ 0
  rw [hsame]
  exact h.pos p (hc.sublist.subset hp)

/-- The invariant along a history. -/
theorem HistoryInv.step {i : HistoryStep} (h : HistoryInv s) (hstep : s.historyStep i = some s')
    (hlive : s'.stopped = false) : HistoryInv s' := by
  have hstep := (Option.ite_none_left_eq_some.mp hstep).2
  cases i with
  | call c =>
    have hcall := (Option.ite_none_left_eq_some.mp hstep).2
    cases c with
    | queue t =>
      obtain rfl := Option.some.inj (Option.ite_none_left_eq_some.mp hcall).2
      exact h.queue hlive
    | service hw w =>
      obtain rfl := Option.some.inj hcall
      exact h.service hlive
  | queueCyclic t =>
    obtain rfl := Option.some.inj (Option.ite_none_left_eq_some.mp hstep).2
    exact h.queue hlive
  | serviceCyclic p status eopCount =>
    obtain rfl := Option.some.inj hstep
    rcases hs : engineServiceCyclic s.engine p status eopCount with e | ⟨e, rc⟩
    · rw [hs] at hlive
      cases hlive
    · exact h.cyclic (engineServiceCyclic_cases hs)
  | stopCyclic =>
    obtain rfl := Option.some.inj hstep
    unfold engineCyclicStop
    split <;> exact ⟨h.nodup, h.allocated, h.pos⟩
  | shutdownPolled rx status =>
    obtain rfl := Option.some.inj (Option.ite_none_left_eq_some.mp hstep).2
    rcases hs : cyclicShutdownPolled s.engine rx status with e | e
    · rw [hs] at hlive
      cases hlive
    · exact h.cyclic (cyclicShutdownPolled_cases hs).1
  | readStatus value =>
    obtain rfl := Option.some.inj hstep
    exact ⟨h.nodup, h.allocated, h.pos⟩

/-- What a clean writeback comes to, by the status stored before it. -/
theorem completesClean_iff {i : HistoryStep} (h : HistoryInv s)
    (hstep : s.historyStep i = some s') : CompletesClean s i s' ↔ StoredClean s i := by
  refine forall₄_congr fun hw w p rest => forall₂_congr fun hi hclean => ?_
  subst hi
  obtain ⟨hlive, hstep⟩ := Option.ite_none_left_eq_some.mp hstep
  obtain rfl := Option.some.inj (Option.ite_none_left_eq_some.mp hstep).2
  have hmem : p ∈ s.engine.transferList := hclean.list ▸ List.mem_cons_self
  obtain ⟨e', hservice, hiff⟩ := hclean.completesHead_iff hw (h.pos p hmem) h.nodup
  rw [hservice]
  exact (and_iff_right (Bool.eq_false_iff.mpr hlive)).trans hiff

/-- A kernel that has stopped takes no step. -/
theorem live_of_historyStep {i : HistoryStep} (hstep : s.historyStep i = some s') :
    s.stopped = false :=
  Bool.eq_false_iff.mpr (Option.ite_none_left_eq_some.mp hstep).1

end Runs

/-- In every history of an engine in poll mode, clean writebacks complete the head of the queue
exactly when each of them comes to a stored status without an error flag. -/
theorem cleanWriteback_iff (streaming dirToDev nonIncrAddr : Bool) (memory : Ptr → XdmaTransfer)
    (next : Ptr) (is : List HistoryStep) :
    Along EngineRun.historyStep CompletesClean
        (.start true streaming dirToDev nonIncrAddr memory next) is ↔
      Along EngineRun.historyStep (fun s i _ => StoredClean s i)
        (.start true streaming dirToDev nonIncrAddr memory next) is :=
  along_iff
    (fun s _ _ (h : s.stopped = false → HistoryInv s) hstep hc =>
      have hinv := h (live_of_historyStep hstep)
      ⟨hinv.step hstep, (completesClean_iff hinv hstep).mpr hc⟩)
    (fun _ _ _ h hstep hp => (completesClean_iff (h (live_of_historyStep hstep)) hstep).mp hp)
    fun _ => ⟨List.nodup_nil, fun _ hp => (by cases hp), fun _ hp => (by cases hp)⟩

/-- A run that ended in an error is serviced, and its transfer completes in the next one. -/
theorem cleanWriteback_fails : ¬ ∀ (streaming dirToDev nonIncrAddr : Bool)
    (memory : Ptr → XdmaTransfer) (next : Ptr) (is : List HistoryStep),
    Along EngineRun.historyStep CompletesClean
      (.start true streaming dirToDev nonIncrAddr memory next) is := by
  intro h
  have hrun := h false true false
    (fun _ => NewTransfer.create ⟨0x1000, 1, 1, none, true, 4096⟩) 0
    [.call (.queue ⟨0x1000, 1, 1, none, true, 4096⟩),
      .call (.service ⟨XDMA_STAT_READ_ERROR, 0⟩ 0), .call (.service ⟨0, 0⟩ 1)]
  obtain ⟨-, hcomplete⟩ := (((hrun _ rfl).2 _ rfl).2 _ rfl).1 ⟨0, 0⟩ 1 0 [] rfl
    ⟨by decide, by decide, by decide, by decide, by decide, by decide, by decide⟩
  exact absurd hcomplete.list (by decide)

end Wimi
