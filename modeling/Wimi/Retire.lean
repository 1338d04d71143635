import Wimi.Engine

/-!
# Starting and retiring

What starting the engine, resuming it and retiring transfers leave alone, and what they do.

`retireLoop_eq` : the loop of `engine_service_transfer_list` retires the longest prefix of the
queue that the descriptors pay for.
-/

namespace Wimi

open XdmaEngine

/-! ## Parts a call leaves alone -/

/-- The settings of the engine are the same. -/
structure SameConfig (e e' : XdmaEngine) : Prop where
  pollMode : e'.pollMode = e.pollMode
  streaming : e'.streaming = e.streaming
  dirToDev : e'.dirToDev = e.dirToDev

@[refl] theorem SameConfig.refl (e : XdmaEngine) : SameConfig e e :=
  ⟨rfl, rfl, rfl⟩

theorem SameConfig.trans {e₁ e₂ e₃ : XdmaEngine} (h : SameConfig e₁ e₂) (h' : SameConfig e₂ e₃) :
    SameConfig e₁ e₃ :=
  ⟨h'.pollMode.trans h.pollMode, h'.streaming.trans h.streaming, h'.dirToDev.trans h.dirToDev⟩

/-- The queue and the transfers on it are the same, and so is what was freed. -/
structure SameQueue (e e' : XdmaEngine) : Prop where
  config : SameConfig e e'
  list : e'.transferList = e.transferList
  transfers : e'.transfers = e.transfers
  freed : e'.freed = e.freed

namespace SameQueue

variable {e₁ e₂ e₃ : XdmaEngine}

@[refl] theorem refl (e : XdmaEngine) : SameQueue e e :=
  ⟨.refl e, rfl, rfl, rfl⟩

theorem trans (h : SameQueue e₁ e₂) (h' : SameQueue e₂ e₃) : SameQueue e₁ e₃ :=
  ⟨h.config.trans h'.config, h'.list.trans h.list, h'.transfers.trans h.transfers,
    h'.freed.trans h.freed⟩

theorem stateOf (h : SameQueue e₁ e₂) (p : Ptr) : e₂.stateOf p = e₁.stateOf p := by
  rw [XdmaEngine.stateOf, XdmaEngine.stateOf, h.transfers]

theorem descNumOf (h : SameQueue e₁ e₂) : e₂.descNumOf = e₁.descNumOf := by
  funext p
  rw [XdmaEngine.descNumOf, XdmaEngine.descNumOf, h.transfers]

theorem cyclicOf (h : SameQueue e₁ e₂) : e₂.cyclicOf = e₁.cyclicOf := by
  funext p
  rw [XdmaEngine.cyclicOf, XdmaEngine.cyclicOf, h.transfers]

end SameQueue

/-- The run of the hardware is the same, and so is what was asked of it. -/
structure SameRun (e e' : XdmaEngine) : Prop where
  running : e'.running = e.running
  descDequeued : e'.descDequeued = e.descDequeued
  started : e'.started = e.started
  shutdown : e'.shutdown = e.shutdown

@[refl] theorem SameRun.refl (e : XdmaEngine) : SameRun e e :=
  ⟨rfl, rfl, rfl, rfl⟩

/-- The hardware was started on the head of the queue. -/
structure StartedHead (e e' : XdmaEngine) (p : Ptr) : Prop where
  head : e.transferList.head? = some p
  idle : e.running = false
  running : e'.running = true
  shutdown : e'.shutdown = ENGINE_SHUTDOWN_NONE
  descDequeued : e'.descDequeued = 0
  started : e'.started = (p, e.transfers p) :: e.started

/-! ## Starting -/

section Start

variable {e e' : XdmaEngine}

theorem engineStart_cases (h : engineStart e = .ok e') :
    SameQueue e e' ∧ e'.status = e.status ∧ e'.completedDescCountWb = e.completedDescCountWb ∧
      ∃ p, StartedHead e e' p := by
  unfold engineStart at h
  split at h
  · cases h
  · next hrun =>
    split at h
    · cases h
    · next p queue hlist =>
      obtain rfl := Except.ok.inj h
      exact ⟨⟨⟨rfl, rfl, rfl⟩, rfl, rfl, rfl⟩, rfl, rfl, p, by rw [hlist]; rfl,
        by simpa using hrun, rfl, rfl, rfl, rfl⟩

/-- `engine_start` does not stop the kernel on an idle engine with a transfer queued. -/
theorem engineStart_ok (hrun : e.running = false) (hlist : e.transferList ≠ []) :
    ∃ e', engineStart e = .ok e' := by
  obtain ⟨p, queue, hlist⟩ := List.exists_cons_of_ne_nil hlist
  simp [engineStart, hrun, hlist]

/-- Resuming leaves the queue alone. It does nothing to a running engine or with an empty
queue, acknowledges a shutdown request, and otherwise starts the head. -/
theorem engineServiceResume_cases (h : engineServiceResume e = .ok e') :
    SameQueue e e' ∧ e'.status = e.status ∧ e'.completedDescCountWb = e.completedDescCountWb ∧
      (SameRun e e' ∧ (e.running = true ∨ e.transferList = []) ∨
        e.shutdown &&& ENGINE_SHUTDOWN_REQUEST ≠ 0 ∧ e.running = false ∧ e'.running = false ∧
          e'.started = e.started ∨
        e.shutdown &&& ENGINE_SHUTDOWN_REQUEST = 0 ∧ ∃ p, StartedHead e e' p) := by
  unfold engineServiceResume at h
  split at h
  · next hrun =>
    split at h
    · next hshut =>
      obtain rfl := Except.ok.inj h
      have hidle : e.running = false := by simpa using hrun
      exact ⟨⟨⟨rfl, rfl, rfl⟩, rfl, rfl, rfl⟩, rfl, rfl, Or.inr (Or.inl ⟨hshut, hidle, hidle, rfl⟩)⟩
    · next hshut =>
      split at h
      · obtain ⟨hq, hs, hw, hp⟩ := engineStart_cases h
        exact ⟨hq, hs, hw, Or.inr (Or.inr ⟨not_not.mp hshut, hp⟩)⟩
      · next hlist =>
        obtain rfl := Except.ok.inj h
        exact ⟨.refl e, rfl, rfl, Or.inl ⟨.refl e, Or.inr (not_not.mp hlist)⟩⟩
  · next hrun =>
    obtain rfl := Except.ok.inj h
    exact ⟨.refl e, rfl, rfl, Or.inl ⟨.refl e, Or.inl (not_not.mp hrun)⟩⟩

/-- Resuming never stops the kernel. -/
theorem engineServiceResume_ok (e : XdmaEngine) : ∃ e', engineServiceResume e = .ok e' := by
  unfold engineServiceResume
  split
  · next hrun =>
    split
    · exact ⟨_, rfl⟩
    · split
      · next hlist => exact engineStart_ok (by simpa using hrun) hlist
      · exact ⟨_, rfl⟩
  · exact ⟨_, rfl⟩

end Start

/-! ## Retiring -/

section Retire

variable (e : XdmaEngine) (p : Ptr) (s : TransferState)

/-- A transfer of a synchronous request. -/
def XdmaTransfer.Sync (t : XdmaTransfer) : Prop :=
  t.iocb = none

/-- The asynchronous request the transfer ends, with its size. -/
def XdmaTransfer.request (t : XdmaTransfer) : Option (ℕ × ℤ) :=
  match t.iocb, t.lastInRequest with
  | some iocb, true => some (iocb, t.sizeOfRequest)
  | _, _ => none

/-- The transfer is completed, and woken if it ends no asynchronous request. -/
def XdmaTransfer.retired (t : XdmaTransfer) : XdmaTransfer :=
  { t with
    state := .completed
    wakeUps := if t.request.isSome then t.wakeUps else t.wakeUps + 1 }

theorem XdmaTransfer.Sync.request {t : XdmaTransfer} (h : t.Sync) : t.request = none := by
  have hiocb : t.iocb = none := h
  simp only [XdmaTransfer.request, hiocb]

/-- An asynchronous last transfer is freed, any other is woken. -/
theorem engineTransferCompletion_cases :
    (∃ iocb, (e.transfers p).iocb = some iocb ∧ engineTransferCompletion e p =
      { transferDestroy e p with
        aioCompleted := (iocb, (e.transfers p).sizeOfRequest) :: e.aioCompleted }) ∨
      engineTransferCompletion e p =
        e.setTransfer p { e.transfers p with wakeUps := (e.transfers p).wakeUps + 1 } := by
  rcases hiocb : (e.transfers p).iocb with _ | iocb
  · exact Or.inr (by simp only [engineTransferCompletion, hiocb])
  · rcases hlast : (e.transfers p).lastInRequest with _ | _
    · exact Or.inr (by simp only [engineTransferCompletion, hiocb, hlast])
    · exact Or.inl ⟨iocb, rfl, by simp only [engineTransferCompletion, hiocb, hlast]⟩

theorem engineTransferCompletion_frame :
    SameRun e (engineTransferCompletion e p) ∧ SameConfig e (engineTransferCompletion e p) ∧
      (engineTransferCompletion e p).transferList = e.transferList ∧
      (engineTransferCompletion e p).status = e.status ∧
      (engineTransferCompletion e p).completedDescCountWb = e.completedDescCountWb := by
  rcases engineTransferCompletion_cases e p with ⟨_, _, h⟩ | h <;> rw [h] <;>
    exact ⟨⟨rfl, rfl, rfl, rfl⟩, ⟨rfl, rfl, rfl⟩, rfl, rfl, rfl⟩

theorem engineTransferCompletion_of_ne {q : Ptr} (hne : q ≠ p) :
    (engineTransferCompletion e p).transfers q = e.transfers q := by
  rcases engineTransferCompletion_cases e p with ⟨_, _, h⟩ | h <;> rw [h]
  · rfl
  · exact Function.update_of_ne hne _ _

/-- Completion changes at most the wake-ups of the transfer. -/
theorem engineTransferCompletion_self :
    ∃ n, (engineTransferCompletion e p).transfers p = { e.transfers p with wakeUps := n } := by
  rcases engineTransferCompletion_cases e p with ⟨_, _, h⟩ | h <;> rw [h]
  · exact ⟨_, rfl⟩
  · exact ⟨_, Function.update_self _ _ _⟩

theorem engineTransferCompletion_of_sync (h : (e.transfers p).Sync) :
    (engineTransferCompletion e p).transfers p =
        { e.transfers p with wakeUps := (e.transfers p).wakeUps + 1 } ∧
      (engineTransferCompletion e p).freed = e.freed := by
  rcases engineTransferCompletion_cases e p with ⟨_, hiocb, _⟩ | hwoken
  · rw [XdmaTransfer.Sync, hiocb] at h
    cases h
  · rw [hwoken]
    exact ⟨Function.update_self _ _ _, rfl⟩

@[simp] theorem retireHead_transferList :
    (retireHead e p s).transferList = e.transferList.tail :=
  (engineTransferCompletion_frame _ p).2.2.1

@[simp] theorem retireHead_running : (retireHead e p s).running = e.running :=
  (engineTransferCompletion_frame _ p).1.running

@[simp] theorem retireHead_started : (retireHead e p s).started = e.started :=
  (engineTransferCompletion_frame _ p).1.started

@[simp] theorem retireHead_descDequeued :
    (retireHead e p s).descDequeued = e.descDequeued + (e.transfers p).descNum :=
  (engineTransferCompletion_frame _ p).1.descDequeued

@[simp] theorem retireHead_status : (retireHead e p s).status = e.status :=
  (engineTransferCompletion_frame _ p).2.2.2.1

@[simp] theorem retireHead_shutdown : (retireHead e p s).shutdown = e.shutdown :=
  (engineTransferCompletion_frame _ p).1.shutdown

theorem dequeueHead_config : SameConfig e (dequeueHead e p s) :=
  ⟨rfl, rfl, rfl⟩

theorem retireHead_config : SameConfig e (retireHead e p s) :=
  (dequeueHead_config e p s).trans (engineTransferCompletion_frame _ p).2.1

theorem retireHead_of_ne {q : Ptr} (h : q ≠ p) :
    (retireHead e p s).transfers q = e.transfers q :=
  (engineTransferCompletion_of_ne _ p h).trans (Function.update_of_ne h _ _)

/-- The retired transfer has the state asked for, and only its wake-ups change besides. -/
theorem retireHead_self :
    ∃ n, (retireHead e p s).transfers p = { e.transfers p with state := s, wakeUps := n } := by
  obtain ⟨n, hn⟩ := engineTransferCompletion_self (dequeueHead e p s) p
  refine ⟨n, hn.trans ?_⟩
  simp only [dequeueHead, setTransfer, Function.update_self]

theorem retireHead_of_sync (h : (e.transfers p).Sync) :
    (retireHead e p s).transfers p =
        { e.transfers p with state := s, wakeUps := (e.transfers p).wakeUps + 1 } ∧
      (retireHead e p s).freed = e.freed := by
  have hsync : ((dequeueHead e p s).transfers p).Sync := by
    simpa [dequeueHead, setTransfer, XdmaTransfer.Sync] using h
  have hself := engineTransferCompletion_of_sync (dequeueHead e p s) p hsync
  refine ⟨hself.1.trans ?_, hself.2⟩
  simp only [dequeueHead, setTransfer, Function.update_self]

/-- All that retiring the head does. -/
theorem retireHead_completed : retireHead e p .completed =
    { e.setTransfer p (e.transfers p).retired with
      transferList := e.transferList.tail
      descDequeued := e.descDequeued + (e.transfers p).descNum
      freed := if (e.transfers p).request.isSome then p :: e.freed else e.freed
      aioCompleted := (e.transfers p).request.toList ++ e.aioCompleted } := by
  rcases hiocb : (e.transfers p).iocb with _ | iocb <;>
    rcases hlast : (e.transfers p).lastInRequest with _ | _ <;>
      simp [retireHead, dequeueHead, engineTransferCompletion, transferDestroy, setTransfer,
        XdmaTransfer.retired, XdmaTransfer.request, hiocb, hlast]

end Retire

/-! ## The retire loop -/

section Loop

@[simp] theorem retireHead_descNumOf (e : XdmaEngine) (p : Ptr) (s : TransferState) :
    (retireHead e p s).descNumOf = e.descNumOf := by
  funext q
  rcases eq_or_ne q p with rfl | hne
  · obtain ⟨n, hn⟩ := retireHead_self e q s
    rw [descNumOf, hn, descNumOf]
  · rw [descNumOf, retireHead_of_ne e p s hne, descNumOf]

@[simp] theorem retireHead_cyclicOf (e : XdmaEngine) (p : Ptr) (s : TransferState) :
    (retireHead e p s).cyclicOf = e.cyclicOf := by
  funext q
  rcases eq_or_ne q p with rfl | hne
  · obtain ⟨n, hn⟩ := retireHead_self e q s
    rw [cyclicOf, hn, cyclicOf]
  · rw [cyclicOf, retireHead_of_ne e p s hne, cyclicOf]

/-- Retire the transfers `done`, the first of which is the head of the queue. -/
def retireAll (e : XdmaEngine) (done : List Ptr) : XdmaEngine :=
  done.foldl (fun e p => retireHead e p .completed) e

variable (e : XdmaEngine) (done : List Ptr)

@[simp] theorem retireAll_transferList :
    (retireAll e done).transferList = e.transferList.drop done.length := by
  induction done generalizing e with
  | nil => rfl
  | cons p done ih =>
    refine (ih (retireHead e p .completed)).trans ?_
    rw [retireHead_transferList, List.drop_tail]
    rfl

/-- A relation that retiring one transfer keeps, retiring several keeps. -/
theorem retireAll_rel {R : XdmaEngine → XdmaEngine → Prop} (hrefl : ∀ e, R e e)
    (htrans : ∀ {e e₁ e₂}, R e e₁ → R e₁ e₂ → R e e₂)
    (hstep : ∀ e p, R e (retireHead e p .completed)) : R e (retireAll e done) := by
  induction done generalizing e with
  | nil => exact hrefl e
  | cons p done ih => exact htrans (hstep e p) (ih _)

/-- What retiring one transfer leaves alone, retiring several leaves alone. -/
theorem retireAll_same {β : Type} (f : XdmaEngine → β)
    (hf : ∀ e p, f (retireHead e p .completed) = f e) : f (retireAll e done) = f e :=
  retireAll_rel (R := fun e e' => f e' = f e) e done (fun _ => rfl) (fun h h' => h'.trans h) hf

@[simp] theorem retireAll_running : (retireAll e done).running = e.running :=
  retireAll_same e done (·.running) (retireHead_running · · .completed)

@[simp] theorem retireAll_started : (retireAll e done).started = e.started :=
  retireAll_same e done (·.started) (retireHead_started · · .completed)

@[simp] theorem retireAll_status : (retireAll e done).status = e.status :=
  retireAll_same e done (·.status) (retireHead_status · · .completed)

@[simp] theorem retireAll_shutdown : (retireAll e done).shutdown = e.shutdown :=
  retireAll_same e done (·.shutdown) (retireHead_shutdown · · .completed)

@[simp] theorem retireAll_descNumOf : (retireAll e done).descNumOf = e.descNumOf :=
  retireAll_same e done XdmaEngine.descNumOf (retireHead_descNumOf · · .completed)

@[simp] theorem retireAll_descDequeued :
    (retireAll e done).descDequeued = e.descDequeued + (done.map e.descNumOf).sum := by
  induction done generalizing e with
  | nil => exact (BitVec.add_zero _).symm
  | cons p done ih =>
    refine (ih _).trans ?_
    rw [retireHead_descDequeued, retireHead_descNumOf, List.map_cons, List.sum_cons,
      BitVec.add_assoc]
    rfl

theorem retireAll_config : SameConfig e (retireAll e done) :=
  retireAll_rel e done .refl .trans fun e p => retireHead_config e p .completed

theorem retireAll_of_not_mem {q : Ptr} (h : q ∉ done) :
    (retireAll e done).transfers q = e.transfers q := by
  induction done generalizing e with
  | nil => rfl
  | cons p done ih =>
    rw [List.mem_cons, not_or] at h
    exact (ih _ h.2).trans (retireHead_of_ne e p _ h.1)

/-- All that is popped is completed and either woken once, or freed with its request completed. -/
structure AllRetired (e : XdmaEngine) (done : List Ptr) (e' : XdmaEngine) : Prop where
  transfers : ∀ p ∈ done, e'.transfers p = (e.transfers p).retired
  freed : e'.freed =
    (done.filter fun p => (e.transfers p).request.isSome).reverse ++ e.freed
  aioCompleted : e'.aioCompleted =
    (done.filterMap fun p => (e.transfers p).request).reverse ++ e.aioCompleted

variable {done}

/-- Each of several transfers is retired as it was before the first. -/
theorem retireAll_retired (hnodup : done.Nodup) : AllRetired e done (retireAll e done) := by
  induction done generalizing e with
  | nil => exact ⟨fun _ hp => (by cases hp), rfl, rfl⟩
  | cons p done ih =>
    rw [List.nodup_cons] at hnodup
    have hhead := retireHead_completed e p
    have hself : (retireHead e p .completed).transfers p = (e.transfers p).retired := by
      rw [hhead]
      exact Function.update_self _ _ _
    have hother : ∀ q ∈ done, (retireHead e p .completed).transfers q = e.transfers q :=
      fun q hq => retireHead_of_ne e p _ fun heq => hnodup.1 (heq ▸ hq)
    obtain ⟨htransfers, hfreed, haio⟩ := ih (retireHead e p .completed) hnodup.2
    refine ⟨fun q hq => ?_, hfreed.trans ?_, haio.trans ?_⟩
    · rcases List.mem_cons.mp hq with rfl | hmem
      · exact (retireAll_of_not_mem _ _ hnodup.1).trans hself
      · rw [← hother q hmem]
        exact htransfers q hmem
    · rw [List.filter_cons, List.filter_congr fun q hq => by rw [hother q hq],
        congrArg XdmaEngine.freed hhead]
      dsimp only
      split
      · rw [List.reverse_cons, List.append_assoc, List.singleton_append]
      · rfl
    · rw [List.filterMap_cons, List.filterMap_congr fun q hq => by rw [hother q hq],
        congrArg XdmaEngine.aioCompleted hhead]
      rcases (e.transfers p).request with _ | request
      · rfl
      · rw [List.reverse_cons, List.append_assoc, Option.toList_some]

/-- Each retired transfer is completed, and changes in nothing else but its wake-ups. -/
theorem retireAll_of_mem {q : Ptr} (hnodup : done.Nodup) (h : q ∈ done) :
    ∃ n, (retireAll e done).transfers q =
      { e.transfers q with state := .completed, wakeUps := n } :=
  ⟨_, (retireAll_retired e hnodup).transfers q h⟩

/-- Synchronous transfers are woken once each and not freed. -/
theorem retireAll_of_sync (hnodup : done.Nodup) (hsync : ∀ q ∈ done, (e.transfers q).Sync) :
    (∀ q ∈ done, ((retireAll e done).transfers q).wakeUps = (e.transfers q).wakeUps + 1) ∧
      (retireAll e done).freed = e.freed := by
  have hretired := retireAll_retired e hnodup
  have hnone : ∀ q ∈ done, (e.transfers q).request.isSome = false := fun q hq => by
    rw [(hsync q hq).request, Option.isSome_none]
  refine ⟨fun q hq => ?_, hretired.freed.trans ?_⟩
  · rw [hretired.transfers q hq, XdmaTransfer.retired, hnone q hq]
    rfl
  · rw [List.filter_eq_nil_iff.mpr fun q hq => by rw [hnone q hq]; exact Bool.false_ne_true]
    rfl

/-- The descriptors `d` pay for the transfers `done` one by one, each of them less than what
is left, and `d'` are left over. -/
inductive Retires (num : Ptr → U32) (cyclic : Ptr → Bool) : U32 → List Ptr → U32 → Prop
  | nil (d : U32) : Retires num cyclic d [] d
  | cons {d d' : U32} {p : Ptr} {done : List Ptr} (hcyclic : cyclic p = false) (hlt : num p < d)
      (hrest : Retires num cyclic (d - num p) done d') : Retires num cyclic d (p :: done) d'

/-- Descriptors that do not pay for more than the head of the queue retire nothing. -/
theorem Retires.eq_nil {num : Ptr → U32} {cyclic : Ptr → Bool} {d d' : U32} {done rest : List Ptr}
    (h : Retires num cyclic d done d') (hle : ∀ p ∈ (done ++ rest).head?, d ≤ num p) :
    done = [] ∧ d' = d := by
  cases h with
  | nil => exact ⟨rfl, rfl⟩
  | cons _ hlt _ => exact absurd hlt (BitVec.not_lt.mpr (hle _ rfl))

/-- The loop retires the longest prefix the descriptors pay for. -/
theorem retireLoop_eq (d : U32) (queue : List Ptr) :
    ∃ done rest d', queue = done ++ rest ∧ Retires e.descNumOf e.cyclicOf d done d' ∧
      retireLoop e d queue = (retireAll e done, rest.head?, d') ∧
      ∀ p ∈ rest.head?, e.cyclicOf p = true ∨ d' ≤ e.descNumOf p := by
  induction queue generalizing e d with
  | nil => exact ⟨[], [], d, rfl, .nil d, rfl, fun p hp => (by cases hp)⟩
  | cons p queue ih =>
    rw [retireLoop]
    split
    · next hpay =>
      obtain ⟨done, rest, d', hqueue, hretires, hloop, hstop⟩ :=
        ih (retireHead e p .completed) (d - (e.transfers p).descNum)
      simp only [retireHead_descNumOf, retireHead_cyclicOf] at hretires hstop
      exact ⟨p :: done, rest, d', by rw [hqueue]; rfl,
        .cons (Bool.eq_false_iff.mpr hpay.1) hpay.2 hretires, hloop, hstop⟩
    · next hpay =>
      refine ⟨[], p :: queue, d, rfl, .nil d, rfl, fun q hq => ?_⟩
      obtain rfl : p = q := by simpa using hq
      rcases hc : (e.transfers p).cyclic with _ | _
      · exact Or.inr (BitVec.not_lt.mp fun hlt => hpay ⟨by simp [hc], hlt⟩)
      · exact Or.inl hc

end Loop

end Wimi
