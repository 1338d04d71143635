import Wimi.Retire

/-!
# What the engine functions do

One inversion lemma for each function that runs under the engine lock : what a call that
returns has done to the queue, to the transfers and to the run of the hardware.

* `engineService_cases` : a service call on a running engine retires a prefix of the queue,
  disposes of the transfer behind it and resumes;
* `transferQueue_cases` : a queued transfer is submitted at the tail of the queue.
-/

namespace Wimi

open XdmaEngine

/-! ## Service -/

section Service

variable {e e' : XdmaEngine} {hw : HwReads} {w : U32}

/-- The status of a service call reports an error. -/
def ServiceErr (e : XdmaEngine) (hw : HwReads) (w : U32) : Prop :=
  serviceStatus e hw w &&& errFlags ≠ 0

/-- A service call leaves the engine running : it reads it busy, and no descriptors were
written back. -/
def ServiceBusy (e : XdmaEngine) (hw : HwReads) (w : U32) : Prop :=
  serviceStatus e hw w &&& XDMA_STAT_BUSY ≠ 0 ∧ w &&& WB_COUNT_MASK = 0

instance : Decidable (ServiceErr e hw w) :=
  inferInstanceAs (Decidable (_ ≠ _))

instance : Decidable (ServiceBusy e hw w) :=
  inferInstanceAs (Decidable (_ ∧ _))

/-- The engine a service call goes to its queue with. -/
structure Entered (e : XdmaEngine) (hw : HwReads) (w : U32) (e₀ : XdmaEngine) : Prop where
  queue : SameQueue e e₀
  status : e₀.status = serviceStatus e hw w
  running : e₀.running = true ↔ ServiceBusy e hw w
  descDequeued : e₀.descDequeued = e.descDequeued
  started : e₀.started = e.started
  shutdown : e₀.shutdown = e.shutdown

theorem entered_serviceEntry (hw : HwReads) (w : U32) (hrun : e.running = true) :
    Entered e hw w (serviceEntry e hw w) := by
  unfold serviceEntry
  by_cases hidle : serviceStatus e hw w &&& XDMA_STAT_BUSY = 0 ∨ w &&& WB_COUNT_MASK ≠ 0
  · refine ⟨⟨?_, ?_, ?_, ?_⟩, ?_, ?_, ?_, ?_, ?_⟩ <;> simp only [hidle, if_true]
    · exact ⟨rfl, rfl, rfl⟩
    all_goals try rfl
    refine iff_of_false (by simp [engineServiceShutdown]) fun hbusy => ?_
    rcases hidle with h | h
    · exact hbusy.1 h
    · exact h hbusy.2
  · refine ⟨⟨?_, ?_, ?_, ?_⟩, ?_, ?_, ?_, ?_, ?_⟩ <;> simp only [hidle, if_false]
    · exact ⟨rfl, rfl, rfl⟩
    rw [not_or, not_not] at hidle
    exact iff_of_true hrun hidle

/-- Performance counting changes neither the queue nor the run. -/
theorem Entered.perf {e₀ : XdmaEngine} (h : Entered e hw w e₀) (count : U32) :
    Entered e hw w (engineServicePerf e₀ count) := by
  have hperf : SameQueue e₀ (engineServicePerf e₀ count) ∧
      SameRun e₀ (engineServicePerf e₀ count) ∧
      (engineServicePerf e₀ count).status = e₀.status := by
    unfold engineServicePerf
    rcases e₀.xdmaPerf with _ | perf
    · exact ⟨.refl e₀, .refl e₀, rfl⟩
    · dsimp only
      split <;> exact ⟨⟨⟨rfl, rfl, rfl⟩, rfl, rfl, rfl⟩, ⟨rfl, rfl, rfl, rfl⟩, rfl⟩
  obtain ⟨hq, hr, hs⟩ := hperf
  exact ⟨h.queue.trans hq, hs.trans h.status, by rw [hr.running, h.running],
    hr.descDequeued.trans h.descDequeued, hr.started.trans h.started, hr.shutdown.trans h.shutdown⟩

/-- The state the last transfer of a service call is retired with. -/
def finalState (num d : U32) : TransferState :=
  if d < num then .failed else .completed

/-- The final transfer is marked failed and left on the queue when the status reports an
error, and retired otherwise. -/
theorem finalTransfer_cases (e : XdmaEngine) (p : Ptr) (d : U32) :
    (e.status &&& errFlags ≠ 0 ∧ finalTransfer e p d = engineErrHandle e p) ∨
      (e.status &&& errFlags = 0 ∧
        finalTransfer e p d = retireHead e p (finalState (e.descNumOf p) d)) := by
  unfold finalTransfer finalState
  by_cases herr : e.status &&& errFlags ≠ 0
  · exact Or.inl ⟨herr, if_pos herr⟩
  · refine Or.inr ⟨not_not.mp herr, (if_neg herr).trans ?_⟩
    by_cases hlt : d < (e.transfers p).descNum
    · rw [if_pos hlt, if_pos (show d < e.descNumOf p from hlt)]
    · rw [if_neg hlt, if_neg (show ¬ d < e.descNumOf p from hlt)]

theorem clearWriteback_frame (e : XdmaEngine) :
    SameQueue e (clearWriteback e) ∧ SameRun e (clearWriteback e) := by
  unfold clearWriteback
  split
  · exact ⟨⟨⟨rfl, rfl, rfl⟩, rfl, rfl, rfl⟩, ⟨rfl, rfl, rfl, rfl⟩⟩
  · exact ⟨.refl e, .refl e⟩

/-- What became of the queue `done ++ p :: rest` : the transfers `done` are retired, and the
transfer `p`, for which `d` descriptors were left, is marked failed where it is when there is
an error, and retired otherwise. -/
structure Disposed (e e' : XdmaEngine) (err : Prop) (done : List Ptr) (p : Ptr)
    (rest : List Ptr) (d : U32) : Prop where
  config : SameConfig e e'
  others : ∀ q ∉ done, q ≠ p → e'.transfers q = e.transfers q
  completed : ∀ q ∈ done, ∃ n,
    e'.transfers q = { e.transfers q with state := .completed, wakeUps := n }
  failed : err → e'.transferList = p :: rest ∧
    e'.transfers p = { e.transfers p with state := .failed }
  final : ¬ err → e'.transferList = rest ∧ ∃ n, e'.transfers p =
    { e.transfers p with state := finalState (e.descNumOf p) d, wakeUps := n }
  sync : (∀ q ∈ p :: done, (e.transfers q).Sync) → e'.freed = e.freed ∧
    (∀ q ∈ done, (e'.transfers q).wakeUps = (e.transfers q).wakeUps + 1) ∧
    (¬ err → (e'.transfers p).wakeUps = (e.transfers p).wakeUps + 1)

/-- What became of the queue does not depend on what else changes before and after. -/
theorem Disposed.congr {e₀ e₁ e₂ e₃ : XdmaEngine} {err : Prop} {done rest : List Ptr} {p : Ptr}
    {d : U32} (h : Disposed e₁ e₂ err done p rest d) (hbefore : SameQueue e₀ e₁)
    (hafter : SameQueue e₂ e₃) : Disposed e₀ e₃ err done p rest d := by
  obtain ⟨hconfig, hothers, hcompleted, hfailed, hfinal, hsync⟩ := h
  rw [← hafter.list, ← hafter.transfers, hbefore.transfers] at hfailed
  rw [← hafter.list, ← hafter.transfers, hbefore.transfers, hbefore.descNumOf] at hfinal
  simp only [← hafter.transfers, hbefore.transfers] at hothers hcompleted
  rw [← hafter.transfers, ← hafter.freed, hbefore.transfers, hbefore.freed] at hsync
  exact ⟨hbefore.config.trans (hconfig.trans hafter.config), hothers, hcompleted, hfailed, hfinal,
    hsync⟩

/-- A transfer changes in nothing but its state and its wake-ups. -/
theorem Disposed.transfer {err : Prop} {done rest : List Ptr} {p : Ptr} {d : U32}
    (h : Disposed e e' err done p rest d) (q : Ptr) :
    ∃ s n, e'.transfers q = { e.transfers q with state := s, wakeUps := n } := by
  by_cases hq : q ∈ done
  · exact ⟨.completed, h.completed q hq⟩
  rcases eq_or_ne q p with rfl | hne
  · by_cases herr : err
    · exact ⟨.failed, _, (h.failed herr).2⟩
    · exact ⟨_, (h.final herr).2⟩
  · exact ⟨_, _, h.others q hq hne⟩

/-- Whatever became of it, a transfer keeps its descriptors. -/
theorem Disposed.descNumOf {err : Prop} {done rest : List Ptr} {p : Ptr} {d : U32}
    (h : Disposed e e' err done p rest d) : e'.descNumOf = e.descNumOf := by
  funext q
  obtain ⟨s, n, hq⟩ := h.transfer q
  rw [XdmaEngine.descNumOf, hq, XdmaEngine.descNumOf]

theorem Disposed.cyclicOf {err : Prop} {done rest : List Ptr} {p : Ptr} {d : U32}
    (h : Disposed e e' err done p rest d) : e'.cyclicOf = e.cyclicOf := by
  funext q
  obtain ⟨s, n, hq⟩ := h.transfer q
  rw [XdmaEngine.cyclicOf, hq, XdmaEngine.cyclicOf]

section Dispose

variable {err : Prop} {done rest : List Ptr} {p : Ptr} {d : U32}

/-- The loop that retires `done` leaves `p` at the head of the queue, as it was. -/
theorem retireAll_append (hlist : e.transferList = done ++ p :: rest)
    (hnodup : e.transferList.Nodup) :
    (retireAll e done).transferList = p :: rest ∧
      (retireAll e done).transfers p = e.transfers p ∧ done.Nodup ∧ ∀ q ∈ done, q ≠ p := by
  have hdrop : (retireAll e done).transferList = p :: rest := by
    rw [retireAll_transferList, hlist, List.drop_left]
  rw [hlist, List.nodup_append] at hnodup
  have hne : ∀ q ∈ done, q ≠ p := fun q hq => hnodup.2.2 q hq p List.mem_cons_self
  exact ⟨hdrop, retireAll_of_not_mem e done fun hmem => hne p hmem rfl, hnodup.1, hne⟩

/-- Behind an error the transfer at `p` is marked failed where it is. -/
theorem disposed_engineErrHandle (hlist : e.transferList = done ++ p :: rest)
    (hnodup : e.transferList.Nodup) (herr : err) :
    Disposed e (engineErrHandle (retireAll e done) p) err done p rest d := by
  obtain ⟨hdrop, hpkeep, hdone, hne⟩ := retireAll_append hlist hnodup
  have hother : ∀ q, q ≠ p →
      (engineErrHandle (retireAll e done) p).transfers q = (retireAll e done).transfers q :=
    fun q hq => Function.update_of_ne hq _ _
  refine ⟨(retireAll_config e done).trans ⟨rfl, rfl, rfl⟩, fun q hq hqp => ?_, fun q hq => ?_,
    fun _ => ⟨hdrop, ?_⟩, fun h => absurd herr h, fun hsync => ?_⟩
  · rw [hother q hqp, retireAll_of_not_mem e done hq]
  · rw [hother q (hne q hq)]
    exact retireAll_of_mem e hdone hq
  · refine (Function.update_self _ _ _).trans ?_
    rw [hpkeep]
  · obtain ⟨hwoken, hfreed⟩ :=
      retireAll_of_sync e hdone fun q hq => hsync q (List.mem_cons_of_mem _ hq)
    refine ⟨hfreed, fun q hq => ?_, fun h => absurd herr h⟩
    rw [hother q (hne q hq)]
    exact hwoken q hq

/-- Without one it is retired as well. -/
theorem disposed_retireHead (hlist : e.transferList = done ++ p :: rest)
    (hnodup : e.transferList.Nodup) (herr : ¬ err) :
    Disposed e (retireHead (retireAll e done) p (finalState (e.descNumOf p) d)) err done p rest
      d := by
  obtain ⟨hdrop, hpkeep, hdone, hne⟩ := retireAll_append hlist hnodup
  refine ⟨(retireAll_config e done).trans (retireHead_config ..), fun q hq hqp => ?_,
    fun q hq => ?_, fun h => absurd h herr, fun _ => ⟨?_, ?_⟩, fun hsync => ?_⟩
  · rw [retireHead_of_ne _ _ _ hqp, retireAll_of_not_mem e done hq]
  · rw [retireHead_of_ne _ _ _ (hne q hq)]
    exact retireAll_of_mem e hdone hq
  · rw [retireHead_transferList, hdrop, List.tail_cons]
  · obtain ⟨n, hn⟩ := retireHead_self (retireAll e done) p (finalState (e.descNumOf p) d)
    exact ⟨n, by rw [hn, hpkeep]⟩
  · obtain ⟨hwoken, hfreed⟩ :=
      retireAll_of_sync e hdone fun q hq => hsync q (List.mem_cons_of_mem _ hq)
    have hpsync : ((retireAll e done).transfers p).Sync := by
      rw [hpkeep]
      exact hsync p List.mem_cons_self
    have hself := retireHead_of_sync (retireAll e done) p (finalState (e.descNumOf p) d) hpsync
    refine ⟨hself.2.trans hfreed, fun q hq => ?_, fun _ => ?_⟩
    · rw [retireHead_of_ne _ _ _ (hne q hq)]
      exact hwoken q hq
    · rw [hself.1, hpkeep]

/-- The retire loop and the final transfer dispose of the queue and leave the run alone, but
for the descriptors they dequeue. -/
theorem disposed_finalTransfer (hlist : e.transferList = done ++ p :: rest)
    (hnodup : e.transferList.Nodup) :
    Disposed e (finalTransfer (retireAll e done) p d) (e.status &&& errFlags ≠ 0) done p rest d ∧
      (finalTransfer (retireAll e done) p d).running = e.running ∧
      (finalTransfer (retireAll e done) p d).started = e.started ∧
      (finalTransfer (retireAll e done) p d).shutdown = e.shutdown ∧
      (finalTransfer (retireAll e done) p d).descDequeued =
        e.descDequeued + (done.map e.descNumOf).sum +
          if e.status &&& errFlags ≠ 0 then 0 else e.descNumOf p := by
  have hcases := finalTransfer_cases (retireAll e done) p d
  rw [retireAll_status, retireAll_descNumOf] at hcases
  rcases hcases with ⟨herr, heq⟩ | ⟨herr, heq⟩ <;> rw [heq]
  · rw [if_pos herr, add_zero]
    exact ⟨disposed_engineErrHandle hlist hnodup herr, retireAll_running e done,
      retireAll_started e done, retireAll_shutdown e done, retireAll_descDequeued e done⟩
  · refine ⟨disposed_retireHead hlist hnodup (not_not.mpr herr), ?_⟩
    have hnum : ((retireAll e done).transfers p).descNum = e.descNumOf p := by
      rw [(retireAll_append hlist hnodup).2.1, descNumOf]
    rw [if_neg (not_not.mpr herr), retireHead_running, retireHead_started, retireHead_shutdown,
      retireHead_descDequeued, hnum]
    simp

end Dispose

/-- What a service call on a running engine has done : it disposed of the queue as far as the
descriptors go, and resumed. -/
structure Serviced (e e' : XdmaEngine) (hw : HwReads) (w : U32) (done : List Ptr) (p : Ptr)
    (rest : List Ptr) (d : U32) : Prop extends
    Disposed e e' (ServiceErr e hw w) done p rest d where
  list : e.transferList = done ++ p :: rest
  retires : Retires e.descNumOf e.cyclicOf (serviceCount hw w - e.descDequeued) done d
  stops : e.cyclicOf p = true ∨ d ≤ e.descNumOf p
  busy : ServiceBusy e hw w → e'.running = true ∧ e'.started = e.started ∧
    e'.descDequeued = e.descDequeued + (done.map e.descNumOf).sum +
      if ServiceErr e hw w then 0 else e.descNumOf p
  idle : ¬ ServiceBusy e hw w →
    e'.running = false ∧ e'.started = e.started ∧
        (e'.transferList = [] ∨ e.shutdown &&& ENGINE_SHUTDOWN_REQUEST ≠ 0) ∨
      ∃ q, e'.transferList.head? = some q ∧ e'.running = true ∧ e'.descDequeued = 0 ∧
        e'.started = (q, e'.transfers q) :: e.started
  unrequested : e.shutdown &&& ENGINE_SHUTDOWN_REQUEST = 0 →
    e'.shutdown &&& ENGINE_SHUTDOWN_REQUEST = 0

/-- A service call on a running engine with a queue, up to the resumption. It stops the kernel
when the retire loop empties the queue. -/
theorem engineService_running (hw : HwReads) (w : U32) (hrun : e.running = true)
    (hlist : e.transferList ≠ []) :
    ∃ e₀ done rest d, Entered e hw w e₀ ∧ e.transferList = done ++ rest ∧
      Retires e.descNumOf e.cyclicOf (serviceCount hw w - e.descDequeued) done d ∧
      (∀ p ∈ rest.head?, e.cyclicOf p = true ∨ d ≤ e.descNumOf p) ∧
      engineService e hw w =
        match rest with
        | [] => .error (retireAll e₀ done)
        | p :: _ =>
          (engineServiceResume (clearWriteback (finalTransfer (retireAll e₀ done) p d))).map
            fun e => (e, if w &&& WB_ERR_MASK ≠ 0 then -1 else 0) := by
  have hentry : Entered e hw w (serviceEntry e hw w) := entered_serviceEntry hw w hrun
  obtain ⟨a, queue, hq⟩ := List.exists_cons_of_ne_nil hlist
  have hent := hentry.perf (serviceCount hw w)
  obtain ⟨done, rest, d, hsplit, hretires, hloop, hstop⟩ :=
    retireLoop_eq (engineServicePerf (serviceEntry e hw w) (serviceCount hw w))
      (serviceCount hw w - e.descDequeued) e.transferList
  rw [hent.queue.descNumOf, hent.queue.cyclicOf] at hretires hstop
  refine ⟨_, done, rest, d, hent, hsplit, hretires, hstop, ?_⟩
  simp only [engineService, hrun, not_true_eq_false, if_false, hentry.queue.list, hq,
    List.head?_cons, Option.isSome_some, if_true, hent.descDequeued, engineServiceTransferList,
    hent.queue.list]
  rw [← hq, hloop]
  cases rest <;> rfl

/-- A service call on a running engine with an empty queue stops the kernel. -/
theorem engineService_empty (hrun : e.running = true) (hlist : e.transferList = []) :
    engineService e hw w = .error (serviceEntry e hw w) := by
  have hentry : Entered e hw w (serviceEntry e hw w) := entered_serviceEntry hw w hrun
  simp only [engineService, hrun, not_true_eq_false, if_false, hentry.queue.list, hlist]
  rfl

/-- A service call on a running engine returns when the descriptors do not pay for more than
the head of its queue. -/
theorem engineService_ok (hw : HwReads) (w : U32) (hrun : e.running = true)
    (hlist : e.transferList ≠ [])
    (hle : ∀ p ∈ e.transferList.head?, serviceCount hw w - e.descDequeued ≤ e.descNumOf p) :
    ∃ r, engineService e hw w = .ok r := by
  obtain ⟨e₀, done, rest, d, -, hsplit, hretires, -, heq⟩ :=
    engineService_running hw w hrun hlist
  rw [hsplit] at hle hlist
  obtain ⟨rfl, -⟩ := hretires.eq_nil hle
  rcases rest with _ | ⟨p, rest⟩
  · exact absurd rfl hlist
  · obtain ⟨e', he'⟩ :=
      engineServiceResume_ok (clearWriteback (finalTransfer (retireAll e₀ []) p d))
    exact ⟨_, heq.trans (congrArg (Except.map _) he')⟩

/-- The inversion lemma for `engine_service` on a running engine. -/
theorem engineService_cases {rc : ℤ} (hrun : e.running = true) (hnodup : e.transferList.Nodup)
    (h : engineService e hw w = .ok (e', rc)) :
    (rc = if w &&& WB_ERR_MASK ≠ 0 then -1 else 0) ∧
      ∃ done p rest d, Serviced e e' hw w done p rest d := by
  have hne : e.transferList ≠ [] := fun hempty => by
    rw [engineService_empty hrun hempty] at h
    cases h
  obtain ⟨e₀, done, rest, d, hent, hlist, hretires, hstop, heq⟩ :=
    engineService_running hw w hrun hne
  rw [heq] at h
  rcases rest with _ | ⟨p, rest⟩
  · cases h
  obtain ⟨e₃, hresume, hpair⟩ := Except.map_eq_ok h
  obtain ⟨rfl, rfl⟩ := Prod.mk.inj hpair
  have hsplit : e₀.transferList = done ++ p :: rest := by rw [hent.queue.list, hlist]
  have hnodup₀ : e₀.transferList.Nodup := by rwa [hent.queue.list]
  obtain ⟨hdisp, hrun₂, hstarted₂, hshut₂, hdeq₂⟩ := disposed_finalTransfer hsplit hnodup₀ (d := d)
  obtain ⟨hclearq, hclearr⟩ := clearWriteback_frame (finalTransfer (retireAll e₀ done) p d)
  obtain ⟨hresumeq, -, -, hcases⟩ := engineServiceResume_cases hresume
  rw [hent.status] at hdisp hdeq₂
  refine ⟨rfl, done, p, rest, d, hdisp.congr hent.queue (hclearq.trans hresumeq), hlist, hretires,
    hstop p rfl, fun hbusy => ?_, fun hbusy => ?_, fun hnone => ?_⟩
  · have hrun₃ : (clearWriteback (finalTransfer (retireAll e₀ done) p d)).running = true := by
      rw [hclearr.running, hrun₂, hent.running]
      exact hbusy
    rcases hcases with ⟨hsame, -⟩ | ⟨-, hidle, -⟩ | ⟨-, q, hstart⟩
    · refine ⟨hsame.running.trans hrun₃, ?_, ?_⟩
      · rw [hsame.started, hclearr.started, hstarted₂, hent.started]
      · rw [hsame.descDequeued, hclearr.descDequeued, hdeq₂, hent.queue.descNumOf,
          hent.descDequeued]
        rfl
    · exact absurd (hrun₃.symm.trans hidle) (by decide)
    · exact absurd (hrun₃.symm.trans hstart.idle) (by decide)
  · have hrun₃ : (clearWriteback (finalTransfer (retireAll e₀ done) p d)).running = false := by
      rw [hclearr.running, hrun₂, Bool.eq_false_iff, Ne, hent.running]
      exact hbusy
    rcases hcases with ⟨hsame, hwhy⟩ | ⟨hshut, -, hidle, hstarted⟩ | ⟨-, q, hstart⟩
    · refine Or.inl ⟨hsame.running.trans hrun₃, ?_, Or.inl ?_⟩
      · rw [hsame.started, hclearr.started, hstarted₂, hent.started]
      · rw [hresumeq.list]
        exact hwhy.resolve_left (by simp [hrun₃])
    · refine Or.inl ⟨hidle, ?_, Or.inr ?_⟩
      · rw [hstarted, hclearr.started, hstarted₂, hent.started]
      · rwa [← hent.shutdown, ← hshut₂, ← hclearr.shutdown]
    · refine Or.inr ⟨q, hresumeq.list ▸ hstart.head, hstart.running, hstart.descDequeued, ?_⟩
      rw [hstart.started, hresumeq.transfers, hclearr.started, hstarted₂, hent.started]
  · rw [← hent.shutdown, ← hshut₂, ← hclearr.shutdown] at hnone
    rcases hcases with ⟨hsame, -⟩ | ⟨hshut, -⟩ | ⟨-, q, hstart⟩
    · rw [hsame.shutdown]
      exact hnone
    · exact absurd hnone hshut
    · rw [hstart.shutdown]
      rfl

/-- A service call that stops the kernel has retired the whole queue, and started nothing. -/
theorem engineService_error (hnodup : e.transferList.Nodup)
    (h : engineService e hw w = .error e') :
    e'.transferList = [] ∧ e'.started = e.started ∧ e'.descNumOf = e.descNumOf ∧
      ∀ q, e.stateOf q ≠ .submitted → e'.stateOf q ≠ .submitted := by
  rcases hrun : e.running with _ | _
  · have hidle : ¬ e.running := by simp [hrun]
    rw [engineService, if_pos hidle] at h
    cases h
  by_cases hempty : e.transferList = []
  · rw [engineService_empty hrun hempty] at h
    obtain rfl := Except.error.inj h
    have hentry : Entered e hw w (serviceEntry e hw w) := entered_serviceEntry hw w hrun
    exact ⟨hentry.queue.list.trans hempty, hentry.started, hentry.queue.descNumOf,
      fun q hq => (hentry.queue.stateOf q).trans_ne hq⟩
  obtain ⟨e₀, done, rest, d, hent, hlist, -, -, heq⟩ := engineService_running hw w hrun hempty
  rw [heq] at h
  rcases rest with _ | ⟨p, rest⟩
  · obtain rfl := Except.error.inj h
    rw [List.append_nil] at hlist
    refine ⟨?_, ?_, ?_, fun q hq => ?_⟩
    · rw [retireAll_transferList, hent.queue.list, hlist, List.drop_length]
    · rw [retireAll_started, hent.started]
    · rw [retireAll_descNumOf, hent.queue.descNumOf]
    · by_cases hmem : q ∈ done
      · obtain ⟨n, hretired⟩ := retireAll_of_mem e₀ (hlist ▸ hnodup) hmem
        rw [XdmaEngine.stateOf, hretired]
        exact TransferState.noConfusion
      · rw [XdmaEngine.stateOf, retireAll_of_not_mem e₀ done hmem]
        exact (hent.queue.stateOf q).trans_ne hq
  · obtain ⟨e₁, he₁⟩ :=
      engineServiceResume_ok (clearWriteback (finalTransfer (retireAll e₀ done) p d))
    cases he₁.symm.trans (Except.map_eq_error h)

section Serviced

variable {done rest : List Ptr} {p : Ptr} {d : U32}

/-- A service call leaves the queue from its final transfer on, or from behind it. -/
theorem Serviced.list_cases (h : Serviced e e' hw w done p rest d) :
    (ServiceErr e hw w ∧ e'.transferList = p :: rest) ∨
      (¬ ServiceErr e hw w ∧ e'.transferList = rest) := by
  by_cases herr : ServiceErr e hw w
  · exact Or.inl ⟨herr, (h.failed herr).1⟩
  · exact Or.inr ⟨herr, (h.final herr).1⟩

theorem Serviced.sublist (h : Serviced e e' hw w done p rest d) :
    e'.transferList.Sublist e.transferList := by
  rw [h.list]
  rcases h.list_cases with ⟨-, hlist⟩ | ⟨-, hlist⟩ <;> rw [hlist]
  · exact List.sublist_append_right _ _
  · exact (List.sublist_cons_self _ _).trans (List.sublist_append_right _ _)

theorem Serviced.subset (h : Serviced e e' hw w done p rest d) :
    ∀ q ∈ e'.transferList, q ∈ e.transferList :=
  h.sublist.subset

/-- What a service call goes through was queued. -/
theorem Serviced.queued (h : Serviced e e' hw w done p rest d) :
    ∀ q ∈ p :: done, q ∈ e.transferList := by
  intro q hq
  rw [h.list, List.mem_append, List.mem_cons]
  exact (List.mem_cons.mp hq).elim (fun heq => Or.inr (Or.inl heq)) Or.inl

theorem Serviced.nodup (h : Serviced e e' hw w done p rest d) (hnodup : e.transferList.Nodup) :
    e'.transferList.Nodup :=
  hnodup.sublist h.sublist

/-- Retired transfers are off the queue. -/
theorem Serviced.not_mem (h : Serviced e e' hw w done p rest d) (hnodup : e.transferList.Nodup) :
    (∀ q ∈ done, q ∉ e'.transferList) ∧ (¬ ServiceErr e hw w → p ∉ e'.transferList) := by
  rw [h.list, List.nodup_append] at hnodup
  obtain ⟨-, hprest, hdisj⟩ := hnodup
  refine ⟨fun q hq hmem => ?_, fun herr => ?_⟩
  · refine hdisj q hq q ?_ rfl
    rcases h.list_cases with ⟨-, hlist⟩ | ⟨-, hlist⟩
    · exact hlist ▸ hmem
    · exact List.mem_cons_of_mem _ (hlist ▸ hmem)
  · rw [(h.final herr).1]
    exact (List.nodup_cons.mp hprest).1

/-- A service call without an error leaves alone what stays on the queue. -/
theorem Serviced.kept (h : Serviced e e' hw w done p rest d) (hnodup : e.transferList.Nodup)
    (herr : ¬ ServiceErr e hw w) {q : Ptr} (hq : q ∈ e'.transferList) :
    e'.transfers q = e.transfers q := by
  obtain ⟨hoff, hpoff⟩ := h.not_mem hnodup
  refine h.others q (fun hd => hoff q hd hq) ?_
  rintro rfl
  exact hpoff herr hq

/-- A service call on an engine that is not to be shut down leaves a queue only to a running
engine. -/
theorem Serviced.isRunning (h : Serviced e e' hw w done p rest d)
    (hnone : e.shutdown &&& ENGINE_SHUTDOWN_REQUEST = 0) (hne : e'.transferList ≠ []) :
    e'.running = true := by
  by_cases hb : ServiceBusy e hw w
  · exact (h.busy hb).1
  · rcases h.idle hb with ⟨-, -, hempty | hreq⟩ | ⟨-, -, hrun, -⟩
    · exact absurd hempty hne
    · exact absurd hnone hreq
    · exact hrun

/-- A service call starts the hardware on the head it leaves, or not at all. -/
theorem Serviced.started_cases (h : Serviced e e' hw w done p rest d) :
    e'.started = e.started ∨ ∃ q, e'.transferList.head? = some q ∧
      e'.started = (q, e'.transfers q) :: e.started := by
  by_cases hbusy : ServiceBusy e hw w
  · exact Or.inl (h.busy hbusy).2.1
  · rcases h.idle hbusy with ⟨-, hsame, -⟩ | ⟨q, hq, -, -, hstart⟩
    · exact Or.inl hsame
    · exact Or.inr ⟨q, hq, hstart⟩

end Serviced

/-- A service call on an engine that does not run at most reads its status. -/
theorem engineService_idle (hrun : e.running = false) :
    engineService e hw w =
      .ok (if w = 0 then engineStatusRead e hw.status else e, 0) := by
  simp [engineService, hrun]

/-- Such a call keeps the queue and the run. -/
theorem engineService_idle_cases {rc : ℤ} (hrun : e.running = false)
    (h : engineService e hw w = .ok (e', rc)) : SameQueue e e' ∧ SameRun e e' ∧ rc = 0 := by
  obtain ⟨rfl, rfl⟩ := Prod.mk.inj (Except.ok.inj ((engineService_idle hrun).symm.trans h))
  split
  · exact ⟨⟨⟨rfl, rfl, rfl⟩, rfl, rfl, rfl⟩, ⟨rfl, rfl, rfl, rfl⟩, rfl⟩
  · exact ⟨.refl e, .refl e, rfl⟩

end Service

/-! ## Queueing -/

/-- What queueing the transfer at `p` has done : it is submitted at the tail of the queue, and
an idle engine is started on the head. -/
structure Queued (e e' : XdmaEngine) (p : Ptr) : Prop where
  config : SameConfig e e'
  pos : e.descNumOf p ≠ 0
  list : e'.transferList = e.transferList ++ [p]
  self : e'.transfers p = { e.transfers p with state := .submitted }
  others : ∀ q ≠ p, e'.transfers q = e.transfers q
  freed : e'.freed = e.freed
  status : e'.status = e.status
  writeback : e'.completedDescCountWb = e.completedDescCountWb
  unrequested : e'.shutdown &&& ENGINE_SHUTDOWN_REQUEST = 0
  busy : e.running = true → SameRun e e'
  idle : e.running = false → ∃ q, e'.transferList.head? = some q ∧ e'.running = true ∧
    e'.descDequeued = 0 ∧ e'.started = (q, e'.transfers q) :: e.started

/-- Queueing keeps the descriptors of every transfer. -/
theorem Queued.descNumOf {e e' : XdmaEngine} {p : Ptr} (h : Queued e e' p) :
    e'.descNumOf = e.descNumOf := by
  funext q
  rcases eq_or_ne q p with rfl | hne
  · rw [XdmaEngine.descNumOf, h.self, XdmaEngine.descNumOf]
  · rw [XdmaEngine.descNumOf, h.others q hne, XdmaEngine.descNumOf]

/-- Queueing leaves the engine running. -/
theorem Queued.isRunning {e e' : XdmaEngine} {p : Ptr} (h : Queued e e' p) :
    e'.running = true := by
  rcases hrun : e.running with _ | _
  · obtain ⟨-, -, hrun', -⟩ := h.idle hrun
    exact hrun'
  · exact (h.busy hrun).running.trans hrun

theorem Queued.mem_iff {e e' : XdmaEngine} {p q : Ptr} (h : Queued e e' p) :
    q ∈ e'.transferList ↔ q ∈ e.transferList ∨ q = p := by
  rw [h.list, List.mem_append, List.mem_singleton]

theorem Queued.nodup {e e' : XdmaEngine} {p : Ptr} (h : Queued e e' p)
    (hnodup : e.transferList.Nodup) (hnew : p ∉ e.transferList) : e'.transferList.Nodup := by
  rw [h.list]
  refine hnodup.append (List.nodup_singleton _) fun q hq hqp => ?_
  exact hnew (List.mem_singleton.mp hqp ▸ hq)

/-- What holds of every queued transfer, and of the new one once it is submitted, holds of
every transfer on the new queue. -/
theorem Queued.forall_mem {e e' : XdmaEngine} {p : Ptr} {P : XdmaTransfer → Prop}
    (h : Queued e e' p) (hlist : ∀ q ∈ e.transferList, P (e.transfers q))
    (hp : P { e.transfers p with state := .submitted }) :
    ∀ q ∈ e'.transferList, P (e'.transfers q) := by
  intro q hq
  rcases eq_or_ne q p with rfl | hne
  · rwa [h.self]
  · rw [h.others q hne]
    exact hlist q ((h.mem_iff.mp hq).resolve_right hne)

theorem Queued.started_cases {e e' : XdmaEngine} {p : Ptr} (h : Queued e e' p) :
    e'.started = e.started ∨ ∃ q, e'.transferList.head? = some q ∧
      e'.started = (q, e'.transfers q) :: e.started := by
  rcases hrun : e.running with _ | _
  · obtain ⟨q, hhead, -, -, hstarted⟩ := h.idle hrun
    exact Or.inr ⟨q, hhead, hstarted⟩
  · exact Or.inl (h.busy hrun).started

/-- Queueing stops the kernel only on a transfer without descriptors. -/
theorem transferQueue_error {e e' : XdmaEngine} {p : Ptr} (h : transferQueue e p = .error e') :
    e' = e ∧ e.descNumOf p = 0 := by
  unfold transferQueue at h
  split at h
  · next hnum => exact ⟨(Except.error.inj h).symm, hnum⟩
  split at h
  · cases h
  split at h
  · cases h
  next hrun =>
  obtain ⟨e₁, he₁⟩ := engineStart_ok (e := submit e p) (Bool.eq_false_iff.mpr hrun)
    (List.append_ne_nil_of_right_ne_nil _ (List.cons_ne_nil _ _))
  rw [he₁] at h
  cases h

/-- What `transfer_queue` returns. -/
theorem transferQueue_rc {e e' : XdmaEngine} {p : Ptr} {rc : ℤ}
    (h : transferQueue e p = .ok (e', rc)) :
    rc = if e.shutdown &&& ENGINE_SHUTDOWN_REQUEST ≠ 0 then -1 else 0 := by
  unfold transferQueue at h
  split at h
  · cases h
  split at h
  · next hshut =>
    rw [if_pos hshut]
    exact (congrArg Prod.snd (Except.ok.inj h)).symm
  next hshut =>
  rw [if_neg hshut]
  split at h
  · exact (congrArg Prod.snd (Except.ok.inj h)).symm
  · obtain ⟨e₁, -, heq⟩ := Except.map_eq_ok h
    exact (congrArg Prod.snd heq).symm

/-- The inversion lemma for `transfer_queue`. -/
theorem transferQueue_cases {e e' : XdmaEngine} {p : Ptr} {rc : ℤ}
    (h : transferQueue e p = .ok (e', rc)) :
    (rc = -1 ∧ e' = e ∧ e.shutdown &&& ENGINE_SHUTDOWN_REQUEST ≠ 0) ∨
      (rc = 0 ∧ Queued e e' p) := by
  unfold transferQueue at h
  split at h
  · cases h
  next hpos =>
  split at h
  · next hshut =>
    obtain ⟨rfl, rfl⟩ := Prod.mk.inj (Except.ok.inj h)
    exact Or.inl ⟨rfl, rfl, hshut⟩
  next hshut =>
  rw [not_not] at hshut
  have hne : ∀ q, q ≠ p → (submit e p).transfers q = e.transfers q :=
    fun q hq => Function.update_of_ne hq _ _
  have hself : (submit e p).transfers p = { e.transfers p with state := .submitted } :=
    Function.update_self _ _ _
  refine Or.inr ?_
  split at h
  · next hrun =>
    obtain ⟨rfl, rfl⟩ := Prod.mk.inj (Except.ok.inj h)
    exact ⟨rfl, ⟨rfl, rfl, rfl⟩, hpos, rfl, hself, hne, rfl, rfl, rfl, hshut,
      fun _ => ⟨rfl, rfl, rfl, rfl⟩, fun hidle => absurd (hrun.symm.trans hidle) (by decide)⟩
  · next hrun =>
    obtain ⟨e₁, hstart, heq⟩ := Except.map_eq_ok h
    obtain ⟨rfl, rfl⟩ := Prod.mk.inj heq
    obtain ⟨hq, hs, hw, q, hhead⟩ := engineStart_cases hstart
    refine ⟨rfl, ⟨hq.config.pollMode, hq.config.streaming, hq.config.dirToDev⟩, hpos, hq.list, ?_,
      fun r hr => ?_, hq.freed, hs, hw, ?_, fun hbusy => absurd hbusy hrun, fun _ => ?_⟩
    · rw [hq.transfers]
      exact hself
    · rw [hq.transfers]
      exact hne r hr
    · rw [hhead.shutdown]
      rfl
    · refine ⟨q, hq.list ▸ hhead.head, hhead.running, hhead.descDequeued, ?_⟩
      rw [hhead.started, hq.transfers]
      rfl

end Wimi
