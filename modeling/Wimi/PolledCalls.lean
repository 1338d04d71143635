import Wimi.Truthful
import Wimi.TransferData

/-!
# Threads polling one writeback word

Any number of threads in `transfer_data` on one engine in poll mode. Each polls the word the
hardware writes its descriptor count to, and services the engine with what it read.

`counts_completed` : a thread counts a chunk only when its transfer is completed, in every run
in which a thread that services a running engine finds the hardware at the head of the queue,
with as many descriptors completed as it polled, and this head, unless an error was polled, is
its own transfer. The threads do not check for that : a thread that was polling the same count
services the completion of another, and takes the return value 0 for its own.
-/

open Machine

namespace Wimi

open XdmaEngine

/-! ## Sessions -/

/-- An engine, its hardware, and the calls of the threads. -/
structure PollSession extends HwSession where
  calls : ℕ → Call

inductive PollStep
  /-- The thread calls `transfer_data`. -/
  | enter (tid : ℕ) (remaining pos : ℤ)
  /-- The thread creates and queues its next transfer, or leaves the loop. None is a failed
  `transfer_create`. -/
  | submit (tid : ℕ) (built : Option (U64 × U32))
  /-- The thread reads the writeback word once. -/
  | poll (tid : ℕ) (timeout : Bool)
  /-- The thread services the engine. -/
  | service (tid : ℕ) (status : U32)
  /-- The thread goes by the state of its transfer. -/
  | settle (tid : ℕ) (status : U32)
  /-- The hardware completes descriptors. -/
  | progress (count : U32)
  /-- The hardware writes its count back. -/
  | writeback (err : Bool)

namespace PollSession

/-- The session with the thread's locals replaced. -/
def setCall (s : PollSession) (tid : ℕ) (c : Call) : PollSession :=
  { s with calls := Function.update s.calls tid c }

def enter (s : PollSession) (tid : ℕ) (remaining pos : ℤ) : Option PollSession :=
  match (s.calls tid).phase with
  | .returned _ => some (s.setCall tid (.enter remaining pos))
  | _ => none

/-- The queue holds a transfer that was freed : what a call under the lock does with it is
anything. -/
def UseAfterFree (s : HwSession) : Prop :=
  ∃ p ∈ s.engine.transferList, p ∈ s.engine.freed

instance (s : HwSession) : Decidable (UseAfterFree s) :=
  inferInstanceAs (Decidable (∃ p ∈ _, _))

def submit (s : PollSession) (tid : ℕ) (built : Option (U64 × U32)) : Option PollSession :=
  let c := s.calls tid
  if c.phase ≠ .loop then none
  else if ¬ c.Continues then some (s.setCall tid c.leave)
  else
    match built with
    | none => some (s.setCall tid c.noTransfer)
    | some (descBus, descNum) =>
      let h := s.toHwSession.create (c.newTransfer descBus descNum)
      if UseAfterFree s.toHwSession then none
      else some { h.afterCall (transferQueue h.engine s.next) with
        calls := Function.update s.calls tid (c.queued s.next) }

def poll (s : PollSession) (tid : ℕ) (timeout : Bool) : Option PollSession :=
  let c := s.calls tid
  match c.phase with
  | .monitor p =>
    let expected := s.engine.descNumOf p
    if pollTooLarge expected then some (s.setCall tid { c with phase := .monitored p (-1) })
    else
      match engineServiceWbMonitor expected s.engine.completedDescCountWb timeout with
      | none => some s
      | some w => some (s.setCall tid { c with phase := .polled p w })
  | _ => none

def service (s : PollSession) (tid : ℕ) (status : U32) : Option PollSession :=
  let c := s.calls tid
  match c.phase with
  | .polled p w =>
    if UseAfterFree s.toHwSession then none
    else
      let outcome := engineService s.engine ⟨status, s.hwCount⟩ w
      let rc := match outcome with
        | .ok (_, rc) => rc
        | .error _ => 0
      some { s.afterCall outcome with
        calls := Function.update s.calls tid { c with phase := .monitored p rc } }
  | _ => none

def settle (s : PollSession) (tid : ℕ) (status : U32) : Option PollSession :=
  let c := s.calls tid
  match c.phase with
  | .monitored p rc =>
    some { s with
      engine := settleEngine s.engine p rc status
      calls := Function.update s.calls tid (c.settle (s.engine.stateOf p) rc) }
  | _ => none

/-- The hardware writes its count to the polled word, with the error flag or without. -/
def writeback (s : PollSession) (err : Bool) : PollSession :=
  { s with engine := { s.engine with
      completedDescCountWb :=
        (s.hwCount &&& WB_COUNT_MASK) ||| (if err then WB_ERR_MASK else 0) } }

/-- One step; none is a step that is not enabled, or one that uses freed memory. -/
def step (s : PollSession) (i : PollStep) : Option PollSession :=
  if s.halted then none
  else
    match i with
    | .enter tid remaining pos => s.enter tid remaining pos
    | .submit tid built => s.submit tid built
    | .poll tid timeout => s.poll tid timeout
    | .service tid status => s.service tid status
    | .settle tid status => s.settle tid status
    | .progress count => (s.progress count).map fun h => { h with calls := s.calls }
    | .writeback err => some (s.writeback err)

/-- An idle engine in poll mode, and no thread in a call. -/
def start (streaming dirToDev nonIncrAddr : Bool) (memory : Ptr → XdmaTransfer) : PollSession where
  toHwSession := .start true streaming dirToDev nonIncrAddr memory 0
  calls _ := ⟨0, 0, 0, 0, 0, .returned 0⟩

end PollSession

/-- The transfer of the thread's chunk is completed, neither queued nor in flight. -/
def ChunkCompleted (s : PollSession) (tid : ℕ) : Prop :=
  ∃ p rc, (s.calls tid).phase = .monitored p rc ∧ s.engine.stateOf p = .completed ∧
    p ∉ s.engine.transferList ∧ ¬ InFlight s.toHwSession p

/-- A thread that is in a call adds to its counts only when its chunk is completed. -/
def CountsCompleted (s : PollSession) (i : PollStep) (s' : PollSession) : Prop :=
  ∀ tid, (∀ remaining pos, i ≠ .enter tid remaining pos) →
    ((s'.calls tid).done ≠ (s.calls tid).done ∨ (s'.calls tid).pos ≠ (s.calls tid).pos) →
    ChunkCompleted s tid

/-- A thread that services a running engine finds the hardware at the head of the queue, with
the descriptors completed that were polled, and its own transfer, if that is still submitted,
at the head unless it polled an error. -/
def OwnCompletion (s : PollSession) (i : PollStep) : Prop :=
  ∀ tid status p w, i = .service tid status → (s.calls tid).phase = .polled p w →
    s.engine.running = true →
    s.engine.transferList.head? = s.run.map HwRun.ptr ∧ w &&& WB_COUNT_MASK ≤ s.hwCount ∧
      (s.engine.stateOf p = .submitted →
        w &&& WB_ERR_MASK ≠ 0 ∨ s.engine.transferList.head? = some p)

/-! ## Threads -/

/-- The transfer of the call exists, and has left the submitted state once the monitor has
returned 0. -/
def Call.Known (c : Call) (h : HwSession) : Prop :=
  (∀ p ∈ c.phase.transfer, p < h.next) ∧
    ∀ p, c.phase = .monitored p 0 → h.engine.stateOf p ≠ .submitted

structure PollInv (s : PollSession) : Prop where
  engine : Truthful s.toHwSession
  calls : ∀ tid, (s.calls tid).Known s.toHwSession

theorem pollInv_start (streaming dirToDev nonIncrAddr : Bool) (memory : Ptr → XdmaTransfer) :
    PollInv (.start streaming dirToDev nonIncrAddr memory) where
  engine := truthful_start ..
  calls _ := ⟨nofun, nofun⟩

theorem KeepsSettled.refl (h : HwSession) : KeepsSettled h h :=
  ⟨le_rfl, fun _ _ => id⟩

theorem KeepsSettled.known (hk : KeepsSettled h h') {c : Call} (hc : c.Known h) : c.Known h' := by
  refine ⟨fun p hp => (hc.1 p hp).trans_le hk.1, fun p hp => hk.2 p (hc.1 p ?_) (hc.2 p hp)⟩
  rw [hp]
  rfl

/-- A new transfer is queued. -/
theorem Truthful.queueNew (ht : Truthful h) (t : NewTransfer)
    (hlive : ((h.create t).afterCall (transferQueue (h.create t).engine h.next)).halted = false) :
    Truthful ((h.create t).afterCall (transferQueue (h.create t).engine h.next)) ∧
      KeepsSettled h ((h.create t).afterCall (transferQueue (h.create t).engine h.next)) ∧
      ((h.create t).afterCall (transferQueue (h.create t).engine h.next)).next = h.next + 1 := by
  have hcreated := ht.create t
  rcases hq : transferQueue (h.create t).engine h.next with e | ⟨e, rc⟩
  · rw [hq] at hlive
    cases hlive
  rw [HwSession.afterCall]
  rcases transferQueue_cases hq with ⟨-, -, hreq⟩ | ⟨-, hqueued⟩
  · exact absurd hcreated.unrequested hreq
  have hnew : h.next ∉ (h.create t).engine.transferList := fun hmem =>
    lt_irrefl _ (ht.allocated _ hmem)
  have hidle : ∀ r, (h.create t).run = some r → r.ptr ≠ h.next := fun r hr =>
    (ht.created r hr).ne
  refine ⟨hqueued.truthful hcreated (Nat.lt_succ_self _) hnew hidle,
    ⟨Nat.le_succ _, fun p hp hsettled => ?_⟩, rfl⟩
  -- the others keep their states
  have hold : (h.create t).engine.stateOf p = h.engine.stateOf p :=
    congrArg XdmaTransfer.state (create_transfers h t hp)
  change (e.transfers p).state ≠ _
  rw [hqueued.others p hp.ne]
  exact fun hsub => hsettled (hold.symm.trans hsub)

variable {s s' : PollSession} {i : PollStep}

/-- A step of one thread keeps the invariant if it keeps that of the engine and leaves the
thread with a transfer it knows. -/
theorem PollInv.update (hs : PollInv s) {tid : ℕ} {c : Call}
    (hengine : Truthful s'.toHwSession) (hkeeps : KeepsSettled s.toHwSession s'.toHwSession)
    (hcalls : s'.calls = Function.update s.calls tid c) (hc : c.Known s'.toHwSession) :
    PollInv s' := by
  refine ⟨hengine, fun tid' => ?_⟩
  rw [hcalls]
  rcases eq_or_ne tid' tid with rfl | hne
  · rwa [Function.update_self]
  · rw [Function.update_of_ne hne]
    exact hkeeps.known (hs.calls tid')

/-- A step of one thread adds to the counts of no other. -/
theorem countsCompleted_of_update {tid : ℕ} {c : Call}
    (hcalls : s'.calls = Function.update s.calls tid c)
    (h : (∀ remaining pos, i ≠ .enter tid remaining pos) →
      (c.done ≠ (s.calls tid).done ∨ c.pos ≠ (s.calls tid).pos) → ChunkCompleted s tid) :
    CountsCompleted s i s' := by
  intro tid' hne hcount
  rw [hcalls] at hcount
  rcases eq_or_ne tid' tid with rfl | htid
  · rw [Function.update_self] at hcount
    exact h hne hcount
  · rw [Function.update_of_ne htid] at hcount
    exact hcount.elim (absurd rfl) (absurd rfl)

/-- A step that adds to no counts. -/
theorem countsCompleted_of_kept {tid : ℕ} {c : Call}
    (hcalls : s'.calls = Function.update s.calls tid c) (hdone : c.done = (s.calls tid).done)
    (hpos : c.pos = (s.calls tid).pos) : CountsCompleted s i s' :=
  countsCompleted_of_update hcalls fun _ hcount => hcount.elim (absurd hdone) (absurd hpos)

theorem enter_counts {tid : ℕ} {remaining pos : ℤ} (hs : PollInv s)
    (hstep : s.enter tid remaining pos = some s') :
    PollInv s' ∧ CountsCompleted s (.enter tid remaining pos) s' := by
  unfold PollSession.enter at hstep
  split at hstep
  · obtain rfl := Option.some.inj hstep
    exact ⟨hs.update hs.engine (.refl _) rfl ⟨nofun, nofun⟩,
      countsCompleted_of_update rfl fun hne _ => absurd rfl (hne remaining pos)⟩
  · cases hstep

theorem submit_counts {tid : ℕ} {built : Option (U64 × U32)} (hs : PollInv s)
    (hstep : s.submit tid built = some s') :
    (s'.halted = false → PollInv s') ∧ CountsCompleted s (.submit tid built) s' := by
  unfold PollSession.submit at hstep
  rw [Option.ite_none_left_eq_some] at hstep
  replace hstep := hstep.2
  by_cases hgo : ¬ (s.calls tid).Continues
  · rw [if_pos hgo] at hstep
    obtain rfl := Option.some.inj hstep
    exact ⟨fun _ => hs.update hs.engine (.refl _) rfl ⟨nofun, nofun⟩,
      countsCompleted_of_kept rfl rfl rfl⟩
  rw [if_neg hgo] at hstep
  rcases built with _ | ⟨descBus, descNum⟩
  · obtain rfl := Option.some.inj hstep
    exact ⟨fun _ => hs.update hs.engine (.refl _) rfl ⟨nofun, nofun⟩,
      countsCompleted_of_kept rfl rfl rfl⟩
  dsimp only at hstep
  split at hstep
  · cases hstep
  obtain rfl := Option.some.inj hstep
  refine ⟨fun hlive => ?_, countsCompleted_of_kept rfl rfl rfl⟩
  obtain ⟨htruthful, hkeeps, hnext⟩ := hs.engine.queueNew _ hlive
  refine hs.update htruthful hkeeps rfl ⟨fun p hp => ?_, nofun⟩
  obtain rfl := Option.some.inj hp
  exact hnext.symm ▸ Nat.lt_succ_self s.next

theorem poll_counts {tid : ℕ} {timeout : Bool} (hs : PollInv s)
    (hstep : s.poll tid timeout = some s') :
    PollInv s' ∧ CountsCompleted s (.poll tid timeout) s' := by
  have hknown := (hs.calls tid).1
  unfold PollSession.poll at hstep
  dsimp only at hstep
  split at hstep
  · next p hp =>
    rw [hp] at hknown
    split at hstep
    · obtain rfl := Option.some.inj hstep
      refine ⟨hs.update hs.engine (.refl _) rfl ⟨hknown, fun p' hp' => ?_⟩,
        countsCompleted_of_kept rfl rfl rfl⟩
      cases hp'
    split at hstep
    · obtain rfl := Option.some.inj hstep
      exact ⟨hs, countsCompleted_of_kept (Function.update_eq_self tid _).symm rfl rfl⟩
    · obtain rfl := Option.some.inj hstep
      exact ⟨hs.update hs.engine (.refl _) rfl ⟨hknown, nofun⟩,
        countsCompleted_of_kept rfl rfl rfl⟩
  · cases hstep

theorem service_counts {tid : ℕ} {status : U32} (hs : PollInv s)
    (hstep : s.service tid status = some s') (hown : OwnCompletion s (.service tid status)) :
    (s'.halted = false → PollInv s') ∧ CountsCompleted s (.service tid status) s' := by
  have hknown := (hs.calls tid).1
  unfold PollSession.service at hstep
  dsimp only at hstep
  split at hstep
  case h_2 => cases hstep
  next p w hphase =>
  rw [hphase] at hknown
  replace hknown : p < s.next := hknown p rfl
  replace hown := hown tid status p w rfl hphase
  split at hstep
  · cases hstep
  obtain rfl := Option.some.inj hstep
  refine ⟨fun hlive => ?_, countsCompleted_of_kept rfl rfl rfl⟩
  rcases hservice : engineService s.engine ⟨status, s.hwCount⟩ w with e | ⟨e, rc⟩
  · rw [hservice] at hlive
    cases hlive
  rcases hrun : s.engine.running with _ | _
  · obtain ⟨hq, hr, -⟩ := engineService_idle_cases hrun hservice
    refine hs.update (hs.engine.congr hq.list hq.transfers hr rfl (follow_run_of_same hr.started))
      ⟨le_rfl, fun q _ hsettled => (hq.stateOf q).symm ▸ hsettled⟩ rfl
      ⟨fun q hq => Option.some.inj hq ▸ hknown, fun q hmon hsub => ?_⟩
    -- on an idle engine nothing is submitted
    obtain rfl := (Phase.monitored.inj hmon).1
    have hmem := hs.engine.queued p hknown ((hq.stateOf p).symm.trans hsub)
    exact absurd (hrun.symm.trans (hs.engine.runs (List.ne_nil_of_mem hmem))) (by decide)
  obtain ⟨hhead, hcount, hself⟩ := hown hrun
  have hcount' : serviceCount ⟨status, s.hwCount⟩ w ≤ s.hwCount := by
    unfold serviceCount
    split
    · exact BitVec.le_refl _
    · exact hcount
  obtain ⟨r, rest, hr, hzero, hserviced, hle⟩ :=
    hs.engine.service_head hrun hhead hcount' hservice
  have htruthful := hserviced.truthful hs.engine hr hzero hle
  obtain ⟨rfl, -⟩ := engineService_cases hrun hs.engine.nodup hservice
  refine hs.update htruthful hserviced.keepsSettled rfl
    ⟨fun q hq => Option.some.inj hq ▸ hknown, fun q hmon hsub => ?_⟩
  obtain ⟨rfl, hrc⟩ := Phase.monitored.inj hmon
  -- no error was polled, so its own transfer was at the head
  have hnoerr : ¬ w &&& WB_ERR_MASK ≠ 0 := by
    intro herr
    rw [if_pos herr] at hrc
    cases hrc
  refine hserviced.keepsSettled.2 p hknown (fun hbefore => ?_) hsub
  have hfirst := (hself hbefore).resolve_left hnoerr
  rw [hhead, hr] at hfirst
  obtain rfl : r.ptr = p := Option.some.inj hfirst
  exact hserviced.settled hsub

theorem settle_counts {tid : ℕ} {status : U32} (hs : PollInv s)
    (hstep : s.settle tid status = some s') :
    PollInv s' ∧ CountsCompleted s (.settle tid status) s' := by
  have hknown := hs.calls tid
  unfold PollSession.settle at hstep
  dsimp only at hstep
  split at hstep
  case h_2 => cases hstep
  next p rc hphase =>
  obtain rfl := Option.some.inj hstep
  have hlt : p < s.next := hknown.1 p (by rw [hphase]; rfl)
  refine ⟨?_, countsCompleted_of_update rfl fun _ hcount => ?_⟩
  · obtain ⟨hlist, htransfers, hr⟩ := settleEngine_frame s.engine p rc status
    refine hs.update (hs.engine.congr hlist htransfers hr rfl rfl) ⟨le_rfl, fun q _ => ?_⟩ rfl
      ⟨nofun, nofun⟩
    change _ → ((settleEngine s.engine p rc status).transfers q).state ≠ _
    rw [htransfers]
    exact id
  · have hcompleted : s.engine.stateOf p = .completed := by
      rcases Call.outcome_eq_zero.mp (Call.outcome_of_settle hcount) with hc | ⟨hsub, rfl⟩
      · exact hc
      · -- the monitor returns no error only for a transfer that has left the submitted state
        exact absurd hsub (hknown.2 p hphase)
    exact ⟨p, rc, hphase, hcompleted, hs.engine.completed p hlt hcompleted⟩

theorem progress_counts {count : U32} {h : HwSession} (hs : PollInv s)
    (hstep : s.toHwSession.progress count = some h) : PollInv { h with calls := s.calls } := by
  unfold HwSession.progress at hstep
  split at hstep
  · cases hstep
  next r hr =>
  obtain ⟨⟨hge, hle⟩, hstep⟩ := Option.ite_none_right_eq_some.mp hstep
  obtain rfl := Option.some.inj hstep
  have ht := hs.engine
  refine ⟨{ ht with created := ?_, le := ?_, dequeued := ?_, completed := ?_ }, hs.calls⟩
  · intro r' hr'
    obtain rfl := Option.some.inj hr'
    exact ht.created r hr
  · intro r' hr'
    obtain rfl := Option.some.inj hr'
    exact hle
  · intro hrun r' hr'
    obtain rfl := Option.some.inj hr'
    exact ht.dequeued hrun r hr
  · intro p hp hc
    obtain ⟨hoff, hdone⟩ := ht.completed p hp hc
    refine ⟨hoff, ?_⟩
    rintro ⟨r', hr', rfl, hne⟩
    obtain rfl := Option.some.inj hr'
    -- the hardware does not count past the descriptors of its transfer
    have hall : r.count = s.engine.descNumOf r.ptr := by
      by_contra hnot
      exact hdone ⟨r, hr, rfl, hnot⟩
    exact hne (BitVec.le_antisymm hle (hall ▸ hge))

theorem writeback_counts (hs : PollInv s) (err : Bool) : PollInv (s.writeback err) :=
  ⟨hs.engine.congr rfl rfl ⟨rfl, rfl, rfl, rfl⟩ rfl rfl, hs.calls⟩

/-- The step lemma. -/
theorem step_counts (hs : PollInv s) (hstep : s.step i = some s') (hown : OwnCompletion s i) :
    (s'.halted = false → PollInv s') ∧ CountsCompleted s i s' := by
  unfold PollSession.step at hstep
  rw [Option.ite_none_left_eq_some] at hstep
  replace hstep := hstep.2
  cases i with
  | enter tid remaining pos => exact (enter_counts hs hstep).imp_left fun h _ => h
  | submit tid built => exact submit_counts hs hstep
  | poll tid timeout => exact (poll_counts hs hstep).imp_left fun h _ => h
  | service tid status => exact service_counts hs hstep hown
  | settle tid status => exact (settle_counts hs hstep).imp_left fun h _ => h
  | progress count =>
    obtain ⟨h, hprogress, rfl⟩ := Option.map_eq_some_iff.mp hstep
    exact ⟨fun _ => progress_counts hs hprogress,
      countsCompleted_of_kept (Function.update_eq_self 0 _).symm rfl rfl⟩
  | writeback err =>
    obtain rfl := Option.some.inj hstep
    exact ⟨fun _ => writeback_counts hs err,
      countsCompleted_of_kept (Function.update_eq_self 0 _).symm rfl rfl⟩

/-- In every run of threads polling an idle engine that always service their own completion,
a thread counts a chunk only when its transfer is completed, off the queue and not in
flight. -/
theorem counts_completed (streaming dirToDev nonIncrAddr : Bool) (memory : Ptr → XdmaTransfer)
    (is : List PollStep)
    (h : Along PollSession.step (fun s i _ => OwnCompletion s i)
      (.start streaming dirToDev nonIncrAddr memory) is) :
    Along PollSession.step CountsCompleted (.start streaming dirToDev nonIncrAddr memory) is :=
  along_of_live (fun _ _ hhalt => if_pos hhalt)
    (fun _ i _ hs hstep hown => step_counts (i := i) hs hstep hown) (pollInv_start ..) h

/-- Two threads poll counts of one and of two descriptors. The second polls on when the first
services its completion and counts its chunk. -/
theorem counts_completed_two_threads :
    Along PollSession.step CountsCompleted
      (.start false true false (fun _ => (descriptors 1).create))
      [.enter 0 4096 0, .enter 1 8192 4096, .submit 0 (some (0x1000, 1)),
        .submit 1 (some (0x2000, 2)), .progress 1, .writeback false, .poll 1 false, .poll 0 false,
        .service 0 0, .settle 0 0, .poll 1 false] := by
  refine counts_completed _ _ _ _ _ ?_
  refine .cons rfl nofun <| .cons rfl nofun <| .cons rfl nofun <| .cons rfl nofun <|
    .cons rfl nofun <| .cons rfl nofun <| .cons rfl nofun <| .cons rfl nofun <| .cons rfl ?_ <|
    .cons rfl nofun <| .cons rfl nofun trivial
  rintro tid status p w hservice hphase -
  obtain ⟨rfl, -⟩ := PollStep.service.inj hservice
  obtain ⟨hp, hw⟩ : 0 = p ∧ 1 = w := Phase.polled.inj hphase
  subst hp hw
  have hcount : (1 : U32) &&& WB_COUNT_MASK ≤ 1 := by decide
  exact ⟨rfl, hcount, fun _ => .inr rfl⟩

/-- Two threads poll a count of one descriptor each. The second services the completion of the
first, is told 0, and counts its own chunk, which the hardware was only just started on. -/
theorem counts_completed_fails_on_equal_counts :
    ¬ ∀ (memory : Ptr → XdmaTransfer) (is : List PollStep),
      Along PollSession.step CountsCompleted (.start false true false memory) is := by
  intro h
  have hrun := h (fun _ => (descriptors 1).create)
    [.enter 0 4096 0, .enter 1 4096 4096, .submit 0 (some (0x1000, 1)),
      .submit 1 (some (0x2000, 1)), .progress 1, .writeback false, .poll 1 false, .service 1 0,
      .settle 1 0]
  have hsettle := (((((((((hrun _ rfl).2 _ rfl).2 _ rfl).2 _ rfl).2 _ rfl).2 _ rfl).2 _ rfl).2
    _ rfl).2 _ rfl).1
  obtain ⟨p, rc, hphase, hcompleted, -⟩ := hsettle 1 nofun (by decide)
  obtain ⟨rfl, -⟩ := Phase.monitored.inj hphase
  exact absurd hcompleted (by decide)

end Wimi
