import Wimi.Service
import Wimi.Lib.Run

/-!
# Completed by the hardware

Runs of `transfer_queue` and of `engine_service(engine, 0)` at any moment, against hardware
that works through the transfer it was last started on and counts its descriptors. The
software finds the progress of a transfer by subtracting `desc_dequeued` from that counter.

`completion_sound` : a transfer is completed only when the hardware was started on it and has
completed all its descriptors, in every run in which no service call reads the engine busy,
without an error, before the head of the queue is done. Such a call retires the head while
the hardware works on it, and takes its descriptors for dequeued.
-/

open Machine

namespace Wimi

open XdmaEngine

/-! ## Hardware -/

/-- What the hardware was last started on, and the descriptors it has completed since. -/
structure HwRun where
  ptr : Ptr
  count : U32
  deriving DecidableEq

/-- An engine and its hardware. `halted` is the end of a run at a `BUG_ON`. -/
structure HwSession where
  engine : XdmaEngine
  next : Ptr
  run : Option HwRun
  halted : Bool

inductive HwStep
  /-- A new transfer is queued. -/
  | queue (t : NewTransfer)
  /-- The hardware completes descriptors. -/
  | progress (count : U32)
  /-- The engine is serviced, and answers a status word. -/
  | service (status : U32)

namespace HwSession

/-- The register `completed_desc_count`. -/
def hwCount (s : HwSession) : U32 :=
  match s.run with
  | none => 0
  | some r => r.count

/-- The session after a call that left the engine at `e` : the hardware runs anew if it was
started in the call. -/
def follow (s : HwSession) (e : XdmaEngine) : HwSession :=
  { s with
    engine := e
    run :=
      if e.started.length = s.engine.started.length then s.run
      else e.started.head?.map fun r => ⟨r.1, 0⟩ }

/-- The session after a call under the lock. -/
def afterCall (s : HwSession) : Locked (XdmaEngine × ℤ) → HwSession
  | .ok (e, _) => s.follow e
  | .error e => { s with engine := e, halted := true }

/-- The session with a new transfer created. -/
def create (s : HwSession) (t : NewTransfer) : HwSession :=
  { s with engine := s.engine.setTransfer s.next t.create, next := s.next + 1 }

/-- The hardware counts on, up to the descriptors of its transfer. -/
def progress (s : HwSession) (count : U32) : Option HwSession :=
  match s.run with
  | none => none
  | some r =>
    if r.count ≤ count ∧ count ≤ s.engine.descNumOf r.ptr then
      some { s with run := some { r with count := count } }
    else none

/-- One step; none is a step that is not enabled. -/
def step (s : HwSession) (i : HwStep) : Option HwSession :=
  if s.halted then none
  else
    match i with
    | .queue t => some ((s.create t).afterCall (transferQueue (s.create t).engine s.next))
    | .progress count => s.progress count
    | .service status => some (s.afterCall (engineService s.engine ⟨status, s.hwCount⟩ 0))

/-- An idle engine with an empty queue, and hardware that was never started. -/
def start (pollMode streaming dirToDev nonIncrAddr : Bool) (memory : Ptr → XdmaTransfer)
    (next : Ptr) : HwSession :=
  ⟨engineCreate pollMode streaming dirToDev nonIncrAddr memory, next, none, false⟩

end HwSession

/-- A transfer is set to completed only when the hardware was last started on it and has
completed all its descriptors, and a service call on a running engine never finds more
descriptors dequeued than completed. -/
structure CompletesDone (s : HwSession) (i : HwStep) (s' : HwSession) : Prop where
  completed : ∀ p < s.next, s'.engine.stateOf p = .completed → s.engine.stateOf p ≠ .completed →
    s.run = some ⟨p, s.engine.descNumOf p⟩
  unwrapped : ∀ status, i = .service status → s.engine.running = true →
    s.engine.descDequeued ≤ s.hwCount

/-- A service call that reads a running engine busy, without an error, comes when all
descriptors of the head of the queue are done. -/
def BusyWhenDone (s : HwSession) (i : HwStep) : Prop :=
  ∀ status, i = .service status → s.engine.running = true → status &&& errFlags = 0 →
    status &&& XDMA_STAT_BUSY ≠ 0 →
    ∀ p ∈ s.engine.transferList.head?, s.engine.descNumOf p ≤ s.hwCount - s.engine.descDequeued

/-! ## Invariant -/

/-- The hardware runs `r`, and the software is where it is : nothing is dequeued and the
transfer is the head of the queue, or all of it is dequeued and off the queue. -/
structure Follows (s : HwSession) (r : HwRun) : Prop where
  run : s.run = some r
  le : r.count ≤ s.engine.descNumOf r.ptr
  place : (s.engine.descDequeued = 0 ∧ s.engine.transferList.head? = some r.ptr) ∨
    (s.engine.descDequeued = r.count ∧ r.count = s.engine.descNumOf r.ptr ∧
      r.ptr ∉ s.engine.transferList)

structure HwInv (s : HwSession) : Prop where
  nodup : s.engine.transferList.Nodup
  allocated : ∀ p ∈ s.engine.transferList, p < s.next
  pos : ∀ p ∈ s.engine.transferList, s.engine.descNumOf p ≠ 0
  created : ∀ r, s.run = some r → r.ptr < s.next
  follows : s.engine.running = true → ∃ r, Follows s r

theorem hwInv_start (pollMode streaming dirToDev nonIncrAddr : Bool)
    (memory : Ptr → XdmaTransfer) (next : Ptr) :
    HwInv (.start pollMode streaming dirToDev nonIncrAddr memory next) where
  nodup := List.nodup_nil
  allocated _ hp := nomatch hp
  pos _ hp := nomatch hp
  created _ hr := nomatch hr
  follows hrun := nomatch hrun

variable {s s' : HwSession}

theorem Follows.hwCount {r : HwRun} (h : Follows s r) : s.hwCount = r.count := by
  rw [HwSession.hwCount, h.run]

theorem Follows.descDequeued_le {r : HwRun} (h : Follows s r) :
    s.engine.descDequeued ≤ s.hwCount := by
  rw [h.hwCount]
  rcases h.place with ⟨hzero, -⟩ | ⟨heq, -, -⟩
  · rw [hzero]
    exact U32.zero_le _
  · exact heq ▸ BitVec.le_refl _

/-- The descriptors left to account for never exceed those of the head. -/
theorem Follows.left_le {r : HwRun} (h : Follows s r) :
    ∀ p ∈ s.engine.transferList.head?,
      s.hwCount - s.engine.descDequeued ≤ s.engine.descNumOf p := by
  intro p hp
  rw [h.hwCount]
  rcases h.place with ⟨hzero, hhead⟩ | ⟨heq, -, -⟩
  · obtain rfl : r.ptr = p := Option.some.inj (hhead.symm.trans hp)
    rw [hzero]
    simpa using h.le
  · rw [heq, BitVec.sub_self]
    exact U32.zero_le _

/-- The head is done only as the transfer the hardware runs. -/
theorem Follows.run_eq {r : HwRun} (h : Follows s r) {p : Ptr}
    (hp : s.engine.transferList.head? = some p) (hpos : s.engine.descNumOf p ≠ 0)
    (hle : s.engine.descNumOf p ≤ s.hwCount - s.engine.descDequeued) :
    s.engine.descDequeued = 0 ∧ r = ⟨p, s.engine.descNumOf p⟩ := by
  rw [h.hwCount] at hle
  rcases h.place with ⟨hzero, hhead⟩ | ⟨heq, -, -⟩
  · obtain rfl : r.ptr = p := Option.some.inj (hhead.symm.trans hp)
    rw [hzero] at hle
    have hcount : r.count = s.engine.descNumOf r.ptr :=
      BitVec.le_antisymm h.le (by simpa using hle)
    refine ⟨hzero, ?_⟩
    rw [← hcount]
  · rw [heq, BitVec.sub_self] at hle
    exact absurd (BitVec.le_antisymm hle (U32.zero_le _)) hpos

/-! ## Steps -/

/-- After a call that did not start the hardware the run is the same. -/
theorem follow_run_of_same {e : XdmaEngine} (h : e.started = s.engine.started) :
    (s.follow e).run = s.run :=
  if_pos (congrArg List.length h)

/-- After a call that started the hardware on `q` it runs `q` from its first descriptor. -/
theorem follow_run_of_start {e : XdmaEngine} {q : Ptr}
    (h : e.started = (q, e.transfers q) :: s.engine.started) :
    (s.follow e).run = some ⟨q, 0⟩ := by
  have hlen : e.started.length ≠ s.engine.started.length := by
    rw [h, List.length_cons]
    omega
  refine (if_neg hlen).trans ?_
  rw [h]
  rfl

/-- The hardware was just started on the head of the queue. -/
theorem follows_of_start {e : XdmaEngine} {q : Ptr} (hhead : e.transferList.head? = some q)
    (hdeq : e.descDequeued = 0) (h : e.started = (q, e.transfers q) :: s.engine.started) :
    Follows (s.follow e) ⟨q, 0⟩ where
  run := follow_run_of_start h
  le := U32.zero_le _
  place := Or.inl ⟨hdeq, hhead⟩

/-- A call that completes no transfer is sound where it is no service call. -/
theorem completesDone_of_kept {i : HwStep}
    (hkept : ∀ p < s.next, s'.engine.stateOf p = s.engine.stateOf p)
    (hservice : ∀ status, i = .service status → s.engine.running = true →
      s.engine.descDequeued ≤ s.hwCount) : CompletesDone s i s' :=
  ⟨fun p hp hc hnot => absurd ((hkept p hp).symm.trans hc) hnot, hservice⟩

/-- Creating a transfer keeps those that exist. -/
theorem create_transfers (s : HwSession) (t : NewTransfer) {p : Ptr} (hp : p < s.next) :
    (s.create t).engine.transfers p = s.engine.transfers p :=
  Function.update_of_ne hp.ne _ _

theorem create_self (s : HwSession) (t : NewTransfer) :
    (s.create t).engine.transfers s.next = t.create :=
  Function.update_self _ _ _

theorem create_descNumOf (s : HwSession) (t : NewTransfer) {p : Ptr} (hp : p < s.next) :
    (s.create t).engine.descNumOf p = s.engine.descNumOf p :=
  congrArg XdmaTransfer.descNum (create_transfers s t hp)

theorem HwInv.create (h : HwInv s) (t : NewTransfer) : HwInv (s.create t) where
  nodup := h.nodup
  allocated p hp := (h.allocated p hp).trans (Nat.lt_succ_self _)
  pos p hp := by
    rw [create_descNumOf s t (h.allocated p hp)]
    exact h.pos p hp
  created r hr := (h.created r hr).trans (Nat.lt_succ_self _)
  follows hrun := by
    obtain ⟨r, hr⟩ := h.follows hrun
    have hnum := create_descNumOf s t (h.created r hr.run)
    exact ⟨r, ⟨hr.run, hnum ▸ hr.le, hnum ▸ hr.place⟩⟩

/-- What the hardware runs after a call is a transfer that was created, if the head of the
queue is. -/
theorem created_follow {e : XdmaEngine} (h : ∀ r, s.run = some r → r.ptr < s.next)
    (hlist : ∀ p ∈ e.transferList, p < s.next)
    (hstarted : e.started = s.engine.started ∨ ∃ q, e.transferList.head? = some q ∧
      e.started = (q, e.transfers q) :: s.engine.started) :
    ∀ r, (s.follow e).run = some r → r.ptr < s.next := by
  intro r hr
  rcases hstarted with hsame | ⟨q, hhead, hstart⟩
  · exact h r (by rwa [follow_run_of_same hsame] at hr)
  · obtain rfl : (⟨q, 0⟩ : HwRun) = r := by
      rw [follow_run_of_start hstart] at hr
      exact Option.some.inj hr
    exact hlist q (List.mem_of_mem_head? hhead)

/-- Queueing the new transfer follows the hardware : behind the transfer it runs, or as the
one an idle engine is started on. -/
theorem Queued.hwInv {e : XdmaEngine} {p : Ptr} (h : HwInv s) (hp : p < s.next)
    (hnew : p ∉ s.engine.transferList) (hrunning : ∀ r, s.run = some r → r.ptr ≠ p)
    (hq : Queued s.engine e p) : HwInv (s.follow e) := by
  have hlist : e.transferList = s.engine.transferList ++ [p] := hq.list
  have hnum : e.descNumOf = s.engine.descNumOf := hq.descNumOf
  have hallocated : ∀ q ∈ e.transferList, q < s.next :=
    fun q hqmem => (hq.mem_iff.mp hqmem).elim (h.allocated q) (fun heq => heq ▸ hp)
  refine
    { nodup := hq.nodup h.nodup hnew
      allocated := hallocated
      pos := fun q hqmem => ?_
      created := created_follow h.created hallocated hq.started_cases
      follows := fun _ => ?_ }
  · change e.descNumOf q ≠ 0
    rw [hnum]
    rcases hq.mem_iff.mp hqmem with hqmem | rfl
    · exact h.pos q hqmem
    · exact hq.pos
  · rcases hrun : s.engine.running with _ | _
    · obtain ⟨q, hhead, -, hdeq, hstarted⟩ := hq.idle hrun
      exact ⟨_, follows_of_start hhead hdeq hstarted⟩
    · obtain ⟨r, hr⟩ := h.follows hrun
      have hsame := hq.busy hrun
      refine ⟨r, ⟨(follow_run_of_same hsame.started).trans hr.run, hnum ▸ hr.le, ?_⟩⟩
      rcases hr.place with ⟨hzero, hhead⟩ | ⟨heq, hcount, hoff⟩
      · refine Or.inl ⟨hsame.descDequeued.trans hzero, ?_⟩
        change e.transferList.head? = _
        rw [hlist, List.head?_append, hhead]
        rfl
      · refine Or.inr ⟨hsame.descDequeued.trans heq, hnum ▸ hcount, fun hin => ?_⟩
        exact (hq.mem_iff.mp hin).elim hoff (hrunning r hr.run)

theorem follow_self (s : HwSession) : s.follow s.engine = s := by
  rw [HwSession.follow, if_pos rfl]

theorem queue_completes {t : NewTransfer} (h : HwInv s) (hstep : s.step (.queue t) = some s') :
    (s'.halted = false → HwInv s') ∧ CompletesDone s (.queue t) s' := by
  unfold HwSession.step at hstep
  split at hstep
  · cases hstep
  obtain rfl := Option.some.inj hstep
  have hcreate := h.create t
  have hold : ∀ p < s.next, (s.create t).engine.stateOf p = s.engine.stateOf p :=
    fun p hp => congrArg XdmaTransfer.state (create_transfers s t hp)
  rcases hq : transferQueue (s.create t).engine s.next with e | ⟨e, rc⟩
  · obtain ⟨rfl, -⟩ := transferQueue_error hq
    exact ⟨nofun, completesDone_of_kept hold nofun⟩
  · rw [HwSession.afterCall]
    rcases transferQueue_cases hq with ⟨-, rfl, -⟩ | ⟨-, hqueued⟩
    · -- a shutdown was requested, and nothing is queued
      rw [follow_self]
      exact ⟨fun _ => hcreate, completesDone_of_kept hold nofun⟩
    · refine ⟨fun _ => hqueued.hwInv hcreate (Nat.lt_succ_self _)
        (fun hmem => lt_irrefl _ (h.allocated _ hmem)) (fun r hr => (h.created r hr).ne),
        completesDone_of_kept (fun p hp => ?_) nofun⟩
      exact (congrArg XdmaTransfer.state (hqueued.others p hp.ne)).trans (hold p hp)

theorem progress_completes {count : U32} (h : HwInv s)
    (hstep : s.step (.progress count) = some s') :
    (s'.halted = false → HwInv s') ∧ CompletesDone s (.progress count) s' := by
  unfold HwSession.step at hstep
  split at hstep
  · cases hstep
  replace hstep : s.progress count = some s' := hstep
  unfold HwSession.progress at hstep
  split at hstep
  · cases hstep
  next r hr =>
  obtain ⟨hcount, hstep⟩ := Option.ite_none_right_eq_some.mp hstep
  obtain rfl := Option.some.inj hstep
  refine ⟨fun _ => ⟨h.nodup, h.allocated, h.pos, fun r' hr' => ?_, fun hrun => ?_⟩,
    completesDone_of_kept (fun _ _ => rfl) nofun⟩
  · obtain rfl := Option.some.inj hr'
    exact h.created r hr
  · obtain ⟨r', hr'⟩ := h.follows hrun
    obtain rfl : r = r' := Option.some.inj (hr.symm.trans hr'.run)
    refine ⟨⟨r.ptr, count⟩, ⟨rfl, hcount.2, hr'.place.imp_right ?_⟩⟩
    rintro ⟨hdeq, hdone, hoff⟩
    have hsame : count = r.count := BitVec.le_antisymm (hdone ▸ hcount.2) hcount.1
    exact ⟨hdeq.trans hsame.symm, hsame.trans hdone, hoff⟩

/-- A service call that does not write back goes by the registers. -/
theorem serviceCount_zero (hw : HwReads) : serviceCount hw 0 = hw.completedDescCount :=
  if_pos (by decide)

theorem serviceStatus_zero (e : XdmaEngine) (hw : HwReads) : serviceStatus e hw 0 = hw.status :=
  if_pos (Or.inl (by decide))

theorem finalState_eq_completed {num d : U32} (h : finalState num d = .completed) : num ≤ d := by
  unfold finalState at h
  split at h
  · cases h
  · next hlt => exact BitVec.not_lt.mp hlt

/-- A service call on an engine that follows its hardware disposes of the head alone. -/
theorem service_head {status : U32} {e : XdmaEngine} {rc : ℤ} (h : HwInv s)
    (hrun : s.engine.running = true)
    (hservice : engineService s.engine ⟨status, s.hwCount⟩ 0 = .ok (e, rc)) :
    ∃ p rest, Serviced s.engine e ⟨status, s.hwCount⟩ 0 [] p rest
      (s.hwCount - s.engine.descDequeued) := by
  obtain ⟨r, hr⟩ := h.follows hrun
  obtain ⟨-, done, p, rest, d, hs⟩ := engineService_cases hrun h.nodup hservice
  have hretires := hs.retires
  rw [serviceCount_zero] at hretires
  have hleft := hr.left_le
  rw [hs.list] at hleft
  obtain ⟨rfl, rfl⟩ := hretires.eq_nil hleft
  exact ⟨p, rest, hs⟩

/-- The invariant after a service call that came in time. -/
theorem service_hwInv {status : U32} {e : XdmaEngine} {rc : ℤ} (h : HwInv s)
    (hrun : s.engine.running = true) (hbusy : BusyWhenDone s (.service status))
    (hservice : engineService s.engine ⟨status, s.hwCount⟩ 0 = .ok (e, rc)) :
    HwInv (s.follow e) := by
  obtain ⟨r, hr⟩ := h.follows hrun
  obtain ⟨p, rest, hs⟩ := service_head h hrun hservice
  have hnum := hs.descNumOf
  have hlist : s.engine.transferList = p :: rest := hs.list
  have hhead : s.engine.transferList.head? = some p := by rw [hlist, List.head?_cons]
  have hallocated : ∀ q ∈ e.transferList, q < s.next := fun q hq => h.allocated q (hs.subset q hq)
  refine
    { nodup := hs.nodup h.nodup
      allocated := hallocated
      pos := fun q hq => ?_
      created := created_follow h.created hallocated hs.started_cases
      follows := fun hrun' => ?_ }
  · change e.descNumOf q ≠ 0
    rw [hnum]
    exact h.pos q (hs.subset q hq)
  · by_cases hb : ServiceBusy s.engine ⟨status, s.hwCount⟩ 0
    · obtain ⟨-, hsame, hdeq⟩ := hs.busy hb
      rw [List.map_nil, List.sum_nil, add_zero] at hdeq
      rcases hs.list_cases with ⟨herr, hlist'⟩ | ⟨herr, -⟩
      · rw [if_pos herr, add_zero] at hdeq
        refine ⟨r, ⟨(follow_run_of_same hsame).trans hr.run, hnum ▸ hr.le, ?_⟩⟩
        change (e.descDequeued = 0 ∧ e.transferList.head? = some r.ptr) ∨
          (e.descDequeued = r.count ∧ r.count = e.descNumOf r.ptr ∧ r.ptr ∉ e.transferList)
        rw [hdeq, hlist', ← hlist, hnum]
        exact hr.place
      · -- read busy without an error, the head is done and now dequeued
        rw [if_neg herr] at hdeq
        have hread := hb.1
        have hstatus := herr
        rw [ServiceErr, serviceStatus_zero, not_not] at hstatus
        rw [serviceStatus_zero] at hread
        have hdone := hbusy status rfl hrun hstatus hread p hhead
        obtain ⟨hzero, rfl⟩ := hr.run_eq hhead (h.pos p (hlist ▸ List.mem_cons_self)) hdone
        rw [hzero, zero_add] at hdeq
        exact ⟨_, ⟨(follow_run_of_same hsame).trans hr.run, hnum ▸ hr.le,
          Or.inr ⟨hdeq, congrFun hnum.symm p, (hs.not_mem h.nodup).2 herr⟩⟩⟩
    · rcases hs.idle hb with ⟨hidle, -⟩ | ⟨q, hq, -, hdeq, hstart⟩
      · exact absurd (hidle.symm.trans hrun') (by decide)
      · exact ⟨_, follows_of_start hq hdeq hstart⟩

theorem service_completes {status : U32} (h : HwInv s)
    (hstep : s.step (.service status) = some s') (hbusy : BusyWhenDone s (.service status)) :
    (s'.halted = false → HwInv s') ∧ CompletesDone s (.service status) s' := by
  unfold HwSession.step at hstep
  split at hstep
  · cases hstep
  obtain rfl := Option.some.inj hstep
  rcases hrun : s.engine.running with _ | _
  · rw [engineService_idle hrun, if_pos rfl]
    exact ⟨fun _ => ⟨h.nodup, h.allocated, h.pos, created_follow h.created h.allocated (Or.inl rfl),
      fun hrun' => absurd (hrun.symm.trans hrun') (by decide)⟩,
      completesDone_of_kept (fun _ _ => rfl) fun _ _ hrun' =>
        absurd (hrun.symm.trans hrun') (by decide)⟩
  · obtain ⟨r, hr⟩ := h.follows hrun
    by_cases hempty : s.engine.transferList = []
    · rw [engineService_empty hrun hempty]
      have hentry := entered_serviceEntry ⟨status, s.hwCount⟩ 0 hrun
      exact ⟨nofun, completesDone_of_kept (fun p _ => hentry.queue.stateOf p)
        fun _ _ _ => hr.descDequeued_le⟩
    · obtain ⟨⟨e, rc⟩, hok⟩ := engineService_ok ⟨status, s.hwCount⟩ 0 hrun hempty (by
        rw [serviceCount_zero]
        exact hr.left_le)
      rw [hok]
      refine ⟨fun _ => service_hwInv h hrun hbusy hok, fun q hq hdone hnot => ?_,
        fun _ _ _ => hr.descDequeued_le⟩
      obtain ⟨p, rest, hs⟩ := service_head h hrun hok
      have hlist : s.engine.transferList = p :: rest := hs.list
      obtain rfl : q = p := by
        by_contra hne
        have hsame := congrArg XdmaTransfer.state (hs.others q List.not_mem_nil hne)
        exact hnot (hsame.symm.trans hdone)
      replace hdone : (e.transfers q).state = .completed := hdone
      by_cases herr : ServiceErr s.engine ⟨status, s.hwCount⟩ 0
      · rw [(hs.failed herr).2] at hdone
        cases hdone
      · obtain ⟨-, n, hfinal⟩ := hs.final herr
        rw [hfinal] at hdone
        obtain ⟨-, rfl⟩ := hr.run_eq (by rw [hlist, List.head?_cons])
          (h.pos q (hlist ▸ List.mem_cons_self)) (finalState_eq_completed hdone)
        exact hr.run

/-- In every run from an idle engine whose service calls never read a running engine busy,
without an error, before the descriptors of its head are done, every step completes only what
the hardware has done. -/
theorem completion_sound (pollMode streaming dirToDev nonIncrAddr : Bool)
    (memory : Ptr → XdmaTransfer) (next : Ptr) (is : List HwStep)
    (h : Along HwSession.step (fun s i _ => BusyWhenDone s i)
      (.start pollMode streaming dirToDev nonIncrAddr memory next) is) :
    Along HwSession.step CompletesDone
      (.start pollMode streaming dirToDev nonIncrAddr memory next) is := by
  refine along_of_live (fun s i hhalt => if_pos hhalt) (fun s i s' hinv hstep hbusy => ?_)
    (hwInv_start ..) h
  cases i with
  | queue t => exact queue_completes hinv hstep
  | progress count => exact progress_completes hinv hstep
  | service status => exact service_completes hinv hstep hbusy

/-- A synchronous transfer of `n` descriptors. -/
def descriptors (n : U32) : NewTransfer :=
  ⟨0x1000, n.toNat, n, none, true, 4096⟩

/-- Two descriptors are completed and the engine found idle. -/
theorem completion_sound_two_descriptors :
    Along HwSession.step CompletesDone
      (.start false false true false (fun _ => (descriptors 1).create) 0)
      [.queue (descriptors 2), .progress 2, .service 0] := by
  refine completion_sound _ _ _ _ _ _ _ (along_of_inputs fun i hi s _ => ?_)
  rintro status rfl - - hread
  obtain rfl : status = 0 := by simpa using hi
  exact absurd rfl hread

/-- The engine is serviced busy after one of two descriptors, and again when it has stopped :
the counter is behind what was dequeued, and the transfer behind the head is completed though
the hardware was never started on it. -/
theorem completion_fails_on_busy_service :
    ¬ ∀ (memory : Ptr → XdmaTransfer) (is : List HwStep),
      Along HwSession.step CompletesDone (.start false false true false memory 0) is := by
  intro h
  have hrun := h (fun _ => (descriptors 1).create)
    [.queue (descriptors 2), .queue (descriptors 1), .progress 1, .service XDMA_STAT_BUSY,
      .service 0]
  have hd := (((((hrun _ rfl).2 _ rfl).2 _ rfl).2 _ rfl).2 _ rfl).1
  exact absurd (hd.completed 1 (by decide) (by decide) (by decide)) (by decide)

end Wimi
