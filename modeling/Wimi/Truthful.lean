import Wimi.Completion

/-!
# The software's account of the hardware

What an engine and its hardware have in common while every service call finds the hardware at
the head of the queue.

`Truthful` : submitted transfers are queued on a running engine, and a completed transfer is off
the queue and done by the hardware. Queueing keeps it (`Queued.truthful`), and so does a service
call that goes by no more descriptors than the hardware has completed (`Serviced.truthful`).
-/

namespace Wimi

open XdmaEngine

/-- The hardware still works on the transfer at `p`. -/
def InFlight (s : HwSession) (p : Ptr) : Prop :=
  ∃ r, s.run = some r ∧ r.ptr = p ∧ r.count ≠ s.engine.descNumOf p

/-- The software's account of the hardware : submitted transfers are queued on a running engine,
what the hardware runs is dequeued from only once it is off the queue, and a completed transfer
is off the queue and done by the hardware. -/
structure Truthful (s : HwSession) : Prop where
  unrequested : s.engine.shutdown &&& ENGINE_SHUTDOWN_REQUEST = 0
  runs : s.engine.transferList ≠ [] → s.engine.running = true
  queued : ∀ p < s.next, s.engine.stateOf p = .submitted → p ∈ s.engine.transferList
  nodup : s.engine.transferList.Nodup
  allocated : ∀ p ∈ s.engine.transferList, p < s.next
  created : ∀ r, s.run = some r → r.ptr < s.next
  le : ∀ r, s.run = some r → r.count ≤ s.engine.descNumOf r.ptr
  dequeued : s.engine.running = true → ∀ r, s.run = some r → r.ptr ∈ s.engine.transferList →
    s.engine.descDequeued = 0
  completed : ∀ p < s.next, s.engine.stateOf p = .completed →
    p ∉ s.engine.transferList ∧ ¬ InFlight s p

/-- Transfers that left the submitted state stay so. -/
def KeepsSettled (s s' : HwSession) : Prop :=
  s.next ≤ s'.next ∧ ∀ p < s.next, s.engine.stateOf p ≠ .submitted →
    s'.engine.stateOf p ≠ .submitted

theorem truthful_start (pollMode streaming dirToDev nonIncrAddr : Bool)
    (memory : Ptr → XdmaTransfer) :
    Truthful (.start pollMode streaming dirToDev nonIncrAddr memory 0) where
  unrequested := BitVec.zero_and
  runs hne := absurd rfl hne
  queued p hp := absurd hp (Nat.not_lt_zero p)
  nodup := List.nodup_nil
  allocated _ hp := nomatch hp
  created _ hr := nomatch hr
  le _ hr := nomatch hr
  dequeued hrun := nomatch hrun
  completed p hp := absurd hp (Nat.not_lt_zero p)

variable {h h' : HwSession}

/-- The invariant only speaks of the queue, the transfers, the run and the dequeued count. -/
theorem Truthful.congr (ht : Truthful h) (hlist : h'.engine.transferList = h.engine.transferList)
    (htransfers : h'.engine.transfers = h.engine.transfers)
    (hr : SameRun h.engine h'.engine) (hnext : h'.next = h.next) (hrun : h'.run = h.run) :
    Truthful h' := by
  have hnum : h'.engine.descNumOf = h.engine.descNumOf := by
    funext p
    rw [descNumOf, descNumOf, htransfers]
  have hstate : h'.engine.stateOf = h.engine.stateOf := by
    funext p
    rw [stateOf, stateOf, htransfers]
  have hflight : ∀ p, InFlight h' p ↔ InFlight h p := by
    intro p
    rw [InFlight, InFlight, hrun, hnum]
  exact
    { unrequested := hr.shutdown ▸ ht.unrequested
      runs := by
        rw [hlist, hr.running]
        exact ht.runs
      queued := by
        rw [hlist, hnext, hstate]
        exact ht.queued
      nodup := hlist ▸ ht.nodup
      allocated := by
        rw [hlist, hnext]
        exact ht.allocated
      created := by
        rw [hrun, hnext]
        exact ht.created
      le := by
        rw [hrun, hnum]
        exact ht.le
      dequeued := by
        rw [hr.running, hrun, hlist, hr.descDequeued]
        exact ht.dequeued
      completed := fun p hp hc => by
        rw [hlist, hflight]
        exact ht.completed p (hnext ▸ hp) (hstate ▸ hc) }

theorem Truthful.create (ht : Truthful h) (t : NewTransfer) : Truthful (h.create t) := by
  have hnum : ∀ p < h.next, (h.create t).engine.descNumOf p = h.engine.descNumOf p :=
    fun p hp => create_descNumOf h t hp
  refine
    { unrequested := ht.unrequested
      runs := ht.runs
      queued := fun p hp hs => ?_
      nodup := ht.nodup
      allocated := fun p hp => (ht.allocated p hp).trans (Nat.lt_succ_self _)
      created := fun r hr => (ht.created r hr).trans (Nat.lt_succ_self _)
      le := fun r hr => (hnum _ (ht.created r hr)).symm ▸ ht.le r hr
      dequeued := ht.dequeued
      completed := fun p hp hc => ?_ } <;>
    rcases Nat.lt_succ_iff_lt_or_eq.mp hp with hlt | rfl
  · exact ht.queued p hlt (by rwa [stateOf, create_transfers h t hlt] at hs)
  · rw [stateOf, create_self] at hs
    cases hs
  · obtain ⟨hoff, hdone⟩ := ht.completed p hlt (by
      rwa [stateOf, create_transfers h t hlt] at hc)
    refine ⟨hoff, ?_⟩
    rintro ⟨r, hr, rfl, hne⟩
    exact hdone ⟨r, hr, rfl, fun heq => hne (heq.trans (hnum _ hlt).symm)⟩
  · rw [stateOf, create_self] at hc
    cases hc

/-- A transfer the hardware was not started on is not in flight after a call. -/
theorem not_inFlight_follow {e : XdmaEngine} {p : Ptr} (hnum : e.descNumOf = h.engine.descNumOf)
    (hdone : ¬ InFlight h p)
    (hstarted : e.started = h.engine.started ∨ ∃ q, e.transferList.head? = some q ∧
      e.started = (q, e.transfers q) :: h.engine.started)
    (hoff : p ∉ e.transferList) : ¬ InFlight (h.follow e) p := by
  rintro ⟨r, hr, rfl, hne⟩
  rcases hstarted with hsame | ⟨q, hhead, hstart⟩
  · rw [follow_run_of_same hsame] at hr
    exact hdone ⟨r, hr, rfl, fun heq => hne (heq.trans (congrFun hnum r.ptr).symm)⟩
  · rw [follow_run_of_start hstart] at hr
    obtain rfl := Option.some.inj hr
    exact hoff (List.mem_of_mem_head? hhead)

theorem le_follow {e : XdmaEngine} (ht : Truthful h) (hnum : e.descNumOf = h.engine.descNumOf)
    (hstarted : e.started = h.engine.started ∨ ∃ q, e.transferList.head? = some q ∧
      e.started = (q, e.transfers q) :: h.engine.started) :
    ∀ r, (h.follow e).run = some r → r.count ≤ e.descNumOf r.ptr := by
  intro r hr
  rcases hstarted with hsame | ⟨q, -, hstart⟩
  · rw [follow_run_of_same hsame] at hr
    exact hnum ▸ ht.le r hr
  · rw [follow_run_of_start hstart] at hr
    obtain rfl := Option.some.inj hr
    exact U32.zero_le _

theorem Queued.truthful {e : XdmaEngine} {p : Ptr} (ht : Truthful h) (hp : p < h.next)
    (hnew : p ∉ h.engine.transferList) (hrunning : ∀ r, h.run = some r → r.ptr ≠ p)
    (hq : Queued h.engine e p) : Truthful (h.follow e) := by
  have hallocated : ∀ q ∈ e.transferList, q < h.next :=
    fun q hqmem => (hq.mem_iff.mp hqmem).elim (ht.allocated q) (fun heq => heq ▸ hp)
  have hother : ∀ q ≠ p, e.stateOf q = h.engine.stateOf q :=
    fun q hne => congrArg XdmaTransfer.state (hq.others q hne)
  refine
    { unrequested := hq.unrequested
      runs := fun _ => hq.isRunning
      queued := fun q hqlt hs => ?_
      nodup := hq.nodup ht.nodup hnew
      allocated := hallocated
      created := created_follow ht.created hallocated hq.started_cases
      le := le_follow ht hq.descNumOf hq.started_cases
      dequeued := fun _ r hr hmem => ?_
      completed := fun q hqlt hc => ?_ }
  · refine hq.mem_iff.mpr ((ne_or_eq q p).imp_left fun hne => ?_)
    exact ht.queued q hqlt ((hother q hne).symm.trans hs)
  · rcases hrun : h.engine.running with _ | _
    · obtain ⟨-, -, -, hdeq, -⟩ := hq.idle hrun
      exact hdeq
    · have hsame := hq.busy hrun
      rw [follow_run_of_same hsame.started] at hr
      have hold := (hq.mem_iff.mp hmem).resolve_right (hrunning r hr)
      exact hsame.descDequeued.trans (ht.dequeued hrun r hr hold)
  · have hqp : q ≠ p := by
      rintro rfl
      replace hc : (e.transfers q).state = .completed := hc
      rw [hq.self] at hc
      cases hc
    obtain ⟨hoff, hdone⟩ := ht.completed q hqlt ((hother q hqp).symm.trans hc)
    have hoff' : q ∉ e.transferList := fun hmem => (hq.mem_iff.mp hmem).elim hoff hqp
    exact ⟨hoff', not_inFlight_follow hq.descNumOf hdone hq.started_cases hoff'⟩

/-- A service call that finds the hardware at the head of the queue, with as many descriptors
completed as it goes by, disposes of the head alone. -/
theorem Truthful.service_head {hw : HwReads} {w : U32} {e : XdmaEngine} {rc : ℤ}
    (ht : Truthful h) (hrun : h.engine.running = true)
    (hhead : h.engine.transferList.head? = h.run.map HwRun.ptr)
    (hcount : serviceCount hw w ≤ h.hwCount)
    (hservice : engineService h.engine hw w = .ok (e, rc)) :
    ∃ r rest, h.run = some r ∧ h.engine.descDequeued = 0 ∧
      Serviced h.engine e hw w [] r.ptr rest (serviceCount hw w) ∧ serviceCount hw w ≤ r.count := by
  obtain ⟨-, done, p, rest, d, hs⟩ := engineService_cases hrun ht.nodup hservice
  obtain ⟨q, hq⟩ : ∃ q, h.engine.transferList.head? = some q := by
    rw [hs.list, List.head?_append]
    cases done <;> exact ⟨_, rfl⟩
  obtain ⟨r, hr, rfl⟩ := Option.map_eq_some_iff.mp (hhead.symm.trans hq)
  rw [HwSession.hwCount, hr] at hcount
  have hzero := ht.dequeued hrun r hr (List.mem_of_mem_head? hq)
  have hretires := hs.retires
  rw [hzero, sub_zero] at hretires
  have hpaid : ∀ q ∈ (done ++ p :: rest).head?, serviceCount hw w ≤ h.engine.descNumOf q := by
    intro q' hq'
    rw [← hs.list, hq] at hq'
    obtain rfl := Option.some.inj hq'
    exact BitVec.le_trans hcount (ht.le r hr)
  obtain ⟨rfl, rfl⟩ := hretires.eq_nil hpaid
  obtain rfl : r.ptr = p := by
    rw [hs.list] at hq
    exact (Option.some.inj hq).symm
  exact ⟨r, rest, hr, hzero, hs, hcount⟩

/-- After such a call the head has left the submitted state. -/
theorem Serviced.settled {e e' : XdmaEngine} {hw : HwReads} {w d : U32} {done rest : List Ptr}
    {p : Ptr} (hs : Serviced e e' hw w done p rest d) : e'.stateOf p ≠ .submitted := by
  rw [stateOf]
  by_cases herr : ServiceErr e hw w
  · rw [(hs.failed herr).2]
    exact TransferState.noConfusion
  · obtain ⟨-, n, hfinal⟩ := hs.final herr
    rw [hfinal]
    change finalState _ _ ≠ _
    unfold finalState
    split <;> exact TransferState.noConfusion

theorem Serviced.keepsSettled {e : XdmaEngine} {hw : HwReads} {w d : U32} {done rest : List Ptr}
    {p : Ptr} (hs : Serviced h.engine e hw w done p rest d) : KeepsSettled h (h.follow e) := by
  refine ⟨le_rfl, fun q _ hsettled => ?_⟩
  by_cases hq : q ∈ done
  · obtain ⟨n, hn⟩ := hs.completed q hq
    change (e.transfers q).state ≠ _
    rw [hn]
    exact TransferState.noConfusion
  rcases eq_or_ne q p with rfl | hne
  · exact hs.settled
  · change (e.transfers q).state ≠ _
    rw [hs.others q hq hne]
    exact hsettled

/-- A head that is set completed is off the queue, and the hardware has done all of it. -/
theorem Serviced.head_done {e : XdmaEngine} {hw : HwReads} {w : U32} {rest : List Ptr} {r : HwRun}
    (ht : Truthful h) (hr : h.run = some r)
    (hs : Serviced h.engine e hw w [] r.ptr rest (serviceCount hw w))
    (hcount : serviceCount hw w ≤ r.count) (hc : (e.transfers r.ptr).state = .completed) :
    r.ptr ∉ e.transferList ∧ ¬ InFlight h r.ptr := by
  have herr : ¬ ServiceErr h.engine hw w := by
    intro herr
    rw [(hs.failed herr).2] at hc
    cases hc
  refine ⟨(hs.not_mem ht.nodup).2 herr, ?_⟩
  rintro ⟨r', hr', -, hne⟩
  obtain rfl : r = r' := Option.some.inj (hr.symm.trans hr')
  obtain ⟨-, n, hfinal⟩ := hs.final herr
  rw [hfinal] at hc
  exact hne (BitVec.le_antisymm (ht.le r hr)
    (BitVec.le_trans (finalState_eq_completed hc) hcount))

theorem Serviced.truthful {e : XdmaEngine} {hw : HwReads} {w : U32} {rest : List Ptr} {r : HwRun}
    (ht : Truthful h) (hr : h.run = some r) (hzero : h.engine.descDequeued = 0)
    (hs : Serviced h.engine e hw w [] r.ptr rest (serviceCount hw w))
    (hcount : serviceCount hw w ≤ r.count) : Truthful (h.follow e) := by
  have hnum := hs.descNumOf
  have hlist : h.engine.transferList = r.ptr :: rest := hs.list
  have hallocated : ∀ q ∈ e.transferList, q < h.next :=
    fun q hq => ht.allocated q (hs.subset q hq)
  have hother : ∀ q ≠ r.ptr, e.stateOf q = h.engine.stateOf q :=
    fun q hne => congrArg XdmaTransfer.state (hs.others q List.not_mem_nil hne)
  refine
    { unrequested := hs.unrequested ht.unrequested
      runs := fun hne => hs.isRunning ht.unrequested hne
      queued := fun q hq hsub => ?_
      nodup := hs.nodup ht.nodup
      allocated := hallocated
      created := created_follow ht.created hallocated hs.started_cases
      le := le_follow ht hnum hs.started_cases
      dequeued := fun hrun' r' hr' hmem => ?_
      completed := fun q hq hc => ?_ }
  · have hne : q ≠ r.ptr := by
      rintro rfl
      exact hs.settled hsub
    have hmem := ht.queued q hq ((hother q hne).symm.trans hsub)
    rw [hlist, List.mem_cons] at hmem
    have hrest := hmem.resolve_left hne
    change q ∈ e.transferList
    rcases hs.list_cases with ⟨-, hlist'⟩ | ⟨-, hlist'⟩ <;> rw [hlist']
    · exact List.mem_cons_of_mem _ hrest
    · exact hrest
  · by_cases hb : ServiceBusy h.engine hw w
    · obtain ⟨-, hsame, hdeq⟩ := hs.busy hb
      rw [follow_run_of_same hsame, hr] at hr'
      obtain rfl := Option.some.inj hr'
      -- what stays on the queue was not dequeued
      have herr : ServiceErr h.engine hw w := by
        by_contra herr
        exact (hs.not_mem ht.nodup).2 herr hmem
      change e.descDequeued = 0
      rw [hdeq, if_pos herr, hzero]
      rfl
    · rcases hs.idle hb with ⟨hidle, -⟩ | ⟨-, -, -, hdeq, -⟩
      · exact absurd (hidle.symm.trans hrun') (by decide)
      · exact hdeq
  · rcases eq_or_ne q r.ptr with rfl | hne
    · obtain ⟨hoff, hdone⟩ := hs.head_done ht hr hcount hc
      exact ⟨hoff, not_inFlight_follow hnum hdone hs.started_cases hoff⟩
    · obtain ⟨hoff, hdone⟩ := ht.completed q hq ((hother q hne).symm.trans hc)
      have hoff' : q ∉ e.transferList := fun hmem => hoff (hs.subset q hmem)
      exact ⟨hoff', not_inFlight_follow hnum hdone hs.started_cases hoff'⟩

end Wimi
