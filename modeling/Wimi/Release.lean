import Wimi.Driver

/-!
# Releasing what the hardware works on

`releases_idle` : a transfer, its ring and its result buffer are released only when the transfer
is off the queue and the hardware is done with it, in every run in which `engine_service` finds
a running engine stopped and without an error, no thread goes by the state of its transfer before
the service call that has stored it has done with the transfer, and no signal ends the wait of
`cyclic_shutdown_interrupt` for an engine that runs. `cyclic_transfer_teardown` goes on to free
everything whatever that wait returns.
-/

open Machine

namespace Wimi

open XdmaEngine

/-! ## Safe releases -/

/-- The transfer at `p` is off the queue, and the hardware does not work on it. -/
def DriverSession.Idle (s : DriverSession) (p : Ptr) : Prop :=
  p ∉ s.engine.transferList ∧ p ∉ s.busy

/-- A service call that goes by descriptors finds a running engine stopped. -/
def DriverSession.ServesStopped (s : DriverSession) : Prop :=
  s.rxTransferCyclic = none → s.engine.running = true → s.busy = []

/-- Transfers, rings and result buffers are released idle. -/
structure ReleasesIdle (s s' : DriverSession) : Prop where
  transfers : ∃ released, s'.engine.freed = released ++ s.engine.freed ∧
    ∀ p ∈ released, s.Idle p
  rxBuffer : ∀ p, s.rxBuffer = some p → s'.rxBuffer ≠ some p → s.Idle p
  resultBuffer : ∀ p, s.resultBuffer = some p → s'.resultBuffer ≠ some p → s.Idle p

/-- Service calls find the engine stopped, and its status without an error, no thread goes by the
state of its transfer while a service call still uses it, and the wait for the engine to be no
longer running is not ended by a signal before. -/
structure StopsFirst (s : DriverSession) (i : DriverStep) : Prop where
  service : ∀ tid hw n, i = .service tid hw n → s.ServesStopped
  work : ∀ hw n, i = .work hw n → s.ServesStopped
  final : ∀ p d caller rc, i = .turn → s.lock = .service (.final p d) caller rc →
    s.engine.status &&& errFlags = 0
  settle : ∀ tid status p rc, i = .settle tid status → (s.calls tid).phase = .monitored p rc →
    s.lock.pending ≠ some p
  shutdown : i = .shutdown true → s.engine.running = false

/-! ## Invariant -/

/-- What is queued is submitted, the hardware works on the head of the queue of a running
engine at most, and on nothing during a service call, and the cyclic transfer is queued only
while the file is open and the engine runs. -/
structure DriverInv (s : DriverSession) : Prop where
  nodup : s.engine.transferList.Nodup
  allocated : ∀ p ∈ s.engine.transferList, p < s.next
  submitted : ∀ p ∈ s.engine.transferList, s.lock.linked ≠ some p →
    s.engine.stateOf p = .submitted
  sync : ∀ p ∈ s.engine.transferList, (s.engine.transfers p).Sync
  busy : ∀ p ∈ s.busy, s.engine.running = true ∧ s.engine.transferList.head? = some p
  buffers : s.lock ≠ .lost →
    s.rxBuffer = s.rxTransferCyclic ∧ s.resultBuffer = s.rxTransferCyclic
  created : ∀ p, s.rxTransferCyclic = some p → p < s.next ∧ (s.engine.transfers p).Sync
  linked : ∀ p, s.rxTransferCyclic = some p → p ∈ s.engine.transferList →
    s.engine.running = true ∧ (s.file = .opened ∨ s.file = .stopping)
  service : ∀ f caller rc, s.lock = .service f caller rc →
    s.rxTransferCyclic = none ∧ s.busy = [] ∧ f.Fits s.engine

theorem driverInv_start (pollMode streaming dirToDev nonIncrAddr : Bool)
    (memory : Ptr → XdmaTransfer) (next : Ptr) :
    DriverInv (.start pollMode streaming dirToDev nonIncrAddr memory next) where
  nodup := List.nodup_nil
  allocated _ hp := nomatch hp
  submitted _ hp := nomatch hp
  sync _ hp := nomatch hp
  busy _ hp := nomatch hp
  buffers _ := ⟨rfl, rfl⟩
  created _ hp := nomatch hp
  linked _ hp := nomatch hp
  service _ _ _ hlock := nomatch hlock

variable {s s' : DriverSession}

/-- The hardware works on queued transfers only. -/
theorem DriverInv.idle_of_not_mem (h : DriverInv s) {p : Ptr} (hp : p ∉ s.engine.transferList) :
    s.Idle p :=
  ⟨hp, fun hbusy => hp (List.mem_of_mem_head? (h.busy p hbusy).2)⟩

/-- A state that is stored while its transfer is on the queue is one the call goes on to use. -/
theorem EngineLock.pending_of_linked {l : EngineLock} {p : Ptr} (h : l.linked = some p) :
    l.pending = some p := by
  cases l with
  | service f caller rc =>
    cases f with
    | stored q => exact h
    | _ => cases h
  | _ => cases h

/-- A transfer that has left the submitted state is idle, unless a service call still uses it. -/
theorem DriverInv.idle_of_settled (h : DriverInv s) {p : Ptr}
    (hp : s.engine.stateOf p ≠ .submitted) (hpending : s.lock.pending ≠ some p) : s.Idle p :=
  h.idle_of_not_mem fun hmem =>
    hp (h.submitted p hmem fun hlinked => hpending (EngineLock.pending_of_linked hlinked))

/-- On an idle engine the hardware works on nothing. -/
theorem DriverInv.busy_eq_nil (h : DriverInv s) (hrun : s.engine.running = false) :
    s.busy = [] := by
  refine List.eq_nil_iff_forall_not_mem.mpr fun p hp => ?_
  exact absurd (hrun.symm.trans (h.busy p hp).1) (by decide)

/-- A step that frees nothing. -/
theorem releasesIdle_of_kept (hfreed : s'.engine.freed = s.engine.freed)
    (hrx : s'.rxBuffer = s.rxBuffer) (hresult : s'.resultBuffer = s.resultBuffer) :
    ReleasesIdle s s' :=
  ⟨⟨[], hfreed, fun _ hp => nomatch hp⟩, fun _ hp hne => absurd (hrx.trans hp) hne,
    fun _ hp hne => absurd (hresult.trans hp) hne⟩

/-- A step of a thread that leaves the engine alone. -/
theorem DriverInv.setCall (h : DriverInv s) (tid : ℕ) (c : Call) :
    DriverInv (s.setCall tid c) :=
  { h with }

/-- The queue, the transfers and the run may stay the same while the rest of the engine
changes. -/
theorem DriverInv.congr (h : DriverInv s) {e : XdmaEngine}
    (hlist : e.transferList = s.engine.transferList) (htransfers : e.transfers = s.engine.transfers)
    (hrun : e.running = s.engine.running) : DriverInv { s with engine := e } := by
  have hstate : e.stateOf = s.engine.stateOf := by
    funext p
    rw [stateOf, stateOf, htransfers]
  refine
    { nodup := hlist ▸ h.nodup
      allocated := hlist ▸ h.allocated
      submitted := ?_
      sync := ?_
      busy := ?_
      buffers := h.buffers
      created := ?_
      linked := ?_
      service := fun f caller rc hlock => ?_ }
  · change ∀ p ∈ e.transferList, _ → e.stateOf p = _
    rw [hlist, hstate]
    exact h.submitted
  · change ∀ p ∈ e.transferList, (e.transfers p).Sync
    rw [hlist, htransfers]
    exact h.sync
  · change ∀ p ∈ s.busy, e.running = true ∧ e.transferList.head? = some p
    rw [hlist, hrun]
    exact h.busy
  · change ∀ p, _ → p < s.next ∧ (e.transfers p).Sync
    rw [htransfers]
    exact h.created
  · change ∀ p, _ → p ∈ e.transferList → e.running = true ∧ _
    rw [hlist, hrun]
    exact h.linked
  · exact (h.service f caller rc hlock).imp_right
      (And.imp_right (ServicePoint.fits_congr hlist htransfers).mpr)

/-- Nobody services the engine while the lock is free. -/
theorem not_service_of_free {P : Prop} {f : ServicePoint} {caller : Option ℕ} {rc : ℤ}
    (hfree : s.lock = .free) (hlock : s.lock = .service f caller rc) : P :=
  absurd (hfree.symm.trans hlock) nofun

theorem DriverInv.submitted_of_free (h : DriverInv s) (hfree : s.lock = .free) :
    ∀ p ∈ s.engine.transferList, s.engine.stateOf p = .submitted := fun p hp =>
  h.submitted p hp (by rw [hfree]; exact nofun)

theorem DriverInv.buffers_of_free (h : DriverInv s) (hfree : s.lock = .free) :
    s.rxBuffer = s.rxTransferCyclic ∧ s.resultBuffer = s.rxTransferCyclic :=
  h.buffers (by rw [hfree]; exact nofun)

/-- A thread that is killed under the lock keeps it. -/
theorem DriverInv.loseLock (h : DriverInv s) (hlinked : s.lock.linked = none) :
    DriverInv (s.loseLock s.engine) :=
  { h with
    submitted := fun p hp _ => h.submitted p hp (by rw [hlinked]; exact nofun)
    buffers := fun hlost => absurd rfl hlost
    service := nofun }

/-- A service call that is done returns to its caller. -/
theorem DriverInv.served {caller : Option ℕ} {rc : ℤ} (h : DriverInv { s with lock := .free }) :
    DriverInv (s.served caller rc) := by
  unfold DriverSession.served
  cases caller with
  | none => exact h
  | some tid =>
    dsimp only
    split
    · exact h.setCall _ _
    · exact h

/-- It releases nothing. -/
theorem served_kept (s : DriverSession) (caller : Option ℕ) (rc : ℤ) :
    (s.served caller rc).engine = s.engine ∧ (s.served caller rc).rxBuffer = s.rxBuffer ∧
      (s.served caller rc).resultBuffer = s.resultBuffer := by
  unfold DriverSession.served
  cases caller with
  | none => exact ⟨rfl, rfl, rfl⟩
  | some tid =>
    dsimp only
    split <;> exact ⟨rfl, rfl, rfl⟩

theorem DriverInv.create (h : DriverInv s) (hfree : s.lock = .free) (t : XdmaTransfer) :
    DriverInv (s.create t) := by
  have hold : ∀ p < s.next, (s.create t).engine.transfers p = s.engine.transfers p :=
    fun p hp => Function.update_of_ne hp.ne _ _
  refine
    { h with
      allocated := fun p hp => (h.allocated p hp).trans (Nat.lt_succ_self _)
      submitted := fun p hp _ => ?_
      sync := fun p hp => ?_
      created := fun p hp => ⟨(h.created p hp).1.trans (Nat.lt_succ_self _), ?_⟩
      service := fun _ _ _ => not_service_of_free hfree }
  · rw [stateOf, hold p (h.allocated p hp)]
    exact h.submitted_of_free hfree p hp
  · rw [hold p (h.allocated p hp)]
    exact h.sync p hp
  · rw [hold p (h.created p hp).1]
    exact (h.created p hp).2

/-- A new transfer of a synchronous request is there as it was made. -/
theorem create_sync (s : DriverSession) (t : XdmaTransfer) (ht : t.Sync) :
    ((s.create t).engine.transfers s.next).Sync := by
  change (Function.update s.engine.transfers s.next t s.next).Sync
  rwa [Function.update_self]

/-! ## Calls under the lock -/

theorem busy_follow_of_same {e : XdmaEngine} (h : e.started = s.engine.started) :
    (s.follow e).busy = s.busy :=
  if_pos (congrArg List.length h)

theorem busy_follow_of_start {e : XdmaEngine} {q : Ptr}
    (h : e.started = (q, e.transfers q) :: s.engine.started) :
    (s.follow e).busy = q :: s.busy := by
  have hlen : e.started.length ≠ s.engine.started.length := by
    rw [h, List.length_cons]
    omega
  refine (if_neg hlen).trans ?_
  rw [h]
  rfl

/-- Queueing a transfer keeps the invariant, the cyclic one from an open file. -/
theorem Queued.driverInv {e : XdmaEngine} {p : Ptr} (h : DriverInv s) (hfree : s.lock = .free)
    (hp : p < s.next)
    (hnew : p ∉ s.engine.transferList) (hsync : (s.engine.transfers p).Sync)
    (hfile : s.rxTransferCyclic = some p → s.file = .opened ∨ s.file = .stopping)
    (hq : Queued s.engine e p) : DriverInv (s.follow e) := by
  refine
    { nodup := hq.nodup h.nodup hnew
      allocated := fun q hqmem => (hq.mem_iff.mp hqmem).elim (h.allocated q) fun heq => heq ▸ hp
      submitted := fun q hqmem _ =>
        hq.forall_mem (P := fun t => t.state = .submitted) (h.submitted_of_free hfree) rfl q hqmem
      sync := hq.forall_mem h.sync hsync
      busy := fun q hqbusy => ⟨hq.isRunning, ?_⟩
      buffers := h.buffers
      created := fun q hrx => ⟨(h.created q hrx).1, ?_⟩
      linked := fun q hrx hqmem => ⟨hq.isRunning, ?_⟩
      service := fun _ _ _ => not_service_of_free hfree }
  · change e.transferList.head? = some q
    rcases hrun : s.engine.running with _ | _
    · obtain ⟨r, hhead, -, -, hstart⟩ := hq.idle hrun
      rw [busy_follow_of_start hstart, h.busy_eq_nil hrun, List.mem_singleton] at hqbusy
      rw [hhead, hqbusy]
    · rw [busy_follow_of_same (hq.busy hrun).started] at hqbusy
      rw [hq.list, List.head?_append, (h.busy q hqbusy).2]
      rfl
  · change (e.transfers q).Sync
    rcases eq_or_ne q p with rfl | hne
    · rw [hq.self]
      exact hsync
    · rw [hq.others q hne]
      exact (h.created q hrx).2
  · rcases hq.mem_iff.mp hqmem with hold | rfl
    · exact (h.linked q hrx hold).2
    · exact hfile hrx

/-- The cyclic transfer stays queued only while the engine runs. -/
theorem CyclicServiced.running_of_mem {e : XdmaEngine} {status : U32} {p : Ptr}
    (h : DriverInv s) (hs : CyclicServiced s.engine e s.rxTransferCyclic status)
    (hrx : s.rxTransferCyclic = some p) (hp : p ∈ e.transferList) : e.running = true := by
  rcases hs.queue with ⟨hlist, hrun⟩ | ⟨-, -, ⟨-, hlist⟩ | ⟨q, hq, hlist⟩⟩
  · exact hrun.trans (h.linked p hrx (hlist ▸ hp)).1
  · rw [hlist] at hp
    cases hp
  · -- the cyclic transfer was taken off
    obtain rfl : q = p := Option.some.inj (hq.symm.trans hrx)
    exact absurd hp (List.nodup_cons.mp (hlist ▸ h.nodup)).1

/-- Servicing or shutting down a streaming engine keeps the invariant. -/
theorem CyclicServiced.driverInv {e : XdmaEngine} {status : U32} {f : FilePhase}
    (h : DriverInv s) (hfree : s.lock = .free) (hanswers : s.Answers status)
    (hs : CyclicServiced s.engine e s.rxTransferCyclic status)
    (hfile : ∀ p, s.rxTransferCyclic = some p → p ∈ e.transferList → f = .opened ∨ f = .stopping) :
    DriverInv { s with engine := e, file := f } := by
  have hsub := hs.sublist
  have hsync : ∀ p, (s.engine.transfers p).Sync → (e.transfers p).Sync := by
    intro p hp
    obtain ⟨n, hn⟩ := hs.transfers p
    rw [hn]
    exact hp
  refine
    { nodup := h.nodup.sublist hsub
      allocated := fun p hp => h.allocated p (hsub.subset hp)
      submitted := fun p hp _ =>
        (hs.stateOf p).trans (h.submitted_of_free hfree p (hsub.subset hp))
      sync := fun p hp => hsync p (h.sync p (hsub.subset hp))
      busy := fun p hp => ?_
      buffers := h.buffers
      created := fun p hrx => ⟨(h.created p hrx).1, hsync p (h.created p hrx).2⟩
      linked := fun p hrx hp => ⟨hs.running_of_mem h hrx hp, hfile p hrx hp⟩
      service := fun _ _ _ => not_service_of_free hfree }
  change p ∈ s.busy at hp
  rcases hs.queue with ⟨hlist, hrun⟩ | ⟨hidle, -⟩
  · change e.running = true ∧ e.transferList.head? = some p
    rw [hlist, hrun]
    exact h.busy p hp
  · rw [hanswers.mp hidle] at hp
    cases hp

theorem follow_of_same {e : XdmaEngine} (h : e.started = s.engine.started) :
    s.follow e = { s with engine := e } := by
  rw [DriverSession.follow, if_pos (congrArg List.length h)]

/-! ## The turns of a service call -/

theorem DriverInv.serviceInv (h : DriverInv s) {f : ServicePoint} {caller : Option ℕ} {rc : ℤ}
    (hlock : s.lock = .service f caller rc) : ServiceInv s.engine f :=
  ⟨h.nodup, h.sync, (h.service f caller rc hlock).2.2⟩

/-- What a turn has done to the queue keeps the invariant, if the status has no error. -/
theorem Turned.driverInv {e : XdmaEngine} {f f' : ServicePoint} {caller : Option ℕ} {rc : ℤ}
    (ht : Turned s.engine e f f') (h : DriverInv s) (hlock : s.lock = .service f caller rc)
    (herr : ∀ p d, f = .final p d → s.engine.status &&& errFlags = 0) :
    DriverInv { s with engine := e, lock := .service f' caller rc } := by
  obtain ⟨hrx, hbusy, -⟩ := h.service f caller rc hlock
  have hlost : s.lock ≠ .lost := by rw [hlock]; exact nofun
  exact
    { nodup := ht.inv.nodup
      allocated := fun q hq => h.allocated q (ht.sublist.subset hq)
      submitted := fun q hq hne => by
        obtain ⟨hlinked, hkept⟩ := ht.states q hq hne
        rw [hkept.resolve_right fun ⟨d, hf, hstatus⟩ => hstatus (herr q d hf)]
        exact h.submitted q (ht.sublist.subset hq) (by rw [hlock]; exact hlinked)
      sync := ht.inv.sync
      busy := fun q hq => absurd hq (by rw [hbusy]; exact List.not_mem_nil)
      buffers := fun _ => h.buffers hlost
      created := fun q hq => absurd (hrx.symm.trans hq) nofun
      linked := fun q hq => absurd (hrx.symm.trans hq) nofun
      service := fun f₁ _ _ hf₁ => by
        obtain ⟨rfl, -, -⟩ := EngineLock.service.inj hf₁
        exact ⟨hrx, hbusy, ht.inv.fits⟩ }

/-- A service call that resumes keeps the invariant. -/
theorem resume_releases {e : XdmaEngine} {caller : Option ℕ} {rc : ℤ} (h : DriverInv s)
    (hlock : s.lock = .service .resume caller rc)
    (he : engineServiceResume (clearWriteback s.engine) = .ok e) :
    DriverInv ((s.follow e).served caller rc) ∧
      ReleasesIdle s ((s.follow e).served caller rc) := by
  obtain ⟨hrx, hbusy, -⟩ := h.service _ _ _ hlock
  have hlost : s.lock ≠ .lost := by rw [hlock]; exact nofun
  obtain ⟨hclear, hclearRun⟩ := clearWriteback_frame s.engine
  obtain ⟨hq, -, -, hcases⟩ := engineServiceResume_cases he
  have hsame := hclear.trans hq
  obtain ⟨hengine, hbuffer, hresult⟩ := served_kept (s.follow e) caller rc
  refine ⟨?_, releasesIdle_of_kept ((congrArg (·.freed) hengine).trans hsame.freed) hbuffer
    hresult⟩
  refine DriverInv.served
    { nodup := hsame.list ▸ h.nodup
      allocated := hsame.list ▸ h.allocated
      submitted := fun q hqmem _ => (hsame.stateOf q).trans ?_
      sync := fun q hqmem => ?_
      busy := fun q hqbusy => ?_
      buffers := fun _ => h.buffers hlost
      created := fun q hq => absurd (hrx.symm.trans hq) nofun
      linked := fun q hq => absurd (hrx.symm.trans hq) nofun
      service := nofun }
  · exact h.submitted q (hsame.list ▸ hqmem) (by rw [hlock]; exact nofun)
  · change (e.transfers q).Sync
    rw [hsame.transfers]
    exact h.sync q (hsame.list ▸ hqmem)
  · change e.running = true ∧ e.transferList.head? = some q
    have hkept : e.started = s.engine.started → False := fun hstarted => by
      have hnone : (s.follow e).busy = [] := (busy_follow_of_same hstarted).trans hbusy
      exact List.not_mem_nil (hnone ▸ hqbusy)
    rcases hcases with ⟨hrun, -⟩ | ⟨-, -, -, hstarted⟩ | ⟨-, p, hstart⟩
    · exact (hkept (hrun.started.trans hclearRun.started)).elim
    · exact (hkept (hstarted.trans hclearRun.started)).elim
    · have hstarted : e.started = (p, e.transfers p) :: s.engine.started := by
        rw [hstart.started, hq.transfers, hclearRun.started]
      have hone : (s.follow e).busy = [p] := by rw [busy_follow_of_start hstarted, hbusy]
      obtain rfl : q = p := List.mem_singleton.mp (by rw [← hone]; exact hqbusy)
      rw [hq.list]
      exact ⟨hstart.running, hstart.head⟩

/-- A turn of a service call keeps the invariant and releases nothing. -/
theorem turn_releases (h : DriverInv s) (hstep : s.turn = some s') (hc : StopsFirst s .turn) :
    DriverInv s' ∧ ReleasesIdle s s' := by
  unfold DriverSession.turn at hstep
  split at hstep
  case h_2 => cases hstep
  next f caller rc hlock =>
  split at hstep
  · next e f' hturn =>
    obtain rfl := Option.some.inj hstep
    have ht := serviceTurn_turned (h.serviceInv hlock) hturn
    refine ⟨ht.driverInv h hlock ?_, releasesIdle_of_kept ht.freed rfl rfl⟩
    rintro p d rfl
    exact hc.final p d caller rc rfl hlock
  · next e hturn =>
    obtain rfl := Option.some.inj hstep
    obtain ⟨rfl, he⟩ := serviceTurn_done hturn
    exact resume_releases h hlock he
  · next e hturn =>
    -- it stops the kernel
    obtain rfl := Option.some.inj hstep
    obtain ⟨rfl, -, hlinked, -⟩ := serviceTurn_error hturn
    exact ⟨h.loseLock (by rw [hlock]; exact hlinked), releasesIdle_of_kept rfl rfl rfl⟩

/-! ## Steps of the threads -/

/-- Queueing keeps the invariant and frees nothing. -/
theorem queue_driverInv {e : XdmaEngine} {p : Ptr} {rc : ℤ} (h : DriverInv s)
    (hfree : s.lock = .free) (hp : p < s.next) (hnew : p ∉ s.engine.transferList)
    (hsync : (s.engine.transfers p).Sync)
    (hfile : s.rxTransferCyclic = some p → s.file = .opened ∨ s.file = .stopping)
    (hq : transferQueue s.engine p = .ok (e, rc)) :
    DriverInv (s.follow e) ∧ e.freed = s.engine.freed := by
  rcases transferQueue_cases hq with ⟨-, rfl, -⟩ | ⟨-, hqueued⟩
  · rw [follow_of_same rfl]
    exact ⟨h, rfl⟩
  · exact ⟨hqueued.driverInv h hfree hp hnew hsync hfile, hqueued.freed⟩

theorem submit_releases {tid : ℕ} {built : Option (U64 × U32)} (h : DriverInv s)
    (hstep : s.submit tid built = some s') : DriverInv s' ∧ ReleasesIdle s s' := by
  unfold DriverSession.submit at hstep
  rw [Option.ite_none_left_eq_some] at hstep
  replace hstep := hstep.2
  by_cases hgo : ¬ (s.calls tid).Continues
  · rw [if_pos hgo] at hstep
    obtain rfl := Option.some.inj hstep
    exact ⟨h.setCall _ _, releasesIdle_of_kept rfl rfl rfl⟩
  rw [if_neg hgo] at hstep
  rcases built with _ | ⟨descBus, descNum⟩
  · obtain rfl := Option.some.inj hstep
    exact ⟨h.setCall _ _, releasesIdle_of_kept rfl rfl rfl⟩
  dsimp only at hstep
  rw [Option.ite_none_left_eq_some, not_not] at hstep
  obtain ⟨hfree, hstep⟩ := hstep
  have hsession := (h.create hfree ((s.calls tid).newTransfer descBus descNum).create).setCall tid
    ((s.calls tid).queued s.next)
  have hsync := create_sync s ((s.calls tid).newTransfer descBus descNum).create rfl
  split at hstep
  · next e rc hq =>
    obtain rfl := Option.some.inj hstep
    obtain ⟨hinv, hfreed⟩ := queue_driverInv hsession hfree (Nat.lt_succ_self _)
      (fun hmem => lt_irrefl _ (h.allocated _ hmem)) hsync
      (fun hrx => absurd (h.created _ hrx).1 (lt_irrefl _)) hq
    exact ⟨hinv, releasesIdle_of_kept hfreed rfl rfl⟩
  · next e hq =>
    obtain rfl := Option.some.inj hstep
    obtain ⟨rfl, -⟩ := transferQueue_error hq
    exact ⟨hsession.setCall _ _, releasesIdle_of_kept rfl rfl rfl⟩

theorem wait_releases {tid : ℕ} {signal : Bool} (h : DriverInv s)
    (hstep : s.wait tid signal = some s') : DriverInv s' ∧ ReleasesIdle s s' := by
  unfold DriverSession.wait at hstep
  dsimp only at hstep
  split at hstep
  · rw [Option.ite_none_left_eq_some] at hstep
    obtain ⟨rc, -, rfl⟩ := Option.map_eq_some_iff.mp hstep.2
    exact ⟨h.setCall _ _, releasesIdle_of_kept rfl rfl rfl⟩
  · cases hstep

theorem poll_releases {tid : ℕ} {timeout : Bool} (h : DriverInv s)
    (hstep : s.poll tid timeout = some s') : DriverInv s' ∧ ReleasesIdle s s' := by
  unfold DriverSession.poll at hstep
  dsimp only at hstep
  split at hstep
  · rw [Option.ite_none_left_eq_some] at hstep
    replace hstep := hstep.2
    split at hstep
    · obtain rfl := Option.some.inj hstep
      exact ⟨h.setCall _ _, releasesIdle_of_kept rfl rfl rfl⟩
    split at hstep
    · obtain rfl := Option.some.inj hstep
      exact ⟨h, releasesIdle_of_kept rfl rfl rfl⟩
    · obtain rfl := Option.some.inj hstep
      exact ⟨h.setCall _ _, releasesIdle_of_kept rfl rfl rfl⟩
  · cases hstep

/-- The beginning of a service call keeps the invariant, and frees nothing. -/
theorem serve_releases {hw : HwReads} {w : U32} {n : ℕ} {caller : Option ℕ} (h : DriverInv s)
    (hfree : s.lock = .free) (hanswers : s.Answers hw.status) (hc : s.ServesStopped) :
    DriverInv (s.serve hw w n caller) ∧ ReleasesIdle s (s.serve hw w n caller) := by
  have hserved : ∀ {e rc}, DriverInv { s with engine := e } → e.freed = s.engine.freed →
      DriverInv ({ s with engine := e }.served caller rc) ∧
        ReleasesIdle s ({ s with engine := e }.served caller rc) := fun {e rc} hinv hfreed => by
    obtain ⟨hengine, hbuffer, hresult⟩ := served_kept { s with engine := e } caller rc
    refine ⟨.served ?_, releasesIdle_of_kept ((congrArg (·.freed) hengine).trans hfreed) hbuffer
      hresult⟩
    rw [← hfree]
    exact hinv
  have hcyclic : ∀ {e p}, s.rxTransferCyclic = some p →
      CyclicServiced s.engine e (some p) hw.status → DriverInv { s with engine := e } :=
    fun hrx hs => by
      rw [← hrx] at hs
      exact hs.driverInv h hfree hanswers fun q hq hmem =>
        (h.linked q hq (hs.sublist.subset hmem)).2
  unfold DriverSession.serve
  split
  · next p hrx =>
    split
    · next e rc hserve =>
      have hs := engineServiceCyclic_cases hserve
      exact hserved (hcyclic hrx hs) hs.freed
    · next e hserve =>
      have hs := engineServiceCyclic_error hserve
      exact ⟨(hcyclic hrx hs).loseLock (congrArg EngineLock.linked hfree),
        releasesIdle_of_kept hs.freed rfl rfl⟩
  next hrx =>
  split
  · obtain ⟨hq, hr⟩ := serviceIdle_frame s.engine hw w
    exact hserved (h.congr hq.list hq.transfers hr.running) hq.freed
  · next hrun =>
    obtain ⟨hent, d, hd⟩ := serviceBegin_entered hw w (by simpa using hrun)
    have hbusy := hc hrx (by simpa using hrun)
    dsimp only
    refine ⟨{
      nodup := hent.queue.list ▸ h.nodup
      allocated := hent.queue.list ▸ h.allocated
      submitted := fun q hq _ => (hent.queue.stateOf q).trans ?_
      sync := fun q hq => ?_
      busy := fun q hq => absurd hq (by rw [hbusy]; exact List.not_mem_nil)
      buffers := fun _ => h.buffers_of_free hfree
      created := fun q hq => absurd (hrx.symm.trans hq) nofun
      linked := fun q hq => absurd (hrx.symm.trans hq) nofun
      service := fun f _ _ hf => ?_ }, releasesIdle_of_kept hent.queue.freed rfl rfl⟩
    · exact h.submitted_of_free hfree q (hent.queue.list ▸ hq)
    · change ((serviceBegin s.engine hw w).1.transfers q).Sync
      rw [hent.queue.transfers]
      exact h.sync q (hent.queue.list ▸ hq)
    · obtain ⟨rfl, -, -⟩ := EngineLock.service.inj hf
      rw [hd]
      exact ⟨hrx, hbusy, trivial⟩

theorem service_releases {tid n : ℕ} {hw : HwReads} (h : DriverInv s)
    (hstep : s.service tid hw n = some s') (hc : StopsFirst s (.service tid hw n)) :
    DriverInv s' ∧ ReleasesIdle s s' := by
  unfold DriverSession.service at hstep
  split at hstep
  case h_2 => cases hstep
  rw [Option.ite_none_left_eq_some, not_or, not_not, not_not] at hstep
  obtain ⟨⟨hfree, hanswers⟩, hstep⟩ := hstep
  obtain rfl := Option.some.inj hstep
  exact serve_releases h hfree hanswers (hc.service tid hw n rfl)

theorem work_releases {n : ℕ} {hw : HwReads} (h : DriverInv s) (hstep : s.work hw n = some s')
    (hc : StopsFirst s (.work hw n)) : DriverInv s' ∧ ReleasesIdle s s' := by
  unfold DriverSession.work at hstep
  rw [Option.ite_none_left_eq_some, not_or, not_not, not_not] at hstep
  obtain ⟨⟨hfree, hanswers⟩, hstep⟩ := hstep
  obtain rfl := Option.some.inj hstep
  exact serve_releases h hfree hanswers (hc.work hw n rfl)

/-- A thread destroys only what has left the submitted state, and is off the queue when no
service call uses it any more. -/
theorem settle_releases {tid : ℕ} {status : U32} (h : DriverInv s)
    (hstep : s.settle tid status = some s') (hc : StopsFirst s (.settle tid status)) :
    DriverInv s' ∧ ReleasesIdle s s' := by
  unfold DriverSession.settle at hstep
  dsimp only at hstep
  split at hstep
  case h_2 => cases hstep
  next p rc hphase =>
  obtain rfl := Option.some.inj hstep
  obtain ⟨hlist, htransfers, hr⟩ := settleEngine_frame s.engine p rc status
  refine ⟨(h.congr hlist htransfers hr.running).setCall tid _, ?_⟩
  unfold settleEngine
  split
  · next hsettled =>
    refine ⟨⟨[p], rfl, fun q hq => ?_⟩, fun _ hrx hne => absurd hrx hne,
      fun _ hrx hne => absurd hrx hne⟩
    rw [List.mem_singleton.mp hq]
    exact h.idle_of_settled hsettled (hc.settle tid status p rc rfl hphase)
  split
  · exact releasesIdle_of_kept rfl rfl rfl
  · exact releasesIdle_of_kept rfl rfl rfl

/-! ## Steps of the file -/

theorem openFile_releases {allocated : Allocated} (h : DriverInv s)
    (hstep : s.openFile allocated = some s') : DriverInv s' ∧ ReleasesIdle s s' := by
  unfold DriverSession.openFile at hstep
  rw [Option.ite_none_left_eq_some, not_or, not_not, not_not] at hstep
  obtain ⟨⟨-, hfree⟩, hstep⟩ := hstep
  have hlost : DriverInv (s.loseLock s.engine) :=
    h.loseLock (congrArg EngineLock.linked hfree)
  by_cases hrx : s.rxBuffer.isSome
  · rw [if_pos hrx] at hstep
    obtain rfl := Option.some.inj hstep
    exact ⟨hlost, releasesIdle_of_kept rfl rfl rfl⟩
  rw [if_neg hrx] at hstep
  have hnone : s.rxBuffer = none := by simpa using hrx
  have hbuffers := h.buffers_of_free hfree
  have hcyclic : s.rxTransferCyclic = none := hbuffers.1.symm.trans hnone
  have hresult : s.resultBuffer = none := hbuffers.2.trans hcyclic
  have hunbuffered : ∀ p, s.rxBuffer ≠ some p := by
    rw [hnone]
    exact nofun
  cases allocated with
  | nothing =>
    obtain rfl := Option.some.inj hstep
    exact ⟨hlost, releasesIdle_of_kept rfl rfl rfl⟩
  | rxBuffer =>
    obtain rfl := Option.some.inj hstep
    exact ⟨{ hlost with buffers := fun hne => absurd rfl hne }, ⟨⟨[], rfl, nofun⟩,
      fun p hp => absurd hp (hunbuffered p), fun _ hp hne => absurd hp hne⟩⟩
  | transfer descBus descNum =>
    obtain rfl := Option.some.inj hstep
    have hcreate := h.create hfree (DriverSession.newCyclic descBus descNum).create
    refine ⟨{ hcreate with
      buffers := fun _ => ⟨hnone, hresult⟩
      created := fun _ hp => nomatch hp
      linked := fun _ hp => nomatch hp
      service := fun _ _ _ => not_service_of_free hfree }, ⟨⟨[s.next], rfl, fun p hp => ?_⟩,
      fun p hp => absurd hp (hunbuffered p),
      fun _ hp => absurd (hresult.symm.trans hp) nofun⟩⟩
    -- the new transfer was never queued
    rw [List.mem_singleton.mp hp]
    exact h.idle_of_not_mem fun hmem => lt_irrefl _ (h.allocated _ hmem)
  | all descBus descNum =>
    obtain rfl := Option.some.inj hstep
    have hcreate :=
      h.create hfree { (DriverSession.newCyclic descBus descNum).create with cyclic := true }
    refine ⟨{ hcreate with
      buffers := fun _ => ⟨rfl, rfl⟩
      created := fun p hp => ?_
      linked := fun p hp hmem => ?_
      service := fun _ _ _ => not_service_of_free hfree }, ⟨⟨[], rfl, fun _ hp => nomatch hp⟩,
      fun p hp => absurd hp (hunbuffered p),
      fun _ hp => absurd (hresult.symm.trans hp) nofun⟩⟩
    · obtain rfl := Option.some.inj hp
      exact ⟨Nat.lt_succ_self _, create_sync s _ rfl⟩
    · obtain rfl := Option.some.inj hp
      exact absurd (h.allocated _ hmem) (lt_irrefl _)

theorem queueCyclic_releases (h : DriverInv s) (hstep : s.queueCyclic = some s') :
    DriverInv s' ∧ ReleasesIdle s s' := by
  unfold DriverSession.queueCyclic at hstep
  split at hstep
  case h_2 => cases hstep
  next hfile =>
  rw [Option.ite_none_left_eq_some, not_not] at hstep
  obtain ⟨hfree, hstep⟩ := hstep
  -- nothing cyclic is queued yet
  have hoff : ∀ p, s.rxTransferCyclic = some p → p ∉ s.engine.transferList := by
    intro p hp hmem
    rcases (h.linked p hp hmem).2 with hopen | hopen <;> rw [hfile] at hopen <;> cases hopen
  have hinv : ∀ f, DriverInv { s with file := f } := fun f =>
    { h with linked := fun p hp hmem => absurd hmem (hoff p hp) }
  split at hstep
  · obtain rfl := Option.some.inj hstep
    exact ⟨hinv _, releasesIdle_of_kept rfl rfl rfl⟩
  next p hrx =>
  split at hstep
  · next e rc hq =>
    obtain rfl := Option.some.inj hstep
    obtain ⟨hinv', hfreed⟩ := queue_driverInv (hinv .opened) hfree (h.created p hrx).1 (hoff p hrx)
      (h.created p hrx).2 (fun _ => Or.inl rfl) hq
    exact ⟨hinv', releasesIdle_of_kept hfreed rfl rfl⟩
  · next e hq =>
    obtain rfl := Option.some.inj hstep
    obtain ⟨rfl, -⟩ := transferQueue_error hq
    exact ⟨hinv .killed, releasesIdle_of_kept rfl rfl rfl⟩

theorem closeFile_releases (h : DriverInv s) (hstep : s.closeFile = some s') :
    DriverInv s' ∧ ReleasesIdle s s' := by
  unfold DriverSession.closeFile at hstep
  split at hstep
  case h_2 => cases hstep
  obtain rfl := Option.some.inj hstep
  have hstop : ∀ e, e = engineCyclicStop s.engine → e.transferList = s.engine.transferList ∧
      e.transfers = s.engine.transfers ∧ e.running = s.engine.running ∧
      e.freed = s.engine.freed := by
    rintro e rfl
    unfold engineCyclicStop
    split <;> exact ⟨rfl, rfl, rfl, rfl⟩
  obtain ⟨hlist, htransfers, hrun, hfreed⟩ := hstop _ rfl
  have hinv := h.congr hlist htransfers hrun
  exact ⟨{ hinv with linked := fun p hp hmem => ⟨(hinv.linked p hp hmem).1, Or.inr rfl⟩ },
    releasesIdle_of_kept hfreed rfl rfl⟩

/-- Unless a signal ends it while the engine runs, the wait leaves the cyclic transfer off the
queue. -/
theorem shutdown_releases {signal : Bool} (h : DriverInv s)
    (hstep : s.shutdown signal = some s') (hc : StopsFirst s (.shutdown signal)) :
    DriverInv s' ∧ ReleasesIdle s s' := by
  unfold DriverSession.shutdown at hstep
  split at hstep
  case h_2 => cases hstep
  rw [Option.ite_none_left_eq_some] at hstep
  replace hstep := hstep.2
  have hwaited : ∀ rc, s.engine.running = false →
      DriverInv { s with file := .waited rc } ∧ ReleasesIdle s { s with file := .waited rc } := by
    intro rc hrun
    refine ⟨{ h with linked := fun p hp hmem => ?_ }, releasesIdle_of_kept rfl rfl rfl⟩
    exact absurd (hrun.symm.trans (h.linked p hp hmem).1) (by decide)
  split at hstep
  · next hrun =>
    obtain rfl := Option.some.inj hstep
    exact hwaited 0 (by simpa using hrun)
  split at hstep
  · next hsignal =>
    obtain rfl := Option.some.inj hstep
    exact hwaited _ (hc.shutdown (by rw [hsignal]))
  · cases hstep

theorem recheck_releases (h : DriverInv s) (hstep : s.recheck = some s') :
    DriverInv s' ∧ ReleasesIdle s s' := by
  unfold DriverSession.recheck at hstep
  split at hstep
  case h_2 => cases hstep
  next hfile =>
  obtain rfl := Option.some.inj hstep
  refine ⟨{ h with linked := fun p hp hmem => ?_ }, releasesIdle_of_kept rfl rfl rfl⟩
  rcases (h.linked p hp hmem).2 with hopen | hopen <;> rw [hfile] at hopen <;> cases hopen

theorem shutdownPolled_releases {status : U32} (h : DriverInv s)
    (hstep : s.shutdownPolled status = some s') : DriverInv s' ∧ ReleasesIdle s s' := by
  unfold DriverSession.shutdownPolled at hstep
  split at hstep
  case h_2 => cases hstep
  rw [Option.ite_none_left_eq_some] at hstep
  obtain ⟨hguard, hstep⟩ := hstep
  simp only [not_or, not_not] at hguard
  obtain ⟨-, hfree, hanswers, hidle⟩ := hguard
  split at hstep
  · next e hshut =>
    obtain rfl := Option.some.inj hstep
    obtain ⟨hs, hrun⟩ := cyclicShutdownPolled_cases hshut
    refine ⟨hs.driverInv h hfree hanswers fun p hp hmem => ?_,
      releasesIdle_of_kept hs.freed rfl rfl⟩
    exact absurd ((hrun hidle).symm.trans (hs.running_of_mem h hp hmem)) (by decide)
  · next e hshut =>
    obtain rfl := Option.some.inj hstep
    obtain rfl := shutdownWhenIdle_error hshut
    have hread := h.congr (e := engineStatusRead s.engine status) rfl rfl rfl
    exact ⟨hread.loseLock (congrArg EngineLock.linked hfree),
      releasesIdle_of_kept rfl rfl rfl⟩

theorem destroyCyclic_frame (e : XdmaEngine) (rx : Option Ptr) :
    (DriverSession.destroyCyclic e rx).transferList = e.transferList ∧
      (DriverSession.destroyCyclic e rx).transfers = e.transfers ∧
      (DriverSession.destroyCyclic e rx).running = e.running ∧
      (DriverSession.destroyCyclic e rx).freed = rx.toList ++ e.freed := by
  cases rx <;> exact ⟨rfl, rfl, rfl, rfl⟩

theorem free_releases (h : DriverInv s) (hstep : s.free = some s') :
    DriverInv s' ∧ ReleasesIdle s s' := by
  unfold DriverSession.free at hstep
  split at hstep
  case h_2 => cases hstep
  next rc hfile =>
  rw [Option.ite_none_left_eq_some, not_not] at hstep
  obtain ⟨hfree, hstep⟩ := hstep
  have hbuffers := h.buffers_of_free hfree
  have hidle : ∀ p, s.rxTransferCyclic = some p → s.Idle p := by
    intro p hp
    refine h.idle_of_not_mem fun hmem => ?_
    rcases (h.linked p hp hmem).2 with hopen | hopen <;> rw [hfile] at hopen <;> cases hopen
  obtain rfl := Option.some.inj hstep
  obtain ⟨hlist, htransfers, hrun, hreleased⟩ := destroyCyclic_frame s.engine s.rxTransferCyclic
  have hinv := h.congr hlist htransfers hrun
  exact ⟨{ hinv with
      buffers := fun _ => ⟨rfl, rfl⟩
      created := fun _ hp => nomatch hp
      linked := fun _ hp => nomatch hp
      service := fun _ _ _ => not_service_of_free hfree },
    ⟨⟨_, hreleased, fun p hp => hidle p (Option.mem_toList.mp hp)⟩,
      fun p hp _ => hidle p (hbuffers.1 ▸ hp), fun p hp _ => hidle p (hbuffers.2 ▸ hp)⟩⟩

/-- The step lemma. -/
theorem step_releases {i : DriverStep} (h : DriverInv s) (hstep : s.step i = some s')
    (hc : StopsFirst s i) : DriverInv s' ∧ ReleasesIdle s s' := by
  cases i with
  | enter tid remaining pos =>
    replace hstep : s.enter tid remaining pos = some s' := hstep
    unfold DriverSession.enter at hstep
    split at hstep
    · rw [Option.ite_none_left_eq_some] at hstep
      obtain rfl := Option.some.inj hstep.2
      exact ⟨h.setCall _ _, releasesIdle_of_kept rfl rfl rfl⟩
    · cases hstep
  | submit tid built => exact submit_releases h hstep
  | wait tid signal => exact wait_releases h hstep
  | poll tid timeout => exact poll_releases h hstep
  | service tid hw n => exact service_releases h hstep hc
  | settle tid status => exact settle_releases h hstep hc
  | work hw n => exact work_releases h hstep hc
  | turn => exact turn_releases h hstep hc
  | stop p =>
    obtain rfl := Option.some.inj hstep
    refine ⟨{ h with
      busy := fun q hq => h.busy q (List.mem_of_mem_filter hq)
      service := fun f c r hf => ?_ }, releasesIdle_of_kept rfl rfl rfl⟩
    obtain ⟨hrx, hbusy, hfits⟩ := h.service f c r hf
    exact ⟨hrx, by rw [hbusy]; rfl, hfits⟩
  | writeback w =>
    obtain rfl := Option.some.inj hstep
    exact ⟨h.congr rfl rfl rfl, releasesIdle_of_kept rfl rfl rfl⟩
  | openFile allocated => exact openFile_releases h hstep
  | queueCyclic => exact queueCyclic_releases h hstep
  | closeFile => exact closeFile_releases h hstep
  | shutdown signal => exact shutdown_releases h hstep hc
  | recheck => exact recheck_releases h hstep
  | shutdownPolled status => exact shutdownPolled_releases h hstep
  | free => exact free_releases h hstep

/-- In every run from an idle engine in which service calls find the engine stopped and without
an error, no thread goes by the state of its transfer while a service call still uses it, and no
signal ends the wait for the engine to stop, everything that is released is off the queue and no
longer worked on. -/
theorem releases_idle (pollMode streaming dirToDev nonIncrAddr : Bool)
    (memory : Ptr → XdmaTransfer) (next : Ptr) (is : List DriverStep)
    (h : Along DriverSession.step (fun s i _ => StopsFirst s i)
      (.start pollMode streaming dirToDev nonIncrAddr memory next) is) :
    Along DriverSession.step (fun s _ s' => ReleasesIdle s s')
      (.start pollMode streaming dirToDev nonIncrAddr memory next) is :=
  along_of_step (fun _ i _ hs hstep hc => step_releases (i := i) hs hstep hc)
    (driverInv_start ..) h

/-- A thread moves a page, and then a streaming engine is opened and closed. The engine has
stopped before it is serviced. -/
theorem releases_idle_open_close :
    Along DriverSession.step (fun s _ s' => ReleasesIdle s s')
      (.start false true false false (fun _ => (DriverSession.newCyclic 0x1000 256).create) 0)
      [.enter 0 4096 0, .submit 0 (some (0x1000, 1)), .stop 0, .work ⟨0, 1⟩ 0, .turn, .turn, .turn,
        .turn, .turn, .wait 0 false, .settle 0 0, .submit 0 none, .openFile (.all 0x1000 256),
        .queueCyclic, .closeFile, .stop 1, .work ⟨0, 0⟩ 0, .shutdown false, .recheck, .free] := by
  refine releases_idle _ _ _ _ _ _ _ ?_
  refine .cons rfl ⟨nofun, nofun, nofun, nofun, nofun⟩ <|
    .cons rfl ⟨nofun, nofun, nofun, nofun, nofun⟩ <|
    .cons rfl ⟨nofun, nofun, nofun, nofun, nofun⟩ <|
    .cons rfl ⟨nofun, fun _ _ _ _ _ => rfl, nofun, nofun, nofun⟩ <|
    .cons rfl ⟨nofun, nofun, fun _ _ _ _ _ _ => rfl, nofun, nofun⟩ <|
    .cons rfl ⟨nofun, nofun, fun _ _ _ _ _ _ => rfl, nofun, nofun⟩ <|
    .cons rfl ⟨nofun, nofun, fun _ _ _ _ _ _ => rfl, nofun, nofun⟩ <|
    .cons rfl ⟨nofun, nofun, fun _ _ _ _ _ _ => rfl, nofun, nofun⟩ <|
    .cons rfl ⟨nofun, nofun, fun _ _ _ _ _ _ => rfl, nofun, nofun⟩ <|
    .cons rfl ⟨nofun, nofun, nofun, nofun, nofun⟩ <|
    .cons rfl ⟨nofun, nofun, nofun, fun _ _ _ _ _ _ => nofun, nofun⟩ <|
    .cons rfl ⟨nofun, nofun, nofun, nofun, nofun⟩ <|
    .cons rfl ⟨nofun, nofun, nofun, nofun, nofun⟩ <|
    .cons rfl ⟨nofun, nofun, nofun, nofun, nofun⟩ <|
    .cons rfl ⟨nofun, nofun, nofun, nofun, nofun⟩ <|
    .cons rfl ⟨nofun, nofun, nofun, nofun, nofun⟩ <|
    .cons rfl ⟨nofun, fun _ _ _ hrx => absurd hrx nofun, nofun, nofun, nofun⟩ <|
    .cons rfl ⟨nofun, nofun, nofun, nofun, nofun⟩ <|
    .cons rfl ⟨nofun, nofun, nofun, nofun, nofun⟩ <|
    .cons rfl ⟨nofun, nofun, nofun, nofun, nofun⟩ trivial

/-- A signal ends the wait for a streaming engine to stop : its transfer is freed while it is
queued and the hardware works on it. A thread that comes to wait for its transfer behind the store
of its state frees it while it is queued. -/
theorem releases_fails :
    ¬ Along DriverSession.step (fun s _ s' => ReleasesIdle s s')
        (.start false true false false (fun _ => (DriverSession.newCyclic 0x1000 256).create) 0)
        [.openFile (.all 0x1000 256), .queueCyclic, .closeFile, .shutdown true, .recheck,
          .free] ∧
      ¬ Along DriverSession.step (fun s _ s' => ReleasesIdle s s')
        (.start false false true false (fun _ => (DriverSession.newCyclic 0x1000 256).create) 0)
        [.enter 0 4096 0, .submit 0 (some (0x1000, 1)), .stop 0, .work ⟨0, 1⟩ 0, .turn, .turn,
          .wait 0 false, .settle 0 0] := by
  refine ⟨fun hrun => ?_, fun hrun => ?_⟩
  · have hfree := ((((((hrun _ rfl).2 _ rfl).2 _ rfl).2 _ rfl).2 _ rfl).2 _ rfl).1
    exact absurd (hfree.rxBuffer 0 rfl nofun).1 (by decide)
  · have hsettle :=
      ((((((((hrun _ rfl).2 _ rfl).2 _ rfl).2 _ rfl).2 _ rfl).2 _ rfl).2 _ rfl).2 _ rfl).1
    obtain ⟨released, hfreed, hidle⟩ := hsettle.transfers
    have hone : [0] = released ++ [] := hfreed
    have hqueued : 0 ∉ [0] :=
      (hidle 0 (by rw [← List.append_nil released, ← hone]; exact List.mem_cons_self)).1
    exact hqueued List.mem_cons_self

end Wimi
