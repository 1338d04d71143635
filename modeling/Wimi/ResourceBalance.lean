import Wimi.TransferResources
import Wimi.ServiceTurns
import Wimi.Lib.Run

/-!
# Threads and what they hold

Any number of threads in `transfer_data` on one engine, in interrupt and in poll mode, with the
ledger of what their transfers are made of. The hardware answers anything, and a service call goes
on turn by turn. A thread frees its transfer without a look at the queue : when a freed transfer is
still on it, or in the hands of a service call, anything follows.

`balanced_iff` : in every run in which no such transfer is freed, when every call has returned, all
that was acquired has been released, each once, exactly when no thread came back from
`transfer_monitor` to a transfer that was still submitted. Nobody destroys such a transfer.
-/

open Machine Resources

namespace Wimi

open XdmaEngine

/-! ## Sessions -/

/-- An engine, the threads that use it, and what their transfers hold. `mappedPages` are the pages
of each transfer. -/
structure DataSession where
  engine : XdmaEngine
  next : Ptr
  calls : ℕ → ReadWrite
  mappedPages : Ptr → ℕ
  ledger : Ledger TransferResource
  lock : EngineLock

inductive DataStep
  /-- The thread calls `transfer_data`. -/
  | enter (tid : ℕ) (transferAddr : U64) (remaining pos : ℤ)
  /-- The thread creates and queues its next transfer, or leaves the loop. -/
  | submit (tid : ℕ) (env : CreateEnv)
  /-- The thread waits for its transfer, in interrupt mode. -/
  | wait (tid : ℕ) (signal : Bool)
  /-- The thread reads the writeback word once, in poll mode. -/
  | poll (tid : ℕ) (timeout : Bool)
  /-- The thread begins to service the engine with what it polled. -/
  | service (tid : ℕ) (hw : HwReads)
  /-- The thread goes by the state of its transfer. -/
  | settle (tid : ℕ) (status : U32)
  /-- The deferred work begins to service the engine. -/
  | work (hw : HwReads)
  /-- The service call goes on. -/
  | turn
  /-- The hardware writes the polled word. -/
  | writeback (w : U32)
  /-- A freed transfer is used. -/
  | anything (s' : DataSession)

namespace DataSession

variable (s : DataSession)

/-- The session with the thread's locals replaced. -/
def setCall (tid : ℕ) (c : ReadWrite) : DataSession :=
  { s with calls := Function.update s.calls tid c }

@[simp] theorem setCall_self (tid : ℕ) (c : ReadWrite) : (s.setCall tid c).calls tid = c :=
  Function.update_self _ _ _

theorem setCall_of_ne {t tid : ℕ} (h : t ≠ tid) (c : ReadWrite) :
    (s.setCall tid c).calls t = s.calls t :=
  Function.update_of_ne h _ _

/-- The session with the thread in another phase of its call. -/
def setPhase (tid : ℕ) (phase : Phase) : DataSession :=
  s.setCall tid { s.calls tid with call := { (s.calls tid).call with phase := phase } }

/-- The session after a call that left the engine at `e` : what was freed in the call is
released. -/
def follow (e : XdmaEngine) : DataSession :=
  { s with
    engine := e
    ledger := (e.freed.take (e.freed.length - s.engine.freed.length)).foldr
      (fun p l => destroyTransfer p (s.mappedPages p) l) s.ledger }

/-- The session with a new transfer of `n` pages. -/
def create (t : XdmaTransfer) (n : ℕ) (l : Ledger TransferResource) : DataSession :=
  { s with
    engine := s.engine.setTransfer s.next t
    next := s.next + 1
    mappedPages := Function.update s.mappedPages s.next n
    ledger := l }

def enter (tid : ℕ) (transferAddr : U64) (remaining pos : ℤ) : Option DataSession :=
  match (s.calls tid).call.phase with
  | .returned _ => some (s.setCall tid ⟨.enter remaining pos, transferAddr⟩)
  | _ => none

def submit (tid : ℕ) (env : CreateEnv) : Option DataSession :=
  let c := s.calls tid
  if c.call.phase ≠ .loop then none
  else if ¬ c.call.Continues then some (s.setCall tid { c with call := c.call.leave })
  else
    match createTransfer s.next (dataArgs s.engine.dirToDev s.engine.nonIncrAddr) env
      c.transferAddr (BitVec.ofInt 64 c.call.chunk) (BitVec.ofInt 64 c.call.pos) s.ledger with
    | (l, .null) => some { s.setCall tid { c with call := c.call.noTransfer } with ledger := l }
    | (l, .bug) => some { s.setPhase tid (.killed none) with ledger := l }
    | (l, .transfer n x) =>
      if s.lock ≠ .free then none
      else
        let t := c.call.newTransfer x.descBus (BitVec.ofNat 32 x.descNum)
        let s' := (s.create t.create n l).setCall tid (c.queued s.next)
        match transferQueue s'.engine s.next with
        | .ok (e, _) => some (s'.follow e)
        -- it is killed before it takes the lock
        | .error e => some { s'.setPhase tid (.killed (some s.next)) with engine := e }

def wait (tid : ℕ) (signal : Bool) : Option DataSession :=
  match (s.calls tid).call.phase with
  | .monitor p =>
    if s.engine.pollMode then none
    else (waitTransfer s.engine p signal).map fun rc => s.setPhase tid (.monitored p rc)
  | _ => none

/-- The number of descriptors is read under the lock, but never changes. -/
def poll (tid : ℕ) (timeout : Bool) : Option DataSession :=
  match (s.calls tid).call.phase with
  | .monitor p =>
    if ¬ s.engine.pollMode then none
    else
      let expected := s.engine.descNumOf p
      if pollTooLarge expected then some (s.setPhase tid (.monitored p (-1)))
      else
        match engineServiceWbMonitor expected s.engine.completedDescCountWb timeout with
        | none => some s
        | some w => some (s.setPhase tid (.polled p w))
  | _ => none

/-- A service call releases the lock and returns to its caller. -/
def served (caller : Option ℕ) (rc : ℤ) : DataSession :=
  let s := { s with lock := .free }
  match caller with
  | none => s
  | some tid =>
    match (s.calls tid).call.phase with
    | .polled p _ => s.setPhase tid (.monitored p rc)
    | _ => s

/-- Begin to service the engine. -/
def serve (hw : HwReads) (w : U32) (caller : Option ℕ) : DataSession :=
  if ¬ s.engine.running then (s.follow (serviceIdle s.engine hw w)).served caller 0
  else
    let (e, f) := serviceBegin s.engine hw w
    { s.follow e with lock := .service f caller (if w &&& WB_ERR_MASK ≠ 0 then -1 else 0) }

def service (tid : ℕ) (hw : HwReads) : Option DataSession :=
  match (s.calls tid).call.phase with
  | .polled _ w => if s.lock ≠ .free then none else some (s.serve hw w (some tid))
  | _ => none

def work (hw : HwReads) : Option DataSession :=
  if s.lock ≠ .free then none else some (s.serve hw 0 none)

/-- The next turn of the service call that is under way. A thread that is killed in it keeps the
lock. -/
def turn : Option DataSession :=
  match s.lock with
  | .service f caller rc =>
    match serviceTurn s.engine f with
    | .ok (e, some f) => some { s.follow e with lock := .service f caller rc }
    | .ok (e, none) => some ((s.follow e).served caller rc)
    | .error e => some { s.follow e with lock := .lost }
  | _ => none

def settle (tid : ℕ) (status : U32) : Option DataSession :=
  let c := s.calls tid
  match c.call.phase with
  | .monitored p rc =>
    some ((s.setCall tid (c.settle (s.engine.stateOf p) rc)).follow
      (settleEngine s.engine p rc status))
  | _ => none

/-- A freed transfer is on the queue, or in the hands of a service call. -/
def UsesFreed : Prop :=
  ∃ p ∈ s.engine.transferList ++ s.lock.pending.toList, p ∈ s.engine.freed

instance : Decidable s.UsesFreed :=
  inferInstanceAs (Decidable (∃ p ∈ _, _))

/-- One step; none is a step that is not enabled. -/
def step (i : DataStep) : Option DataSession :=
  if s.UsesFreed then
    match i with
    | .anything s' => some s'
    | _ => none
  else
    match i with
    | .enter tid transferAddr remaining pos => s.enter tid transferAddr remaining pos
    | .submit tid env => s.submit tid env
    | .wait tid signal => s.wait tid signal
    | .poll tid timeout => s.poll tid timeout
    | .service tid hw => s.service tid hw
    | .settle tid status => s.settle tid status
    | .work hw => s.work hw
    | .turn => s.turn
    | .writeback w => some { s with engine := { s.engine with completedDescCountWb := w } }
    | .anything _ => none

/-- An idle engine, and no thread in a call. -/
def start (pollMode streaming dirToDev nonIncrAddr : Bool) (memory : Ptr → XdmaTransfer) :
    DataSession where
  engine := engineCreate pollMode streaming dirToDev nonIncrAddr memory
  next := 0
  calls _ := ⟨⟨0, 0, 0, 0, 0, .returned 0⟩, 0⟩
  mappedPages _ := 0
  ledger := .empty
  lock := .free

end DataSession

/-! ## Balance -/

/-- Every call has returned, and the queue is empty. -/
structure Quiescent (s : DataSession) : Prop where
  returned : ∀ tid, ∃ ret, (s.calls tid).call.phase = .returned ret
  empty : s.engine.transferList = []

/-- All that was acquired has been released, each once. -/
structure Balanced (s : DataSession) : Prop where
  held : s.ledger.held = 0
  faults : s.ledger.faults = 0

/-- A thread that is back from `transfer_monitor` finds its transfer still submitted. -/
def Abandons (s : DataSession) (i : DataStep) (p : Ptr) : Prop :=
  ∃ tid status rc, i = .settle tid status ∧ (s.calls tid).call.phase = .monitored p rc ∧
    s.engine.stateOf p = .submitted

/-- A thread that is back from `transfer_monitor` frees its transfer, which is on the queue or in
the hands of a service call. -/
def FreesUsed (s : DataSession) (i : DataStep) : Prop :=
  ∃ tid status p rc, i = .settle tid status ∧ (s.calls tid).call.phase = .monitored p rc ∧
    s.engine.stateOf p ≠ .submitted ∧ (p ∈ s.engine.transferList ∨ s.lock.pending = some p)

/-! ## The queue -/

/-- The transfers on a queue, none of which is asynchronous or freed. -/
structure EngineQueueInv (e : XdmaEngine) (lock : EngineLock) (next : Ptr) : Prop where
  nodup : e.transferList.Nodup
  allocated : ∀ p ∈ e.transferList, p < next
  sync : ∀ p ∈ e.transferList, (e.transfers p).Sync
  fits : ∀ f caller rc, lock = .service f caller rc → f.Fits e
  intact : ∀ p ∈ e.freed, p < next ∧ p ∉ e.transferList ∧ lock.pending ≠ some p

section Queue

variable {e e' : XdmaEngine} {lock : EngineLock} {next p : Ptr} {rc : ℤ}

theorem EngineQueueInv.congr (h : EngineQueueInv e lock next)
    (hlist : e'.transferList = e.transferList) (htransfers : e'.transfers = e.transfers)
    (hfreed : e'.freed = e.freed) : EngineQueueInv e' lock next where
  nodup := hlist ▸ h.nodup
  allocated := hlist ▸ h.allocated
  sync q hq := by
    rw [htransfers]
    exact h.sync q (hlist ▸ hq)
  fits f caller rc hlock :=
    (ServicePoint.fits_congr hlist htransfers).mpr (h.fits f caller rc hlock)
  intact q hq := by
    rw [hlist]
    exact h.intact q (hfreed ▸ hq)

/-- The lock is handed over, at a point that does not speak of a transfer. -/
theorem EngineQueueInv.relock {lock' : EngineLock} (h : EngineQueueInv e lock next)
    (hfits : ∀ f caller rc, lock' = .service f caller rc → f.Fits e)
    (hpending : lock'.pending = none) : EngineQueueInv e lock' next :=
  { h with
    fits := hfits
    intact := fun q hq => (h.intact q hq).imp_right
      (And.imp_right fun _ => by rw [hpending]; exact nofun) }

/-- A new transfer is in no queue. -/
theorem EngineQueueInv.create (h : EngineQueueInv e .free next) (t : XdmaTransfer) :
    EngineQueueInv (e.setTransfer next t) .free (next + 1) where
  nodup := h.nodup
  allocated p hp := (h.allocated p hp).trans (Nat.lt_succ_self _)
  sync p hp := by
    have hkept : (e.setTransfer next t).transfers p = e.transfers p :=
      Function.update_of_ne (h.allocated p hp).ne _ _
    rw [hkept]
    exact h.sync p hp
  fits _ _ _ hlock := nomatch hlock
  intact p hp := ⟨(h.intact p hp).1.trans (Nat.lt_succ_self _), (h.intact p hp).2.1, nofun⟩

/-- Queueing a new transfer destroys none. -/
theorem EngineQueueInv.queue (h : EngineQueueInv e .free next) (hp : p < next)
    (hnew : p ∉ e.transferList) (hkept : p ∉ e.freed) (hsync : (e.transfers p).Sync)
    (hqueue : transferQueue e p = .ok (e', rc)) :
    EngineQueueInv e' .free next ∧ e'.freed = e.freed := by
  rcases transferQueue_cases hqueue with ⟨-, rfl, -⟩ | ⟨-, hq⟩
  · exact ⟨h, rfl⟩
  refine ⟨⟨hq.nodup h.nodup hnew, fun q hmem => ?_, hq.forall_mem h.sync hsync, nofun,
    fun q hfreed => ?_⟩, hq.freed⟩
  · rcases hq.mem_iff.mp hmem with hold | rfl
    · exact h.allocated q hold
    · exact hp
  · rw [hq.freed] at hfreed
    obtain ⟨hlt, hoff, -⟩ := h.intact q hfreed
    refine ⟨hlt, fun hmem => ?_, nofun⟩
    rcases hq.mem_iff.mp hmem with hold | rfl
    · exact hoff hold
    · exact hkept hfreed

/-- A turn of a service call destroys no transfer. -/
theorem EngineQueueInv.turned {f f' : ServicePoint} {caller : Option ℕ}
    (h : EngineQueueInv e (.service f caller rc) next) (ht : Turned e e' f f') :
    EngineQueueInv e' (.service f' caller rc) next where
  nodup := ht.inv.nodup
  allocated q hq := h.allocated q (ht.sublist.subset hq)
  sync := ht.inv.sync
  fits _ _ _ hlock := by
    obtain ⟨rfl, -, -⟩ := EngineLock.service.inj hlock
    exact ht.inv.fits
  intact q hq := by
    obtain ⟨hlt, hoff, hpending⟩ := h.intact q (ht.freed ▸ hq)
    exact ⟨hlt, fun hmem => hoff (ht.sublist.subset hmem),
      fun hpends => (ht.pending q hpends).elim hpending hoff⟩

/-- A transfer that nobody uses is destroyed. -/
theorem EngineQueueInv.destroy (h : EngineQueueInv e lock next) (hp : p < next)
    (hoff : p ∉ e.transferList) (hpending : lock.pending ≠ some p) :
    EngineQueueInv (transferDestroy e p) lock next :=
  { h with
    fits := fun f caller rc hlock => (ServicePoint.fits_congr rfl rfl).mpr
      (h.fits f caller rc hlock)
    intact := fun q hq => by
      rcases List.mem_cons.mp hq with rfl | hold
      · exact ⟨hp, hoff, hpending⟩
      · exact h.intact q hold }

end Queue

/-! ## What is held -/

/-- A thread was killed in its call. -/
def Killed (s : DataSession) : Prop :=
  ∃ tid p, (s.calls tid).call.phase = .killed p

/-- The transfers `live` are what is held, and each thread is responsible for one of its own. A
thread that is killed while it creates its transfer leaves behind what it has acquired. -/
structure BalanceInv (s : DataSession) (live : Finset Ptr) : Prop where
  held : ¬ Killed s → s.ledger = ⟨∑ p ∈ live, transferHeld p (s.mappedPages p), 0⟩
  created : ∀ p ∈ live, p < s.next
  owned : ∀ tid p, (s.calls tid).call.phase.transfer = some p → p ∈ live
  own : ∀ tid tid' p, (s.calls tid).call.phase.transfer = some p →
    (s.calls tid').call.phase.transfer = some p → tid = tid'
  queue : EngineQueueInv s.engine s.lock s.next

/-- A transfer that no thread is responsible for is held. -/
def Orphan (s : DataSession) (live : Finset Ptr) (p : Ptr) : Prop :=
  p ∈ live ∧ ∀ tid, (s.calls tid).call.phase.transfer ≠ some p

/-- The transfers that are held behind a step, and those that it orphans. -/
def Tracks (s : DataSession) (live : Finset Ptr) (abandoned : Ptr → Prop) (s' : DataSession) :
    Prop :=
  ∃ live', BalanceInv s' live' ∧ ∀ p, Orphan s' live' p ↔ Orphan s live p ∨ abandoned p

/-- Nothing is acquired or released, unless by a thread that is killed, and every thread has the
transfer it had. -/
structure SameHeld (s s' : DataSession) : Prop where
  transfer : ∀ t, (s'.calls t).call.phase.transfer = (s.calls t).call.phase.transfer
  killed : Killed s → Killed s'
  ledger : ¬ Killed s' → s'.ledger = s.ledger
  mappedPages : s'.mappedPages = s.mappedPages
  next : s'.next = s.next

section Tracks

variable {s s' : DataSession} {live : Finset Ptr} {e : XdmaEngine} {tid : ℕ}

/-- Nothing that is freed is in use. -/
theorem BalanceInv.not_usesFreed (h : BalanceInv s live) : ¬ s.UsesFreed := by
  rintro ⟨p, hp, hfreed⟩
  obtain ⟨-, hoff, hpending⟩ := h.queue.intact p hfreed
  rcases List.mem_append.mp hp with hmem | hmem
  · exact hoff hmem
  · exact hpending (Option.mem_toList.mp hmem)

theorem follow_of_freed (h : e.freed = s.engine.freed) : s.follow e = { s with engine := e } := by
  rw [DataSession.follow, h, Nat.sub_self, List.take_zero]
  rfl

/-- A thread that is dead stays so when another goes on. -/
theorem killed_setCall {c : ReadWrite} (halive : ∀ p, (s.calls tid).call.phase ≠ .killed p)
    (h : Killed s) : Killed (s.setCall tid c) := by
  obtain ⟨t, p, ht⟩ := h
  refine ⟨t, p, ?_⟩
  rwa [DataSession.setCall_of_ne]
  rintro rfl
  exact halive p ht

theorem sameHeld_setCall {c : ReadWrite} {phase : Phase}
    (hphase : (s.calls tid).call.phase = phase) (halive : ∀ p, phase ≠ .killed p)
    (hc : c.call.phase.transfer = phase.transfer) : SameHeld s (s.setCall tid c) where
  transfer t := by
    rcases eq_or_ne t tid with rfl | hne
    · rw [DataSession.setCall_self, hc, hphase]
    · rw [DataSession.setCall_of_ne _ hne]
  killed := killed_setCall (hphase ▸ halive)
  ledger _ := rfl
  mappedPages := rfl
  next := rfl

/-- A service call that returns to its caller. -/
theorem sameHeld_served (s : DataSession) (caller : Option ℕ) (rc : ℤ) :
    SameHeld s (s.served caller rc) ∧ (s.served caller rc).engine = s.engine ∧
      (s.served caller rc).lock = .free := by
  unfold DataSession.served
  cases caller with
  | none => exact ⟨⟨fun _ => rfl, id, fun _ => rfl, rfl, rfl⟩, rfl, rfl⟩
  | some tid =>
    dsimp only
    split
    · next p w hphase =>
      have hset := sameHeld_setCall (s := { s with lock := .free })
        (c := { s.calls tid with call := { (s.calls tid).call with phase := .monitored p rc } })
        hphase nofun rfl
      exact ⟨⟨hset.transfer, hset.killed, hset.ledger, rfl, rfl⟩, rfl, rfl⟩
    · exact ⟨⟨fun _ => rfl, id, fun _ => rfl, rfl, rfl⟩, rfl, rfl⟩

/-- A step that acquires and releases nothing. -/
theorem BalanceInv.frame (h : BalanceInv s live) (hs : SameHeld s s')
    (hqueue : EngineQueueInv s'.engine s'.lock s'.next) :
    Tracks s live (fun _ => False) s' := by
  refine ⟨live, ⟨fun halive => ?_, ?_, ?_, ?_, hqueue⟩, fun p => ?_⟩
  · rw [hs.ledger halive, hs.mappedPages]
    exact h.held fun hkilled => halive (hs.killed hkilled)
  · rw [hs.next]
    exact h.created
  · simp only [hs.transfer]
    exact h.owned
  · simp only [hs.transfer]
    exact h.own
  · simp only [Orphan, hs.transfer, or_false]

/-- The thread enters its loop, leaves it, or waits on : it is responsible for what it was. -/
theorem BalanceInv.setCall (h : BalanceInv s live) {c : ReadWrite} {phase : Phase}
    (hphase : (s.calls tid).call.phase = phase) (halive : ∀ p, phase ≠ .killed p)
    (hc : c.call.phase.transfer = phase.transfer) :
    Tracks s live (fun _ => False) (s.setCall tid c) :=
  h.frame (sameHeld_setCall hphase halive hc) h.queue

/-- The engine is served, and destroys nothing. -/
theorem BalanceInv.served {caller : Option ℕ} {rc : ℤ} (h : BalanceInv s live)
    (hfreed : e.freed = s.engine.freed) (hqueue : EngineQueueInv e .free s.next) :
    Tracks s live (fun _ => False) ((s.follow e).served caller rc) := by
  rw [follow_of_freed hfreed]
  obtain ⟨hheld, hengine, hlock⟩ := sameHeld_served { s with engine := e } caller rc
  refine h.frame ⟨hheld.transfer, hheld.killed, hheld.ledger, hheld.mappedPages, hheld.next⟩ ?_
  rw [hengine, hlock, hheld.next]
  exact hqueue

theorem enter_tracks {transferAddr : U64} {remaining pos : ℤ} (h : BalanceInv s live)
    (hstep : s.enter tid transferAddr remaining pos = some s') :
    Tracks s live (fun _ => False) s' := by
  unfold DataSession.enter at hstep
  split at hstep
  · next ret hphase =>
    obtain rfl := Option.some.inj hstep
    exact h.setCall hphase nofun rfl
  · cases hstep

theorem wait_tracks {signal : Bool} (h : BalanceInv s live)
    (hstep : s.wait tid signal = some s') : Tracks s live (fun _ => False) s' := by
  unfold DataSession.wait at hstep
  split at hstep
  · next p hphase =>
    obtain ⟨-, hstep⟩ := Option.ite_none_left_eq_some.mp hstep
    obtain ⟨rc, -, rfl⟩ := Option.map_eq_some_iff.mp hstep
    exact h.setCall hphase nofun rfl
  · cases hstep

theorem poll_tracks {timeout : Bool} (h : BalanceInv s live)
    (hstep : s.poll tid timeout = some s') : Tracks s live (fun _ => False) s' := by
  unfold DataSession.poll at hstep
  split at hstep
  case h_2 => cases hstep
  next p hphase =>
  obtain ⟨-, hstep⟩ := Option.ite_none_left_eq_some.mp hstep
  dsimp only at hstep
  split at hstep
  · obtain rfl := Option.some.inj hstep
    exact h.setCall hphase nofun rfl
  split at hstep
  · obtain rfl := Option.some.inj hstep
    exact h.frame ⟨fun _ => rfl, id, fun _ => rfl, rfl, rfl⟩ h.queue
  · obtain rfl := Option.some.inj hstep
    exact h.setCall hphase nofun rfl

/-- The beginning of a service call, by a thread or by the deferred work. -/
theorem serve_tracks {hw : HwReads} {w : U32} {caller : Option ℕ} (h : BalanceInv s live) :
    Tracks s live (fun _ => False) (s.serve hw w caller) := by
  unfold DataSession.serve
  split
  · obtain ⟨hq, -⟩ := serviceIdle_frame s.engine hw w
    exact h.served hq.freed ((h.queue.congr hq.list hq.transfers hq.freed).relock nofun rfl)
  · next hrun =>
    obtain ⟨⟨hq, -⟩, d, hd⟩ := serviceBegin_entered hw w (not_not.mp hrun)
    dsimp only
    rw [follow_of_freed hq.freed]
    refine h.frame ⟨fun _ => rfl, id, fun _ => rfl, rfl, rfl⟩ ?_
    refine (h.queue.congr hq.list hq.transfers hq.freed).relock (fun f _ _ hlock => ?_) ?_
    · obtain ⟨rfl, -, -⟩ := EngineLock.service.inj hlock
      rw [hd]
      trivial
    · rw [hd]
      rfl

theorem service_tracks {hw : HwReads} (h : BalanceInv s live)
    (hstep : s.service tid hw = some s') : Tracks s live (fun _ => False) s' := by
  unfold DataSession.service at hstep
  split at hstep
  · obtain ⟨-, hstep⟩ := Option.ite_none_left_eq_some.mp hstep
    obtain rfl := Option.some.inj hstep
    exact serve_tracks h
  · cases hstep

theorem work_tracks {hw : HwReads} (h : BalanceInv s live) (hstep : s.work hw = some s') :
    Tracks s live (fun _ => False) s' := by
  obtain ⟨-, hstep⟩ := Option.ite_none_left_eq_some.mp hstep
  obtain rfl := Option.some.inj hstep
  exact serve_tracks h

/-- A turn of a service call destroys no transfer. -/
theorem turn_tracks (h : BalanceInv s live) (hstep : s.turn = some s') :
    Tracks s live (fun _ => False) s' := by
  unfold DataSession.turn at hstep
  split at hstep
  case h_2 => cases hstep
  next f caller rc hlock =>
  have hqueue := h.queue
  rw [hlock] at hqueue
  have hinv : ServiceInv s.engine f := ⟨hqueue.nodup, hqueue.sync, hqueue.fits f caller rc rfl⟩
  split at hstep
  · next e f' hturn =>
    obtain rfl := Option.some.inj hstep
    have ht := serviceTurn_turned hinv hturn
    rw [follow_of_freed ht.freed]
    exact h.frame ⟨fun _ => rfl, id, fun _ => rfl, rfl, rfl⟩ (hqueue.turned ht)
  · next e hturn =>
    obtain rfl := Option.some.inj hstep
    obtain ⟨rfl, he⟩ := serviceTurn_done hturn
    have hsame := (clearWriteback_frame s.engine).1.trans (engineServiceResume_cases he).1
    exact h.served hsame.freed
      ((hqueue.congr hsame.list hsame.transfers hsame.freed).relock nofun rfl)
  · next e hturn =>
    obtain rfl := Option.some.inj hstep
    obtain ⟨rfl, -⟩ := serviceTurn_error hturn
    rw [follow_of_freed rfl]
    exact h.frame ⟨fun _ => rfl, id, fun _ => rfl, rfl, rfl⟩ (hqueue.relock nofun rfl)

theorem Tracks.congr {a b : Ptr → Prop} (h : Tracks s live a s') (hab : ∀ p, a p ↔ b p) :
    Tracks s live b s' := by
  obtain ⟨live', hinv, horphan⟩ := h
  exact ⟨live', hinv, fun p => by rw [horphan, hab]⟩

/-- Steps that orphan nothing compose. -/
theorem Tracks.trans {s₁ : DataSession} (h : Tracks s live (fun _ => False) s₁)
    (hrest : ∀ live₁, BalanceInv s₁ live₁ → Tracks s₁ live₁ (fun _ => False) s') :
    Tracks s live (fun _ => False) s' := by
  obtain ⟨live₁, hinv, horphan⟩ := h
  obtain ⟨live', hinv', horphan'⟩ := hrest live₁ hinv
  exact ⟨live', hinv', fun p => by rw [horphan', horphan, or_false]⟩

variable (s tid) in
/-- A thread that is given a transfer leaves the others what they had. -/
theorem setCall_transfer_new {p : Ptr} {c : ReadWrite}
    (hidle : (s.calls tid).call.phase.transfer = none) (hc : c.call.phase.transfer = some p) (t : ℕ)
    (q : Ptr) : ((s.setCall tid c).calls t).call.phase.transfer = some q ↔
      (t = tid ∧ q = p) ∨ (s.calls t).call.phase.transfer = some q := by
  rcases eq_or_ne t tid with rfl | hne
  · rw [DataSession.setCall_self, hc, hidle, Option.some.injEq]
    simp [eq_comm]
  · rw [DataSession.setCall_of_ne _ hne]
    simp [hne]

/-- Who is responsible for what was held stays so. -/
theorem orphan_insert {p : Ptr} {c : ReadWrite} (hnew : p ∉ live)
    (hidle : (s.calls tid).call.phase.transfer = none) (hc : c.call.phase.transfer = some p)
    (q : Ptr) : Orphan (s.setCall tid c) (insert p live) q ↔ Orphan s live q := by
  have hcases := setCall_transfer_new s tid hidle hc
  rw [Orphan, Orphan, Finset.mem_insert]
  constructor
  · rintro ⟨hq, hnone⟩
    have hne : q ≠ p := fun heq => hnone tid ((hcases tid q).mpr (.inl ⟨rfl, heq⟩))
    exact ⟨hq.resolve_left hne, fun t ht => hnone t ((hcases t q).mpr (.inr ht))⟩
  · rintro ⟨hq, hnone⟩
    refine ⟨.inr hq, fun t ht => ?_⟩
    rcases (hcases t q).mp ht with ⟨-, rfl⟩ | hold
    · exact hnew hq
    · exact hnone t hold

/-- The thread is given a new transfer, which is held. -/
theorem BalanceInv.create (h : BalanceInv s live) (hfree : s.lock = .free)
    (hphase : (s.calls tid).call.phase = .loop) (t : XdmaTransfer) (n : ℕ)
    (c : ReadWrite) (hc : c.call.phase.transfer = some s.next) :
    Tracks s live (fun _ => False)
      ((s.create t n (s.ledger.plus (transferHeld s.next n))).setCall tid c) := by
  have hidle : (s.calls tid).call.phase.transfer = none := by
    rw [hphase]
    rfl
  have hnew : s.next ∉ live := fun hmem => lt_irrefl _ (h.created _ hmem)
  have hcases := setCall_transfer_new s tid hidle hc
  have horphan := orphan_insert hnew hidle hc
  -- the others keep their pages
  have hmapped : ∀ p ∈ live, Function.update s.mappedPages s.next n p = s.mappedPages p :=
    fun p hp => Function.update_of_ne (h.created p hp).ne _ _
  have hheld (halive : ¬ Killed s) : s.ledger.plus (transferHeld s.next n) =
      ⟨∑ p ∈ insert s.next live, transferHeld p (Function.update s.mappedPages s.next n p), 0⟩ := by
    have hsum := Finset.sum_congr rfl fun p hp => congrArg (transferHeld p) (hmapped p hp)
    rw [h.held halive, Finset.sum_insert hnew, Function.update_self, hsum]
    rfl
  have hown (t t' : ℕ) (p : Ptr) (ht : ((s.setCall tid c).calls t).call.phase.transfer = some p)
      (ht' : ((s.setCall tid c).calls t').call.phase.transfer = some p) : t = t' := by
    rcases (hcases t p).mp ht with ⟨rfl, rfl⟩ | hold
    · rcases (hcases t' _).mp ht' with ⟨rfl, -⟩ | hold'
      · rfl
      · exact absurd (h.owned t' _ hold') hnew
    · rcases (hcases t' p).mp ht' with ⟨rfl, rfl⟩ | hold'
      · exact absurd (h.owned t _ hold) hnew
      · exact h.own t t' p hold hold'
  have hqueue := h.queue
  rw [hfree] at hqueue
  refine ⟨insert s.next live, ⟨fun halive => hheld fun hkilled => halive ?_, fun p hp => ?_,
    fun t p ht => ?_, hown, ?_⟩, fun p => ?_⟩
  · exact killed_setCall (s := s) (by rw [hphase]; exact nofun) hkilled
  · rcases Finset.mem_insert.mp hp with rfl | hp
    · exact Nat.lt_succ_self _
    · exact (h.created p hp).trans (Nat.lt_succ_self _)
  · rcases (hcases t p).mp ht with ⟨-, rfl⟩ | ht
    · exact Finset.mem_insert_self _ _
    · exact Finset.mem_insert_of_mem (h.owned t p ht)
  · have hcreated := hqueue.create t
    rw [← hfree] at hcreated
    exact hcreated
  · rw [or_false]
    exact horphan p

theorem setTransfer_sync (e : XdmaEngine) (p : Ptr) {t : XdmaTransfer} (ht : t.Sync) :
    ((e.setTransfer p t).transfers p).Sync := by
  have hself := e.transfers_setTransfer_self p t
  rwa [hself]

/-- A transfer that is created is held, and the thread is responsible for it. -/
theorem submit_tracks {env : CreateEnv} (h : BalanceInv s live)
    (hstep : s.submit tid env = some s') : Tracks s live (fun _ => False) s' := by
  unfold DataSession.submit at hstep
  obtain ⟨hphase, hstep⟩ := Option.ite_none_left_eq_some.mp hstep
  rw [not_not] at hphase
  split at hstep
  · obtain rfl := Option.some.inj hstep
    exact h.setCall hphase nofun rfl
  split at hstep
  · next l hcreate =>
    obtain rfl := Option.some.inj hstep
    have hset := sameHeld_setCall (c := { s.calls tid with call := (s.calls tid).call.noTransfer })
      hphase nofun rfl
    exact h.frame { hset with ledger := fun _ => (createTransfer_null hcreate).2 } h.queue
  · -- the thread is killed
    next l hcreate =>
    obtain rfl := Option.some.inj hstep
    have hset := sameHeld_setCall (c := { s.calls tid with
      call := { (s.calls tid).call with phase := .killed none } }) hphase nofun rfl
    refine h.frame { hset with ledger := fun halive => absurd ⟨tid, none, ?_⟩ halive } h.queue
    exact congrArg (·.call.phase) (s.setCall_self tid _)
  next l n x hcreate =>
  obtain ⟨hfree, hstep⟩ := Option.ite_none_left_eq_some.mp hstep
  rw [not_not] at hfree
  obtain rfl := createTransfer_transfer hcreate
  have hcreated := h.create hfree hphase
    ((s.calls tid).call.newTransfer x.descBus (BitVec.ofNat 32 x.descNum)).create n
    ((s.calls tid).queued s.next) rfl
  have hnew : s.next ∉ s.engine.transferList := fun hmem =>
    lt_irrefl _ (h.queue.allocated _ hmem)
  have hkept : s.next ∉ s.engine.freed := fun hmem => lt_irrefl _ (h.queue.intact _ hmem).1
  dsimp only at hstep
  split at hstep
  · next e rc hqueue =>
    obtain rfl := Option.some.inj hstep
    refine hcreated.trans fun live₁ h₁ => ?_
    have hqueue₁ := h₁.queue
    have hlock : ((s.create ((s.calls tid).call.newTransfer x.descBus
      (BitVec.ofNat 32 x.descNum)).create n (s.ledger.plus (transferHeld s.next n))).setCall tid
        ((s.calls tid).queued s.next)).lock = .free := hfree
    rw [hlock] at hqueue₁
    obtain ⟨hinv, hfreed⟩ := hqueue₁.queue (Nat.lt_succ_self _) hnew hkept
      (setTransfer_sync s.engine s.next rfl) hqueue
    rw [follow_of_freed hfreed]
    refine h₁.frame ⟨fun _ => rfl, id, fun _ => rfl, rfl, rfl⟩ ?_
    rw [← hlock] at hinv
    exact hinv
  · next e hqueue =>
    obtain rfl := Option.some.inj hstep
    obtain ⟨rfl, -⟩ := transferQueue_error hqueue
    exact hcreated.trans fun live₁ h₁ => h₁.setCall
      (congrArg (·.call.phase) (DataSession.setCall_self _ tid _)) nofun rfl

theorem follow_of_destroy {p : Ptr} (h : e.freed = p :: s.engine.freed) :
    s.follow e =
      { s with engine := e, ledger := destroyTransfer p (s.mappedPages p) s.ledger } := by
  have hone : (p :: s.engine.freed).length - s.engine.freed.length = 1 := by simp
  rw [DataSession.follow, h, hone, List.take_succ_cons, List.take_zero, List.foldr_cons,
    List.foldr_nil]

section Leave

variable {p : Ptr} {c : ReadWrite}

variable (s tid) in
/-- A thread that is responsible for nothing leaves the others what they had. -/
theorem setCall_transfer_none (hc : c.call.phase.transfer = none) (t : ℕ) (q : Ptr) :
    ((s.setCall tid c).calls t).call.phase.transfer = some q ↔
      t ≠ tid ∧ (s.calls t).call.phase.transfer = some q := by
  rcases eq_or_ne t tid with rfl | hne
  · rw [DataSession.setCall_self, hc]
    exact ⟨nofun, fun hnot => absurd rfl hnot.1⟩
  · rw [DataSession.setCall_of_ne _ hne]
    exact ⟨fun hq => ⟨hne, hq⟩, fun hq => hq.2⟩

/-- Nobody is responsible for what the thread leaves behind, nor for what was an orphan. -/
theorem BalanceInv.none_responsible (h : BalanceInv s live)
    (howner : (s.calls tid).call.phase.transfer = some p) (hc : c.call.phase.transfer = none)
    (q : Ptr) : (∀ t, ((s.setCall tid c).calls t).call.phase.transfer ≠ some q) ↔
      q = p ∨ ∀ t, (s.calls t).call.phase.transfer ≠ some q := by
  constructor
  · intro hnone
    by_contra hnot
    obtain ⟨hne, hsome⟩ := not_or.mp hnot
    obtain ⟨t, ht⟩ := not_forall_not.mp hsome
    refine hnone t ((setCall_transfer_none _ _ hc t q).mpr ⟨?_, ht⟩)
    rintro rfl
    exact hne (Option.some.inj (ht.symm.trans howner))
  · rintro (rfl | hnone) t ht
    · obtain ⟨hne, hq⟩ := (setCall_transfer_none _ _ hc t q).mp ht
      exact hne (h.own t tid q hq howner)
    · exact hnone t ((setCall_transfer_none _ _ hc t q).mp ht).2

/-- The thread leaves its transfer behind. -/
theorem BalanceInv.abandon {rc : ℤ} (h : BalanceInv s live)
    (hphase : (s.calls tid).call.phase = .monitored p rc) (hc : c.call.phase.transfer = none)
    (hqueue : EngineQueueInv e s.lock s.next) (hfreed : e.freed = s.engine.freed) :
    Tracks s live (fun q => q = p) ((s.setCall tid c).follow e) := by
  have howner : (s.calls tid).call.phase.transfer = some p := by
    rw [hphase]
    rfl
  rw [follow_of_freed (s := s.setCall tid c) hfreed]
  have hcases := setCall_transfer_none s tid hc
  refine ⟨live, ⟨fun halive => h.held fun hkilled => halive ?_, h.created,
    fun t q ht => h.owned t q ((hcases t q).mp ht).2,
    fun t t' q ht ht' => h.own t t' q ((hcases t q).mp ht).2 ((hcases t' q).mp ht').2, hqueue⟩,
    fun q => ?_⟩
  · exact killed_setCall (by rw [hphase]; exact nofun) hkilled
  have hnone := h.none_responsible howner hc q
  constructor
  · rintro ⟨hq, hfree⟩
    exact (hnone.mp hfree).elim .inr fun hold => .inl ⟨hq, hold⟩
  · rintro (⟨hq, hold⟩ | rfl)
    · exact ⟨hq, hnone.mpr (.inr hold)⟩
    · exact ⟨h.owned tid q howner, hnone.mpr (.inl rfl)⟩

/-- The thread destroys its transfer. -/
theorem BalanceInv.destroy {rc : ℤ} (h : BalanceInv s live)
    (hphase : (s.calls tid).call.phase = .monitored p rc) (hc : c.call.phase.transfer = none)
    (hqueue : EngineQueueInv e s.lock s.next) (hfreed : e.freed = p :: s.engine.freed) :
    Tracks s live (fun _ => False) ((s.setCall tid c).follow e) := by
  have howner : (s.calls tid).call.phase.transfer = some p := by
    rw [hphase]
    rfl
  rw [follow_of_destroy (s := s.setCall tid c) hfreed]
  have hcases := setCall_transfer_none s tid hc
  have hp : p ∈ live := h.owned tid p howner
  have hledger (halive : ¬ Killed s) :
      destroyTransfer p ((s.setCall tid c).mappedPages p) (s.setCall tid c).ledger =
        ⟨∑ q ∈ live.erase p, transferHeld q (s.mappedPages q), 0⟩ := by
    have hheld : (s.setCall tid c).ledger =
        Ledger.plus ⟨∑ q ∈ live.erase p, transferHeld q (s.mappedPages q), 0⟩
          (transferHeld p (s.mappedPages p)) := by
      exact (h.held halive).trans (Ledger.ext (Finset.add_sum_erase _ _ hp).symm rfl)
    exact (congrArg _ hheld).trans destroyTransfer_plus
  generalize destroyTransfer p ((s.setCall tid c).mappedPages p) (s.setCall tid c).ledger = l
    at hledger ⊢
  refine ⟨live.erase p, ⟨fun halive => hledger fun hkilled => halive ?_,
    fun q hq => h.created q (Finset.mem_of_mem_erase hq), fun t q ht => ?_,
    fun t t' q ht ht' => h.own t t' q ((hcases t q).mp ht).2 ((hcases t' q).mp ht').2, hqueue⟩,
    fun q => ?_⟩
  · exact killed_setCall (by rw [hphase]; exact nofun) hkilled
  · obtain ⟨hne, hq⟩ := (hcases t q).mp ht
    refine Finset.mem_erase.mpr ⟨?_, h.owned t q hq⟩
    rintro rfl
    exact hne (h.own t tid q hq howner)
  · have hnone := h.none_responsible howner hc q
    rw [or_false, Orphan, Orphan, Finset.mem_erase]
    constructor
    · rintro ⟨⟨hne, hq⟩, hfree⟩
      exact ⟨hq, (hnone.mp hfree).resolve_left hne⟩
    · rintro ⟨hq, hold⟩
      refine ⟨⟨?_, hq⟩, hnone.mpr (.inr hold)⟩
      rintro rfl
      exact hold tid howner

end Leave

/-- A thread destroys its transfer, which nobody uses, or abandons it. -/
theorem settle_tracks {status : U32} (h : BalanceInv s live)
    (hstep : s.settle tid status = some s') (hc : ¬ FreesUsed s (.settle tid status)) :
    Tracks s live (Abandons s (.settle tid status)) s' := by
  unfold DataSession.settle at hstep
  dsimp only at hstep
  split at hstep
  case h_2 => cases hstep
  next p rc hphase =>
  obtain rfl := Option.some.inj hstep
  have habandons (q : Ptr) : Abandons s (.settle tid status) q ↔
      s.engine.stateOf p = .submitted ∧ q = p := by
    constructor
    · rintro ⟨t, st, rc', heq, hq, hstate⟩
      obtain ⟨rfl, rfl⟩ := DataStep.settle.inj heq
      obtain ⟨rfl, rfl⟩ := Phase.monitored.inj (hphase.symm.trans hq)
      exact ⟨hstate, rfl⟩
    · rintro ⟨hstate, rfl⟩
      exact ⟨tid, status, rc, rfl, hphase, hstate⟩
  by_cases hstate : s.engine.stateOf p = .submitted
  · obtain ⟨hlist, htransfers, -⟩ := settleEngine_frame s.engine p rc status
    have hfreed : (settleEngine s.engine p rc status).freed = s.engine.freed := by
      refine (congrArg XdmaEngine.freed (if_neg (not_not.mpr hstate))).trans ?_
      split
      · rfl
      · rfl
    refine Tracks.congr (h.abandon hphase ?_ (h.queue.congr hlist htransfers hfreed) hfreed)
      fun q => ?_
    · rfl
    · rw [habandons]
      exact ⟨fun hq => ⟨hstate, hq⟩, fun hq => hq.2⟩
  · have hp : p ∈ live := h.owned tid p (by rw [hphase]; rfl)
    have hunused : ¬ (p ∈ s.engine.transferList ∨ s.lock.pending = some p) := fun hused =>
      hc ⟨tid, status, p, rc, rfl, hphase, hstate, hused⟩
    obtain ⟨hoff, hpending⟩ := not_or.mp hunused
    have hdestroys : settleEngine s.engine p rc status = transferDestroy s.engine p :=
      if_pos hstate
    rw [hdestroys]
    refine Tracks.congr
      (h.destroy hphase ?_ (h.queue.destroy (h.created p hp) hoff hpending) rfl) fun q => ?_
    · rfl
    · rw [habandons]
      exact ⟨False.elim, fun hq => hstate hq.1⟩

end Tracks

/-! ## Runs -/

theorem balanceInv_start (pollMode streaming dirToDev nonIncrAddr : Bool)
    (memory : Ptr → XdmaTransfer) :
    BalanceInv (.start pollMode streaming dirToDev nonIncrAddr memory) ∅ where
  held _ := rfl
  created _ hp := nomatch hp
  owned _ _ hp := nomatch hp
  own _ _ _ hp := nomatch hp
  queue := ⟨List.nodup_nil, fun _ hp => (nomatch hp), fun _ hp => (nomatch hp),
    fun _ _ _ hlock => (nomatch hlock), fun _ hp => (nomatch hp)⟩

/-- Only a thread that is back from `transfer_monitor` frees a transfer. -/
theorem not_freesUsed {s : DataSession} {i : DataStep}
    (hi : ∀ tid status, i ≠ .settle tid status) : ¬ FreesUsed s i :=
  fun ⟨tid, status, _, _, heq, _⟩ => hi tid status heq

/-- What one step does to the transfers that are held. -/
theorem step_tracks {s s' : DataSession} {live : Finset Ptr} {i : DataStep}
    (h : BalanceInv s live) (hstep : s.step i = some s') (hc : ¬ FreesUsed s i) :
    Tracks s live (Abandons s i) s' := by
  unfold DataSession.step at hstep
  rw [if_neg h.not_usesFreed] at hstep
  have hnone (hi : ∀ tid status, i ≠ .settle tid status)
      (htracks : Tracks s live (fun _ => False) s') : Tracks s live (Abandons s i) s' :=
    htracks.congr fun p => ⟨False.elim, fun ⟨tid, status, _, heq, _⟩ => hi tid status heq⟩
  cases i with
  | enter tid transferAddr remaining pos =>
    exact hnone (fun _ _ h => nomatch h) (enter_tracks h hstep)
  | submit tid env => exact hnone (fun _ _ h => nomatch h) (submit_tracks h hstep)
  | wait tid signal => exact hnone (fun _ _ h => nomatch h) (wait_tracks h hstep)
  | poll tid timeout => exact hnone (fun _ _ h => nomatch h) (poll_tracks h hstep)
  | service tid hw => exact hnone (fun _ _ h => nomatch h) (service_tracks h hstep)
  | settle tid status => exact settle_tracks h hstep hc
  | work hw => exact hnone (fun _ _ h => nomatch h) (work_tracks h hstep)
  | turn => exact hnone (fun _ _ h => nomatch h) (turn_tracks h hstep)
  | writeback w =>
    obtain rfl := Option.some.inj hstep
    exact hnone (fun _ _ h => nomatch h)
      (h.frame ⟨fun _ => rfl, id, fun _ => rfl, rfl, rfl⟩ (h.queue.congr rfl rfl rfl))
  | anything s' => cases hstep

/-- A state all of whose transfers have a thread that is responsible for them. -/
def AllOwned (s : DataSession) : Prop :=
  ∃ live, BalanceInv s live ∧ ∀ p, ¬ Orphan s live p

/-- A state with an orphan. -/
def HasOrphan (s : DataSession) : Prop :=
  ∃ live, BalanceInv s live ∧ ∃ p, Orphan s live p

/-- When every call has returned, nobody was killed in one. -/
theorem Quiescent.not_killed {s : DataSession} (hq : Quiescent s) : ¬ Killed s := by
  rintro ⟨tid, p, hkilled⟩
  obtain ⟨ret, hret⟩ := hq.returned tid
  cases hkilled.symm.trans hret

theorem balanced_of_allOwned {s : DataSession} (hq : Quiescent s) (h : AllOwned s) :
    Balanced s := by
  obtain ⟨live, hinv, hnone⟩ := h
  have hempty : live = ∅ := Finset.eq_empty_of_forall_notMem fun p hp => by
    refine hnone p ⟨hp, fun tid howner => ?_⟩
    obtain ⟨ret, hret⟩ := hq.returned tid
    rw [hret] at howner
    cases howner
  have hledger := hinv.held hq.not_killed
  rw [hempty, Finset.sum_empty] at hledger
  exact ⟨congrArg Ledger.held hledger, congrArg Ledger.faults hledger⟩

theorem not_balanced_of_hasOrphan {s : DataSession} (hq : Quiescent s) (h : HasOrphan s) :
    ¬ Balanced s := by
  intro hbalanced
  obtain ⟨live, hinv, p, hp, -⟩ := h
  have hle : transferHeld p (s.mappedPages p) ≤ s.ledger.held := by
    rw [hinv.held hq.not_killed]
    exact Finset.single_le_sum (fun _ _ => Multiset.zero_le _) hp
  rw [hbalanced.held] at hle
  exact Multiset.notMem_zero _ (Multiset.mem_of_le hle transfer_mem_transferHeld)

/-- When every call has returned and the queue is empty, all that was acquired has been released,
each once, exactly when no thread was back from `transfer_monitor` with its transfer still
submitted, in every run in which none frees a transfer that is on the queue or in the hands of a
service call. -/
theorem balanced_iff (pollMode streaming dirToDev nonIncrAddr : Bool)
    (memory : Ptr → XdmaTransfer) (is : List DataStep) (s' : DataSession)
    (hrun : exec DataSession.step (.start pollMode streaming dirToDev nonIncrAddr memory) is =
      some s') (hq : Quiescent s')
    (hused : Along DataSession.step (fun s i _ => ¬ FreesUsed s i)
      (.start pollMode streaming dirToDev nonIncrAddr memory) is) :
    Balanced s' ↔ Along DataSession.step (fun s i _ => ∀ p, ¬ Abandons s i p)
      (.start pollMode streaming dirToDev nonIncrAddr memory) is := by
  have hstart : AllOwned (.start pollMode streaming dirToDev nonIncrAddr memory) :=
    ⟨∅, balanceInv_start .., fun p hp => Finset.notMem_empty p hp.1⟩
  suffices hends : Along DataSession.step (fun s i _ => ∀ p, ¬ Abandons s i p)
        (.start pollMode streaming dirToDev nonIncrAddr memory) is ∧ AllOwned s' ∨
      ¬ Along DataSession.step (fun s i _ => ∀ p, ¬ Abandons s i p)
        (.start pollMode streaming dirToDev nonIncrAddr memory) is ∧ HasOrphan s' by
    rcases hends with ⟨halong, hgood⟩ | ⟨halong, hbad⟩
    · exact iff_of_true (balanced_of_allOwned hq hgood) halong
    · exact iff_of_false (not_balanced_of_hasOrphan hq hbad) halong
  refine along_exec ?_ ?_ ?_ hstart hused hrun
  · rintro s i s₁ ⟨live, hinv, hnone⟩ hstep hfrees hc
    obtain ⟨live', hinv', horphan⟩ := step_tracks hinv hstep hfrees
    exact ⟨live', hinv', fun p hp => ((horphan p).mp hp).elim (hnone p) (hc p)⟩
  · rintro s i s₁ ⟨live, hinv, -⟩ hstep hfrees hc
    obtain ⟨live', hinv', horphan⟩ := step_tracks hinv hstep hfrees
    obtain ⟨p, hp⟩ := not_forall_not.mp hc
    exact ⟨live', hinv', p, (horphan p).mpr (.inr hp)⟩
  · rintro s i s₁ ⟨live, hinv, p, hp⟩ hstep hfrees
    obtain ⟨live', hinv', horphan⟩ := step_tracks hinv hstep hfrees
    exact ⟨live', hinv', p, (horphan p).mpr (.inl hp)⟩

/-- A kernel in which a page can be transferred. -/
def onePage : CreateEnv where
  transfer := true
  mapper := true
  pageArray := true
  scatterlist := true
  pages := ⟨1, fun _ => 0x200000, fun _ => by decide⟩
  dmaMapped := true
  descBus := some 0x30000000
  mem _ := ⟨0, 0, 0, 0, 0, 0, 0, 0⟩

/-- A thread transfers a page, the hardware completes it, and the thread leaves its loop. -/
theorem balanced_iff_completed :
    let start : DataSession := .start false false true false fun _ =>
      (Call.enter 0 0).newTransfer 0 0 |>.create
    let is : List DataStep := [.enter 0 0x1000 4096 0, .submit 0 onePage, .work ⟨0, 1⟩, .turn,
      .turn, .turn, .turn, .turn, .wait 0 false, .settle 0 0, .submit 0 onePage]
    ∃ s', exec DataSession.step start is = some s' ∧
      (Balanced s' ↔ Along DataSession.step (fun s i _ => ∀ p, ¬ Abandons s i p) start is) := by
  refine ⟨_, rfl, balanced_iff _ _ _ _ _ _ _ rfl ⟨fun tid => ?_, rfl⟩ ?_⟩
  · rcases tid with _ | tid
    · exact ⟨4096, rfl⟩
    · exact ⟨0, rfl⟩
  · refine .cons rfl (not_freesUsed nofun) <| .cons rfl (not_freesUsed nofun) <|
      .cons rfl (not_freesUsed nofun) <| .cons rfl (not_freesUsed nofun) <|
      .cons rfl (not_freesUsed nofun) <| .cons rfl (not_freesUsed nofun) <|
      .cons rfl (not_freesUsed nofun) <| .cons rfl (not_freesUsed nofun) <|
      .cons rfl (not_freesUsed nofun) <| .cons rfl ?_ <| .cons rfl (not_freesUsed nofun) trivial
    rintro ⟨_, _, _, _, -, -, -, hlisted | hpending⟩
    · cases hlisted
    · cases hpending

/-- A signal ends the wait for a page, the hardware completes it, and nobody destroys the
transfer. -/
theorem not_balanced_on_signal :
    ¬ ∀ (memory : Ptr → XdmaTransfer) (is : List DataStep) (s' : DataSession),
      exec DataSession.step (.start false false true false memory) is = some s' →
        Quiescent s' → Balanced s' := by
  intro h
  have hbalanced := h (fun _ => ((Call.enter 0 0).newTransfer 0 0).create)
    [.enter 0 0x1000 4096 0, .submit 0 onePage, .wait 0 true, .settle 0 0, .submit 0 onePage,
      .work ⟨0, 1⟩, .turn, .turn, .turn, .turn, .turn] _ rfl ⟨fun tid => ?_, rfl⟩
  · exact absurd hbalanced.held (by decide)
  · rcases tid with _ | tid
    · exact ⟨-512, rfl⟩
    · exact ⟨0, rfl⟩

end Wimi
