import Wimi.Service
import Wimi.Lib.Run

/-!
# Servicing an engine step by step

`engine_service` stores the state of a transfer before it has done with it, and the thread that
waits for the transfer reads the state without the lock. A `ServicePoint` is how far a service
call has come between the stores that such a thread can see. It holds the lock all the while, and
for ever if it is killed.

`engineService_comes` : left to itself, a service call comes to what `engine_service` returns.
`serviceTurn_turned` : what a turn does to a queue of synchronous transfers.
-/

namespace Wimi

open XdmaEngine Machine

/-- Where a service call on a running engine is. -/
inductive ServicePoint
  /-- At the head of the loop of `engine_service_transfer_list`. -/
  | loop (descCompleted : U32)
  /-- In the loop, the transfer taken off the queue and marked completed. -/
  | retired (p : Ptr) (descCompleted : U32)
  /-- In `engine_service_final_transfer`, before its test for errors. -/
  | final (p : Ptr) (descCompleted : U32)
  /-- The state of the final transfer is stored. -/
  | stored (p : Ptr)
  /-- It is taken off the queue. -/
  | unlinked (p : Ptr)
  /-- Behind `engine_service_final_transfer`. -/
  | resume
  deriving DecidableEq

/-- The transfer whose state is stored, and which the call goes on to use. -/
def ServicePoint.pending : ServicePoint → Option Ptr
  | .retired p _ | .stored p | .unlinked p => some p
  | _ => none

/-- The transfer whose state is stored while it is on the queue. -/
def ServicePoint.linked : ServicePoint → Option Ptr
  | .stored p => some p
  | _ => none

/-- Who holds the lock of the engine. -/
inductive EngineLock
  | free
  /-- A service call, which returns `rc` to the thread that polls, or to the deferred work. -/
  | service (f : ServicePoint) (caller : Option ℕ) (rc : ℤ)
  /-- It is held for ever. -/
  | lost
  deriving DecidableEq

/-- The transfer whose state a service call has stored, and which it goes on to use. -/
def EngineLock.pending : EngineLock → Option Ptr
  | .service f _ _ => f.pending
  | _ => none

/-- The transfer whose state a service call has stored while it is on the queue. -/
def EngineLock.linked : EngineLock → Option Ptr
  | .service f _ _ => f.linked
  | _ => none

/-- A service call on an engine that does not run. -/
def serviceIdle (e : XdmaEngine) (hw : HwReads) (descWriteback : U32) : XdmaEngine :=
  if descWriteback = 0 then engineStatusRead e hw.status else e

/-- A service call on a running engine, up to `engine_service_transfer_list`. -/
def serviceBegin (e : XdmaEngine) (hw : HwReads) (descWriteback : U32) :
    XdmaEngine × ServicePoint :=
  let e := serviceEntry e hw descWriteback
  let descCount := serviceCount hw descWriteback
  let e := if e.transferList.head?.isSome then engineServicePerf e descCount else e
  (e, .loop (descCount - e.descDequeued))

/-- Take the head of the queue off, its state being stored. -/
def unlinkHead (e : XdmaEngine) (p : Ptr) : XdmaEngine :=
  { e with
    transferList := e.transferList.tail
    descDequeued := e.descDequeued + (e.transfers p).descNum }

/-- What a service call does next. Without a point it is done. It stops the kernel when the
queue is empty. -/
def serviceTurn (e : XdmaEngine) : ServicePoint → Locked (XdmaEngine × Option ServicePoint)
  | .loop descCompleted =>
    match e.transferList with
    | [] => .error e
    | p :: _ =>
      let transfer := e.transfers p
      if ¬ transfer.cyclic ∧ descCompleted > transfer.descNum then
        .ok (dequeueHead e p .completed, some (.retired p (descCompleted - transfer.descNum)))
      else .ok (e, some (.final p descCompleted))
  | .retired p descCompleted => .ok (engineTransferCompletion e p, some (.loop descCompleted))
  | .final p descCompleted =>
    if e.status &&& errFlags ≠ 0 then .ok (engineErrHandle e p, some .resume)
    else
      let transfer := e.transfers p
      let state : TransferState :=
        if descCompleted < transfer.descNum then .failed else .completed
      .ok (e.setTransfer p { transfer with state := state }, some (.stored p))
  | .stored p => .ok (unlinkHead e p, some (.unlinked p))
  | .unlinked p => .ok (engineTransferCompletion e p, some .resume)
  | .resume => (engineServiceResume (clearWriteback e)).map fun e => (e, none)

/-! ## Left to itself -/

/-- The next state of a service call; none when it is done, and when it stops the kernel. -/
def serviceNext : XdmaEngine × Option ServicePoint → Option (XdmaEngine × Option ServicePoint)
  | (_, none) => none
  | (e, some f) => (serviceTurn e f).toOption

variable {e e' : XdmaEngine}

theorem serviceNext_of_ok {f : ServicePoint} {s : XdmaEngine × Option ServicePoint}
    (h : serviceTurn e f = .ok s) : serviceNext (e, some f) = some s := by
  rw [serviceNext, h]
  rfl

/-- A state that is stored before its transfer is taken off the queue is stored all the same. -/
theorem unlinkHead_setTransfer (e : XdmaEngine) (p : Ptr) (s : TransferState) :
    unlinkHead (e.setTransfer p { e.transfers p with state := s }) p = dequeueHead e p s := by
  rw [unlinkHead, transfers_setTransfer_self]
  rfl

/-- The final transfer, up to the resumption. -/
theorem finalTransfer_comes (e : XdmaEngine) (p : Ptr) (d : U32) :
    Comes serviceNext (· = (finalTransfer e p d, some .resume)) (e, some (.final p d)) := by
  rcases finalTransfer_cases e p d with ⟨herr, heq⟩ | ⟨herr, heq⟩ <;> rw [heq]
  · exact .step (serviceNext_of_ok (by rw [serviceTurn, if_pos herr])) (.here rfl)
  · have hstored : serviceTurn e (.final p d) = .ok (e.setTransfer p
        { e.transfers p with state := finalState (e.descNumOf p) d }, some (.stored p)) := by
      rw [serviceTurn, if_neg (not_not.mpr herr)]
      rfl
    refine .step (serviceNext_of_ok hstored) (.step (serviceNext_of_ok rfl)
      (.step (serviceNext_of_ok rfl) (.here ?_)))
    rw [retireHead, ← unlinkHead_setTransfer]

/-- The loop, up to the final transfer. -/
theorem retireLoop_comes (d : U32) (queue : List Ptr) (hlist : e.transferList = queue) {p : Ptr}
    {d' : U32} (h : retireLoop e d queue = (e', some p, d')) :
    Comes serviceNext (· = (e', some (.final p d'))) (e, some (.loop d)) := by
  induction queue generalizing e d with
  | nil => cases h
  | cons q queue ih =>
    rw [retireLoop] at h
    split at h
    · next hpays =>
      have hretired : serviceTurn e (.loop d) = .ok (dequeueHead e q .completed,
          some (.retired q (d - (e.transfers q).descNum))) := by
        simp only [serviceTurn, hlist]
        rw [if_pos hpays]
      refine .step (serviceNext_of_ok hretired) (.step (serviceNext_of_ok rfl) (ih _ ?_ h))
      rw [← retireHead, retireHead_transferList, hlist, List.tail_cons]
    · next hpays =>
      obtain ⟨rfl, rfl, rfl⟩ := h
      refine .step (serviceNext_of_ok ?_) (.here rfl)
      simp only [serviceTurn, hlist]
      rw [if_neg hpays]

/-- A service call on a running engine that is left to itself comes to what `engine_service`
returns. -/
theorem engineService_comes {hw : HwReads} {w : U32} {rc : ℤ} (hrun : e.running = true)
    (h : engineService e hw w = .ok (e', rc)) :
    Comes serviceNext (· = (e', none))
      ((serviceBegin e hw w).1, some (serviceBegin e hw w).2) := by
  simp only [engineService, hrun, not_true_eq_false, if_false] at h
  obtain ⟨⟨e₁, head, d⟩, hloop, h⟩ := Except.bind_eq_ok h
  obtain ⟨e₂, hfinal, h⟩ := Except.bind_eq_ok h
  obtain ⟨e₃, hresume, h⟩ := Except.bind_eq_ok h
  obtain ⟨rfl, -⟩ := Prod.mk.inj (Except.ok.inj h)
  -- a transfer is left behind the loop, or the call would have stopped
  cases head with
  | none => cases hfinal
  | some p =>
    unfold engineServiceTransferList at hloop
    split at hloop
    · cases hloop
    · obtain rfl := Except.ok.inj hfinal
      refine (retireLoop_comes _ _ rfl (Except.ok.inj hloop)).trans fun t ht => ?_
      subst ht
      refine (finalTransfer_comes e₁ p d).trans fun t ht => ?_
      subst ht
      exact .step (serviceNext_of_ok (by rw [serviceTurn, hresume]; rfl)) (.here rfl)

/-! ## What the turns keep -/

/-- What the point a service call has come to says of its transfer. -/
def ServicePoint.Fits (e : XdmaEngine) : ServicePoint → Prop
  | .loop _ | .resume => True
  | .retired p _ | .unlinked p => (e.transfers p).Sync ∧ p ∉ e.transferList
  | .final p _ | .stored p => e.transferList.head? = some p

theorem ServicePoint.fits_congr {f : ServicePoint} (hlist : e'.transferList = e.transferList)
    (htransfers : e'.transfers = e.transfers) : f.Fits e' ↔ f.Fits e := by
  cases f <;> simp only [ServicePoint.Fits, hlist, htransfers]

/-- A queue of synchronous transfers, in the hands of a service call. -/
structure ServiceInv (e : XdmaEngine) (f : ServicePoint) : Prop where
  nodup : e.transferList.Nodup
  sync : ∀ p ∈ e.transferList, (e.transfers p).Sync
  fits : f.Fits e

/-- What a turn does to the queue. It stores the state of the final transfer only, or, at an
error, that of a transfer which it leaves on the queue. -/
structure Turned (e e' : XdmaEngine) (f f' : ServicePoint) : Prop where
  inv : ServiceInv e' f'
  sublist : e'.transferList.Sublist e.transferList
  freed : e'.freed = e.freed
  pending : ∀ p, f'.pending = some p → f.pending = some p ∨ p ∈ e.transferList
  states : ∀ p ∈ e'.transferList, f'.linked ≠ some p → f.linked ≠ some p ∧
    (e'.stateOf p = e.stateOf p ∨ ∃ d, f = .final p d ∧ e.status &&& errFlags ≠ 0)

/-- The head of a queue is not behind itself. -/
theorem head_not_mem_tail {queue : List Ptr} {p : Ptr} (hnodup : queue.Nodup)
    (hhead : queue.head? = some p) : p ∈ queue ∧ p ∉ queue.tail := by
  obtain ⟨rest, rfl⟩ := List.head?_eq_some_iff.mp hhead
  exact ⟨List.mem_cons_self, (List.nodup_cons.mp hnodup).1⟩

/-- Storing another state of a transfer leaves its request. -/
theorem setTransfer_state_sync {p q : Ptr} {state : TransferState} (h : (e.transfers q).Sync) :
    ((e.setTransfer p { e.transfers p with state := state }).transfers q).Sync := by
  rcases eq_or_ne q p with rfl | hne
  · rw [transfers_setTransfer_self]
    exact h
  · have hother : (e.setTransfer p { e.transfers p with state := state }).transfers q =
        e.transfers q := Function.update_of_ne hne _ _
    rwa [hother]

/-- The transfer at the head is taken off in the loop. -/
theorem ServiceInv.retired {p : Ptr} {d d' : U32} (h : ServiceInv e (.loop d))
    (hhead : e.transferList.head? = some p) :
    Turned e (dequeueHead e p .completed) (.loop d) (.retired p d') := by
  obtain ⟨hmem, hoff⟩ := head_not_mem_tail h.nodup hhead
  have hother : ∀ q ∈ e.transferList.tail,
      (dequeueHead e p .completed).transfers q = e.transfers q := fun q hq =>
    Function.update_of_ne (ne_of_mem_of_not_mem hq hoff) _ _
  refine
    { inv := ⟨h.nodup.tail, fun q hq => ?_, setTransfer_state_sync (h.sync p hmem), hoff⟩
      sublist := List.tail_sublist _
      freed := rfl
      pending := fun q hq => .inr (Option.some.inj hq ▸ hmem)
      states := fun q hq _ => ⟨nofun, .inl ?_⟩ }
  · exact setTransfer_state_sync (h.sync q (List.mem_of_mem_tail hq))
  · rw [stateOf, hother q hq, stateOf]

/-- Completing a synchronous transfer that is off the queue wakes its thread. -/
theorem ServiceInv.completed {f f' : ServicePoint} {p : Ptr} (h : ServiceInv e f)
    (hlinked : f.linked = none) (hfits : (e.transfers p).Sync ∧ p ∉ e.transferList)
    (hfits' : ∀ e, f'.Fits e) (hpending : f'.pending = none) :
    Turned e (engineTransferCompletion e p) f f' := by
  obtain ⟨hsync, hoff⟩ := hfits
  obtain ⟨-, -, hlist, -, -⟩ := engineTransferCompletion_frame e p
  have hother : ∀ q ∈ e.transferList,
      (engineTransferCompletion e p).transfers q = e.transfers q := fun q hq =>
    engineTransferCompletion_of_ne _ _ (ne_of_mem_of_not_mem hq hoff)
  refine
    { inv := ⟨hlist ▸ h.nodup, fun q hq => ?_, hfits' _⟩
      sublist := by rw [hlist]
      freed := (engineTransferCompletion_of_sync e p hsync).2
      pending := fun q hq => absurd (hpending.symm.trans hq) nofun
      states := fun q hq _ => ⟨by rw [hlinked]; exact nofun, .inl ?_⟩ }
  · rw [hlist] at hq
    rw [hother q hq]
    exact h.sync q hq
  · rw [hlist] at hq
    rw [stateOf, stateOf, hother q hq]

/-- The state of the final transfer is stored, and it may be left on the queue. -/
theorem ServiceInv.stored {f' : ServicePoint} {p : Ptr} {d : U32} {state : TransferState}
    (h : ServiceInv e (.final p d)) (hsame : SameQueue
      (e.setTransfer p { e.transfers p with state := state }) e')
    (hfits : f'.Fits e') (hpending : ∀ q, f'.pending = some q → q = p)
    (hleft : f'.linked ≠ some p → e.status &&& errFlags ≠ 0) : Turned e e' (.final p d) f' := by
  have hmem : p ∈ e.transferList := List.mem_of_mem_head? h.fits
  have hlist : e'.transferList = e.transferList := hsame.list
  refine
    { inv := ⟨hlist ▸ h.nodup, fun q hq => ?_, hfits⟩
      sublist := by rw [hlist]
      freed := hsame.freed
      pending := fun q hq => .inr (hpending q hq ▸ hmem)
      states := fun q hq hne => ⟨nofun, ?_⟩ }
  · rw [hsame.transfers]
    exact setTransfer_state_sync (h.sync q (hlist ▸ hq))
  · rcases eq_or_ne q p with rfl | hq
    · exact .inr ⟨d, rfl, hleft hne⟩
    · refine .inl ((hsame.stateOf q).trans ?_)
      exact congrArg XdmaTransfer.state (Function.update_of_ne hq _ _)

/-- Stopping an engine leaves its queue. -/
theorem sameQueue_xdmaEngineStop (e : XdmaEngine) : SameQueue e (xdmaEngineStop e) :=
  ⟨⟨rfl, rfl, rfl⟩, rfl, rfl, rfl⟩

/-- One turn of a service call that goes on. -/
theorem serviceTurn_turned {f f' : ServicePoint} (h : ServiceInv e f)
    (hturn : serviceTurn e f = .ok (e', some f')) : Turned e e' f f' := by
  cases f with
  | loop d =>
    rcases hlist : e.transferList with _ | ⟨p, queue⟩
    · simp only [serviceTurn, hlist, reduceCtorEq] at hturn
    simp only [serviceTurn, hlist] at hturn
    split at hturn
    · obtain ⟨rfl, hf⟩ := Prod.mk.inj (Except.ok.inj hturn)
      obtain rfl := Option.some.inj hf
      exact h.retired (by rw [hlist]; rfl)
    · obtain ⟨rfl, hf⟩ := Prod.mk.inj (Except.ok.inj hturn)
      obtain rfl := Option.some.inj hf
      exact ⟨⟨h.nodup, h.sync, by rw [ServicePoint.Fits, hlist]; rfl⟩, .refl _, rfl, nofun,
        fun q _ _ => ⟨nofun, .inl rfl⟩⟩
  | retired p d =>
    obtain ⟨rfl, hf⟩ := Prod.mk.inj (Except.ok.inj hturn)
    obtain rfl := Option.some.inj hf
    exact h.completed rfl h.fits (fun _ => trivial) rfl
  | final p d =>
    rw [serviceTurn] at hturn
    split at hturn
    · next herr =>
      obtain ⟨rfl, hf⟩ := Prod.mk.inj (Except.ok.inj hturn)
      obtain rfl := Option.some.inj hf
      exact h.stored (sameQueue_xdmaEngineStop _) trivial nofun fun _ => herr
    · obtain ⟨rfl, hf⟩ := Prod.mk.inj (Except.ok.inj hturn)
      obtain rfl := Option.some.inj hf
      exact h.stored (.refl _) h.fits (fun q hq => (Option.some.inj hq).symm)
        fun hne => absurd rfl hne
  | stored p =>
    obtain ⟨rfl, hf⟩ := Prod.mk.inj (Except.ok.inj hturn)
    obtain rfl := Option.some.inj hf
    obtain ⟨hmem, hoff⟩ := head_not_mem_tail h.nodup h.fits
    exact
      { inv := ⟨h.nodup.tail, fun q hq => h.sync q (List.mem_of_mem_tail hq), h.sync p hmem, hoff⟩
        sublist := List.tail_sublist _
        freed := rfl
        pending := fun q hq => .inl hq
        states := fun q hq _ => ⟨fun heq => hoff (Option.some.inj heq ▸ hq), .inl rfl⟩ }
  | unlinked p =>
    obtain ⟨rfl, hf⟩ := Prod.mk.inj (Except.ok.inj hturn)
    obtain rfl := Option.some.inj hf
    exact h.completed rfl h.fits (fun _ => trivial) rfl
  | resume =>
    obtain ⟨e₁, he₁⟩ := engineServiceResume_ok (clearWriteback e)
    simp only [serviceTurn, he₁, Except.map] at hturn
    cases (Prod.mk.inj (Except.ok.inj hturn)).2

/-- A service call is done when it has resumed the engine. -/
theorem serviceTurn_done {f : ServicePoint} (hturn : serviceTurn e f = .ok (e', none)) :
    f = .resume ∧ engineServiceResume (clearWriteback e) = .ok e' := by
  cases f with
  | loop d =>
    simp only [serviceTurn] at hturn
    split at hturn
    · cases hturn
    split at hturn <;> cases hturn
  | retired p d => cases hturn
  | final p d =>
    rw [serviceTurn] at hturn
    split at hturn <;> cases hturn
  | stored p => cases hturn
  | unlinked p => cases hturn
  | resume =>
    obtain ⟨e₁, he₁⟩ := engineServiceResume_ok (clearWriteback e)
    simp only [serviceTurn, he₁, Except.map] at hturn
    exact ⟨rfl, he₁.trans (congrArg _ (Prod.mk.inj (Except.ok.inj hturn)).1)⟩

/-- A service call that stops the kernel has found the queue empty. -/
theorem serviceTurn_error {f : ServicePoint} (hturn : serviceTurn e f = .error e') :
    e' = e ∧ e.transferList = [] ∧ f.linked = none ∧ f.pending = none := by
  cases f with
  | loop d =>
    simp only [serviceTurn] at hturn
    split at hturn
    · next hlist => exact ⟨(Except.error.inj hturn).symm, hlist, rfl, rfl⟩
    split at hturn <;> cases hturn
  | retired p d => cases hturn
  | final p d =>
    rw [serviceTurn] at hturn
    split at hturn <;> cases hturn
  | stored p => cases hturn
  | unlinked p => cases hturn
  | resume =>
    obtain ⟨e₁, he₁⟩ := engineServiceResume_ok (clearWriteback e)
    simp only [serviceTurn, he₁, Except.map, reduceCtorEq] at hturn

/-- A service call on an idle engine leaves its queue and run. -/
theorem serviceIdle_frame (e : XdmaEngine) (hw : HwReads) (w : U32) :
    SameQueue e (serviceIdle e hw w) ∧ SameRun e (serviceIdle e hw w) := by
  unfold serviceIdle
  split
  · exact ⟨⟨⟨rfl, rfl, rfl⟩, rfl, rfl, rfl⟩, ⟨rfl, rfl, rfl, rfl⟩⟩
  · exact ⟨.refl e, .refl e⟩

/-- A service call begins on a queue that is as it was. -/
theorem serviceBegin_entered (hw : HwReads) (w : U32) (hrun : e.running = true) :
    Entered e hw w (serviceBegin e hw w).1 ∧ ∃ d, (serviceBegin e hw w).2 = .loop d := by
  have hentry : Entered e hw w (serviceEntry e hw w) := entered_serviceEntry hw w hrun
  unfold serviceBegin
  dsimp only
  split
  · exact ⟨hentry.perf _, _, rfl⟩
  · exact ⟨hentry, _, rfl⟩

end Wimi
