import Wimi.DataPath
import Wimi.PolledCalls

/-!
# Threads copying through one engine

Any number of threads in `char_sgdma_read_write` on one engine in interrupt mode, with increasing
addresses, and hardware that moves the bytes of the descriptors it comes to. The steps of the
threads, of the hardware, of the service and of whoever else uses the memories come in any order; a
call of the service routine is one step. At a `BUG_ON`, and at a null pointer, only the thread is
killed, with the lock if it held it. A transfer is freed by its thread, which does not look whether
the queue or the hardware still has it : when they use it then, anything follows.

In every run in which nothing is used that has been freed,

* `moves_requested` : the hardware moves nothing but bytes that have been asked for;
* `calls_moved` : all bytes a call says it has moved have been moved since it was entered, if no
  service call reads the engine busy, without an error, before its head is done;
* `calls_copied` : then a call that goes through has copied its buffer, if nobody else writes to the
  stretch it writes to, or changes what it copies, while it lasts.
-/

open Machine Resources

namespace Wimi

/-! ## Sessions -/

/-- What a thread asks for. -/
structure Request where
  table : PageTable
  buf : U64
  count : U64
  pos : U64

namespace Request

variable (q : Request)

/-- How many bytes. -/
def size : ℕ :=
  q.count.toInt.toNat

/-- The moves of its first `n` bytes. -/
def moves (n : ℕ) : List (U64 × U64) :=
  q.table.copies q.buf q.pos n

end Request

/-- A call of a thread : what it is for, its locals, and what the hardware has moved since it was
entered. -/
structure CopyCall where
  request : Request
  locals : ReadWrite
  moved : List (U64 × U64)

/-- An engine and its hardware, the chains of its transfers, the calls of the threads, what has been
asked for without being refused, and the memories. When it has halted, nobody gets the lock any
more. -/
structure CopySession (γ : Type*) extends HwSession where
  built : Ptr → BuiltTransfer
  calls : ℕ → CopyCall
  asked : List Request
  memories : Memories γ

inductive CopyStep (γ : Type*)
  /-- The thread calls `char_sgdma_write`, or `char_sgdma_read`. -/
  | enter (tid : ℕ) (dirToDev : Bool) (q : Request)
  /-- The thread creates and queues its next transfer, or leaves the loop. -/
  | submit (tid : ℕ) (env : CreateEnv)
  /-- The thread waits for its transfer. -/
  | wait (tid : ℕ) (signal : Bool)
  /-- The thread goes by the state of its transfer. -/
  | settle (tid : ℕ) (status : U32)
  /-- The hardware moves the first bytes of the descriptor it is at. -/
  | move (n : ℕ)
  /-- The hardware completes descriptors. -/
  | progress (count : U32)
  /-- The engine is serviced, and answers a status word. -/
  | service (status : U32)
  /-- Others write to the memories. -/
  | others (memories : Memories γ)
  /-- A freed transfer is used. -/
  | anything (s' : CopySession γ)

/-- The moves of the descriptors an engine visits from the `m`th on, up to the `n`th. -/
def BuiltTransfer.movesFrom (x : BuiltTransfer) (dirToDev : Bool) (m n : ℕ) :
    Option (List (U64 × U64)) :=
  (x.visits n).map fun ks => (ks.drop m).flatMap (x.moves dirToDev)

namespace CopySession

variable {γ : Type*} (a : EngineAlignment) (s : CopySession γ)

/-- The session with the thread's call replaced. -/
def setCall (tid : ℕ) (c : CopyCall) : CopySession γ :=
  { s with calls := Function.update s.calls tid c }

/-- The session with the thread's locals replaced. -/
def setLocals (tid : ℕ) (locals : ReadWrite) : CopySession γ :=
  s.setCall tid { s.calls tid with locals := locals }

/-- The session after the hardware has made the moves `ms`. -/
def afterMoves (ms : List (U64 × U64)) : CopySession γ :=
  { s with
    calls := fun tid => { s.calls tid with moved := (s.calls tid).moved ++ ms }
    memories := s.memories.after a.dirToDev ms }

/-- The session after the thread, now at `locals`, has made a transfer with the chain `x`, which
left the engine and its hardware at `h`. -/
def made (tid : ℕ) (x : BuiltTransfer) (h : HwSession) (locals : ReadWrite) : CopySession γ :=
  { s with
    toHwSession := h
    built := Function.update s.built s.next x
    calls := Function.update s.calls tid { s.calls tid with locals := locals } }

def enter (tid : ℕ) (dirToDev : Bool) (q : Request) : Option (CopySession γ) :=
  match (s.calls tid).locals.call.phase with
  | .returned _ =>
    match charSgdmaReadWrite a q.buf q.count q.pos dirToDev with
    | .ok locals => some { s.setCall tid ⟨q, locals, []⟩ with asked := q :: s.asked }
    | .error e =>
      let call := { Call.enter q.count.toInt q.pos.toInt with phase := .returned (-e.code) }
      some (s.setCall tid ⟨q, ⟨call, q.buf⟩, []⟩)
  | _ => none

def submit (tid : ℕ) (env : CreateEnv) : Option (CopySession γ) :=
  let c := s.calls tid
  if c.locals.call.phase ≠ .loop then none
  else if ¬ c.locals.call.Continues then some (s.setLocals tid c.locals.left)
  else
    match createTransfer s.next a.buildArgs (env.over c.request.table c.locals.transferAddr)
      c.locals.transferAddr (BitVec.ofInt 64 c.locals.call.chunk)
      (BitVec.ofInt 64 c.locals.call.pos) .empty with
    | (_, .null) => some (s.setLocals tid { c.locals with call := c.locals.call.noTransfer })
    | (_, .bug) => some (s.setLocals tid { c.locals with call := c.locals.call.killed none })
    | (_, .transfer _ x) =>
      let t := c.locals.call.newTransfer x.descBus (BitVec.ofNat 32 x.descNum)
      (s.toHwSession.step (.queue t)).map fun h =>
        -- a thread that is killed has not taken the lock
        if h.halted then s.made tid x (s.toHwSession.create t)
          { c.locals with call := c.locals.call.killed (some s.next) }
        else s.made tid x h (c.locals.queued s.next)

def wait (tid : ℕ) (signal : Bool) : Option (CopySession γ) :=
  let c := (s.calls tid).locals
  match c.call.phase with
  | .monitor p => (waitTransfer s.engine p signal).map fun rc =>
      s.setLocals tid { c with call := { c.call with phase := .monitored p rc } }
  | _ => none

def settle (tid : ℕ) (status : U32) : Option (CopySession γ) :=
  let c := (s.calls tid).locals
  match c.call.phase with
  | .monitored p rc =>
    some { s.setLocals tid (c.settle (s.engine.stateOf p) rc) with
      engine := settleEngine s.engine p rc status }
  | _ => none

/-- What the hardware moves in a step. None is hardware that has not been started, or is at a chain
that has been freed. -/
def moving : CopyStep γ → Option (List (U64 × U64))
  | .move n => s.run.bind fun r =>
      if r.ptr ∈ s.engine.freed then none
      else ((s.built r.ptr).movesFrom a.dirToDev r.count.toNat (r.count.toNat + 1)).map
        (List.take n)
  | .progress count => s.run.bind fun r =>
      if r.ptr ∈ s.engine.freed then none
      else (s.built r.ptr).movesFrom a.dirToDev r.count.toNat count.toNat
  | .anything _ => none
  | _ => some []

/-- A freed transfer is on the queue, or the hardware is at it. -/
def Dangling : Prop :=
  PollSession.UseAfterFree s.toHwSession ∨ ∃ r ∈ s.run, r.ptr ∈ s.engine.freed

instance : Decidable s.Dangling :=
  inferInstanceAs (Decidable (_ ∨ ∃ r ∈ s.run, _))

/-- One step; none is a step that is not enabled. -/
def step (i : CopyStep γ) : Option (CopySession γ) :=
  match i with
  | .enter tid dirToDev q => s.enter a tid dirToDev q
  | .submit tid env => if PollSession.UseAfterFree s.toHwSession then none else s.submit a tid env
  | .wait tid signal => s.wait tid signal
  | .settle tid status => s.settle tid status
  | .move n => (s.moving a (.move n)).map (s.afterMoves a)
  | .progress count =>
    (s.moving a (.progress count)).bind fun ms =>
      (s.toHwSession.progress count).map fun h => { s.afterMoves a ms with toHwSession := h }
  | .service status =>
    if PollSession.UseAfterFree s.toHwSession then none
    else (s.toHwSession.step (.service status)).map fun h => { s with toHwSession := h }
  | .others memories => some { s with memories := memories }
  | .anything s' => if s.Dangling then some s' else none

/-- An idle engine in interrupt mode, and no thread in a call. -/
def start (transfers : Ptr → XdmaTransfer) (built : Ptr → BuiltTransfer) (memories : Memories γ) :
    CopySession γ where
  toHwSession := .start false a.streaming a.dirToDev a.nonIncrAddr transfers 0
  built := built
  calls _ := ⟨⟨.of id, 0, 0, 0⟩, ⟨⟨0, 0, 0, 0, 0, .returned 0⟩, 0⟩, []⟩
  asked := []
  memories := memories

end CopySession

/-! ## The engine -/

section Engine

variable {h h' : HwSession}

/-- What holds of the queue and of what the hardware runs, whatever the engine answers. -/
structure RunInv (h : HwSession) : Prop where
  nodup : h.engine.transferList.Nodup
  allocated : ∀ p ∈ h.engine.transferList, p < h.next
  created : ∀ r, h.run = some r → r.ptr < h.next

/-- What a call under the lock leaves of the transfers and the run, which it may begin anew. -/
structure HwKept (h h' : HwSession) : Prop where
  settled : KeepsSettled h h'
  descNum : ∀ p < h.next, h'.engine.descNumOf p = h.engine.descNumOf p
  run : h'.run = h.run ∨ ∃ q, h'.run = some ⟨q, 0⟩

/-- A call that starts the hardware on the head it leaves, or not at all. -/
theorem follow_run_cases {e : XdmaEngine}
    (hstarted : e.started = h.engine.started ∨ ∃ q, e.transferList.head? = some q ∧
      e.started = (q, e.transfers q) :: h.engine.started) :
    (h.follow e).run = h.run ∨ ∃ q, (h.follow e).run = some ⟨q, 0⟩ := by
  rcases hstarted with hsame | ⟨q, -, hstart⟩
  · exact .inl (follow_run_of_same hsame)
  · exact .inr ⟨q, follow_run_of_start hstart⟩

/-- A new transfer is created. -/
theorem create_kept (t : NewTransfer) (hr : RunInv h) :
    RunInv (h.create t) ∧ HwKept h (h.create t) ∧
      (h.create t).engine.descNumOf h.next = t.descNum ∧
      (h.create t).engine.stateOf h.next ≠ .completed := by
  have hold : ∀ p < h.next, (h.create t).engine.transfers p = h.engine.transfers p :=
    fun p hp => create_transfers h t hp
  have hself : (h.create t).engine.transfers h.next = t.create := create_self h t
  refine ⟨⟨hr.nodup, fun p hp => (hr.allocated p hp).trans (Nat.lt_succ_self _),
    fun r hrun => (hr.created r hrun).trans (Nat.lt_succ_self _)⟩, ⟨⟨Nat.le_succ _, fun p hp => ?_⟩,
    fun p hp => ?_, .inl rfl⟩, ?_, ?_⟩
  · exact (congrArg XdmaTransfer.state (hold p hp)).trans_ne
  · exact congrArg XdmaTransfer.descNum (hold p hp)
  · rw [XdmaEngine.descNumOf, hself]
    rfl
  · rw [XdmaEngine.stateOf, hself]
    exact TransferState.noConfusion

/-- A new transfer is queued. -/
theorem queue_kept {t : NewTransfer} (hr : RunInv h) (hstep : h.step (.queue t) = some h')
    (hlive : h'.halted = false) : RunInv h' ∧ HwKept h h' ∧ h'.next = h.next + 1 ∧
      h'.engine.descNumOf h.next = t.descNum ∧ h'.engine.stateOf h.next ≠ .completed := by
  obtain ⟨-, hstep⟩ := Option.ite_none_left_eq_some.mp hstep
  obtain rfl := Option.some.inj hstep
  obtain ⟨hcreated, hkept, hnum, hstate⟩ := create_kept t hr
  rcases hq : transferQueue (h.create t).engine h.next with e | ⟨e, rc⟩
  · rw [hq] at hlive
    cases hlive
  rw [HwSession.afterCall]
  rcases transferQueue_cases hq with ⟨-, rfl, -⟩ | ⟨-, hqueued⟩
  · -- a shutdown was requested, and nothing is queued
    rw [follow_self]
    exact ⟨hcreated, hkept, rfl, hnum, hstate⟩
  have hnew : h.next ∉ (h.create t).engine.transferList :=
    fun hmem => lt_irrefl _ (hr.allocated _ hmem)
  have hmem : ∀ p ∈ e.transferList, p < h.next + 1 := fun p hp =>
    (hqueued.mem_iff.mp hp).elim (hcreated.allocated p) fun heq => heq ▸ Nat.lt_succ_self _
  refine ⟨⟨hqueued.nodup hr.nodup hnew, hmem,
    created_follow hcreated.created hmem hqueued.started_cases⟩,
    ⟨⟨Nat.le_succ _, fun p hp => ?_⟩, fun p hp => ?_, follow_run_cases hqueued.started_cases⟩, rfl,
    ?_, ?_⟩
  · change _ → (e.transfers p).state ≠ _
    rw [hqueued.others p hp.ne]
    exact hkept.settled.2 p hp
  · change (e.transfers p).descNum = _
    rw [hqueued.others p hp.ne]
    exact hkept.descNum p hp
  · change (e.transfers h.next).descNum = _
    rw [hqueued.self]
    exact hnum
  · change (e.transfers h.next).state ≠ _
    rw [hqueued.self]
    exact TransferState.noConfusion

/-- The hardware completes descriptors. -/
theorem progress_kept {count : U32} (hr : RunInv h) (hstep : h.progress count = some h') :
    RunInv h' ∧ h'.engine = h.engine ∧ h'.next = h.next ∧ h'.halted = h.halted := by
  unfold HwSession.progress at hstep
  split at hstep
  · cases hstep
  next r hrun =>
  obtain ⟨-, hstep⟩ := Option.ite_none_right_eq_some.mp hstep
  obtain rfl := Option.some.inj hstep
  refine ⟨⟨hr.nodup, hr.allocated, fun r' hr' => ?_⟩, rfl, rfl, rfl⟩
  obtain rfl := Option.some.inj hr'
  exact hr.created r hrun

/-- The engine is serviced, perhaps by a thread that is killed. -/
theorem service_kept {status : U32} (hr : RunInv h) (hstep : h.step (.service status) = some h') :
    RunInv h' ∧ HwKept h h' ∧ h'.next = h.next := by
  obtain ⟨-, hstep⟩ := Option.ite_none_left_eq_some.mp hstep
  obtain rfl := Option.some.inj hstep
  rcases hs : engineService h.engine ⟨status, h.hwCount⟩ 0 with e | ⟨e, rc⟩
  · obtain ⟨hlist, -, hnum, hsettled⟩ := engineService_error hr.nodup hs
    refine ⟨⟨?_, fun p hp => ?_, hr.created⟩,
      ⟨⟨le_rfl, fun p _ => hsettled p⟩, fun p _ => congrFun hnum p, .inl rfl⟩, rfl⟩
    · exact hlist.symm ▸ List.nodup_nil
    · exact absurd (hlist ▸ hp) List.not_mem_nil
  rw [HwSession.afterCall]
  rcases hrun : h.engine.running with _ | _
  · obtain ⟨hq, hsame, -⟩ := engineService_idle_cases hrun hs
    have hstarted := follow_run_of_same hsame.started
    refine ⟨⟨?_, ?_, hstarted.symm ▸ hr.created⟩, ⟨⟨le_rfl, fun p _ => ?_⟩, fun p _ => ?_,
      .inl hstarted⟩, rfl⟩
    · exact hq.list.symm ▸ hr.nodup
    · exact hq.list.symm ▸ hr.allocated
    · exact (hq.stateOf p).symm ▸ id
    · exact congrFun hq.descNumOf p
  obtain ⟨-, done, p, rest, d, hserviced⟩ := engineService_cases hrun hr.nodup hs
  have hmem : ∀ q ∈ e.transferList, q < h.next := fun q hq => hr.allocated q (hserviced.subset q hq)
  exact ⟨⟨hserviced.nodup hr.nodup, hmem, created_follow hr.created hmem hserviced.started_cases⟩,
    ⟨hserviced.keepsSettled, fun q _ => congrFun hserviced.descNumOf q,
      follow_run_cases hserviced.started_cases⟩, rfl⟩

end Engine

/-! ## Transfers -/

section Transfers

variable {γ : Type*} {a : EngineAlignment} {s s' : CopySession γ} {p : Ptr}
  {ms full l : List (U64 × U64)}

/-- The transfer at `p` carries the moves `full`. -/
structure TransferOf (a : EngineAlignment) (s : CopySession γ) (p : Ptr) (full : List (U64 × U64)) :
    Prop where
  lt : p < s.next
  carries : (s.built p).Carries a.dirToDev full
  descNum : (s.engine.descNumOf p).toNat = (s.built p).descNum

/-- The moves of the first `n` descriptors of the transfer at `p`. -/
def CopySession.movesBy (s : CopySession γ) (a : EngineAlignment) (p : Ptr) (n : ℕ) :
    List (U64 × U64) :=
  (List.range n).flatMap ((s.built p).moves a.dirToDev)

/-- What the hardware has done of the transfer at `p`, which carries `full`, is in `l`. -/
structure Shown (a : EngineAlignment) (s : CopySession γ) (p : Ptr) (full l : List (U64 × U64)) :
    Prop where
  completed : s.engine.stateOf p = .completed → full.Sublist l
  running : ∀ r, s.run = some r → r.ptr = p → (s.movesBy a p r.count.toNat).Sublist l

/-- The chains of the transfers there were before are left alone. -/
structure KeepsChains (s s' : CopySession γ) : Prop where
  next : s.next ≤ s'.next
  built : ∀ p < s.next, s'.built p = s.built p
  descNum : ∀ p < s.next, s'.engine.descNumOf p = s.engine.descNumOf p

/-- What a step that makes the moves `ms` leaves of the transfers there were before. -/
structure Extends (a : EngineAlignment) (s s' : CopySession γ) (ms : List (U64 × U64)) : Prop
    extends KeepsChains s s' where
  settled : ∀ p < s.next, s.engine.stateOf p ≠ .submitted → s'.engine.stateOf p ≠ .submitted
  shown : ∀ p full l, TransferOf a s p full → Shown a s p full l → Shown a s' p full (l ++ ms)

/-- A step that leaves the transfers and the chains alone. -/
theorem KeepsChains.of_same (hnext : s'.next = s.next)
    (htransfers : s'.engine.transfers = s.engine.transfers) (hbuilt : s'.built = s.built) :
    KeepsChains s s' := by
  refine ⟨hnext.ge, fun _ _ => hbuilt ▸ rfl, fun p _ => ?_⟩
  rw [XdmaEngine.descNumOf, htransfers, XdmaEngine.descNumOf]

/-- A step that makes no moves and leaves the transfers, the run and the chains alone. -/
theorem Extends.of_same (hnext : s'.next = s.next)
    (htransfers : s'.engine.transfers = s.engine.transfers) (hrun : s'.run = s.run)
    (hbuilt : s'.built = s.built) : Extends a s s' [] := by
  refine ⟨.of_same hnext htransfers hbuilt, fun p _ => ?_, fun p full l _ hs => ?_⟩
  · rw [XdmaEngine.stateOf, XdmaEngine.stateOf, htransfers]
    exact id
  · rw [List.append_nil]
    refine ⟨fun hc => hs.completed ?_, fun r hr hptr => ?_⟩
    · rwa [XdmaEngine.stateOf, htransfers] at hc
    · rw [CopySession.movesBy, hbuilt]
      exact hs.running r (hrun ▸ hr) hptr

theorem KeepsChains.transferOf (hk : KeepsChains s s') (ht : TransferOf a s p full) :
    TransferOf a s' p full where
  lt := ht.lt.trans_le hk.next
  carries := (hk.built p ht.lt).symm ▸ ht.carries
  descNum := by
    rw [hk.descNum p ht.lt, hk.built p ht.lt]
    exact ht.descNum

/-- All the descriptors of a transfer make up its moves. -/
theorem TransferOf.movesBy (ht : TransferOf a s p full) :
    s.movesBy a p (s.engine.descNumOf p).toNat = full := by
  rw [CopySession.movesBy, ht.descNum]
  exact ht.carries.moves

/-- A call under the lock that completes only what the hardware has done. -/
theorem extends_of_kept {i : HwStep} (hbuilt : ∀ p < s.next, s'.built p = s.built p)
    (hkept : HwKept s.toHwSession s'.toHwSession)
    (hdone : CompletesDone s.toHwSession i s'.toHwSession) : Extends a s s' [] := by
  refine ⟨⟨hkept.settled.1, hbuilt, hkept.descNum⟩, hkept.settled.2, fun p full l ht hs => ?_⟩
  rw [List.append_nil]
  refine ⟨fun hc => ?_, fun r hrun hptr => ?_⟩
  · by_cases hold : s.engine.stateOf p = .completed
    · exact hs.completed hold
    · -- completed in this call, the hardware has done all of it
      have hall := hs.running _ (hdone.completed p ht.lt hc hold) rfl
      rwa [ht.movesBy] at hall
  · rw [CopySession.movesBy, hbuilt p ht.lt]
    rcases hkept.run with hsame | ⟨q, hanew⟩
    · exact hs.running r (hsame.symm.trans hrun) hptr
    · obtain rfl := Option.some.inj (hanew.symm.trans hrun)
      exact List.nil_sublist l

/-- The moves of a step that makes the hardware complete descriptors up to the `n`th. -/
theorem TransferOf.movesBy_append (ht : TransferOf a s p full) {m n : ℕ} (hmn : m ≤ n)
    (hn : n ≤ (s.engine.descNumOf p).toNat)
    (hms : (s.built p).movesFrom a.dirToDev m n = some ms) :
    s.movesBy a p n = s.movesBy a p m ++ ms := by
  rw [ht.descNum] at hn
  rw [BuiltTransfer.movesFrom, ht.carries.visits, min_eq_left hn, Option.map_some] at hms
  obtain rfl := Option.some.inj hms
  rw [CopySession.movesBy, CopySession.movesBy, ← List.flatMap_append]
  congr 1
  rw [← min_eq_left hmn, ← List.take_range, min_eq_left hmn, List.take_append_drop]

/-- The hardware completes descriptors. -/
theorem extends_progress {count : U32} {h : HwSession}
    (hms : s.moving a (.progress count) = some ms) (hstep : s.toHwSession.progress count = some h) :
    Extends a s { s.afterMoves a ms with toHwSession := h } ms := by
  obtain ⟨r, hr, hms⟩ := Option.bind_eq_some_iff.mp hms
  obtain ⟨-, hms⟩ := Option.ite_none_left_eq_some.mp hms
  simp only [HwSession.progress, hr] at hstep
  obtain ⟨⟨hle, hmax⟩, hstep⟩ := Option.ite_none_right_eq_some.mp hstep
  obtain rfl := Option.some.inj hstep
  refine ⟨⟨le_rfl, fun _ _ => rfl, fun _ _ => rfl⟩, fun _ _ => id, fun p full l ht hs => ?_⟩
  refine ⟨fun hc => (hs.completed hc).trans (List.sublist_append_left l ms),
    fun r' hrun hptr => ?_⟩
  obtain rfl := Option.some.inj hrun
  obtain rfl : r.ptr = p := hptr
  change (s.movesBy a r.ptr count.toNat).Sublist _
  rw [ht.movesBy_append hle hmax hms]
  exact (hs.running r hr rfl).append_right ms

/-- The hardware moves bytes it does not count yet. -/
theorem extends_move (s : CopySession γ) (ms : List (U64 × U64)) :
    Extends a s (s.afterMoves a ms) ms :=
  ⟨⟨le_rfl, fun _ _ => rfl, fun _ _ => rfl⟩, fun _ _ => id, fun _ _ l _ hs =>
    ⟨fun hc => (hs.completed hc).trans (List.sublist_append_left l ms),
      fun r hrun hptr => (hs.running r hrun hptr).trans (List.sublist_append_left l ms)⟩⟩

end Transfers

/-! ## Calls -/

section Calls

variable {γ : Type*} {a : EngineAlignment} {s s' : CopySession γ} {c : CopyCall} {p : Ptr}
  {ms : List (U64 × U64)}

/-- A call in its loop has gone by the first `m` bytes of its request. -/
structure GoneBy (q : Request) (c : ReadWrite) (m : ℕ) : Prop where
  le : m ≤ q.size
  done : c.call.done = m
  remaining : c.call.remaining = q.count.toInt - m
  pos : c.filePos = q.pos + BitVec.ofNat 64 m
  addr : c.transferAddr = q.buf + BitVec.ofNat 64 m
  res : c.call.res = 0

/-- A call that is entered. -/
theorem goneBy_enter (q : Request) : GoneBy q ⟨.enter q.count.toInt q.pos.toInt, q.buf⟩ 0 where
  le := Nat.zero_le _
  done := rfl
  remaining := (sub_zero _).symm
  pos := BitVec.ofInt_toInt.trans (BitVec.add_zero _).symm
  addr := (BitVec.add_zero _).symm
  res := rfl

/-- A chunk does not reach over the end of its request. -/
theorem GoneBy.chunk_le {q : Request} {c : ReadWrite} {m : ℕ} (h : GoneBy q c m)
    (hgo : c.call.Continues) : m + c.call.chunk.toNat ≤ q.size := by
  have hle : c.call.chunk ≤ q.count.toInt - m := by
    rw [← h.remaining, Call.chunk_eq_min]
    exact min_le_right _ _
  have hpos := ReadWrite.chunk_pos hgo
  rw [Request.size]
  omega

/-- The next chunk is gone by when nothing goes wrong. -/
theorem GoneBy.settle {q : Request} {c : ReadWrite} {m n : ℕ} {state : TransferState} {rc : ℤ}
    (h : GoneBy q c m) (hlen : c.call.transferLen = n) (hle : m + n ≤ q.size)
    (hzero : Call.outcome state rc = 0) : GoneBy q (c.settle state rc) (m + n) := by
  have hsettle : c.settle state rc = c.settle .completed 0 := by
    simp only [ReadWrite.settle, Call.settle, hzero]
    rfl
  obtain ⟨-, hcount, hremaining, hpos, haddr, -⟩ := h
  rw [hsettle]
  refine ⟨hle, ?_, ?_, ?_, ?_, rfl⟩
  · change c.call.done + c.call.transferLen = _
    rw [hcount, hlen]
    exact (Nat.cast_add m n).symm
  · change c.call.remaining - c.call.transferLen = _
    rw [hremaining, hlen, Nat.cast_add, sub_sub]
  · change BitVec.ofInt 64 (c.call.pos + c.call.transferLen) = _
    replace hpos : BitVec.ofInt 64 c.call.pos = _ := hpos
    rw [BitVec.ofInt_add, hpos, hlen, BitVec.ofInt_natCast, BitVec.add_assoc, ← BitVec.ofNat_add]
  · change c.transferAddr + BitVec.ofInt 64 c.call.transferLen = _
    rw [haddr, hlen, BitVec.ofInt_natCast, BitVec.add_assoc, ← BitVec.ofNat_add]

/-- A call behind `m` bytes has queued the transfer at `p` for the next `n`. What had been moved by
then is `l₁`, and what has been moved since is `l₂`. -/
structure Waits (a : EngineAlignment) (s : CopySession γ) (c : CopyCall) (p : Ptr) (m n : ℕ)
    (l₁ l₂ : List (U64 × U64)) : Prop where
  goneBy : GoneBy c.request c.locals m
  le : m + n ≤ c.request.size
  transferLen : c.locals.call.transferLen = n
  moved : c.moved = l₁ ++ l₂
  before : (c.request.moves m).Sublist l₁
  transfer : TransferOf a s p (c.request.table.copies (c.request.buf + BitVec.ofNat 64 m)
    (c.request.pos + BitVec.ofNat 64 m) n)
  shown : Shown a s p (c.request.table.copies (c.request.buf + BitVec.ofNat 64 m)
    (c.request.pos + BitVec.ofNat 64 m) n) l₂

/-- What holds of a call. -/
def CallInv (a : EngineAlignment) (s : CopySession γ) (c : CopyCall) : Prop :=
  match c.locals.call.phase with
  | .returned ret =>
    0 ≤ ret → ret = c.request.size ∧ (c.request.moves c.request.size).Sublist c.moved
  | .loop => c.locals.call.res < 0 ∨
      ∃ m, GoneBy c.request c.locals m ∧ (c.request.moves m).Sublist c.moved
  | .monitor p => ∃ m n l₁ l₂, Waits a s c p m n l₁ l₂
  | .polled _ _ => False
  | .killed _ => True
  | .monitored p rc => (rc = 0 → s.engine.stateOf p ≠ .submitted) ∧
      ∃ m n l₁ l₂, Waits a s c p m n l₁ l₂

theorem Waits.extends (he : Extends a s s' ms) {m n : ℕ} {l₁ l₂ : List (U64 × U64)}
    (hw : Waits a s c p m n l₁ l₂) :
    Waits a s' { c with moved := c.moved ++ ms } p m n l₁ (l₂ ++ ms) where
  goneBy := hw.goneBy
  le := hw.le
  transferLen := hw.transferLen
  moved := by
    rw [← List.append_assoc, ← hw.moved]
  before := hw.before
  transfer := he.transferOf hw.transfer
  shown := he.shown _ _ _ hw.transfer hw.shown

/-- A step of others keeps what holds of a call. -/
theorem CallInv.extends (he : Extends a s s' ms) (hc : CallInv a s c) :
    CallInv a s' { c with moved := c.moved ++ ms } := by
  have hmore : c.moved.Sublist (c.moved ++ ms) := List.sublist_append_left _ _
  unfold CallInv at hc ⊢
  dsimp only
  split at hc
  · exact fun hret => (hc hret).imp_right fun hsub => hsub.trans hmore
  · refine hc.imp_right ?_
    rintro ⟨m, hgone, hsub⟩
    exact ⟨m, hgone, hsub.trans hmore⟩
  · obtain ⟨m, n, l₁, l₂, hw⟩ := hc
    exact ⟨m, n, l₁, l₂ ++ ms, hw.extends he⟩
  · exact hc
  · trivial
  · obtain ⟨hsettled, m, n, l₁, l₂, hw⟩ := hc
    exact ⟨fun hrc => he.settled _ hw.transfer.lt (hsettled hrc), m, n, l₁, l₂ ++ ms,
      hw.extends he⟩

end Calls

/-! ## Runs -/

section Runs

variable {γ : Type*} {a : EngineAlignment} {s s' : CopySession γ} {tid : ℕ} {c : CopyCall}
  {ms : List (U64 × U64)}

/-- What holds in every run whose service calls come in time. -/
structure CopyInv (a : EngineAlignment) (s : CopySession γ) : Prop where
  run : RunInv s.toHwSession
  engine : s.halted = false → HwInv s.toHwSession
  calls : ∀ tid, CallInv a s (s.calls tid)

theorem HwInv.runInv {h : HwSession} (hi : HwInv h) : RunInv h :=
  ⟨hi.nodup, hi.allocated, hi.created⟩

/-- The invariant of the run only speaks of the queue, the next transfer and the run. -/
theorem RunInv.congr {h h' : HwSession} (hr : RunInv h)
    (hlist : h'.engine.transferList = h.engine.transferList) (hnext : h'.next = h.next)
    (hrun : h'.run = h.run) : RunInv h' := by
  refine ⟨hlist.symm ▸ hr.nodup, ?_, ?_⟩
  · rw [hlist, hnext]
    exact hr.allocated
  · rw [hrun, hnext]
    exact hr.created

/-- The invariant of the engine only speaks of the queue, the transfers and the run. -/
theorem HwInv.congr {h h' : HwSession} (hi : HwInv h)
    (hlist : h'.engine.transferList = h.engine.transferList)
    (htransfers : h'.engine.transfers = h.engine.transfers) (hr : SameRun h.engine h'.engine)
    (hnext : h'.next = h.next) (hrun : h'.run = h.run) : HwInv h' := by
  have hnum : h'.engine.descNumOf = h.engine.descNumOf := by
    funext p
    rw [XdmaEngine.descNumOf, XdmaEngine.descNumOf, htransfers]
  refine ⟨hlist.symm ▸ hi.nodup, ?_, ?_, ?_, fun hrunning => ?_⟩
  · rw [hlist, hnext]
    exact hi.allocated
  · rw [hlist, hnum]
    exact hi.pos
  · rw [hrun, hnext]
    exact hi.created
  · obtain ⟨r, hf⟩ := hi.follows (hr.running.symm.trans hrunning)
    refine ⟨r, hrun.trans hf.run, hnum.symm ▸ hf.le, ?_⟩
    rw [hr.descDequeued, hlist, hnum]
    exact hf.place

/-- A step of one thread keeps the invariant if it keeps that of the engine and that of its
call. -/
theorem CopyInv.update (hs : CopyInv a s) (hrun : RunInv s'.toHwSession)
    (hengine : s'.halted = false → HwInv s'.toHwSession)
    (he : Extends a s s' []) (hcalls : s'.calls = Function.update s.calls tid c)
    (hc : CallInv a s' c) : CopyInv a s' := by
  refine ⟨hrun, hengine, fun t => ?_⟩
  rw [hcalls]
  rcases eq_or_ne t tid with rfl | hne
  · rwa [Function.update_self]
  · rw [Function.update_of_ne hne]
    simpa using (hs.calls t).extends he

/-- A step of the hardware, or of others, keeps it. -/
theorem CopyInv.moved (hs : CopyInv a s) (hrun : RunInv s'.toHwSession)
    (hengine : s'.halted = false → HwInv s'.toHwSession) (he : Extends a s s' ms)
    (hcalls : ∀ t, s'.calls t = { s.calls t with moved := (s.calls t).moved ++ ms }) :
    CopyInv a s' :=
  ⟨hrun, hengine, fun t => hcalls t ▸ (hs.calls t).extends he⟩

/-- So does one that makes no moves. -/
theorem CopyInv.still (hs : CopyInv a s) (hrun : RunInv s'.toHwSession)
    (hengine : s'.halted = false → HwInv s'.toHwSession) (he : Extends a s s' [])
    (hcalls : s'.calls = s.calls) : CopyInv a s' :=
  hs.moved hrun hengine he fun t => by rw [hcalls, List.append_nil]

/-- New locals of a thread. -/
theorem CopyInv.setLocals (hs : CopyInv a s) {locals : ReadWrite}
    (hc : CallInv a (s.setLocals tid locals) { s.calls tid with locals := locals }) :
    CopyInv a (s.setLocals tid locals) :=
  hs.update hs.run hs.engine (.of_same rfl rfl rfl rfl) rfl hc

/-- A thread that calls is refused, or comes to the head of its loop. -/
theorem enter_cases {dirToDev : Bool} {q : Request}
    (hstep : s.step a (.enter tid dirToDev q) = some s') :
    s' = { s.setCall tid ⟨q, ⟨.enter q.count.toInt q.pos.toInt, q.buf⟩, []⟩ with
      asked := q :: s.asked } ∨
    ∃ e : Errno, s' = s.setCall tid ⟨q,
      ⟨{ Call.enter q.count.toInt q.pos.toInt with phase := .returned (-e.code) }, q.buf⟩, []⟩ := by
  replace hstep : s.enter a tid dirToDev q = some s' := hstep
  unfold CopySession.enter at hstep
  split at hstep
  case h_2 => cases hstep
  split at hstep
  · next hok =>
    obtain rfl := charSgdmaReadWrite_ok hok
    exact .inl (Option.some.inj hstep).symm
  · exact .inr ⟨_, (Option.some.inj hstep).symm⟩

/-- A call that is refused. -/
theorem callInv_refused (q : Request) (e : Errno) : CallInv a s
    ⟨q, ⟨{ Call.enter q.count.toInt q.pos.toInt with phase := .returned (-e.code) }, q.buf⟩,
      []⟩ := by
  have hneg : -e.code < 0 := by cases e <;> decide
  exact fun hret => absurd hret (not_le.mpr hneg)

/-- A call that leaves its loop. -/
theorem callInv_left (hc : CallInv a s c) (hphase : c.locals.call.phase = .loop)
    (hend : ¬ c.locals.call.Continues) : CallInv a s' { c with locals := c.locals.left } := by
  rw [CallInv, hphase] at hc
  rcases hc with hneg | ⟨m, hgone, hsub⟩
  · have hret : c.locals.left.call.phase = .returned c.locals.call.res :=
      congrArg Phase.returned (if_pos hneg.ne)
    rw [CallInv, hret]
    exact fun hpos => absurd hpos (not_le.mpr hneg)
  · have hret : c.locals.left.call.phase = .returned m :=
      (ReadWrite.left_phase hgone.res).trans (congrArg Phase.returned hgone.done)
    have hall : m = c.request.size := by
      have hleft : c.request.count.toInt - m ≤ 0 := by
        rw [← hgone.remaining]
        exact not_lt.mp fun hmore => hend ⟨hgone.res, hmore⟩
      have hle := hgone.le
      rw [Request.size] at hle ⊢
      omega
    rw [CallInv, hret]
    subst hall
    exact fun _ => ⟨rfl, hsub⟩

/-- A call whose transfer could not be created. -/
theorem callInv_noTransfer : CallInv a s { c with
    locals := { c.locals with call := c.locals.call.noTransfer } } := by
  have hret : c.locals.call.noTransfer.phase = .returned (-5) := rfl
  rw [CallInv, hret]
  exact fun hpos => absurd hpos (by decide)

/-- The transfer that is created for the next chunk carries its copy. -/
theorem carries_chunk {m : ℕ} {env : CreateEnv} {p : Ptr} {l' : Ledger TransferResource} {k : ℕ}
    {x : BuiltTransfer} (hincr : a.nonIncrAddr = false) (hgone : GoneBy c.request c.locals m)
    (hgo : c.locals.call.Continues)
    (hcreate : createTransfer p a.buildArgs (env.over c.request.table c.locals.transferAddr)
      c.locals.transferAddr (BitVec.ofInt 64 c.locals.call.chunk)
      (BitVec.ofInt 64 c.locals.call.pos) .empty = (l', .transfer k x)) :
    x.Carries a.dirToDev (c.request.table.copies (c.request.buf + BitVec.ofNat 64 m)
      (c.request.pos + BitVec.ofNat 64 m) c.locals.call.chunk.toNat) := by
  obtain ⟨hcount, hmax⟩ := ReadWrite.chunk_bounds hgo
  have hcarries := carries_createTransfer (c := a.buildArgs) hincr rfl hcount hmax rfl hcreate
  have hpos : BitVec.ofInt 64 c.locals.call.pos = c.request.pos + BitVec.ofNat 64 m := hgone.pos
  rwa [ReadWrite.toNat_chunk hgo, hgone.addr, hpos] at hcarries

/-- A thread that is killed. -/
theorem callInv_killed (q : Option Ptr) : CallInv a s { c with
    locals := { c.locals with call := c.locals.call.killed q } } :=
  trivial

/-- The transfers of the run are those created before. -/
theorem run_created {h h' : HwSession} (hr : RunInv h) (hkept : HwKept h h') {r : HwRun}
    (hrun : h'.run = some r) (hptr : r.ptr = h.next) : r.count = 0 := by
  rcases hkept.run with hsame | ⟨q, hanew⟩
  · exact absurd (hr.created r (hsame.symm.trans hrun)) (hptr.symm ▸ lt_irrefl _)
  · obtain rfl := Option.some.inj (hanew.symm.trans hrun)
    rfl

/-- How a thread at `c` makes a transfer : it queues it, or is killed before it gets the lock. -/
inductive Makes (s : CopySession γ) (c : ReadWrite) (t : NewTransfer) :
    HwSession → ReadWrite → Prop
  | queued {h : HwSession} (hhw : s.toHwSession.step (.queue t) = some h)
      (hlive : h.halted = false) : Makes s c t h (c.queued s.next)
  | killed : Makes s c t (s.toHwSession.create t)
      { c with call := c.call.killed (some s.next) }

theorem Makes.kept {c locals : ReadWrite} {t : NewTransfer} {h : HwSession}
    (hm : Makes s c t h locals) (hr : RunInv s.toHwSession) :
    RunInv h ∧ HwKept s.toHwSession h ∧ h.next = s.next + 1 ∧
      h.engine.descNumOf s.next = t.descNum ∧ h.engine.stateOf s.next ≠ .completed := by
  cases hm with
  | queued hhw hlive => exact queue_kept hr hhw hlive
  | killed =>
    obtain ⟨hcreated, hkept, hnum, hstate⟩ := create_kept t hr
    exact ⟨hcreated, hkept, rfl, hnum, hstate⟩

theorem Makes.completes {c locals : ReadWrite} {t : NewTransfer} {h : HwSession}
    (hm : Makes s c t h locals) (hi : s.halted = false → HwInv s.toHwSession) :
    (h.halted = false → HwInv h) ∧ CompletesDone s.toHwSession (.queue t) h := by
  cases hm with
  | queued hhw hlive =>
    exact queue_completes (hi (Bool.eq_false_iff.mpr (Option.ite_none_left_eq_some.mp hhw).1)) hhw
  | killed =>
    exact ⟨fun hlive => (hi hlive).create t, completesDone_of_kept
      (fun p hp => congrArg XdmaTransfer.state (create_transfers s.toHwSession t hp)) nofun⟩

/-- What a thread at the head of its loop does : it leaves the loop, gets no transfer, is killed, or
makes one. -/
theorem submit_cases {env : CreateEnv} (hstep : s.submit a tid env = some s') :
    (s.calls tid).locals.call.phase = .loop ∧
      (¬ (s.calls tid).locals.call.Continues ∧ s' = s.setLocals tid (s.calls tid).locals.left ∨
      s' = s.setLocals tid { (s.calls tid).locals with
        call := (s.calls tid).locals.call.noTransfer } ∨
      s' = s.setLocals tid { (s.calls tid).locals with
        call := (s.calls tid).locals.call.killed none } ∨
      (s.calls tid).locals.call.Continues ∧ ∃ l' k x t h locals,
        createTransfer s.next a.buildArgs
            (env.over (s.calls tid).request.table (s.calls tid).locals.transferAddr)
            (s.calls tid).locals.transferAddr (BitVec.ofInt 64 (s.calls tid).locals.call.chunk)
            (BitVec.ofInt 64 (s.calls tid).locals.call.pos) .empty = (l', .transfer k x) ∧
          t.descNum = BitVec.ofNat 32 x.descNum ∧ Makes s (s.calls tid).locals t h locals ∧
          s' = s.made tid x h locals) := by
  unfold CopySession.submit at hstep
  obtain ⟨hphase, hstep⟩ := Option.ite_none_left_eq_some.mp hstep
  refine ⟨not_not.mp hphase, ?_⟩
  split at hstep
  · next hend => exact .inl ⟨hend, (Option.some.inj hstep).symm⟩
  next hgo =>
  refine .inr ?_
  split at hstep
  · exact .inl (Option.some.inj hstep).symm
  · exact .inr (.inl (Option.some.inj hstep).symm)
  next l' k x hcreate =>
  refine .inr (.inr ⟨not_not.mp hgo, l', k, x, ?_⟩)
  obtain ⟨h, hhw, hmade⟩ := Option.map_eq_some_iff.mp hstep
  split at hmade
  · exact ⟨_, _, _, hcreate, rfl, .killed, hmade.symm⟩
  · next hlive =>
    exact ⟨_, h, _, hcreate, rfl, .queued hhw (Bool.eq_false_iff.mpr hlive), hmade.symm⟩

/-- The transfer that is made is the one whose chain was built. -/
theorem transferOf_made {h : HwSession} {x : BuiltTransfer} {full : List (U64 × U64)}
    {locals : ReadWrite} (hcarries : x.Carries a.dirToDev full) (hnext : h.next = s.next + 1)
    (hnum : h.engine.descNumOf s.next = BitVec.ofNat 32 x.descNum) :
    TransferOf a (s.made tid x h locals) s.next full := by
  have hself : (s.made tid x h locals).built s.next = x := Function.update_self _ _ _
  refine ⟨hnext.symm ▸ Nat.lt_succ_self _, hself.symm ▸ hcarries, ?_⟩
  change (h.engine.descNumOf s.next).toNat = _
  rw [hnum, hself]
  exact Nat.mod_eq_of_lt (hcarries.few.trans_lt (by decide))

/-- The chains from before are not built anew. -/
theorem built_made {h : HwSession} {x : BuiltTransfer} {locals : ReadWrite} {p : Ptr}
    (hp : p < s.next) : (s.made tid x h locals).built p = s.built p :=
  Function.update_of_ne hp.ne _ _

theorem submit_inv {env : CreateEnv} (hincr : a.nonIncrAddr = false) (hs : CopyInv a s)
    (hstep : s.submit a tid env = some s') : CopyInv a s' := by
  have hcall := hs.calls tid
  obtain ⟨hphase, ⟨hend, rfl⟩ | rfl | rfl | ⟨hgo, l', k, x, t, h, locals, hcreate, hx, hm, rfl⟩⟩ :=
    submit_cases hstep
  · exact hs.setLocals (callInv_left hcall hphase hend)
  · exact hs.setLocals callInv_noTransfer
  · exact hs.setLocals (callInv_killed none)
  obtain ⟨hrun, hkept, hnext, hnum, hstate⟩ := hm.kept hs.run
  obtain ⟨hinv, hdone⟩ := hm.completes hs.engine
  rw [CallInv, hphase] at hcall
  rcases hcall with hneg | ⟨m, hgone, hsub⟩
  · exact absurd hgo.1 hneg.ne
  have hcarries := carries_chunk hincr hgone hgo hcreate
  have hcast : ((s.calls tid).locals.call.chunk.toNat : ℤ) = (s.calls tid).locals.call.chunk :=
    Int.toNat_of_nonneg (ReadWrite.chunk_pos hgo).le
  refine hs.update hrun hinv (extends_of_kept (fun _ => built_made) hkept hdone) rfl ?_
  cases hm with
  | killed => exact callInv_killed _
  | queued hhw hlive =>
    refine ⟨m, (s.calls tid).locals.call.chunk.toNat, (s.calls tid).moved, [], ?_⟩
    exact
      { goneBy := ⟨hgone.le, hgone.done, hgone.remaining, hgone.pos, hgone.addr, hgone.res⟩
        le := hgone.chunk_le hgo
        transferLen := hcast.symm
        moved := (List.append_nil _).symm
        before := hsub
        transfer := transferOf_made hcarries hnext (hnum.trans hx)
        shown := ⟨fun hc => absurd hc hstate, fun r hrun' hptr => by
          rw [run_created hs.run hkept hrun' hptr]
          exact List.nil_sublist _⟩ }

theorem wait_inv {signal : Bool} (hs : CopyInv a s) (hstep : s.wait tid signal = some s') :
    CopyInv a s' := by
  have hcall := hs.calls tid
  unfold CopySession.wait at hstep
  dsimp only at hstep
  split at hstep
  case h_2 => cases hstep
  next p hphase =>
  rw [CallInv, hphase] at hcall
  obtain ⟨m, n, l₁, l₂, hw⟩ := hcall
  obtain ⟨rc, hwait, rfl⟩ := Option.map_eq_some_iff.mp hstep
  refine hs.setLocals ⟨fun hrc => ?_, m, n, l₁, l₂, ?_⟩
  · subst hrc
    exact fun hsub => (Awaited.ofWait hwait).returns hsub rfl
  · exact ⟨⟨hw.goneBy.le, hw.goneBy.done, hw.goneBy.remaining, hw.goneBy.pos, hw.goneBy.addr,
      hw.goneBy.res⟩, hw.le, hw.transferLen, hw.moved, hw.before,
      ⟨hw.transfer.lt, hw.transfer.carries, hw.transfer.descNum⟩,
      ⟨hw.shown.completed, hw.shown.running⟩⟩

/-- What a call that goes by its completed transfer has moved. -/
theorem Waits.copied {p : Ptr} {m n : ℕ} {l₁ l₂ : List (U64 × U64)}
    (hw : Waits a s c p m n l₁ l₂) (hdone : s.engine.stateOf p = .completed) :
    (c.request.moves (m + n)).Sublist c.moved := by
  rw [Request.moves, PageTable.copies_add, hw.moved]
  exact hw.before.append (hw.shown.completed hdone)

theorem settle_inv {status : U32} (hs : CopyInv a s) (hstep : s.settle tid status = some s') :
    CopyInv a s' := by
  have hcall := hs.calls tid
  unfold CopySession.settle at hstep
  dsimp only at hstep
  split at hstep
  case h_2 => cases hstep
  next p rc hphase =>
  rw [CallInv, hphase] at hcall
  obtain ⟨hsettled, m, n, l₁, l₂, hw⟩ := hcall
  obtain rfl := Option.some.inj hstep
  obtain ⟨hlist, htransfers, hrun⟩ := settleEngine_frame s.engine p rc status
  refine hs.update (hs.run.congr hlist rfl rfl)
    (fun hlive => (hs.engine hlive).congr hlist htransfers hrun rfl rfl)
    (.of_same rfl htransfers rfl rfl) rfl ?_
  by_cases hzero : Call.outcome (s.engine.stateOf p) rc = 0
  · have hdone : s.engine.stateOf p = .completed :=
      (Call.outcome_eq_zero.mp hzero).resolve_right fun hsub => hsettled hsub.2 hsub.1
    exact .inr ⟨m + n, hw.goneBy.settle hw.transferLen hw.le hzero, hw.copied hdone⟩
  · exact .inl (Call.outcome_neg hzero)

/-- The service call comes in time. -/
def ServicedInTime (s : CopySession γ) (i : CopyStep γ) : Prop :=
  ∀ status, i = .service status → BusyWhenDone s.toHwSession (.service status)

/-- The step uses nothing that has been freed. -/
def UsesNothingFreed (i : CopyStep γ) : Prop :=
  ∀ s', i ≠ .anything s'

/-- Entering a call services nothing. -/
theorem servicedInTime_enter (s : CopySession γ) (dirToDev : Bool) (q : Request) :
    ServicedInTime s (.enter tid dirToDev q) := by
  intro status heq
  cases heq

theorem usesNothingFreed_enter (dirToDev : Bool) (q : Request) :
    UsesNothingFreed (.enter tid dirToDev q : CopyStep γ) := by
  intro s' heq
  cases heq

/-- The step lemma. -/
theorem step_copyInv {i : CopyStep γ} (hincr : a.nonIncrAddr = false) (hs : CopyInv a s)
    (hstep : s.step a i = some s') (htime : ServicedInTime s i) (hfreed : UsesNothingFreed i) :
    CopyInv a s' := by
  cases i with
  | enter tid dirToDev q =>
    rcases enter_cases hstep with rfl | ⟨e, rfl⟩
    · exact hs.update hs.run hs.engine (.of_same rfl rfl rfl rfl) rfl
        (.inr ⟨0, goneBy_enter q, List.Sublist.refl _⟩)
    · exact hs.update hs.run hs.engine (.of_same rfl rfl rfl rfl) rfl (callInv_refused q e)
  | submit tid env =>
    exact submit_inv hincr hs (Option.ite_none_left_eq_some.mp hstep).2
  | wait tid signal => exact wait_inv hs hstep
  | settle tid status => exact settle_inv hs hstep
  | move n =>
    obtain ⟨ms, -, rfl⟩ := Option.map_eq_some_iff.mp hstep
    exact hs.moved hs.run hs.engine (extends_move s ms) fun _ => rfl
  | progress count =>
    obtain ⟨ms, hms, hstep⟩ := Option.bind_eq_some_iff.mp hstep
    obtain ⟨h, hhw, rfl⟩ := Option.map_eq_some_iff.mp hstep
    obtain ⟨hrun, -, -, hhalted⟩ := progress_kept hs.run hhw
    refine hs.moved hrun (fun hlive => ?_) (extends_progress hms hhw) fun _ => rfl
    have hbefore : s.halted = false := hhalted.symm.trans hlive
    exact (progress_completes (hs.engine hbefore)
      ((if_neg (Bool.eq_false_iff.mp hbefore)).trans hhw)).1 hlive
  | service status =>
    obtain ⟨-, hstep⟩ := Option.ite_none_left_eq_some.mp hstep
    obtain ⟨h, hhw, rfl⟩ := Option.map_eq_some_iff.mp hstep
    have hlive : s.halted = false :=
      Bool.eq_false_iff.mpr (Option.ite_none_left_eq_some.mp hhw).1
    obtain ⟨hrun, hkept, -⟩ := service_kept hs.run hhw
    obtain ⟨hinv, hdone⟩ := service_completes (hs.engine hlive) hhw (htime status rfl)
    exact hs.still hrun hinv (extends_of_kept (fun _ _ => rfl) hkept hdone) rfl
  | others memories =>
    obtain rfl := Option.some.inj hstep
    exact hs.still hs.run hs.engine (.of_same rfl rfl rfl rfl) rfl
  | anything s' => exact absurd rfl (hfreed s')

theorem copyInv_start (a : EngineAlignment) (transfers : Ptr → XdmaTransfer)
    (built : Ptr → BuiltTransfer) (memories : Memories γ) :
    CopyInv a (.start a transfers built memories) where
  run := (hwInv_start ..).runInv
  engine _ := hwInv_start ..
  calls _ := fun _ => ⟨rfl, List.Sublist.refl _⟩

/-- A call that has returned without an error has gone through, and all its bytes have been moved,
in order, since it was entered. -/
def ReturnsMoved (s : CopySession γ) : Prop :=
  ∀ tid ret, (s.calls tid).locals.call.phase = .returned ret → 0 ≤ ret →
    ret = (s.calls tid).request.size ∧
      ((s.calls tid).request.moves (s.calls tid).request.size).Sublist (s.calls tid).moved

theorem CopyInv.returnsMoved (hs : CopyInv a s) : ReturnsMoved s := by
  intro tid ret hphase
  have hcall := hs.calls tid
  rwa [CallInv, hphase] at hcall

/-- In every run whose service calls come in time and which uses nothing that has been freed,
whatever the threads ask for and however their steps and those of the hardware come after each
other, a call that returns without an error returns its size, and the hardware has moved all its
bytes since it was entered. -/
theorem calls_moved (a : EngineAlignment) (transfers : Ptr → XdmaTransfer)
    (built : Ptr → BuiltTransfer) (memories : Memories γ) (is : List (CopyStep γ))
    (hincr : a.nonIncrAddr = false)
    (h : Along (CopySession.step a) (fun s i _ => ServicedInTime s i ∧ UsesNothingFreed i)
      (.start a transfers built memories) is) :
    Along (CopySession.step a) (fun _ _ s' => ReturnsMoved s') (.start a transfers built memories)
      is :=
  along_of_step (fun _ _ _ hs hstep hc =>
    have hs' := step_copyInv hincr hs hstep hc.1 hc.2
    ⟨hs', hs'.returnsMoved⟩) (copyInv_start ..) h

/-- Four bytes over the border of two pages. -/
def fourBytes : Request :=
  ⟨.of id, 0xffe, 4, 0xffe⟩

/-- A kernel that gives a transfer all it asks for, on two pages. -/
def twoPageEnv : CreateEnv :=
  (pinningAnswers 2).create

/-- The four bytes are written : the hardware moves three of them, and then all. -/
def fourByteSteps : List (CopyStep U64) :=
  [.enter 0 true fourBytes, .submit 0 twoPageEnv, .move 3, .progress 1, .service 0, .wait 0 false,
    .settle 0 0, .submit 0 twoPageEnv]

/-- An engine that writes, over memory that holds the addresses of its bytes. -/
def idleCopies : CopySession U64 :=
  .start plainEngine (fun _ => (descriptors 1).create)
    (fun _ => ⟨fun _ => ⟨0, 0, 0, 0, 0, 0, 0, 0⟩, 0, 0, 0⟩)
    ⟨fun a => a, fun _ => 0⟩

/-- The engine is serviced when it has stopped. -/
theorem fourBytes_inTime : ∀ i ∈ fourByteSteps, ∀ s, ServicedInTime s i := by
  rintro i hi s status rfl status' heq - - hbusy
  obtain rfl : status = status' := HwStep.service.inj heq
  obtain rfl : status = 0 := by simpa [fourByteSteps] using hi
  exact absurd rfl hbusy

/-- Nothing is used that has been freed. -/
theorem fourBytes_usesNothingFreed : ∀ i ∈ fourByteSteps, UsesNothingFreed i := by
  rintro i hi s' rfl
  simp [fourByteSteps] at hi

theorem calls_moved_four_bytes :
    (exec (CopySession.step plainEngine) idleCopies fourByteSteps).isSome ∧
      Along (CopySession.step plainEngine) (fun _ _ s' => ReturnsMoved s') idleCopies
        fourByteSteps :=
  ⟨by decide +kernel, calls_moved _ _ _ _ _ rfl (along_of_inputs fun i hi s _ =>
    ⟨fourBytes_inTime i hi s, fourBytes_usesNothingFreed i hi⟩)⟩

/-! ## What is moved -/

/-- What a call has come to lies within a request that was not refused. -/
def Placed (asked : List Request) (c : CopyCall) : Prop :=
  match c.locals.call.phase with
  | .returned _ => True
  | .loop => c.locals.call.res < 0 ∨ c.request ∈ asked ∧ ∃ m, GoneBy c.request c.locals m
  | .polled _ _ => False
  | .killed _ => True
  | .monitor _ | .monitored _ _ => c.request ∈ asked ∧ ∃ m n, GoneBy c.request c.locals m ∧
      c.locals.call.transferLen = (n : ℕ) ∧ m + n ≤ c.request.size

/-- The transfer at `p` carries bytes that have been asked for. -/
def CarriesAsked (a : EngineAlignment) (s : CopySession γ) (p : Ptr) : Prop :=
  ∃ full, TransferOf a s p full ∧ ∀ x ∈ full, ∃ q ∈ s.asked, x ∈ q.moves q.size

/-- What holds in every run. -/
structure AskedInv (a : EngineAlignment) (s : CopySession γ) : Prop where
  run : RunInv s.toHwSession
  calls : ∀ tid, Placed s.asked (s.calls tid)
  transfers : ∀ p < s.next, CarriesAsked a s p

theorem Placed.mono {asked asked' : List Request} (h : Placed asked c) (hsub : asked ⊆ asked') :
    Placed asked' c := by
  unfold Placed at h ⊢
  split at h
  · trivial
  · exact h.imp_right (And.imp_left fun hq => hsub hq)
  · exact h
  · trivial
  · exact h.imp_left fun hq => hsub hq
  · exact h.imp_left fun hq => hsub hq

theorem CarriesAsked.mono {p : Ptr} (hk : KeepsChains s s') (hsub : s.asked ⊆ s'.asked)
    (h : CarriesAsked a s p) : CarriesAsked a s' p := by
  obtain ⟨full, ht, hfull⟩ := h
  refine ⟨full, hk.transferOf ht, fun x hx => ?_⟩
  obtain ⟨q, hq, hmem⟩ := hfull x hx
  exact ⟨q, hsub hq, hmem⟩

/-- A chunk of a request is made up of its moves. -/
theorem Request.mem_moves (q : Request) {m n : ℕ} (hle : m + n ≤ q.size) {x : U64 × U64}
    (hx : x ∈ q.table.copies (q.buf + BitVec.ofNat 64 m) (q.pos + BitVec.ofNat 64 m) n) :
    x ∈ q.moves q.size := by
  obtain ⟨k, hk⟩ := Nat.exists_eq_add_of_le hle
  rw [Request.moves, hk, PageTable.copies_add, PageTable.copies_add]
  exact List.mem_append_left _ (List.mem_append_right _ hx)

/-- A step that creates no transfer and asks for nothing. -/
theorem AskedInv.update (hs : AskedInv a s) (hrun : RunInv s'.toHwSession)
    (hk : KeepsChains s s') (hnext : s'.next = s.next) (hasked : s'.asked = s.asked)
    (hcalls : s'.calls = Function.update s.calls tid c) (hc : Placed s.asked c) :
    AskedInv a s' := by
  refine ⟨hrun, fun t => ?_, fun p hp => ?_⟩
  case refine_2 => exact (hs.transfers p (hnext ▸ hp)).mono hk (hasked ▸ List.Subset.refl _)
  rw [hasked, hcalls]
  rcases eq_or_ne t tid with rfl | hne
  · rwa [Function.update_self]
  · rw [Function.update_of_ne hne]
    exact hs.calls t

/-- A step that leaves what calls have come to, creates no transfer and asks for nothing. -/
theorem AskedInv.still (hs : AskedInv a s) (hrun : RunInv s'.toHwSession)
    (hk : KeepsChains s s') (hnext : s'.next = s.next) (hasked : s'.asked = s.asked)
    (hcalls : ∀ t, (s'.calls t).request = (s.calls t).request ∧
      (s'.calls t).locals = (s.calls t).locals) : AskedInv a s' := by
  refine ⟨hrun, fun t => ?_, fun p hp => ?_⟩
  · obtain ⟨hrequest, hlocals⟩ := hcalls t
    rw [Placed, hrequest, hlocals, hasked]
    exact hs.calls t
  · exact (hs.transfers p (hnext ▸ hp)).mono hk (hasked ▸ List.Subset.refl _)

theorem submit_asked {env : CreateEnv} (hincr : a.nonIncrAddr = false) (hs : AskedInv a s)
    (hstep : s.submit a tid env = some s') : AskedInv a s' := by
  have hcall := hs.calls tid
  obtain ⟨hphase, ⟨hend, rfl⟩ | rfl | rfl | ⟨hgo, l', k, x, t, h, locals, hcreate, hx, hm, rfl⟩⟩ :=
    submit_cases hstep
  · exact hs.update hs.run (.of_same rfl rfl rfl) rfl rfl rfl trivial
  · exact hs.update hs.run (.of_same rfl rfl rfl) rfl rfl rfl trivial
  · exact hs.update hs.run (.of_same rfl rfl rfl) rfl rfl rfl trivial
  obtain ⟨hrun, hkept, hnext, hnum, -⟩ := hm.kept hs.run
  rw [Placed, hphase] at hcall
  rcases hcall with hneg | ⟨hq, m, hgone⟩
  · exact absurd hgo.1 hneg.ne
  have hcarries := carries_chunk hincr hgone hgo hcreate
  have hcast : ((s.calls tid).locals.call.chunk.toNat : ℤ) = (s.calls tid).locals.call.chunk :=
    Int.toNat_of_nonneg (ReadWrite.chunk_pos hgo).le
  have hk : KeepsChains s (s.made tid x h locals) :=
    ⟨hkept.settled.1, fun _ => built_made, hkept.descNum⟩
  have hplaced : Placed s.asked { s.calls tid with locals := locals } := by
    cases hm with
    | killed => trivial
    | queued hhw hlive =>
      exact ⟨hq, m, _, ⟨hgone.le, hgone.done, hgone.remaining, hgone.pos, hgone.addr, hgone.res⟩,
        hcast.symm, hgone.chunk_le hgo⟩
  refine ⟨hrun, fun t' => ?_, fun p hp => ?_⟩
  · change Placed s.asked (Function.update s.calls tid _ t')
    rcases eq_or_ne t' tid with rfl | hne
    · rwa [Function.update_self]
    · rw [Function.update_of_ne hne]
      exact hs.calls t'
  · rcases Nat.lt_succ_iff_lt_or_eq.mp (hnext ▸ hp) with hlt | rfl
    · exact (hs.transfers p hlt).mono hk (List.Subset.refl _)
    · exact ⟨_, transferOf_made hcarries hnext (hnum.trans hx), fun y hy =>
        ⟨_, hq, (s.calls tid).request.mem_moves (hgone.chunk_le hgo) hy⟩⟩

/-- The step lemma. -/
theorem step_asked {i : CopyStep γ} (hincr : a.nonIncrAddr = false) (hs : AskedInv a s)
    (hstep : s.step a i = some s') (hfreed : UsesNothingFreed i) : AskedInv a s' := by
  cases i with
  | enter tid dirToDev q =>
    rcases enter_cases hstep with rfl | ⟨e, rfl⟩
    · have hsub : s.asked ⊆ q :: s.asked := List.subset_cons_self _ _
      refine ⟨hs.run, fun t => ?_, fun p hp =>
        CarriesAsked.mono (s := s) (.of_same rfl rfl rfl) hsub (hs.transfers p hp)⟩
      change Placed (q :: s.asked) (Function.update s.calls tid _ t)
      rcases eq_or_ne t tid with rfl | hne
      · rw [Function.update_self]
        exact .inr ⟨List.mem_cons_self, 0, goneBy_enter q⟩
      · rw [Function.update_of_ne hne]
        exact (hs.calls t).mono hsub
    · exact hs.update hs.run (.of_same rfl rfl rfl) rfl rfl rfl trivial
  | submit tid env => exact submit_asked hincr hs (Option.ite_none_left_eq_some.mp hstep).2
  | wait tid signal =>
    have hcall := hs.calls tid
    replace hstep : s.wait tid signal = some s' := hstep
    unfold CopySession.wait at hstep
    dsimp only at hstep
    split at hstep
    case h_2 => cases hstep
    next p hphase =>
    rw [Placed, hphase] at hcall
    obtain ⟨rc, -, rfl⟩ := Option.map_eq_some_iff.mp hstep
    obtain ⟨hq, m, n, hgone, hlen, hle⟩ := hcall
    exact hs.update hs.run (.of_same rfl rfl rfl) rfl rfl rfl ⟨hq, m, n,
      ⟨hgone.le, hgone.done, hgone.remaining, hgone.pos, hgone.addr, hgone.res⟩, hlen, hle⟩
  | settle tid status =>
    have hcall := hs.calls tid
    replace hstep : s.settle tid status = some s' := hstep
    unfold CopySession.settle at hstep
    dsimp only at hstep
    split at hstep
    case h_2 => cases hstep
    next p rc hphase =>
    rw [Placed, hphase] at hcall
    obtain rfl := Option.some.inj hstep
    obtain ⟨hlist, htransfers, -⟩ := settleEngine_frame s.engine p rc status
    obtain ⟨hq, m, n, hgone, hlen, hle⟩ := hcall
    refine hs.update (hs.run.congr hlist rfl rfl) (.of_same rfl htransfers rfl) rfl rfl rfl ?_
    by_cases hzero : Call.outcome (s.engine.stateOf p) rc = 0
    · exact .inr ⟨hq, m + n, hgone.settle hlen hle hzero⟩
    · exact .inl (Call.outcome_neg hzero)
  | move n =>
    obtain ⟨ms, -, rfl⟩ := Option.map_eq_some_iff.mp hstep
    exact hs.still hs.run (.of_same rfl rfl rfl) rfl rfl fun _ => ⟨rfl, rfl⟩
  | progress count =>
    obtain ⟨ms, -, hstep⟩ := Option.bind_eq_some_iff.mp hstep
    obtain ⟨h, hhw, rfl⟩ := Option.map_eq_some_iff.mp hstep
    obtain ⟨hrun, hengine, hnext, -⟩ := progress_kept hs.run hhw
    exact hs.still hrun (.of_same hnext (congrArg XdmaEngine.transfers hengine) rfl) hnext rfl
      fun _ => ⟨rfl, rfl⟩
  | service status =>
    obtain ⟨-, hstep⟩ := Option.ite_none_left_eq_some.mp hstep
    obtain ⟨h, hhw, rfl⟩ := Option.map_eq_some_iff.mp hstep
    obtain ⟨hrun, hkept, hnext⟩ := service_kept hs.run hhw
    exact hs.still hrun ⟨hkept.settled.1, fun _ _ => rfl, hkept.descNum⟩ hnext rfl
      fun _ => ⟨rfl, rfl⟩
  | others memories =>
    obtain rfl := Option.some.inj hstep
    exact hs.still hs.run (.of_same rfl rfl rfl) rfl rfl fun _ => ⟨rfl, rfl⟩
  | anything s' => exact absurd rfl (hfreed s')

theorem askedInv_start (a : EngineAlignment) (transfers : Ptr → XdmaTransfer)
    (built : Ptr → BuiltTransfer) (memories : Memories γ) :
    AskedInv a (.start a transfers built memories) where
  run := (hwInv_start ..).runInv
  calls _ := trivial
  transfers p hp := absurd hp (Nat.not_lt_zero p)

/-- The moves of any descriptors an engine visits are those of the transfer. -/
theorem TransferOf.mem_full {p : Ptr} {full : List (U64 × U64)} {m n : ℕ}
    (ht : TransferOf a s p full) (hms : (s.built p).movesFrom a.dirToDev m n = some ms) :
    ∀ x ∈ ms, x ∈ full := by
  intro x hx
  rw [BuiltTransfer.movesFrom, ht.carries.visits, Option.map_some] at hms
  obtain rfl := Option.some.inj hms
  obtain ⟨k, hk, hmem⟩ := List.mem_flatMap.mp hx
  have hlt := List.mem_range.mp (List.mem_of_mem_drop hk)
  rw [← ht.carries.moves]
  exact List.mem_flatMap.mpr ⟨k, List.mem_range.mpr (hlt.trans_le (min_le_right _ _)), hmem⟩

/-- The hardware moves bytes that have been asked for. -/
theorem AskedInv.moving (hs : AskedInv a s) {i : CopyStep γ} (hms : s.moving a i = some ms) :
    ∀ x ∈ ms, ∃ q ∈ s.asked, x ∈ q.moves q.size := by
  intro x hx
  cases i with
  | move n =>
    obtain ⟨r, hr, hms⟩ := Option.bind_eq_some_iff.mp hms
    obtain ⟨-, hms⟩ := Option.ite_none_left_eq_some.mp hms
    obtain ⟨all, hall, rfl⟩ := Option.map_eq_some_iff.mp hms
    obtain ⟨full, ht, hfull⟩ := hs.transfers r.ptr (hs.run.created r hr)
    exact hfull x (ht.mem_full hall x (List.mem_of_mem_take hx))
  | progress count =>
    obtain ⟨r, hr, hms⟩ := Option.bind_eq_some_iff.mp hms
    obtain ⟨-, hms⟩ := Option.ite_none_left_eq_some.mp hms
    obtain ⟨full, ht, hfull⟩ := hs.transfers r.ptr (hs.run.created r hr)
    exact hfull x (ht.mem_full hms x hx)
  | anything s' => cases hms
  | _ =>
    obtain rfl := Option.some.inj hms
    cases hx

/-- Every byte the hardware moves in a step is one of a request that was not refused, and moves
between its place in the buffer and that in the device. -/
def MovesAsked (a : EngineAlignment) (s : CopySession γ) (i : CopyStep γ) : Prop :=
  ∀ ms, s.moving a i = some ms → ∀ x ∈ ms, ∃ q ∈ s.asked, x ∈ q.moves q.size

/-- In every run that uses nothing that has been freed, whatever the engine answers when it is
serviced, whichever signals come and whichever calls fail, the hardware moves nothing but bytes that
have been asked for. -/
theorem moves_requested (a : EngineAlignment) (transfers : Ptr → XdmaTransfer)
    (built : Ptr → BuiltTransfer) (memories : Memories γ) (is : List (CopyStep γ))
    (hincr : a.nonIncrAddr = false)
    (h : Along (CopySession.step a) (fun _ i _ => UsesNothingFreed i)
      (.start a transfers built memories) is) :
    Along (CopySession.step a) (fun s i _ => MovesAsked a s i) (.start a transfers built memories)
      is :=
  along_of_step (fun _ _ _ hs hstep hc => ⟨step_asked hincr hs hstep hc, fun _ => hs.moving⟩)
    (askedInv_start ..) h

theorem moves_requested_four_bytes : Along (CopySession.step plainEngine)
    (fun s i _ => MovesAsked plainEngine s i) idleCopies fourByteSteps :=
  moves_requested _ _ _ _ _ rfl (along_of_inputs fun i hi _ _ => fourBytes_usesNothingFreed i hi)

/-! ## Memories -/

/-- The memory a copy takes its bytes from. -/
def Memories.source (m : Memories γ) (dirToDev : Bool) : U64 → γ :=
  if dirToDev then m.host else m.device

/-- The memory a copy puts its bytes in. -/
def Memories.target (m : Memories γ) (dirToDev : Bool) : U64 → γ :=
  if dirToDev then m.device else m.host

/-- A move, by where it takes a byte from and where it puts it. -/
def directed (dirToDev : Bool) (x : U64 × U64) : U64 × U64 :=
  if dirToDev then x else x.swap

/-- Where a request takes byte `k` from. -/
def Request.src (q : Request) (dirToDev : Bool) (k : ℕ) : U64 :=
  if dirToDev then q.table.userAddr q.buf k else deviceAddr q.pos k

/-- Where a request puts byte `k`. -/
def Request.dst (q : Request) (dirToDev : Bool) (k : ℕ) : U64 :=
  if dirToDev then deviceAddr q.pos k else q.table.userAddr q.buf k

theorem Memories.after_source (m : Memories γ) (dirToDev : Bool) (ms : List (U64 × U64)) :
    (m.after dirToDev ms).source dirToDev = m.source dirToDev := by
  cases dirToDev <;> rfl

theorem Memories.after_target (m : Memories γ) (dirToDev : Bool) (ms : List (U64 × U64)) :
    (m.after dirToDev ms).target dirToDev =
      Moves.move (m.source dirToDev) (ms.map (directed dirToDev)) (m.target dirToDev) := by
  cases dirToDev with
  | true =>
    have hmap : ms.map (directed true) = ms := List.map_id ms
    rw [hmap]
    rfl
  | false => rfl

/-- Byte `k` of a request is among its moves. -/
theorem Request.exists_move (q : Request) (dirToDev : Bool) {k : ℕ} (hk : k < q.size) :
    ∃ x ∈ q.moves q.size, directed dirToDev x = (q.src dirToDev k, q.dst dirToDev k) := by
  refine ⟨(q.table.userAddr q.buf k, deviceAddr q.pos k), ?_, ?_⟩
  · rw [Request.moves, PageTable.copies_eq, List.zip_map']
    exact List.mem_map_of_mem (List.mem_range.mpr hk)
  · cases dirToDev <;> rfl

/-- A request puts nothing where it puts byte `k` but this. -/
theorem Request.moves_alone (q : Request) {dirToDev : Bool}
    (hapart : dirToDev = false → q.table.Apart q.buf q.size) :
    ∀ x ∈ q.moves q.size, ∀ k < q.size, (directed dirToDev x).2 = q.dst dirToDev k →
      (directed dirToDev x).1 = q.src dirToDev k := by
  intro x hx k hk hdst
  have hmax : q.size < 2 ^ 64 := by
    have := q.count.toInt_lt
    rw [Request.size]
    omega
  rw [Request.moves, PageTable.copies_eq, List.zip_map'] at hx
  obtain ⟨j, hj, rfl⟩ := List.mem_map.mp hx
  have hj := List.mem_range.mp hj
  cases dirToDev with
  | true =>
    obtain rfl : j = k := deviceAddr_inj (hj.trans hmax) (hk.trans hmax) hdst
    rfl
  | false =>
    obtain rfl : j = k := List.inj_on_of_nodup_map (hapart rfl) (List.mem_range.mpr hj)
      (List.mem_range.mpr hk) hdst
    rfl

/-- Nobody else meddles with the request `q` of the thread : the hardware moves nothing to the bytes
it writes to but what it is to write there, and others neither write to these nor change the bytes
it copies. The thread itself is in its call. -/
structure LeavesAlone (a : EngineAlignment) (tid : ℕ) (q : Request) (s : CopySession γ)
    (i : CopyStep γ) : Prop where
  enter : ∀ dirToDev q', i ≠ .enter tid dirToDev q'
  moves : ∀ ms, s.moving a i = some ms → ∀ x ∈ ms, ∀ k < q.size,
    (directed a.dirToDev x).2 = q.dst a.dirToDev k → (directed a.dirToDev x).1 = q.src a.dirToDev k
  others : ∀ memories, i = .others memories → ∀ k < q.size,
    memories.source a.dirToDev (q.src a.dirToDev k) =
        s.memories.source a.dirToDev (q.src a.dirToDev k) ∧
      memories.target a.dirToDev (q.dst a.dirToDev k) =
        s.memories.target a.dirToDev (q.dst a.dirToDev k)

/-- The bytes `cells` of the request `q` are where the thread copies them from, and wherever one has
been moved to since its call was entered. -/
structure CopyMem (a : EngineAlignment) (tid : ℕ) (q : Request) (cells : ℕ → γ)
    (s : CopySession γ) : Prop where
  request : (s.calls tid).request = q
  source : ∀ k < q.size, s.memories.source a.dirToDev (q.src a.dirToDev k) = cells k
  target : ∀ k < q.size,
    (∃ x ∈ (s.calls tid).moved, (directed a.dirToDev x).2 = q.dst a.dirToDev k) →
    s.memories.target a.dirToDev (q.dst a.dirToDev k) = cells k

/-- What a step leaves of the call of a thread, and of the memories, that makes the moves `ms`. -/
structure StepMemories (a : EngineAlignment) (s : CopySession γ) (tid : ℕ) (i : CopyStep γ)
    (s' : CopySession γ) (ms : List (U64 × U64)) : Prop where
  moving : s.moving a i = some ms
  request : (s'.calls tid).request = (s.calls tid).request
  moved : (s'.calls tid).moved = (s.calls tid).moved ++ ms
  memories : s'.memories = s.memories.after a.dirToDev ms ∨
    ∃ memories, i = .others memories ∧ ms = [] ∧ s'.memories = memories
  asked : (∀ t dirToDev q, i ≠ .enter t dirToDev q) → s'.asked = s.asked

/-- A step that leaves the memories alone. -/
theorem stepMemories_still {i : CopyStep γ} (hmoving : s.moving a i = some [])
    (hrequest : (s'.calls tid).request = (s.calls tid).request)
    (hmoved : (s'.calls tid).moved = (s.calls tid).moved) (hmemories : s'.memories = s.memories)
    (hasked : (∀ t dirToDev q, i ≠ .enter t dirToDev q) → s'.asked = s.asked) :
    StepMemories a s tid i s' [] where
  asked := hasked
  moving := hmoving
  request := hrequest
  moved := hmoved.trans (List.append_nil _).symm
  memories := .inl (hmemories.trans (by cases a.dirToDev <;> rfl))

/-- New locals of a thread leave what calls are for and what has been moved. -/
theorem update_locals (s : CopySession γ) (t : ℕ) (locals : ReadWrite) (tid : ℕ) :
    (Function.update s.calls t { s.calls t with locals := locals } tid).request =
        (s.calls tid).request ∧
      (Function.update s.calls t { s.calls t with locals := locals } tid).moved =
        (s.calls tid).moved := by
  rcases eq_or_ne tid t with rfl | hne
  · rw [Function.update_self]
    exact ⟨rfl, rfl⟩
  · rw [Function.update_of_ne hne]
    exact ⟨rfl, rfl⟩

theorem step_memories {i : CopyStep γ} (tid : ℕ) (hstep : s.step a i = some s')
    (hne : ∀ dirToDev q, i ≠ .enter tid dirToDev q) (hfreed : UsesNothingFreed i) :
    ∃ ms, StepMemories a s tid i s' ms := by
  cases i with
  | enter t dirToDev q =>
    have ht : tid ≠ t := fun heq => hne dirToDev q (heq ▸ rfl)
    have hcall (c : CopyCall) : Function.update s.calls t c tid = s.calls tid :=
      Function.update_of_ne ht _ _
    rcases enter_cases hstep with rfl | ⟨e, rfl⟩ <;>
      exact ⟨[], stepMemories_still rfl (congrArg _ (hcall _)) (congrArg _ (hcall _)) rfl
        fun hnot => absurd rfl (hnot t dirToDev q)⟩
  | submit t env =>
    obtain ⟨-, hstep⟩ := Option.ite_none_left_eq_some.mp hstep
    obtain ⟨-, ⟨-, rfl⟩ | rfl | rfl | ⟨-, -, -, x, -, h, -, -, -, -, rfl⟩⟩ := submit_cases hstep <;>
      exact ⟨[], stepMemories_still rfl (update_locals s t _ tid).1 (update_locals s t _ tid).2 rfl
        fun _ => rfl⟩
  | wait t signal =>
    replace hstep : s.wait t signal = some s' := hstep
    unfold CopySession.wait at hstep
    dsimp only at hstep
    split at hstep
    case h_2 => cases hstep
    obtain ⟨rc, -, rfl⟩ := Option.map_eq_some_iff.mp hstep
    exact ⟨[], stepMemories_still rfl (update_locals s t _ tid).1 (update_locals s t _ tid).2 rfl
        fun _ => rfl⟩
  | settle t status =>
    replace hstep : s.settle t status = some s' := hstep
    unfold CopySession.settle at hstep
    dsimp only at hstep
    split at hstep
    case h_2 => cases hstep
    obtain rfl := Option.some.inj hstep
    exact ⟨[], stepMemories_still rfl (update_locals s t _ tid).1 (update_locals s t _ tid).2 rfl
        fun _ => rfl⟩
  | move n =>
    obtain ⟨ms, hms, rfl⟩ := Option.map_eq_some_iff.mp hstep
    exact ⟨ms, hms, rfl, rfl, .inl rfl, fun _ => rfl⟩
  | progress count =>
    obtain ⟨ms, hms, hstep⟩ := Option.bind_eq_some_iff.mp hstep
    obtain ⟨h, -, rfl⟩ := Option.map_eq_some_iff.mp hstep
    exact ⟨ms, hms, rfl, rfl, .inl rfl, fun _ => rfl⟩
  | service status =>
    obtain ⟨-, hstep⟩ := Option.ite_none_left_eq_some.mp hstep
    obtain ⟨h, -, rfl⟩ := Option.map_eq_some_iff.mp hstep
    exact ⟨[], stepMemories_still rfl rfl rfl rfl fun _ => rfl⟩
  | others memories =>
    obtain rfl := Option.some.inj hstep
    exact ⟨[], rfl, rfl, (List.append_nil _).symm, .inr ⟨memories, rfl, rfl, rfl⟩,
      fun _ => rfl⟩
  | anything s' => exact absurd rfl (hfreed s')

/-- Bytes that are where they come from, and wherever they have been moved to, stay so. -/
theorem CopyMem.step {q : Request} {cells : ℕ → γ} {i : CopyStep γ} (hm : CopyMem a tid q cells s)
    (hstep : s.step a i = some s') (hfreed : UsesNothingFreed i)
    (halone : LeavesAlone a tid q s i) : CopyMem a tid q cells s' := by
  obtain ⟨hrequest, hsource, htarget⟩ := hm
  obtain ⟨ms, hmoving, hrequest', hmoved, hmem | ⟨memories, rfl, rfl, hmem⟩, -⟩ :=
    step_memories tid hstep halone.enter hfreed
  · refine ⟨hrequest'.trans hrequest, fun k hk => ?_, fun k hk hmem' => ?_⟩
    · rw [hmem, Memories.after_source]
      exact hsource k hk
    rw [hmem, Memories.after_target]
    by_cases hnow : q.dst a.dirToDev k ∈ (ms.map (directed a.dirToDev)).map Prod.snd
    · rw [Moves.move_of_forall hnow, hsource k hk]
      intro x hx hdst
      obtain ⟨y, hy, rfl⟩ := List.mem_map.mp hx
      exact halone.moves ms hmoving y hy k hk hdst
    · -- moved there before
      rw [Moves.move_of_not_mem hnow]
      obtain ⟨x, hx, hdst⟩ := hmem'
      rw [hmoved] at hx
      refine htarget k hk ⟨x, (List.mem_append.mp hx).resolve_right fun hlater => hnow ?_, hdst⟩
      exact List.mem_map.mpr ⟨_, List.mem_map_of_mem hlater, hdst⟩
  · rw [List.append_nil] at hmoved
    refine ⟨hrequest'.trans hrequest, fun k hk => ?_, fun k hk hx => ?_⟩
    · rw [hmem]
      exact (halone.others memories rfl k hk).1.trans (hsource k hk)
    · rw [hmem]
      exact (halone.others memories rfl k hk).2.trans (htarget k hk (hmoved ▸ hx))

/-- A thread that has just entered a call. -/
theorem copyMem_enter {dirToDev : Bool} {q : Request}
    (hstep : s.step a (.enter tid dirToDev q) = some s') :
    CopyMem a tid q (fun k => s.memories.source a.dirToDev (q.src a.dirToDev k)) s' := by
  obtain ⟨locals, hcall, hmem⟩ :
      ∃ locals, s'.calls tid = ⟨q, locals, []⟩ ∧ s'.memories = s.memories := by
    rcases enter_cases hstep with rfl | ⟨e, rfl⟩ <;>
      exact ⟨_, Function.update_self _ _ _, rfl⟩
  refine ⟨by rw [hcall], fun k _ => by rw [hmem], fun k _ hx => ?_⟩
  obtain ⟨x, hx, -⟩ := hx
  rw [hcall] at hx
  cases hx

/-- In every run whose service calls come in time and which uses nothing that has been freed, a call
that goes through has copied its bytes as they were when it was entered, whatever the other threads
copy in the meantime, if nobody else meddles with them. -/
theorem calls_copied (a : EngineAlignment) (transfers : Ptr → XdmaTransfer)
    (built : Ptr → BuiltTransfer) (memories : Memories γ) (is js : List (CopyStep γ)) (tid : ℕ)
    (dirToDev : Bool) (q : Request) (s s₁ s₂ : CopySession γ) (ret : ℤ)
    (hincr : a.nonIncrAddr = false)
    (his : exec (CopySession.step a) (.start a transfers built memories) is = some s)
    (htime : Along (CopySession.step a) (fun u i _ => ServicedInTime u i ∧ UsesNothingFreed i)
      (.start a transfers built memories) is)
    (henter : s.step a (.enter tid dirToDev q) = some s₁)
    (hjs : exec (CopySession.step a) s₁ js = some s₂)
    (halone : Along (CopySession.step a)
      (fun u i _ => (ServicedInTime u i ∧ UsesNothingFreed i) ∧ LeavesAlone a tid q u i) s₁ js)
    (hret : (s₂.calls tid).locals.call.phase = .returned ret) (hok : 0 ≤ ret) :
    ret = q.size ∧ ∀ k < q.size, s₂.memories.target a.dirToDev (q.dst a.dirToDev k) =
      s.memories.source a.dirToDev (q.src a.dirToDev k) := by
  have hs : CopyInv a s :=
    exec_kept_along (fun _ _ _ hu hstep hc => step_copyInv hincr hu hstep hc.1 hc.2)
      (copyInv_start ..) htime his
  have hs₁ : CopyInv a s₁ := step_copyInv hincr hs henter (servicedInTime_enter s dirToDev q)
    (usesNothingFreed_enter dirToDev q)
  have hboth (u : CopySession γ) (i : CopyStep γ) (u' : CopySession γ)
      (hu : CopyInv a u ∧
        CopyMem a tid q (fun k => s.memories.source a.dirToDev (q.src a.dirToDev k)) u)
      (hstep : u.step a i = some u')
      (hi : (ServicedInTime u i ∧ UsesNothingFreed i) ∧ LeavesAlone a tid q u i) :
      CopyInv a u' ∧
        CopyMem a tid q (fun k => s.memories.source a.dirToDev (q.src a.dirToDev k)) u' :=
    ⟨step_copyInv hincr hu.1 hstep hi.1.1 hi.1.2, hu.2.step hstep hi.1.2 hi.2⟩
  obtain ⟨hs₂, hmem⟩ := exec_kept_along hboth ⟨hs₁, copyMem_enter henter⟩ halone hjs
  obtain ⟨hsize, hmoved⟩ := hs₂.returnsMoved tid ret hret hok
  rw [hmem.request] at hsize hmoved
  refine ⟨hsize, fun k hk => hmem.target k hk ?_⟩
  obtain ⟨x, hx, hdirected⟩ := q.exists_move a.dirToDev hk
  exact ⟨x, hmoved.subset hx, congrArg Prod.snd hdirected⟩

/-- Requests that put nothing where `q` does, but what `q` puts there, leave it alone. -/
theorem leavesAlone_of_asked {q : Request} {i : CopyStep γ} (hs : AskedInv a s)
    (hasked : ∀ q' ∈ s.asked, ∀ x ∈ q'.moves q'.size, ∀ k < q.size,
      (directed a.dirToDev x).2 = q.dst a.dirToDev k →
        (directed a.dirToDev x).1 = q.src a.dirToDev k)
    (henter : ∀ dirToDev q', i ≠ .enter tid dirToDev q')
    (hothers : ∀ memories, i ≠ .others memories) :
    LeavesAlone a tid q s i where
  enter := henter
  moves ms hms x hx := by
    obtain ⟨q', hq', hmem⟩ := hs.moving hms x hx
    exact hasked q' hq' x hmem
  others memories heq := absurd heq (hothers memories)

/-- Behind the first of the steps nothing more is asked for, and nobody else writes. -/
theorem fourByteSteps_tail : ∀ i ∈ fourByteSteps.tail,
    (∀ t dirToDev q, i ≠ .enter t dirToDev q) ∧ ∀ memories, i ≠ .others memories := by
  intro i hi
  simp only [fourByteSteps, List.tail_cons, List.mem_cons, List.not_mem_nil, or_false] at hi
  rcases hi with rfl | rfl | rfl | rfl | rfl | rfl | rfl <;> exact ⟨nofun, nofun⟩

theorem calls_copied_four_bytes : ∃ s : CopySession U64,
    exec (CopySession.step plainEngine) idleCopies fourByteSteps = some s ∧
      ∀ k < 4, s.memories.device (deviceAddr 0xffe k) = (PageTable.of id).userAddr 0xffe k := by
  obtain ⟨s₁, h₁⟩ : ∃ s₁, idleCopies.step plainEngine (.enter 0 true fourBytes) = some s₁ :=
    ⟨_, rfl⟩
  have hphase : (exec (CopySession.step plainEngine) s₁ fourByteSteps.tail).map
      (fun s => (s.calls 0).locals.call.phase) = some (.returned 4) := by
    obtain rfl := Option.some.inj h₁
    decide +kernel
  obtain ⟨s₂, h₂, hret⟩ := Option.map_eq_some_iff.mp hphase
  have hs₁ : AskedInv plainEngine s₁ ∧ s₁.asked = [fourBytes] :=
    ⟨step_asked rfl (askedInv_start ..) h₁ (usesNothingFreed_enter true fourBytes),
      Option.some.inj h₁ ▸ rfl⟩
  have halone : Along (CopySession.step plainEngine)
      (fun u i _ => (ServicedInTime u i ∧ UsesNothingFreed i) ∧
        LeavesAlone plainEngine 0 fourBytes u i) s₁ fourByteSteps.tail := by
    refine along_of_step (C := fun _ i _ => i ∈ fourByteSteps.tail)
      (fun u i u' (hu : AskedInv plainEngine u ∧ u.asked = [fourBytes]) hstep hi => ?_) hs₁
      (along_of_inputs fun i hi _ _ => hi)
    have hfreed := fourBytes_usesNothingFreed i (List.mem_of_mem_tail hi)
    obtain ⟨henter, hothers⟩ := fourByteSteps_tail i hi
    obtain ⟨ms, hmem⟩ := step_memories 0 hstep (henter 0) hfreed
    refine ⟨⟨step_asked rfl hu.1 hstep hfreed, (hmem.asked henter).trans hu.2⟩,
      ⟨fourBytes_inTime i (List.mem_of_mem_tail hi) u, hfreed⟩,
      leavesAlone_of_asked hu.1 ?_ (henter 0) hothers⟩
    rw [hu.2]
    rintro q' hq'
    obtain rfl := List.mem_singleton.mp hq'
    exact fourBytes.moves_alone fun hdir => nomatch hdir
  obtain ⟨-, hcopied⟩ := calls_copied plainEngine _ _ _ [] _ 0 true fourBytes idleCopies s₁ s₂ 4 rfl
    rfl trivial h₁ h₂ halone hret (by decide)
  exact ⟨s₂, (congrArg (Option.bind · _) h₁).trans h₂, hcopied⟩

end Runs

end Wimi
