import Wimi.Service
import Wimi.Lib.Run

/-!
# Runs of one engine

Runs of `transfer_queue` and `engine_service` on an engine that carries transfers of any
requests that are not cyclic, in any order and with any answer of the hardware. A `BUG_ON` stops
the kernel, and with it the run.

`assertions_iff` : no assertion fails and no running engine is left without a transfer, exactly
when the descriptors a service call goes by do not pay for more than the queue, and a call that
leaves the engine running does not come to the last transfer. `none_stranded` : what is queued
while the lock is free is queued on a running engine, and the hardware is handed transfers in
the order they were queued.
-/

open Machine

namespace Wimi

open XdmaEngine

/-! ## Runs -/

/-- An engine, the address the next transfer gets, and whether a `BUG_ON` has stopped the
kernel. Addresses grow, so that they tell the order of the queue. -/
structure EngineRun where
  engine : XdmaEngine
  next : Ptr
  stopped : Bool

/-- A call under the lock : a new transfer is queued, or the engine is serviced. -/
inductive EngineCall
  | queue (t : NewTransfer)
  | service (hw : HwReads) (w : U32)

namespace EngineRun

/-- A transfer is created. -/
def create (s : EngineRun) (t : NewTransfer) : EngineRun :=
  { s with engine := s.engine.setTransfer s.next t.create, next := s.next + 1 }

/-- The run after a call under the lock. -/
def afterCall (s : EngineRun) : Locked (XdmaEngine × ℤ) → EngineRun
  | .ok (e, _) => { s with engine := e }
  | .error e => { s with engine := e, stopped := true }

/-- One call. A transfer has descriptors. -/
def step (s : EngineRun) (c : EngineCall) : Option EngineRun :=
  if s.stopped then none
  else
    match c with
    | .queue t =>
      if t.descNum = 0 then none
      else some ((s.create t).afterCall (transferQueue (s.create t).engine s.next))
    | .service hw w => some (s.afterCall (engineService s.engine hw w))

/-- An idle engine with an empty queue. -/
def start (pollMode streaming dirToDev nonIncrAddr : Bool) (memory : Ptr → XdmaTransfer)
    (next : Ptr) : EngineRun :=
  ⟨engineCreate pollMode streaming dirToDev nonIncrAddr memory, next, false⟩

end EngineRun

/-! ## What the descriptors of a service call pay for -/

/-- The descriptors of the transfers `l`. -/
def descriptorsOf (e : XdmaEngine) (l : List Ptr) : ℕ :=
  (l.map fun p => (e.descNumOf p).toNat).sum

/-- The descriptors a service call goes by : those completed, less those dequeued before. -/
def serviceLeft (e : XdmaEngine) (hw : HwReads) (w : U32) : U32 :=
  serviceCount hw w - e.descDequeued

section Descriptors

variable {e e' : XdmaEngine} {hw : HwReads} {w : U32}

@[simp] theorem descriptorsOf_append (l m : List Ptr) :
    descriptorsOf e (l ++ m) = descriptorsOf e l + descriptorsOf e m := by
  simp [descriptorsOf]

@[simp] theorem descriptorsOf_cons (p : Ptr) (l : List Ptr) :
    descriptorsOf e (p :: l) = (e.descNumOf p).toNat + descriptorsOf e l := by
  simp [descriptorsOf]

/-- What is paid for and what is left over is what there was, and something is left over
after each transfer paid for. -/
theorem Retires.toNat_eq {cyclic : Ptr → Bool} {d d' : U32} {done : List Ptr}
    (h : Retires e.descNumOf cyclic d done d') :
    d.toNat = descriptorsOf e done + d'.toNat ∧ (done ≠ [] → 0 < d'.toNat) := by
  induction h with
  | nil d => exact ⟨by simp [descriptorsOf], fun hne => absurd rfl hne⟩
  | @cons d d' p done _ hlt hrest ih =>
    obtain ⟨hsum, hpos⟩ := ih
    rw [BitVec.toNat_sub_of_le (BitVec.le_of_lt hlt)] at hsum
    have hlt' : (e.descNumOf p).toNat < d.toNat := hlt
    refine ⟨by rw [descriptorsOf_cons]; omega, fun _ => ?_⟩
    rcases done with _ | ⟨q, done⟩
    · rw [descriptorsOf, List.map_nil, List.sum_nil] at hsum
      omega
    · exact hpos (List.cons_ne_nil _ _)

/-- A service call on a running engine stops the kernel if and only if its descriptors pay for
more than the queue, which they always do for an empty one. -/
theorem engineService_error_iff (hrun : e.running = true) (hne : e.transferList ≠ [])
    (hcyclic : ∀ p ∈ e.transferList, e.cyclicOf p = false) :
    (∃ e', engineService e hw w = .error e') ↔
      descriptorsOf e e.transferList < (serviceLeft e hw w).toNat := by
  obtain ⟨e₀, done, rest, d, -, hlist, hretires, hstop, heq⟩ := engineService_running hw w hrun hne
  obtain ⟨hsum, hpos⟩ := hretires.toNat_eq
  rw [heq, serviceLeft, hlist, descriptorsOf_append]
  rcases rest with _ | ⟨p, rest⟩
  · -- every transfer was paid for
    have hleft := hpos (by rintro rfl; exact hne hlist)
    refine iff_of_true ⟨_, rfl⟩ ?_
    rw [descriptorsOf, descriptorsOf, List.map_nil, List.sum_nil]
    rw [descriptorsOf] at hsum
    omega
  · obtain ⟨e₁, he₁⟩ :=
      engineServiceResume_ok (clearWriteback (finalTransfer (retireAll e₀ done) p d))
    have hp : d ≤ e.descNumOf p := by
      refine (hstop p rfl).resolve_left fun hc => ?_
      have := hcyclic p (by rw [hlist]; exact List.mem_append_right _ List.mem_cons_self)
      exact absurd (hc.symm.trans this) (by decide)
    refine iff_of_false ?_ ?_
    · rintro ⟨e', he'⟩
      cases (he₁.symm.trans (Except.map_eq_error he'))
    · have hp' : d.toNat ≤ (e.descNumOf p).toNat := hp
      rw [descriptorsOf_cons]
      omega

/-- A service call comes to the last transfer of the queue if and only if that is the only one
or the descriptors pay for all the others. -/
theorem Serviced.rest_eq_nil_iff {done rest : List Ptr} {p : Ptr} {d : U32}
    (h : Serviced e e' hw w done p rest d) (hcyclic : e.cyclicOf p = false) :
    rest = [] ↔ ¬ (2 ≤ e.transferList.length ∧
      (serviceLeft e hw w).toNat ≤ descriptorsOf e e.transferList.dropLast) := by
  obtain ⟨hsum, hpos⟩ := h.retires.toNat_eq
  have hp : d.toNat ≤ (e.descNumOf p).toNat :=
    h.stops.resolve_left fun hc => absurd (hc.symm.trans hcyclic) (by decide)
  rw [serviceLeft, h.list]
  rcases rest with _ | ⟨q, rest⟩
  · refine iff_of_true rfl ?_
    rintro ⟨hlen, hle⟩
    rw [List.dropLast_concat] at hle
    have hleft := hpos (by rintro rfl; simp at hlen)
    omega
  · refine iff_of_false (List.cons_ne_nil _ _) (not_not.mpr ⟨by simp; omega, ?_⟩)
    rw [List.dropLast_append_of_ne_nil (List.cons_ne_nil _ _), List.dropLast_cons_cons,
      descriptorsOf_append, descriptorsOf_cons]
    omega

end Descriptors

/-! ## Assertions -/

/-- No assertion failed, and the next service call finds a transfer if it finds the engine
running. -/
structure AssertionsHold (s' : EngineRun) : Prop where
  stopped : s'.stopped = false
  fed : s'.engine.running = true → s'.engine.transferList ≠ []

/-- A service call on a running engine goes by no more descriptors than are queued, and does not
come to the last transfer if it leaves the engine running. -/
def PaysWithinQueue (s : EngineRun) (c : EngineCall) : Prop :=
  ∀ hw w, c = .service hw w → s.engine.running = true →
    (serviceLeft s.engine hw w).toNat ≤ descriptorsOf s.engine s.engine.transferList ∧
      (ServiceBusy s.engine hw w → ¬ ServiceErr s.engine hw w →
        2 ≤ s.engine.transferList.length ∧ (serviceLeft s.engine hw w).toNat ≤
          descriptorsOf s.engine s.engine.transferList.dropLast)

/-- What holds whenever the lock is free. -/
structure AssertInv (s : EngineRun) : Prop extends AssertionsHold s where
  nodup : s.engine.transferList.Nodup
  allocated : ∀ p ∈ s.engine.transferList, p < s.next
  plain : ∀ p ∈ s.engine.transferList, (s.engine.transfers p).cyclic = false

theorem assertInv_start (pollMode streaming dirToDev nonIncrAddr : Bool)
    (memory : Ptr → XdmaTransfer) (next : Ptr) :
    AssertInv (.start pollMode streaming dirToDev nonIncrAddr memory next) where
  stopped := rfl
  fed hrun := absurd hrun Bool.false_ne_true
  nodup := List.nodup_nil
  allocated _ hp := nomatch hp
  plain _ hp := nomatch hp

namespace EngineRun

variable (s : EngineRun) (t : NewTransfer)

theorem create_transfers {p : Ptr} (hp : p < s.next) :
    (s.create t).engine.transfers p = s.engine.transfers p :=
  Function.update_of_ne hp.ne _ _

@[simp] theorem create_self : (s.create t).engine.transfers s.next = t.create :=
  Function.update_self _ _ _

end EngineRun

variable {s s' : EngineRun}

/-- Queueing a new transfer that has descriptors stops at no assertion. -/
theorem EngineRun.queue_cases {t : NewTransfer} (hstep : s.step (.queue t) = some s') :
    s.stopped = false ∧ ∃ e, s' = { s.create t with engine := e } ∧
      (e = (s.create t).engine ∧ s.engine.shutdown &&& ENGINE_SHUTDOWN_REQUEST ≠ 0 ∨
        Queued (s.create t).engine e s.next) := by
  unfold EngineRun.step at hstep
  obtain ⟨hlive, hstep⟩ := Option.ite_none_left_eq_some.mp hstep
  obtain ⟨hnum, hstep⟩ := Option.ite_none_left_eq_some.mp hstep
  obtain rfl := Option.some.inj hstep
  refine ⟨Bool.eq_false_iff.mpr hlive, ?_⟩
  rcases hq : transferQueue (s.create t).engine s.next with e | ⟨e, rc⟩
  · refine absurd (transferQueue_error hq).2 ?_
    rw [descNumOf, EngineRun.create_self]
    exact hnum
  · refine ⟨e, rfl, ?_⟩
    rcases transferQueue_cases hq with ⟨-, rfl, hreq⟩ | ⟨-, hqueued⟩
    · exact Or.inl ⟨rfl, hreq⟩
    · exact Or.inr hqueued

theorem queue_asserts {t : NewTransfer} (h : AssertInv s) (hstep : s.step (.queue t) = some s') :
    AssertInv s' := by
  obtain ⟨hlive, e, rfl, ⟨rfl, -⟩ | hq⟩ := EngineRun.queue_cases hstep
  · refine
      { h with
        stopped := hlive
        allocated := fun p hp => (h.allocated p hp).trans (Nat.lt_succ_self _)
        plain := fun p hp => ?_ }
    change ((s.create t).engine.transfers p).cyclic = false
    rw [s.create_transfers t (h.allocated p hp)]
    exact h.plain p hp
  · have hnew : s.next ∉ (s.create t).engine.transferList :=
      fun hmem => lt_irrefl _ (h.allocated _ hmem)
    refine
      { stopped := hlive
        fed := fun _ => ?_
        nodup := hq.nodup h.nodup hnew
        allocated := fun p hp => ?_
        plain := hq.forall_mem (P := fun t => t.cyclic = false) (fun p hp => ?_) ?_ }
    · change e.transferList ≠ []
      rw [hq.list]
      exact List.append_ne_nil_of_right_ne_nil _ (List.cons_ne_nil _ _)
    · rcases hq.mem_iff.mp hp with hold | rfl
      · exact (h.allocated p hold).trans (Nat.lt_succ_self _)
      · exact Nat.lt_succ_self _
    · rw [s.create_transfers t (h.allocated p hp)]
      exact h.plain p hp
    · rw [s.create_self t]
      rfl

theorem service_asserts {hw : HwReads} {w : U32} (h : AssertInv s)
    (hstep : s.step (.service hw w) = some s') (hc : PaysWithinQueue s (.service hw w)) :
    AssertInv s' := by
  unfold EngineRun.step at hstep
  obtain rfl := Option.some.inj (Option.ite_none_left_eq_some.mp hstep).2
  rcases hrun : s.engine.running with _ | _
  · -- an idle engine keeps its queue
    rw [engineService_idle hrun]
    obtain ⟨hsame, hr, -⟩ := engineService_idle_cases hrun (engineService_idle hrun)
    refine
      { stopped := h.stopped
        fed := fun hrun' => absurd ((hr.running.trans hrun).symm.trans hrun') (by decide)
        nodup := hsame.list ▸ h.nodup
        allocated := hsame.list ▸ h.allocated
        plain := fun p hp => ?_ }
    change ((ite _ _ _ : XdmaEngine).transfers p).cyclic = false
    rw [hsame.transfers]
    exact h.plain p (hsame.list ▸ hp)
  obtain ⟨hpays, hbusy⟩ := hc hw w rfl hrun
  rcases hs : engineService s.engine hw w with e | ⟨e, rc⟩
  · have hover := (engineService_error_iff hrun (h.fed hrun) h.plain).mp ⟨e, hs⟩
    exact absurd hover (Nat.not_lt.mpr hpays)
  obtain ⟨-, done, p, rest, d, hserviced⟩ := engineService_cases hrun h.nodup hs
  refine
    { stopped := h.stopped
      fed := fun hrun' => ?_
      nodup := hserviced.nodup h.nodup
      allocated := fun q hq => h.allocated q (hserviced.subset q hq)
      plain := fun q hq => ?_ }
  · change e.transferList ≠ []
    have hp := h.plain p (hserviced.queued p List.mem_cons_self)
    rcases hserviced.list_cases with ⟨-, hlist⟩ | ⟨herr, hlist⟩ <;> rw [hlist]
    · exact List.cons_ne_nil _ _
    by_cases hb : ServiceBusy s.engine hw w
    · exact fun hnil => (hserviced.rest_eq_nil_iff hp).mp hnil (hbusy hb herr)
    · rcases hserviced.idle hb with ⟨hidle, -⟩ | ⟨q, hq, -⟩
      · exact absurd (hidle.symm.trans hrun') (by decide)
      · rw [hlist] at hq
        exact List.ne_nil_of_mem (List.mem_of_mem_head? hq)
  · exact (congrFun hserviced.cyclicOf q).trans (h.plain q (hserviced.subset q hq))

/-- The step lemma. -/
theorem step_asserts {c : EngineCall} (h : AssertInv s) (hstep : s.step c = some s')
    (hc : PaysWithinQueue s c) : AssertInv s' := by
  cases c with
  | queue t => exact queue_asserts h hstep
  | service hw w => exact service_asserts h hstep hc

/-- A call that pays for more than the queue fails an assertion, and one that comes to the last
transfer of an engine it leaves running leaves it without one. -/
theorem pays_of_asserts {c : EngineCall} (h : AssertInv s) (hstep : s.step c = some s')
    (hp : AssertionsHold s') : PaysWithinQueue s c := by
  rintro hw w rfl hrun
  unfold EngineRun.step at hstep
  obtain rfl := Option.some.inj (Option.ite_none_left_eq_some.mp hstep).2
  rcases hs : engineService s.engine hw w with e | ⟨e, rc⟩
  · rw [hs] at hp
    exact absurd (show true = false from hp.stopped) (by decide)
  rw [hs] at hp
  refine ⟨Nat.not_lt.mp fun hover => ?_, fun hbusy herr => ?_⟩
  · obtain ⟨e', he'⟩ := (engineService_error_iff hrun (h.fed hrun) h.plain).mpr hover
    cases hs.symm.trans he'
  · obtain ⟨-, done, p, rest, d, hserviced⟩ := engineService_cases hrun h.nodup hs
    have hcyclic := h.plain p (hserviced.queued p List.mem_cons_self)
    by_contra hlast
    exact hp.fed (hserviced.busy hbusy).1
      ((hserviced.final herr).1.trans ((hserviced.rest_eq_nil_iff hcyclic).mpr hlast))

/-- In every run from an idle engine, no assertion fails and no running engine is left without
a transfer if and only if every service call pays within the queue. -/
theorem assertions_iff (pollMode streaming dirToDev nonIncrAddr : Bool)
    (memory : Ptr → XdmaTransfer) (next : Ptr) (cs : List EngineCall) :
    Along EngineRun.step (fun _ _ s' => AssertionsHold s')
        (.start pollMode streaming dirToDev nonIncrAddr memory next) cs ↔
      Along EngineRun.step (fun s c _ => PaysWithinQueue s c)
        (.start pollMode streaming dirToDev nonIncrAddr memory next) cs :=
  along_iff
    (fun _ c _ h hstep hc =>
      have hinv := step_asserts (c := c) h hstep hc
      ⟨hinv, hinv.toAssertionsHold⟩)
    (fun _ c _ h hstep hp => pays_of_asserts (c := c) h hstep hp) (assertInv_start ..)

/-- One transfer of one descriptor is queued, and the engine counts two : the retire loop
empties the queue, and the final transfer is a null pointer. -/
theorem assertions_fail_on_count :
    ¬ ∀ (memory : Ptr → XdmaTransfer) (cs : List EngineCall),
      Along EngineRun.step (fun _ _ s' => s'.stopped = false)
        (.start false false true false memory 0) cs := by
  intro h
  have hrun := h (fun _ => NewTransfer.create ⟨0x1000, 1, 1, none, true, 4096⟩)
    [.queue ⟨0x1000, 1, 1, none, true, 4096⟩, .service ⟨0, 2⟩ 0]
  exact absurd ((hrun _ rfl).2 _ rfl).1 (by decide)

/-! ## Where the hardware is started -/

/-- `engine_service` on a running engine, up to `engine_service_resume`. -/
def engineServiceRetire (e : XdmaEngine) (hw : HwReads) (w : U32) : Locked XdmaEngine := do
  let e := serviceEntry e hw w
  let descCount := serviceCount hw w
  let transfer := e.transferList.head?
  let e := if transfer.isSome then engineServicePerf e descCount else e
  let (e, transfer, descCount) ←
    engineServiceTransferList e transfer (descCount - e.descDequeued)
  let e ← engineServiceFinalTransfer e transfer descCount
  .ok (clearWriteback e)

theorem engineService_eq {e : XdmaEngine} {hw : HwReads} {w : U32} (hrun : e.running = true) :
    engineService e hw w =
      (engineServiceRetire e hw w).bind fun e₁ =>
        (engineServiceResume e₁).map fun e' => (e', if w &&& WB_ERR_MASK ≠ 0 then -1 else 0) := by
  simp only [engineService, engineServiceRetire, hrun, not_true_eq_false, if_false]
  rcases engineServiceTransferList _ _ _ with e₁ | ⟨e₁, transfer, d⟩
  · rfl
  dsimp only [bind, Except.bind]
  rcases engineServiceFinalTransfer e₁ transfer d with e₂ | e₂
  · rfl
  · dsimp only
    rcases engineServiceResume (clearWriteback e₂) with e₃ | e₃ <;> rfl

/-- A relation that every part of a service call on a running engine keeps, up to the
resumption. -/
structure ServiceFrame (R : XdmaEngine → XdmaEngine → Prop) : Prop where
  refl : ∀ e, R e e
  trans : ∀ {e e₁ e₂}, R e e₁ → R e₁ e₂ → R e e₂
  entry : ∀ e hw w, R e (serviceEntry e hw w)
  perf : ∀ e count, R e (engineServicePerf e count)
  retire : ∀ e p s, R e (retireHead e p s)
  fail : ∀ e p, R e (engineErrHandle e p)
  clear : ∀ e, R e (clearWriteback e)

namespace ServiceFrame

variable {R : XdmaEngine → XdmaEngine → Prop}

theorem finalTransfer (hR : ServiceFrame R) (e : XdmaEngine) (p : Ptr) (d : U32) :
    R e (Wimi.finalTransfer e p d) := by
  rcases finalTransfer_cases e p d with ⟨-, h⟩ | ⟨-, h⟩ <;> rw [h]
  · exact hR.fail e p
  · exact hR.retire e p _

/-- The call keeps the relation, and also when it stops the kernel. -/
theorem service (hR : ServiceFrame R) {e e' : XdmaEngine} {hw : HwReads} {w : U32}
    (h : engineServiceRetire e hw w = .ok e' ∨ engineServiceRetire e hw w = .error e') :
    R e e' := by
  unfold engineServiceRetire at h
  generalize hentry : serviceEntry e hw w = e₁ at h
  have hentered : R e e₁ := hentry ▸ hR.entry e hw w
  cases hlist : e₁.transferList with
  | nil =>
    simp only [hlist, List.head?_nil] at h
    rcases h with h | h
    · cases h
    · obtain rfl := Except.error.inj h
      exact hentered
  | cons p queue =>
    simp only [hlist, List.head?_cons, Option.isSome_some, if_true] at h
    have hperf := hR.trans hentered (hR.perf e₁ (serviceCount hw w))
    generalize engineServicePerf e₁ (serviceCount hw w) = e₂ at h hperf
    obtain ⟨done, rest, d, -, -, hloop, -⟩ :=
      retireLoop_eq e₂ (serviceCount hw w - e₂.descDequeued) e₂.transferList
    have hretired := hR.trans hperf
      (retireAll_rel e₂ done hR.refl hR.trans fun e p => hR.retire e p .completed)
    simp only [engineServiceTransferList, hloop] at h
    cases rest with
    | nil =>
      rcases h with h | h
      · cases h
      · obtain rfl := Except.error.inj h
        exact hretired
    | cons q rest =>
      rcases h with h | h
      · obtain rfl := Except.ok.inj h
        exact hR.trans (hR.trans hretired (hR.finalTransfer _ q d)) (hR.clear _)
      · cases h

end ServiceFrame

section Entry

variable {ε : Type} (bug : XdmaEngine → ε) (start : XdmaEngine → Except ε XdmaEngine)

/-- `engine_service_resume`, with what it calls as `engine_start`. -/
def engineServiceResumeWith (e : XdmaEngine) : Except ε XdmaEngine :=
  if ¬ e.running then
    if e.shutdown &&& ENGINE_SHUTDOWN_REQUEST ≠ 0 then
      .ok { e with
        shutdown := e.shutdown ||| ENGINE_SHUTDOWN_IDLE
        shutdownWakeUps := e.shutdownWakeUps + 1 }
    else if e.transferList ≠ [] then start e
    else .ok e
  else .ok e

/-- `engine_service`, with what it calls as `engine_start`. At another `BUG_ON` it is at `bug`. -/
def engineServiceWith (e : XdmaEngine) (hw : HwReads) (w : U32) : Except ε (XdmaEngine × ℤ) :=
  if ¬ e.running then .ok (if w = 0 then engineStatusRead e hw.status else e, 0)
  else
    ((engineServiceRetire e hw w).mapError bug).bind fun e =>
      (engineServiceResumeWith start e).map fun e => (e, if w &&& WB_ERR_MASK ≠ 0 then -1 else 0)

/-- `transfer_queue`, likewise. -/
def transferQueueWith (e : XdmaEngine) (p : Ptr) : Except ε (XdmaEngine × ℤ) :=
  if (e.transfers p).descNum = 0 then .error (bug e)
  else if e.shutdown &&& ENGINE_SHUTDOWN_REQUEST ≠ 0 then .ok (e, -1)
  else if e.running then .ok (submit e p, 0)
  else (start (submit e p)).map fun e => (e, 0)

/-- A call, with what it calls as `engine_start`. -/
def EngineRun.callWith (s : EngineRun) : EngineCall → Except ε (XdmaEngine × ℤ)
  | .queue t => transferQueueWith bug start (s.create t).engine s.next
  | .service hw w => engineServiceWith bug start s.engine hw w

end Entry

/-- The engine a call enters `engine_start` with, if it enters it. -/
def EngineRun.startEntry (s : EngineRun) (c : EngineCall) : Option XdmaEngine :=
  match s.callWith (fun _ => none) (fun e => .error (some e)) c with
  | .error entry => entry
  | .ok _ => none

/-- With `engine_start` itself, they are the calls. -/
theorem EngineRun.step_callWith {s : EngineRun} {c : EngineCall} {s' : EngineRun}
    (hstep : s.step c = some s') : ∃ s₁ : EngineRun, s₁.stopped = false ∧
      s' = s₁.afterCall (s.callWith id engineStart c) := by
  unfold EngineRun.step at hstep
  obtain ⟨hlive, hstep⟩ := Option.ite_none_left_eq_some.mp hstep
  have hrunning : s.stopped = false := Bool.eq_false_iff.mpr hlive
  cases c with
  | queue t =>
    obtain ⟨-, hstep⟩ := Option.ite_none_left_eq_some.mp hstep
    exact ⟨s.create t, hrunning, (Option.some.inj hstep).symm⟩
  | service hw w =>
    refine ⟨s, hrunning, (Option.some.inj hstep).symm.trans (congrArg s.afterCall ?_)⟩
    rw [EngineRun.callWith, engineServiceWith]
    rcases hrun : s.engine.running with _ | _
    · exact engineService_idle hrun
    · rw [engineService_eq hrun]
      rcases engineServiceRetire s.engine hw w with e | e <;> rfl

/-- Queueing enters `engine_start` on an idle engine, with the transfer queued. -/
theorem EngineRun.startEntry_queue (s : EngineRun) (t : NewTransfer) : s.startEntry (.queue t) =
    if t.descNum ≠ 0 ∧ s.engine.shutdown &&& ENGINE_SHUTDOWN_REQUEST = 0 ∧ ¬ s.engine.running then
      some (submit (s.create t).engine s.next) else none := by
  have hnew : ((s.create t).engine.transfers s.next).descNum = t.descNum := by
    rw [create, transfers_setTransfer_self]
    rfl
  have hshut : (s.create t).engine.shutdown = s.engine.shutdown := rfl
  have hrunning : (s.create t).engine.running = s.engine.running := rfl
  rw [startEntry, callWith, transferQueueWith, hnew, hshut, hrunning]
  by_cases hnum : t.descNum = 0
  · rw [if_pos hnum, if_neg fun h => h.1 hnum]
  by_cases hreq : s.engine.shutdown &&& ENGINE_SHUTDOWN_REQUEST = 0
  · by_cases hrun : s.engine.running = true
    · rw [if_neg hnum, if_neg (not_not.mpr hreq), if_pos hrun, if_neg fun h => h.2.2 hrun]
    · rw [if_neg hnum, if_neg (not_not.mpr hreq), if_neg hrun, if_pos ⟨hnum, hreq, hrun⟩]
      rfl
  · rw [if_neg hnum, if_pos hreq, if_neg fun h => hreq h.2.1]

/-- A service call enters it when it resumes an engine that is idle by then, with transfers left. -/
theorem EngineRun.startEntry_service {s : EngineRun} {hw : HwReads} {w : U32} {e : XdmaEngine}
    (hrun : s.engine.running = true) (hretire : engineServiceRetire s.engine hw w = .ok e) :
    s.startEntry (.service hw w) =
      if ¬ e.running ∧ e.shutdown &&& ENGINE_SHUTDOWN_REQUEST = 0 ∧ e.transferList ≠ [] then some e
      else none := by
  rw [startEntry, callWith, engineServiceWith, if_neg (not_not.mpr hrun), hretire]
  generalize (if w &&& WB_ERR_MASK ≠ 0 then (-1 : ℤ) else 0) = rc
  simp only [Except.mapError, Except.bind, engineServiceResumeWith]
  by_cases hidle : e.running = true
  · rw [if_neg (not_not.mpr hidle), if_neg fun h => h.1 hidle]
    rfl
  by_cases hreq : e.shutdown &&& ENGINE_SHUTDOWN_REQUEST = 0
  · by_cases hne : e.transferList = []
    · rw [if_pos hidle, if_neg (not_not.mpr hreq), if_neg (not_not.mpr hne),
        if_neg fun h => h.2.2 hne]
      rfl
    · rw [if_pos hidle, if_neg (not_not.mpr hreq), if_pos hne, if_pos ⟨hidle, hreq, hne⟩]
      rfl
  · rw [if_pos hidle, if_pos hreq, if_neg fun h => hreq h.2.1]
    rfl

/-- Any other service call does not. -/
theorem EngineRun.retire_of_startEntry {s : EngineRun} {hw : HwReads} {w : U32} {e : XdmaEngine}
    (hentry : s.startEntry (.service hw w) = some e) :
    s.engine.running = true ∧ engineServiceRetire s.engine hw w = .ok e := by
  rcases hrun : s.engine.running with _ | _
  · rw [startEntry, callWith, engineServiceWith, hrun] at hentry
    cases hentry
  rcases hretire : engineServiceRetire s.engine hw w with e₁ | e₁
  · rw [startEntry, callWith, engineServiceWith, hrun, hretire] at hentry
    cases hentry
  · obtain ⟨-, he⟩ := Option.ite_none_right_eq_some.mp
      ((EngineRun.startEntry_service hrun hretire).symm.trans hentry)
    exact ⟨rfl, congrArg Except.ok (Option.some.inj he)⟩

/-- A call that enters `engine_start` finds an idle engine with a transfer queued, and goes by what
`engine_start` returns. -/
theorem EngineRun.entry_cases {s : EngineRun} {c : EngineCall} {e : XdmaEngine}
    (hentry : s.startEntry c = some e) : e.running = false ∧ e.transferList ≠ [] ∧
      ∃ rc, s.callWith id engineStart c = (engineStart e).map fun e => (e, rc) := by
  cases c with
  | queue t =>
    rw [startEntry_queue] at hentry
    obtain ⟨⟨hnum, hreq, hrun⟩, he⟩ := Option.ite_none_right_eq_some.mp hentry
    obtain rfl := Option.some.inj he
    have hnew : ((s.create t).engine.transfers s.next).descNum ≠ 0 := by
      rw [create, transfers_setTransfer_self]
      exact hnum
    exact ⟨Bool.eq_false_iff.mpr hrun, List.append_ne_nil_of_right_ne_nil _ (List.cons_ne_nil _ _),
      0, (if_neg hnew).trans ((if_neg (not_not.mpr hreq)).trans (if_neg hrun))⟩
  | service hw w =>
    obtain ⟨hrun, hretire⟩ := retire_of_startEntry hentry
    rw [startEntry_service hrun hretire] at hentry
    obtain ⟨⟨hidle, hreq, hne⟩, -⟩ := Option.ite_none_right_eq_some.mp hentry
    refine ⟨Bool.eq_false_iff.mpr hidle, hne, if w &&& WB_ERR_MASK ≠ 0 then -1 else 0, ?_⟩
    have hresume : engineServiceResumeWith engineStart e = engineStart e :=
      (if_pos hidle).trans ((if_neg (not_not.mpr hreq)).trans (if_pos hne))
    rw [callWith, engineServiceWith, if_neg (not_not.mpr hrun), hretire]
    change (engineServiceResumeWith engineStart e).map _ = _
    rw [hresume]

/-! ## Stranded work -/

/-- While the lock is free, transfers are queued only on a running engine and the hardware was
handed them in the order they were queued; and a call that enters `engine_start` enters it with an
idle engine and a transfer queued, and does not stop there. -/
structure NoneStranded (s : EngineRun) (c : EngineCall) (s' : EngineRun) : Prop where
  running : s'.stopped = false → s'.engine.transferList ≠ [] → s'.engine.running = true
  inOrder : s'.stopped = false → (s'.engine.started.map Prod.fst).Pairwise (· ≥ ·)
  entry : ∀ e, s.startEntry c = some e → e.running = false ∧ e.transferList ≠ [] ∧
    engineStart e = .ok s'.engine ∧ s'.stopped = false

/-- What holds whenever the lock is free. -/
structure OrderInv (s : EngineRun) : Prop where
  unrequested : s.engine.shutdown &&& ENGINE_SHUTDOWN_REQUEST = 0
  running : s.engine.transferList ≠ [] → s.engine.running = true
  sorted : s.engine.transferList.Pairwise (· < ·)
  allocated : ∀ p ∈ s.engine.transferList, p < s.next
  inOrder : (s.engine.started.map Prod.fst).Pairwise (· ≥ ·)
  started : ∀ r ∈ s.engine.started, r.1 < s.next
  after : ∀ r ∈ s.engine.started, ∀ p ∈ s.engine.transferList, r.1 ≤ p

theorem orderInv_start (pollMode streaming dirToDev nonIncrAddr : Bool)
    (memory : Ptr → XdmaTransfer) (next : Ptr) :
    OrderInv (.start pollMode streaming dirToDev nonIncrAddr memory next) where
  unrequested := BitVec.zero_and
  running hne := absurd rfl hne
  sorted := List.Pairwise.nil
  allocated _ hp := nomatch hp
  inOrder := List.Pairwise.nil
  started _ hr := nomatch hr
  after _ hr := nomatch hr

theorem OrderInv.nodup (h : OrderInv s) : s.engine.transferList.Nodup :=
  h.sorted.imp ne_of_lt

/-- The invariant after a call that leaves a queue in order, of transfers behind those started
before, and that starts the hardware on the head of the queue at most. -/
theorem OrderInv.call (h : OrderInv s) {e : XdmaEngine} {n : Ptr} (hn : s.next ≤ n)
    (hunrequested : e.shutdown &&& ENGINE_SHUTDOWN_REQUEST = 0)
    (hrunning : e.transferList ≠ [] → e.running = true)
    (hsorted : e.transferList.Pairwise (· < ·)) (hallocated : ∀ p ∈ e.transferList, p < n)
    (hafter : ∀ r ∈ s.engine.started, ∀ p ∈ e.transferList, r.1 ≤ p)
    (hstarted : e.started = s.engine.started ∨ ∃ q, e.transferList.head? = some q ∧
      e.started = (q, e.transfers q) :: s.engine.started) :
    OrderInv { s with engine := e, next := n } := by
  rcases hstarted with hsame | ⟨q, hq, hstart⟩
  · exact ⟨hunrequested, hrunning, hsorted, hallocated, hsame ▸ h.inOrder,
      fun r hr => (h.started r (hsame ▸ hr)).trans_le hn, fun r hr => hafter r (hsame ▸ hr)⟩
  have hmem := List.mem_of_mem_head? hq
  refine ⟨hunrequested, hrunning, hsorted, hallocated, ?_, fun r hr => ?_, fun r hr p hp => ?_⟩
  · change (e.started.map Prod.fst).Pairwise _
    rw [hstart, List.map_cons, List.pairwise_cons]
    refine ⟨fun p hp => ?_, h.inOrder⟩
    obtain ⟨r, hr, rfl⟩ := List.mem_map.mp hp
    exact hafter r hr q hmem
  · rcases List.mem_cons.mp (hstart ▸ hr) with rfl | hr
    · exact hallocated _ hmem
    · exact (h.started r hr).trans_le hn
  · rcases List.mem_cons.mp (hstart ▸ hr) with rfl | hr
    · -- the head of a queue in order comes first
      obtain ⟨rest, hrest⟩ := List.head?_eq_some_iff.mp hq
      change p ∈ e.transferList at hp
      rw [hrest] at hp hsorted
      rcases List.mem_cons.mp hp with rfl | hp
      · exact le_rfl
      · exact (List.rel_of_pairwise_cons hsorted hp).le
    · exact hafter r hr p hp

theorem queue_ordered {t : NewTransfer} (h : OrderInv s) (hstep : s.step (.queue t) = some s') :
    OrderInv s' := by
  obtain ⟨hlive, e, rfl, ⟨-, hreq⟩ | hq⟩ := EngineRun.queue_cases hstep
  · exact absurd h.unrequested hreq
  have hbefore : ∀ p ∈ s.engine.transferList, p < s.next := h.allocated
  refine h.call (Nat.le_succ _) hq.unrequested (fun _ => hq.isRunning) ?_ (fun p hp => ?_)
    (fun r hr p hp => ?_) hq.started_cases
  · rw [hq.list]
    refine List.pairwise_append.mpr ⟨h.sorted, List.pairwise_singleton _ _, fun p hp q hqmem => ?_⟩
    rw [List.mem_singleton.mp hqmem]
    exact hbefore p hp
  · rcases hq.mem_iff.mp hp with hold | rfl
    · exact (hbefore p hold).trans (Nat.lt_succ_self _)
    · exact Nat.lt_succ_self _
  · rcases hq.mem_iff.mp hp with hold | rfl
    · exact h.after r hr p hold
    · exact (h.started r hr).le

theorem service_ordered {hw : HwReads} {w : U32} (h : OrderInv s)
    (hstep : s.step (.service hw w) = some s') (hlive : s'.stopped = false) : OrderInv s' := by
  unfold EngineRun.step at hstep
  obtain rfl := Option.some.inj (Option.ite_none_left_eq_some.mp hstep).2
  rcases hs : engineService s.engine hw w with e | ⟨e, rc⟩
  · rw [hs] at hlive
    exact absurd (show true = false from hlive) (by decide)
  rcases hrun : s.engine.running with _ | _
  · obtain ⟨hsame, hr, -⟩ := engineService_idle_cases hrun hs
    refine h.call le_rfl (hr.shutdown ▸ h.unrequested) ?_ (hsame.list ▸ h.sorted)
      (hsame.list ▸ h.allocated) (hsame.list ▸ h.after) (Or.inl hr.started)
    rw [hsame.list, hr.running]
    exact h.running
  · obtain ⟨-, done, p, rest, d, hserviced⟩ := engineService_cases hrun h.nodup hs
    refine h.call le_rfl (hserviced.unrequested h.unrequested)
      (hserviced.isRunning h.unrequested) (h.sorted.sublist hserviced.sublist)
      (fun q hq => h.allocated q (hserviced.subset q hq))
      (fun r hr q hq => h.after r hr q (hserviced.subset q hq)) hserviced.started_cases

/-- A call that enters `engine_start` leaves the engine as that does. -/
theorem EngineRun.entry_started {c : EngineCall} {e : XdmaEngine} (hstep : s.step c = some s')
    (hentry : s.startEntry c = some e) : e.running = false ∧ e.transferList ≠ [] ∧
      engineStart e = .ok s'.engine ∧ s'.stopped = false := by
  obtain ⟨hidle, hne, rc, hcall⟩ := EngineRun.entry_cases hentry
  obtain ⟨e', he'⟩ := engineStart_ok hidle hne
  obtain ⟨s₁, hlive, rfl⟩ := EngineRun.step_callWith hstep
  rw [hcall, he']
  exact ⟨hidle, hne, rfl, hlive⟩

/-- In every run from an idle engine without a request to shut it down, no transfer is stranded
on the queue, no call stops in `engine_start`, and the hardware is handed transfers in the order
they were queued. -/
theorem none_stranded (pollMode streaming dirToDev nonIncrAddr : Bool)
    (memory : Ptr → XdmaTransfer) (next : Ptr) (cs : List EngineCall) :
    Along EngineRun.step NoneStranded
      (.start pollMode streaming dirToDev nonIncrAddr memory next) cs := by
  refine along_of_live (fun _ _ hstopped => if_pos hstopped)
    (fun s c s' h hstep _ => ?_) (orderInv_start ..)
    (along_of_inputs (P := fun _ _ _ => True) fun _ _ _ _ => trivial)
  have hinv : s'.stopped = false → OrderInv s' := by
    intro hlive
    cases c with
    | queue t => exact queue_ordered h hstep
    | service hw w => exact service_ordered h hstep hlive
  exact ⟨hinv, fun hlive => (hinv hlive).running, fun hlive => (hinv hlive).inOrder,
    fun _ => EngineRun.entry_started hstep⟩

end Wimi
