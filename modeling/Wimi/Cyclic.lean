import Wimi.Service

/-!
# Cyclic transfers of a streaming engine

What servicing, stopping and shutting down a streaming engine does to the queue and to the run.
What `engine_ring_process` found in the ring is an argument.

`CyclicServiced` : such a call takes at most the cyclic transfer off the queue, and that only
from a running engine whose status is no longer busy, which it shuts down.
-/

namespace Wimi

open XdmaEngine

/-- `engine_transfer_dequeue`, of an engine with `rx_transfer_cyclic` at `rx`. It stops the
kernel when another transfer is at the head of the queue. -/
def engineTransferDequeue (e : XdmaEngine) (rx : Option Ptr) : Locked XdmaEngine :=
  match e.transferList with
  | [] => .error e
  | p :: queue => if some p ≠ rx then .error e else .ok { e with transferList := queue }

/-- A running engine that is no longer busy is taken its transfer and shut down. -/
def shutdownWhenIdle (e : XdmaEngine) (rx : Option Ptr) : Locked XdmaEngine :=
  if e.running ∧ e.status &&& XDMA_STAT_BUSY = 0 then
    (if e.transferList ≠ [] then engineTransferDequeue e rx else .ok e).map engineServiceShutdown
  else .ok e

/-- Wake the readers that wait on the transfer at `p`. -/
def wakeUp (e : XdmaEngine) (p : Ptr) : XdmaEngine :=
  e.setTransfer p { e.transfers p with wakeUps := (e.transfers p).wakeUps + 1 }

/-- `engine_service_cyclic_polled`. `eopCount` is 0 when it left its loop at an error. -/
def engineServiceCyclicPolled (e : XdmaEngine) (p : Ptr) (status : U32) (eopCount : ℕ) :
    Locked (XdmaEngine × ℤ) :=
  if eopCount = 0 then
    (shutdownWhenIdle (engineStatusRead e status) (some p)).map fun e => (e, -1)
  else .ok (e, 0)

/-- `engine_service_cyclic_interrupt`. -/
def engineServiceCyclicInterrupt (e : XdmaEngine) (p : Ptr) (status : U32) (eopCount : ℕ) :
    Locked (XdmaEngine × ℤ) :=
  let e := engineStatusRead e status
  let e := if eopCount > 0 then wakeUp e p else e
  (shutdownWhenIdle e (some p)).map fun e => (e, 0)

/-- `engine_service_cyclic`, of an engine with `rx_transfer_cyclic` at `p`. -/
def engineServiceCyclic (e : XdmaEngine) (p : Ptr) (status : U32) (eopCount : ℕ) :
    Locked (XdmaEngine × ℤ) :=
  if e.pollMode then engineServiceCyclicPolled e p status eopCount
  else engineServiceCyclicInterrupt e p status eopCount

/-- `engine_cyclic_stop`. -/
def engineCyclicStop (e : XdmaEngine) : XdmaEngine :=
  if e.transferList ≠ [] then xdmaEngineStop e else e

/-- `cyclic_shutdown_polled`, once the status it reads is no longer busy. -/
def cyclicShutdownPolled (e : XdmaEngine) (rx : Option Ptr) (status : U32) : Locked XdmaEngine :=
  shutdownWhenIdle (engineStatusRead e status) rx

/-! ## What they do -/

variable {e e' : XdmaEngine} {rx : Option Ptr} {status : U32}

/-- The transfers are the same but for their wake-ups, and the hardware was not started. The
queue and the run are the same, or the status was not busy, the engine was shut down and the
transfer at `rx`, if any was queued, taken off. -/
structure CyclicServiced (e e' : XdmaEngine) (rx : Option Ptr) (status : U32) : Prop where
  started : e'.started = e.started
  freed : e'.freed = e.freed
  transfers : ∀ p, ∃ n, e'.transfers p = { e.transfers p with wakeUps := n }
  queue : e'.transferList = e.transferList ∧ e'.running = e.running ∨
    status &&& XDMA_STAT_BUSY = 0 ∧ e'.running = false ∧
      (e.transferList = [] ∧ e'.transferList = [] ∨
        ∃ p, rx = some p ∧ e.transferList = p :: e'.transferList)

theorem CyclicServiced.stateOf (h : CyclicServiced e e' rx status) (p : Ptr) :
    e'.stateOf p = e.stateOf p := by
  obtain ⟨n, hn⟩ := h.transfers p
  rw [XdmaEngine.stateOf, hn, XdmaEngine.stateOf]

theorem CyclicServiced.sublist (h : CyclicServiced e e' rx status) :
    e'.transferList.Sublist e.transferList := by
  rcases h.queue with ⟨hlist, -⟩ | ⟨-, -, ⟨hlist, hlist'⟩ | ⟨p, -, hlist⟩⟩
  · rw [hlist]
  · rw [hlist, hlist']
  · rw [hlist]
    exact List.sublist_cons_self _ _

theorem engineTransferDequeue_cases (h : engineTransferDequeue e rx = .ok e') :
    ∃ p queue, rx = some p ∧ e.transferList = p :: queue ∧
      e' = { e with transferList := queue } := by
  unfold engineTransferDequeue at h
  split at h
  · cases h
  · next p queue hlist =>
    split at h
    · cases h
    · next hrx => exact ⟨p, queue, (not_not.mp hrx).symm, hlist, (Except.ok.inj h).symm⟩

/-- A running engine whose status is not busy is shut down, any other is left alone. -/
theorem shutdownWhenIdle_cases (h : shutdownWhenIdle e rx = .ok e') :
    CyclicServiced e e' rx e.status ∧
      (e.status &&& XDMA_STAT_BUSY = 0 → e'.running = false) := by
  have hkept : ∀ p, ∃ n, e.transfers p = { e.transfers p with wakeUps := n } :=
    fun p => ⟨(e.transfers p).wakeUps, rfl⟩
  unfold shutdownWhenIdle at h
  split at h
  · next hidle =>
    obtain ⟨e₁, he₁, rfl⟩ := Except.map_eq_ok h
    refine ⟨?_, fun _ => rfl⟩
    split at he₁
    · obtain ⟨p, queue, hrx, hlist, rfl⟩ := engineTransferDequeue_cases he₁
      exact ⟨rfl, rfl, hkept, Or.inr ⟨hidle.2, rfl, Or.inr ⟨p, hrx, hlist⟩⟩⟩
    · next hlist =>
      obtain rfl := Except.ok.inj he₁
      exact ⟨rfl, rfl, hkept,
        Or.inr ⟨hidle.2, rfl, Or.inl ⟨not_not.mp hlist, not_not.mp hlist⟩⟩⟩
  · next hbusy =>
    obtain rfl := Except.ok.inj h
    exact ⟨⟨rfl, rfl, hkept, Or.inl ⟨rfl, rfl⟩⟩,
      fun hstatus => Bool.eq_false_iff.mpr fun hrun => hbusy ⟨hrun, hstatus⟩⟩

/-- Neither stops the kernel with anything freed. -/
theorem shutdownWhenIdle_error (h : shutdownWhenIdle e rx = .error e') : e' = e := by
  unfold shutdownWhenIdle at h
  split at h
  · split at h
    · unfold engineTransferDequeue at h
      split at h
      · exact (Except.error.inj h).symm
      split at h
      · exact (Except.error.inj h).symm
      · cases h
    · cases h
  · cases h

theorem cyclicShutdownPolled_cases (h : cyclicShutdownPolled e rx status = .ok e') :
    CyclicServiced e e' rx status ∧ (status &&& XDMA_STAT_BUSY = 0 → e'.running = false) := by
  obtain ⟨⟨hstarted, hfreed, htransfers, hqueue⟩, hidle⟩ := shutdownWhenIdle_cases h
  exact ⟨⟨hstarted, hfreed, htransfers, hqueue⟩, hidle⟩

theorem wakeUp_transfers (e : XdmaEngine) (p q : Ptr) :
    ∃ n, (wakeUp e p).transfers q = { e.transfers q with wakeUps := n } := by
  rcases eq_or_ne q p with rfl | hne
  · exact ⟨_, Function.update_self _ _ _⟩
  · exact ⟨(e.transfers q).wakeUps, Function.update_of_ne hne _ _⟩

/-- The inversion lemma for `engine_service_cyclic`. -/
theorem engineServiceCyclic_cases {p : Ptr} {eopCount : ℕ} {rc : ℤ}
    (h : engineServiceCyclic e p status eopCount = .ok (e', rc)) :
    CyclicServiced e e' (some p) status := by
  unfold engineServiceCyclic at h
  split at h
  · unfold engineServiceCyclicPolled at h
    split at h
    · obtain ⟨e₁, he₁, hpair⟩ := Except.map_eq_ok h
      obtain ⟨rfl, -⟩ := Prod.mk.inj hpair
      exact (cyclicShutdownPolled_cases he₁).1
    · obtain ⟨rfl, -⟩ := Prod.mk.inj (Except.ok.inj h)
      exact ⟨rfl, rfl, fun q => ⟨(e.transfers q).wakeUps, rfl⟩, Or.inl ⟨rfl, rfl⟩⟩
  · unfold engineServiceCyclicInterrupt at h
    obtain ⟨e₁, he₁, hpair⟩ := Except.map_eq_ok h
    obtain ⟨rfl, -⟩ := Prod.mk.inj hpair
    split at he₁
    · obtain ⟨⟨hstarted, hfreed, htransfers, hqueue⟩, -⟩ := shutdownWhenIdle_cases he₁
      refine ⟨hstarted, hfreed, fun q => ?_, hqueue⟩
      obtain ⟨n, hn⟩ := htransfers q
      obtain ⟨m, hm⟩ := wakeUp_transfers (engineStatusRead e status) p q
      exact ⟨n, by rw [hn, hm]; rfl⟩
    · exact (cyclicShutdownPolled_cases he₁).1

/-- Where it stops the kernel, it has taken nothing off the queue. -/
theorem engineServiceCyclic_error {p : Ptr} {eopCount : ℕ}
    (h : engineServiceCyclic e p status eopCount = .error e') :
    CyclicServiced e e' (some p) status := by
  unfold engineServiceCyclic at h
  split at h
  · unfold engineServiceCyclicPolled at h
    split at h
    · rw [shutdownWhenIdle_error (Except.map_eq_error h)]
      exact ⟨rfl, rfl, fun q => ⟨(e.transfers q).wakeUps, rfl⟩, Or.inl ⟨rfl, rfl⟩⟩
    · cases h
  · unfold engineServiceCyclicInterrupt at h
    rw [shutdownWhenIdle_error (Except.map_eq_error h)]
    split
    · exact ⟨rfl, rfl, fun q => wakeUp_transfers (engineStatusRead e status) p q,
        Or.inl ⟨rfl, rfl⟩⟩
    · exact ⟨rfl, rfl, fun q => ⟨(e.transfers q).wakeUps, rfl⟩, Or.inl ⟨rfl, rfl⟩⟩

end Wimi
