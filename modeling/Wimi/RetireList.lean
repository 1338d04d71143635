import Wimi.EngineRuns
import Wimi.Lib.Loop
import Wimi.Lib.Prefix

/-!
# What is popped off the queue

`engine_service_transfer_list` takes the transfers off the queue that the completed descriptors pay
for, each with descriptors left over. Here its loop is given by its turn, which reads the next
transfer from the queue, and what it pops is compared with the longest prefix of the queue that is
paid for.

A transfer that ends an asynchronous request is freed and its request completed, where any other is
woken; and on an empty queue the function stops the kernel. `retire_list` : the rest is as it should
be, for all queues and counts.
-/

open Loop Prefix

namespace Wimi

open XdmaEngine

/-! ## What should be popped -/

/-- The engine, `transfer` and `*pdesc_completed` in the loop. -/
abbrev RetireState := XdmaEngine × Option Ptr × U32

/-- One turn of the loop of `engine_service_transfer_list`. -/
def retireTurn : RetireState → Option RetireState
  | (_, none, _) => none
  | (e, some p, descCompleted) =>
    let transfer := e.transfers p
    if ¬ transfer.cyclic ∧ descCompleted > transfer.descNum then
      let e := retireHead e p .completed
      some (e, e.transferList.head?, descCompleted - transfer.descNum)
    else none

/-- Each of the transfers is not cyclic, and has fewer than `c` descriptors with those before it. -/
def PaidWith (e : XdmaEngine) (c : U32) (done : List Ptr) : Prop :=
  ∀ before p, before ++ [p] <+: done →
    e.cyclicOf p = false ∧ descriptorsOf e (before ++ [p]) < c.toNat

/-- The longest prefix that `c` pays for is popped, and what is left of `c` with what the engine
counts is `c`. The rest of the queue is as before, and its head is returned. -/
structure Popped (e : XdmaEngine) (c : U32) (done : List Ptr) (s : RetireState) : Prop where
  longest : Longest (PaidWith e c) e.transferList done
  list : s.1.transferList = e.transferList.drop done.length
  others : ∀ p ∉ done, s.1.transfers p = e.transfers p
  transfer : s.2.1 = s.1.transferList.head?
  left : s.2.2.toNat + descriptorsOf e done = c.toNat
  dequeued : s.2.2 + (s.1.descDequeued - e.descDequeued) = c

/-- The function returns, its loop ends, and what is popped is left with `After`. -/
def ServesList (e : XdmaEngine) (c : U32) (After : List Ptr → XdmaEngine → Prop) : Prop :=
  ∃ s done n, engineServiceTransferList e e.transferList.head? c = .ok s ∧
    Exits retireTurn n (e, e.transferList.head?, c) s ∧ Popped e c done s ∧ After done s.1

/-- All that is popped is completed and woken once. -/
def AllWoken (e : XdmaEngine) (done : List Ptr) (e' : XdmaEngine) : Prop :=
  ∀ p ∈ done, e'.transfers p =
    { e.transfers p with state := .completed, wakeUps := (e.transfers p).wakeUps + 1 }

/-! ## What is popped -/

section Popped

variable {e : XdmaEngine} {d d' : U32} {done rest : List Ptr}

theorem Retires.paidWith (h : Retires e.descNumOf e.cyclicOf d done d') : PaidWith e d done := by
  induction h with
  | nil d =>
    intro before p hp
    exact absurd (List.prefix_nil.mp hp) (by simp)
  | @cons d d' q done hcyclic hlt _ ih =>
    intro before p hp
    have hlt' : (e.descNumOf q).toNat < d.toNat := hlt
    rcases before with _ | ⟨r, before⟩
    · obtain ⟨rfl, -⟩ := List.cons_prefix_cons.mp hp
      exact ⟨hcyclic, by simpa [descriptorsOf] using hlt'⟩
    · obtain ⟨rfl, hrest⟩ := List.cons_prefix_cons.mp hp
      obtain ⟨hc, hsum⟩ := ih before p hrest
      rw [BitVec.toNat_sub_of_le (BitVec.le_of_lt hlt)] at hsum
      refine ⟨hc, ?_⟩
      rw [List.cons_append, descriptorsOf_cons]
      omega

/-- What is left over is what there was, less the sum of what was paid. -/
theorem Retires.add_sum {num : Ptr → U32} {cyclic : Ptr → Bool}
    (h : Retires num cyclic d done d') : d' + (done.map num).sum = d := by
  induction h with
  | nil d => exact BitVec.add_zero d
  | @cons d d' p done _ _ _ ih =>
    rw [List.map_cons, List.sum_cons, BitVec.add_comm (num p), ← BitVec.add_assoc, ih,
      BitVec.sub_add_cancel]

/-- Where the loop stops, the next transfer is not paid for. -/
theorem Retires.longest (h : Retires e.descNumOf e.cyclicOf d done d')
    (hstop : ∀ p ∈ rest.head?, e.cyclicOf p = true ∨ d' ≤ e.descNumOf p) :
    Longest (PaidWith e d) (done ++ rest) done := by
  refine longest_of_next (fun hqr hr before p hp => hr before p (hp.trans hqr)) h.paidWith ?_
  intro p hp hpaid
  obtain ⟨hcyclic, hlt⟩ := hpaid done p (List.prefix_refl _)
  have hle : d'.toNat ≤ (e.descNumOf p).toNat :=
    (hstop p hp).resolve_left fun hc => absurd (hc.symm.trans hcyclic) (by decide)
  have hsum := h.toNat_eq.1
  rw [descriptorsOf_append, descriptorsOf_cons] at hlt
  omega

theorem Retires.popped (h : Retires e.descNumOf e.cyclicOf d done d')
    (hstop : ∀ p ∈ rest.head?, e.cyclicOf p = true ∨ d' ≤ e.descNumOf p)
    (hlist : e.transferList = done ++ rest) :
    Popped e d done (retireAll e done, rest.head?, d') where
  longest := by
    rw [hlist]
    exact h.longest hstop
  list := retireAll_transferList e done
  others _ hp := retireAll_of_not_mem e done hp
  transfer := by
    rw [retireAll_transferList, hlist, List.drop_left]
  left := by
    rw [h.toNat_eq.1, Nat.add_comm]
  dequeued := by
    rw [retireAll_descDequeued, BitVec.add_comm e.descDequeued, BitVec.add_sub_cancel, h.add_sum]

end Popped

/-- The turns go through the queue as the recursion on it does. -/
theorem retireLoop_exits (e : XdmaEngine) (d : U32) {queue : List Ptr}
    (hlist : e.transferList = queue) :
    ∃ n, Exits retireTurn n (e, queue.head?, d) (retireLoop e d queue) := by
  induction queue generalizing e d with
  | nil => exact ⟨0, .here rfl⟩
  | cons p queue ih =>
    rw [retireLoop]
    split
    · next hpay =>
      have htail : (retireHead e p .completed).transferList = queue := by
        rw [retireHead_transferList, hlist, List.tail_cons]
      obtain ⟨n, hexits⟩ := ih (retireHead e p .completed) (d - (e.transfers p).descNum) htail
      refine ⟨n + 1, .turn ?_ hexits⟩
      rw [List.head?_cons, retireTurn, if_pos hpay, ← htail]
    · next hpay => exact ⟨0, .here (if_neg hpay)⟩

/-- On a queue with a transfer the loop ends and pops the longest prefix that is paid for, and each
of it is completed and woken, or freed with its request completed. On an empty queue the function
stops the kernel. -/
theorem retire_list (e : XdmaEngine) (c : U32) (hnodup : e.transferList.Nodup) :
    (e.transferList = [] →
      engineServiceTransferList e e.transferList.head? c = .error e) ∧
    (e.transferList ≠ [] → ServesList e c (AllRetired e)) := by
  refine ⟨fun hnil => by rw [hnil]; rfl, fun hne => ?_⟩
  obtain ⟨done, rest, d', hlist, hretires, hloop, hstop⟩ := retireLoop_eq e c e.transferList
  obtain ⟨n, hexits⟩ := retireLoop_exits e c rfl
  have hserves : engineServiceTransferList e e.transferList.head? c =
      .ok (retireLoop e c e.transferList) := by
    rcases hqueue : e.transferList with _ | ⟨p, queue⟩
    · exact absurd hqueue hne
    · rw [List.head?_cons, engineServiceTransferList, hqueue]
  have hdone : done.Nodup := by
    rw [hlist] at hnodup
    exact (List.nodup_append.mp hnodup).1
  rw [hloop] at hexits hserves
  exact ⟨_, done, n, hserves, hexits, hretires.popped hstop hlist, retireAll_retired e hdone⟩

/-- Of two transfers the first is paid for. -/
theorem retire_list_two :
    let e : XdmaEngine :=
      { engineCreate false false true false
          fun _ => NewTransfer.create ⟨0x1000, 1, 1, none, true, 4096⟩ with transferList := [0, 1] }
    e.transferList.Nodup ∧ ServesList e 2 (AllRetired e) := by
  intro e
  exact ⟨by decide, (retire_list e 2 (by decide)).2 (by decide)⟩

/-- Of two transfers the first is paid for, and ends an asynchronous request : it is not woken. On
an empty queue the kernel is stopped. -/
theorem retire_list_exceptions :
    let e : XdmaEngine :=
      { engineCreate false false true false
          fun _ => NewTransfer.create ⟨0x1000, 1, 1, some 0, true, 4096⟩ with
        transferList := [0, 1] }
    ¬ ServesList e 2 (AllWoken e) ∧
      ¬ ServesList { e with transferList := [] } 2 (AllWoken { e with transferList := [] }) := by
  intro e
  refine ⟨?_, fun ⟨s, done, n, hs, _⟩ => (by cases hs)⟩
  rintro ⟨s, done, n, hs, -, hpopped, hwoken⟩
  have hpaid : PaidWith e 2 [0] := Retires.paidWith (.cons rfl (by decide) (.nil _))
  have hpopped : [0] <+: done := hpopped.longest.longest [0] ⟨[1], rfl⟩ hpaid
  have hfirst := congrArg XdmaTransfer.wakeUps (hwoken 0 (hpopped.subset List.mem_cons_self))
  cases hs
  exact absurd hfirst (by decide)

end Wimi
