import Mathlib

/-!
# Packets in a circular log

`Holds n slot log lo` : of the slots `0` to `n - 1` those of the items from `lo` on hold the
items, item `k` in slot `k % n`, and the others are empty. A writer that only fills the next
slot when it is empty, and a reader that only empties the slot of the first item, keep it
(`Holds.push`, `Holds.pop`).

`closed last p bs` are the packets of the blocks `bs` behind the open packet `p`, each ended by
its last block, and `rest last p bs` is the packet that is left open.
-/

namespace Circular

variable {β : Type*} {n : ℕ} {slot : ℕ → Option β} {log : List β} {lo : ℕ}

/-- The slots hold the items of the log from `lo` on. -/
structure Holds (n : ℕ) (slot : ℕ → Option β) (log : List β) (lo : ℕ) : Prop where
  le : lo ≤ log.length
  room : log.length ≤ lo + n
  get : ∀ k, lo ≤ k → k < log.length → slot (k % n) = log[k]?
  empty : ∀ k, log.length ≤ k → k < lo + n → slot (k % n) = none

/-- Less than a round apart, two positions have different slots. -/
theorem mod_ne {a b : ℕ} (hlt : a < b) (hround : b < a + n) : b % n ≠ a % n := by
  intro heq
  have hdvd : n ∣ b - a := (Nat.modEq_iff_dvd' hlt.le).mp heq.symm
  have := Nat.le_of_dvd (by omega) hdvd
  omega

theorem holds_nil (hempty : ∀ i < n, slot i = none) (hn : 0 < n) : Holds n slot [] 0 where
  le := le_rfl
  room := Nat.zero_le _
  get k _ hk := absurd hk (Nat.not_lt_zero k)
  empty k _ _ := hempty _ (Nat.mod_lt k hn)

/-- The slot of the first item holds it, and is empty when there is none. -/
theorem Holds.head (h : Holds n slot log lo) (hn : 0 < n) : slot (lo % n) = log[lo]? := by
  rcases h.le.lt_or_eq with hlt | heq
  · exact h.get lo le_rfl hlt
  · rw [h.empty lo heq.ge (by omega), heq, List.getElem?_eq_none le_rfl]

/-- The next slot is empty only when there is room. -/
theorem Holds.lt_of_empty (h : Holds n slot log lo) (hn : 0 < n)
    (hempty : slot (log.length % n) = none) : log.length < lo + n := by
  refine lt_of_le_of_ne h.room fun heq => ?_
  have hlt : lo < log.length := by omega
  rw [heq, Nat.add_mod_right, h.get lo le_rfl hlt, List.getElem?_eq_getElem hlt] at hempty
  cases hempty

/-- Writing an item to the next slot, which was empty. -/
theorem Holds.push (h : Holds n slot log lo) (hn : 0 < n)
    (hempty : slot (log.length % n) = none) (b : β) :
    Holds n (Function.update slot (log.length % n) (some b)) (log ++ [b]) lo := by
  have hle := h.le
  have hroom := h.lt_of_empty hn hempty
  have hlength : (log ++ [b]).length = log.length + 1 := by simp
  refine ⟨by omega, by omega, fun k hk hlt => ?_, fun k hk hlt => ?_⟩
  · rcases Nat.lt_succ_iff_lt_or_eq.mp (hlength ▸ hlt) with hold | rfl
    · rw [Function.update_of_ne (mod_ne hold (by omega)).symm, h.get k hk hold,
        List.getElem?_append_left hold]
    · rw [Function.update_self, List.getElem?_append_right le_rfl, Nat.sub_self]
      rfl
  · rw [Function.update_of_ne (mod_ne (by omega) (by omega))]
    exact h.empty k (by omega) hlt

/-- Emptying the slot of the first item. -/
theorem Holds.pop (h : Holds n slot log lo) (hlt : lo < log.length) :
    Holds n (Function.update slot (lo % n) none) log (lo + 1) := by
  refine ⟨hlt, by have := h.room; omega, fun k hk hk' => ?_, fun k hk hk' => ?_⟩
  · have := h.room
    rw [Function.update_of_ne (mod_ne (by omega) (by omega))]
    exact h.get k (by omega) hk'
  · rcases Nat.lt_succ_iff_lt_or_eq.mp (show k < lo + n + 1 by omega) with hold | rfl
    · rw [Function.update_of_ne (mod_ne (by omega) hold)]
      exact h.empty k hk hold
    · rw [Nat.add_mod_right, Function.update_self]

end Circular

namespace Packets

variable {β : Type*} (last : β → Bool)

/-- The packets ended among the blocks, the first of them begun with `p`. -/
def closed (p : List β) : List β → List (List β)
  | [] => []
  | b :: bs => if last b then (p ++ [b]) :: closed [] bs else closed (p ++ [b]) bs

/-- The packet left open behind the blocks. -/
def rest (p : List β) : List β → List β
  | [] => p
  | b :: bs => if last b then rest [] bs else rest (p ++ [b]) bs

variable {last} {p : List β}

theorem closed_append (bs cs : List β) :
    closed last p (bs ++ cs) = closed last p bs ++ closed last (rest last p bs) cs := by
  induction bs generalizing p with
  | nil => rfl
  | cons b bs ih =>
    simp only [List.cons_append, closed, rest]
    split
    · rw [ih, List.cons_append]
    · exact ih

theorem rest_append (bs cs : List β) :
    rest last p (bs ++ cs) = rest last (rest last p bs) cs := by
  induction bs generalizing p with
  | nil => rfl
  | cons b bs ih =>
    simp only [List.cons_append, rest]
    split <;> exact ih

/-- A last block closes the open packet. -/
theorem closed_concat_last {b : β} (h : last b = true) (bs : List β) :
    closed last p (bs ++ [b]) = closed last p bs ++ [rest last p bs ++ [b]] ∧
      rest last p (bs ++ [b]) = [] := by
  rw [closed_append, rest_append, closed, rest, if_pos h, if_pos h]
  exact ⟨rfl, rfl⟩

/-- Any other block extends it. -/
theorem closed_concat {b : β} (h : last b = false) (bs : List β) :
    closed last p (bs ++ [b]) = closed last p bs ∧
      rest last p (bs ++ [b]) = rest last p bs ++ [b] := by
  rw [closed_append, rest_append, closed, rest, if_neg (by simp [h]), if_neg (by simp [h])]
  exact ⟨List.append_nil _, rfl⟩

/-- Blocks that are not last extend it. -/
theorem closed_of_open {bs : List β} (h : ∀ b ∈ bs, last b = false) :
    closed last p bs = [] ∧ rest last p bs = p ++ bs := by
  induction bs generalizing p with
  | nil => exact ⟨rfl, (List.append_nil p).symm⟩
  | cons b bs ih =>
    obtain ⟨hclosed, hrest⟩ := ih (p := p ++ [b]) fun c hc => h c (List.mem_cons_of_mem _ hc)
    have hb : ¬ last b = true := Bool.eq_false_iff.mp (h b List.mem_cons_self)
    rw [closed, rest, if_neg hb, if_neg hb, hclosed, hrest, List.append_assoc,
      List.singleton_append]
    exact ⟨rfl, rfl⟩

/-- More blocks close more packets. -/
theorem closed_prefix {bs cs : List β} (h : bs <+: cs) : closed last p bs <+: closed last p cs := by
  obtain ⟨ds, rfl⟩ := h
  exact ⟨_, (closed_append bs ds).symm⟩

/-- Closed packets and the open one are all the blocks. -/
theorem flatten_closed (bs : List β) :
    (closed last p bs).flatten ++ rest last p bs = p ++ bs := by
  induction bs generalizing p with
  | nil => exact (List.append_nil p).symm
  | cons b bs ih =>
    simp only [closed, rest]
    split
    · rw [List.flatten_cons, List.append_assoc, ih, List.nil_append, List.append_assoc]
      rfl
    · rw [ih, List.append_assoc]
      rfl

/-- The blocks are one packet. -/
def Whole (last : β → Bool) (bs : List β) : Prop :=
  closed last [] bs = [bs] ∧ rest last [] bs = []

/-- Blocks of which only the last one is last are a packet. -/
theorem whole_of_last_iff {bs : List β} (hne : bs ≠ [])
    (h : ∀ k b, bs[k]? = some b → (last b = true ↔ k + 1 = bs.length)) : Whole last bs := by
  obtain ⟨init, b, rfl⟩ : ∃ init b, bs = init ++ [b] :=
    ⟨_, _, (List.dropLast_concat_getLast hne).symm⟩
  have hend : last b = true := (h init.length b List.getElem?_concat_length).mpr (by simp)
  have hopen : ∀ a ∈ init, last a = false := by
    intro a ha
    obtain ⟨k, hk, rfl⟩ := List.mem_iff_getElem.mp ha
    have hmid : (init ++ [b])[k]? = some init[k] := by
      rw [List.getElem?_append_left hk, List.getElem?_eq_getElem hk]
    have hlen : k + 1 ≠ (init ++ [b]).length := by
      rw [List.length_append, List.length_singleton]
      omega
    exact Bool.eq_false_iff.mpr fun hlast => hlen ((h k _ hmid).mp hlast)
  obtain ⟨hclosed, hrest⟩ := closed_of_open (p := []) hopen
  obtain ⟨hclosed', hrest'⟩ := closed_concat_last (p := []) hend init
  rw [hclosed, hrest] at hclosed'
  exact ⟨hclosed', hrest'⟩

/-- Packets behind each other are the packets of their blocks. -/
theorem closed_flatten {ps : List (List β)} (h : ∀ p ∈ ps, Whole last p) :
    closed last [] ps.flatten = ps := by
  induction ps with
  | nil => rfl
  | cons p ps ih =>
    obtain ⟨hclosed, hrest⟩ := h p List.mem_cons_self
    rw [List.flatten_cons, closed_append, hclosed, hrest,
      ih fun q hq => h q (List.mem_cons_of_mem _ hq), List.singleton_append]

end Packets
