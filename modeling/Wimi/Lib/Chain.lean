import Mathlib

/-!
# Linked chains in memory

A chain is a set of nodes in a memory with addresses of type `α` : `fetch` finds the node
at an address, `next` the address a node points to, and `stops` tells the last node.

* `walk_eq` : what a reader that follows the pointers visits;
* `visits_of_walk`, `visits_eq` : what it visits in some number of steps, where a node stops it and
  where none does;
* `cover_append` : the addresses of two adjacent ranges;
* `nodup_cover` : a range that is not longer than the address space has no address twice.
-/

namespace Chain

/-! ## Walks -/

section Walk

variable {α ν : Type*} (fetch : α → Option ν) (next : ν → α) (stops : ν → Bool)

/-- The nodes visited from address `a` up to the first that stops, or `none` when the fuel
runs out or a pointer leads out of the memory. -/
def walk : ℕ → α → Option (List ν)
  | 0, _ => none
  | fuel + 1, a => do
    let n ← fetch a
    if stops n then some [n]
    else do
      let ns ← walk fuel (next n)
      some (n :: ns)

variable {fetch next stops}

theorem walk_stop {a : α} {n : ν} (hf : fetch a = some n) (hs : stops n = true) (fuel : ℕ) :
    walk fetch next stops (fuel + 1) a = some [n] := by
  simp [walk, hf, hs]

theorem walk_next {a : α} {n : ν} {ns : List ν} {fuel : ℕ} (hf : fetch a = some n)
    (hs : stops n = false) (hn : walk fetch next stops fuel (next n) = some ns) :
    walk fetch next stops (fuel + 1) a = some (n :: ns) := by
  simp [walk, hf, hs, hn]

/-- A walk along nodes `i` to `m`, each linked to the one behind it, of which only the
last stops. -/
theorem walk_from {addr : ℕ → α} {node : ℕ → ν} {m : ℕ}
    (hfetch : ∀ k ≤ m, fetch (addr k) = some (node k))
    (hnext : ∀ k < m, next (node k) = addr (k + 1))
    (hstop : ∀ k ≤ m, stops (node k) = true ↔ k = m) :
    ∀ d i fuel, i + d = m → d < fuel →
      walk fetch next stops fuel (addr i) = some ((List.range' i (d + 1)).map node) := by
  intro d
  induction d with
  | zero =>
    intro i fuel him hfuel
    obtain ⟨fuel, rfl⟩ := Nat.exists_eq_add_one.mpr hfuel
    exact walk_stop (hfetch i him.le) ((hstop i him.le).mpr him) fuel
  | succ d ih =>
    intro i fuel him hfuel
    obtain ⟨fuel, rfl⟩ : ∃ f, fuel = f + 1 := ⟨fuel - 1, by omega⟩
    have hs : stops (node i) = false := by
      rw [Bool.eq_false_iff, Ne, hstop i (by omega)]
      omega
    rw [List.range'_succ, List.map_cons]
    refine walk_next (hfetch i (by omega)) hs ?_
    rw [hnext i (by omega)]
    exact ih (i + 1) fuel (by omega) (by omega)

/-- The walk from the first node visits every node once, in order. -/
theorem walk_eq {addr : ℕ → α} {node : ℕ → ν} {m fuel : ℕ}
    (hfetch : ∀ k ≤ m, fetch (addr k) = some (node k))
    (hnext : ∀ k < m, next (node k) = addr (k + 1))
    (hstop : ∀ k ≤ m, stops (node k) = true ↔ k = m) (hfuel : m < fuel) :
    walk fetch next stops fuel (addr 0) = some ((List.range (m + 1)).map node) := by
  rw [List.range_eq_range']
  exact walk_from hfetch hnext hstop m 0 fuel (by omega) hfuel

variable (fetch next stops) in
/-- The nodes visited from address `a` in at most `n` steps, or `none` when a pointer leads out of
the memory. -/
def visits : ℕ → α → Option (List ν)
  | 0, _ => some []
  | n + 1, a => do
    let node ← fetch a
    if stops node then some [node]
    else do
      let nodes ← visits n (next node)
      some (node :: nodes)

/-- A reader that comes to the end of its walk has visited the first nodes of it before. -/
theorem visits_of_walk {fuel : ℕ} {a : α} {ns : List ν}
    (h : walk fetch next stops fuel a = some ns) (n : ℕ) :
    visits fetch next stops n a = some (ns.take n) := by
  induction fuel generalizing a ns n with
  | zero => cases h
  | succ fuel ih =>
    obtain ⟨node, hfetch, h⟩ := Option.bind_eq_some_iff.mp h
    cases n with
    | zero => rfl
    | succ n =>
      rw [visits, hfetch, Option.bind_eq_bind, Option.bind_some]
      split at h
      · next hstop =>
        obtain rfl := Option.some.inj h
        rw [if_pos hstop, List.take_succ_cons, List.take_nil]
      · next hgo =>
        obtain ⟨rest, hrest, h⟩ := Option.bind_eq_some_iff.mp h
        obtain rfl := Option.some.inj h
        rw [if_neg hgo, ih hrest n]
        rfl

/-- Along nodes that are linked to each other and never stop, every step visits one. -/
theorem visits_eq (addr : ℕ → α) (node : ℕ → ν) (hfetch : ∀ k, fetch (addr k) = some (node k))
    (hnext : ∀ k, next (node k) = addr (k + 1)) (hstop : ∀ k, stops (node k) = false) (i n : ℕ) :
    visits fetch next stops n (addr i) = some ((List.range' i n).map node) := by
  induction n generalizing i with
  | zero => rfl
  | succ n ih =>
    have hrest := ih (i + 1)
    rw [← hnext i] at hrest
    rw [visits, hfetch i, Option.bind_eq_bind, Option.bind_some, hstop i, hrest]
    rfl

end Walk

/-! ## Ranges of addresses -/

variable {w : ℕ}

/-- The `n` addresses from `a` on. -/
def cover (a : BitVec w) (n : ℕ) : List (BitVec w) :=
  (List.range n).map fun k => a + BitVec.ofNat w k

@[simp] theorem cover_zero (a : BitVec w) : cover a 0 = [] :=
  rfl

/-- A range splits at any point, also when it runs over the top address. -/
theorem cover_append (a : BitVec w) (m n : ℕ) :
    cover a (m + n) = cover a m ++ cover (a + BitVec.ofNat w m) n := by
  simp only [cover, List.range_add, List.map_append, List.map_map]
  congr 1
  refine List.map_congr_left fun k _ => ?_
  simp [BitVec.ofNat_add, BitVec.add_assoc]

@[simp] theorem length_cover (a : BitVec w) (n : ℕ) : (cover a n).length = n := by
  rw [cover, List.length_map, List.length_range]

/-- How far an address is into a range. -/
theorem toNat_sub_cover (a : BitVec w) {k : ℕ} (hk : k < 2 ^ w) :
    (a + BitVec.ofNat w k - a).toNat = k := by
  rw [BitVec.add_comm, BitVec.add_sub_cancel, BitVec.toNat_ofNat, Nat.mod_eq_of_lt hk]

theorem nodup_cover (a : BitVec w) {n : ℕ} (hn : n ≤ 2 ^ w) : (cover a n).Nodup := by
  refine (List.nodup_map_iff_inj_on List.nodup_range).mpr fun i hi j hj heq => ?_
  have hsub := congrArg (fun x => (x - a).toNat) heq
  rwa [toNat_sub_cover a ((List.mem_range.mp hi).trans_le hn),
    toNat_sub_cover a ((List.mem_range.mp hj).trans_le hn)] at hsub

end Chain
