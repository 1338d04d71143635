import Mathlib

/-!
# Ledgers of resources

What a program holds, as it acquires and releases. A release of what is not held is a fault, so
that a ledger with nothing held and no fault is that of a program that has released all it ever
acquired, each once.

`plus` is what the specifications of a program speak in : it says that more is held. A loop that
releases slot by slot what a table holds undoes the loop that filled it (`foldl_release`), in
whatever order (`sum_map_update`).

`only` is the ledger of some kind of resources. What a program does with the others does not show
in it.
-/

namespace Resources

variable {ρ κ : Type*}

/-- What is held, and what was released without being held. -/
@[ext] structure Ledger (ρ : Type*) where
  held : Multiset ρ
  faults : Multiset ρ

namespace Ledger

/-- Nothing is held. -/
def empty : Ledger ρ :=
  ⟨0, 0⟩

def acquire (l : Ledger ρ) (r : ρ) : Ledger ρ :=
  { l with held := r ::ₘ l.held }

def release [DecidableEq ρ] (l : Ledger ρ) (r : ρ) : Ledger ρ :=
  if r ∈ l.held then { l with held := l.held.erase r } else { l with faults := r ::ₘ l.faults }

/-- The ledger with `m` held besides. -/
def plus (l : Ledger ρ) (m : Multiset ρ) : Ledger ρ :=
  { l with held := m + l.held }

variable {l : Ledger ρ} {m n : Multiset ρ} {r : ρ}

@[simp] theorem plus_zero : l.plus 0 = l := by
  simp [plus]

theorem plus_plus : (l.plus m).plus n = l.plus (n + m) := by
  simp [plus, add_assoc]

theorem plus_comm : (l.plus m).plus n = (l.plus n).plus m := by
  rw [plus_plus, plus_plus, add_comm]

@[simp] theorem held_empty_plus : ((empty : Ledger ρ).plus m).held = m :=
  add_zero m

theorem acquire_eq : l.acquire r = l.plus {r} :=
  rfl

/-- What was acquired last is released. -/
@[simp] theorem release_plus [DecidableEq ρ] : (l.plus {r}).release r = l := by
  simp [plus, release]

@[simp] theorem release_acquire [DecidableEq ρ] : (l.acquire r).release r = l :=
  release_plus

/-- What was acquired before something else is released. -/
theorem release_plus_plus [DecidableEq ρ] : ((l.plus {r}).plus m).release r = l.plus m := by
  rw [plus_comm, release_plus]

/-- A loop that acquires one resource a turn. -/
theorem foldl_acquire (f : κ → ρ) (slots : List κ) (l : Ledger ρ) :
    slots.foldl (fun l k => l.acquire (f k)) l = l.plus (slots.map fun k => {f k}).sum := by
  induction slots generalizing l with
  | nil => simp
  | cons k slots ih =>
    rw [List.foldl_cons, ih, acquire_eq, plus_plus, List.map_cons, List.sum_cons, add_comm]

/-- A loop over `slots`, each of whose turns releases what the table has in its slot, releases
what it has in all of them; `v` is the ledger that is looked at. -/
theorem foldl_release_view {σ : Type*} {v : σ → Ledger ρ} {t : κ → Multiset ρ} {f : σ → κ → σ}
    (hf : ∀ s k l, v s = l.plus (t k) → v (f s k) = l) (slots : List κ) (s : σ)
    (h : v s = l.plus (slots.map t).sum) : v (slots.foldl f s) = l := by
  induction slots generalizing s with
  | nil => simpa using h
  | cons k slots ih =>
    rw [List.map_cons, List.sum_cons, ← plus_plus] at h
    exact ih _ (hf s k _ h)

theorem foldl_release {t : κ → Multiset ρ} {f : Ledger ρ → κ → Ledger ρ}
    (hf : ∀ l k, f (l.plus (t k)) k = l) (slots : List κ) (l : Ledger ρ) :
    slots.foldl f (l.plus (slots.map t).sum) = l :=
  foldl_release_view (v := id) (fun _ k l h => (congrArg (f · k) h).trans (hf l k)) slots _ rfl

/-! ## A kind of resources -/

section Only

variable {p : ρ → Prop} [DecidablePred p]

/-- The ledger of the resources `p` holds of. -/
def only (p : ρ → Prop) [DecidablePred p] (l : Ledger ρ) : Ledger ρ :=
  { l with held := l.held.filter p }

theorem only_acquire (hr : p r) : (l.acquire r).only p = (l.only p).acquire r := by
  simp [only, acquire, hr]

/-- What `p` does not hold of is not in the ledger of `p`. -/
theorem only_acquire_of_not (hr : ¬ p r) : (l.acquire r).only p = l.only p := by
  simp [only, acquire, hr]

theorem only_release [DecidableEq ρ] (hr : p r) :
    (l.release r).only p = (l.only p).release r := by
  by_cases hmem : r ∈ l.held
  · obtain ⟨m, hm⟩ := Multiset.exists_cons_of_mem hmem
    simp [only, release, hm, hr]
  · simp [only, release, hmem]

theorem only_release_of_not [DecidableEq ρ] (hr : ¬ p r) (hmem : r ∈ l.held) :
    (l.release r).only p = l.only p := by
  have hheld : r ::ₘ l.held.erase r = l.held := Multiset.cons_erase hmem
  rw [release, if_pos hmem, only, only, ← Multiset.filter_cons_of_neg _ hr, hheld]

theorem only_self (h : ∀ x ∈ l.held, p x) : l.only p = l := by
  rw [only, Multiset.filter_eq_self.mpr h]

/-- A ledger that shows nothing but `l` holds, besides, what `p` does not hold of. -/
theorem eq_plus_of_only {l' : Ledger ρ} (h : l'.only p = l) :
    ∃ m : Multiset ρ, (∀ x ∈ m, ¬ p x) ∧ l' = l.plus m := by
  refine ⟨l'.held.filter fun x => ¬ p x, fun x hx => (Multiset.mem_filter.mp hx).2, ?_⟩
  rw [← h, plus, only, add_comm]
  simp only [Multiset.filter_add_not]

end Only

end Ledger

/-- What is in a table is in one of its slots. -/
theorem mem_sum_map {slots : List κ} {t : κ → Multiset ρ} {r : ρ}
    (h : r ∈ (slots.map t).sum) : ∃ k ∈ slots, r ∈ t k := by
  induction slots with
  | nil => cases h
  | cons k slots ih =>
    rw [List.map_cons, List.sum_cons] at h
    rcases Multiset.mem_add.mp h with h | h
    · exact ⟨k, List.mem_cons_self, h⟩
    · obtain ⟨k', hk', hr⟩ := ih h
      exact ⟨k', List.mem_cons_of_mem k hk', hr⟩

/-- A slot that was empty adds what is put there to the table. -/
theorem sum_map_update [DecidableEq κ] {slots : List κ} {t : κ → Multiset ρ} {k : κ}
    {m : Multiset ρ} (hnodup : slots.Nodup) (hk : k ∈ slots) (h0 : t k = 0) :
    (slots.map (Function.update t k m)).sum = m + (slots.map t).sum := by
  induction slots with
  | nil => cases hk
  | cons a slots ih =>
    obtain ⟨ha, hnodup⟩ := List.nodup_cons.mp hnodup
    rw [List.map_cons, List.sum_cons, List.map_cons, List.sum_cons]
    rcases eq_or_ne a k with rfl | hne
    · have hrest : slots.map (Function.update t a m) = slots.map t := by
        refine List.map_congr_left fun b hb => Function.update_of_ne ?_ _ _
        rintro rfl
        exact ha hb
      rw [Function.update_self, hrest, h0, zero_add]
    · have hk' : k ∈ slots := (List.mem_cons.mp hk).resolve_left hne.symm
      rw [Function.update_of_ne hne, ih hnodup hk', add_left_comm]

end Resources
