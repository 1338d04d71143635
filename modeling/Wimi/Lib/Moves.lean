import Mathlib

/-!
# Cells moved between two memories

A memory is a function from addresses to cells. A move takes the cell at an address of the one
memory to an address of the other; `move src ms dst` is `dst` after the moves `ms` from `src`, in
order.

* `move_of_mem`, `move_of_not_mem` : where no address is moved to twice, the order is of no account;
* `move_zip` : a list of cells moved to a list of as many addresses;
* `copied_move` : a copy of cells.
-/

namespace Moves

variable {α β γ : Type*} [DecidableEq β]

/-- The memory `dst` after the moves `ms` from `src`. -/
def move (src : α → γ) (ms : List (α × β)) (dst : β → γ) : β → γ :=
  ms.foldl (fun d m => Function.update d m.2 (src m.1)) dst

variable {src : α → γ} {ms : List (α × β)} {dst : β → γ} {a : α} {b : β}

/-- What is not moved to stays. -/
theorem move_of_not_mem (h : b ∉ ms.map Prod.snd) : move src ms dst b = dst b := by
  induction ms generalizing dst with
  | nil => rfl
  | cons m ms ih =>
    rw [List.map_cons, List.mem_cons, not_or] at h
    exact (ih h.2).trans (Function.update_of_ne h.1 _ _)

/-- What is moved to once holds what it was moved from. -/
theorem move_of_mem (hnodup : (ms.map Prod.snd).Nodup) (h : (a, b) ∈ ms) :
    move src ms dst b = src a := by
  induction ms generalizing dst with
  | nil => cases h
  | cons m ms ih =>
    rw [List.map_cons, List.nodup_cons] at hnodup
    rcases List.mem_cons.mp h with rfl | hmem
    · exact (move_of_not_mem hnodup.1).trans (Function.update_self _ _ _)
    · exact ih hnodup.2 hmem

/-- What is only moved to from `a`, if at all, holds what is there. -/
theorem move_of_forall (hmem : b ∈ ms.map Prod.snd) (hall : ∀ m ∈ ms, m.2 = b → m.1 = a) :
    move src ms dst b = src a := by
  induction ms generalizing dst with
  | nil => cases hmem
  | cons m ms ih =>
    have hrest : ∀ m' ∈ ms, m'.2 = b → m'.1 = a :=
      fun m' hm' => hall m' (List.mem_cons_of_mem _ hm')
    by_cases hlater : b ∈ ms.map Prod.snd
    · exact ih hlater hrest
    · have hb : m.2 = b := (List.mem_cons.mp hmem).resolve_right hlater |>.symm
      refine (move_of_not_mem hlater).trans ?_
      rw [← hall m List.mem_cons_self hb, ← hb]
      exact Function.update_self _ _ _

section Zip

variable {as : List α} {bs : List β}

/-- Only the addresses of the list are moved to. -/
theorem move_zip_of_not_mem (h : b ∉ bs) : move src (as.zip bs) dst b = dst b := by
  refine move_of_not_mem fun hmem => h ?_
  obtain ⟨m, hm, rfl⟩ := List.mem_map.mp hmem
  exact (List.of_mem_zip hm).2

variable (src dst) in
/-- Each address of the list holds the cell it is paired with. -/
theorem move_zip (hnodup : bs.Nodup) (hlen : as.length = bs.length) {i : ℕ} (ha : i < as.length)
    (hb : i < bs.length) : move src (as.zip bs) dst bs[i] = src as[i] := by
  refine move_of_mem ?_ (List.mem_iff_getElem.mpr ⟨i, ?_, List.getElem_zip⟩)
  · rwa [List.map_snd_zip hlen.ge]
  · rwa [List.length_zip, hlen, min_self]

end Zip

/-! ## Copies -/

/-- `mem'` is `mem` with the first `n` cells of `cells` at the addresses `addr`. -/
structure Copied (cells : ℕ → γ) (addr : ℕ → β) (n : ℕ) (mem mem' : β → γ) : Prop where
  cell : ∀ i < n, mem' (addr i) = cells i
  frame : ∀ b, (∀ i < n, addr i ≠ b) → mem' b = mem b

/-- Moves of cells to addresses that are all different copy them. -/
theorem copied_move (f : ℕ → α) {g : ℕ → β} {n : ℕ} (hnodup : ((List.range n).map g).Nodup)
    (src : α → γ) (dst : β → γ) :
    Copied (fun i => src (f i)) g n dst
      (move src (((List.range n).map f).zip ((List.range n).map g)) dst) where
  cell i hi := by
    have hlen : ((List.range n).map f).length = ((List.range n).map g).length := by simp
    have hf : i < ((List.range n).map f).length := by simpa using hi
    have hg : i < ((List.range n).map g).length := by simpa using hi
    simpa using move_zip src dst hnodup hlen hf hg
  frame b hb := by
    refine move_zip_of_not_mem fun hmem => ?_
    obtain ⟨i, hi, rfl⟩ := List.mem_map.mp hmem
    exact hb i (List.mem_range.mp hi) rfl

end Moves
