import Mathlib

/-!
# Buffers written in pieces

A buffer is a function from offsets to its cells. `overwrite b off xs` is the buffer after a write
of `xs` from offset `off` on; pieces written one behind the other are one write of all of them.
-/

namespace Buffer

variable {α : Type*}

/-- The buffer `b` with the cells `xs` from offset `off` on. -/
def overwrite (b : ℕ → α) (off : ℕ) (xs : List α) (i : ℕ) : α :=
  if off ≤ i then xs.getD (i - off) (b i) else b i

variable (b : ℕ → α) (off : ℕ) (xs ys : List α)

@[simp] theorem overwrite_nil : overwrite b off [] = b := by
  funext i
  rw [overwrite, List.getD_nil, ite_self]

variable {b off xs} in
/-- The cells outside of a write stay. -/
theorem overwrite_outside {i : ℕ} (h : i < off ∨ off + xs.length ≤ i) :
    overwrite b off xs i = b i := by
  rw [overwrite]
  split
  · rw [List.getD_eq_default _ _ (by omega)]
  · rfl

/-- Two writes, the one behind the other. -/
theorem overwrite_append :
    overwrite (overwrite b off xs) (off + xs.length) ys = overwrite b off (xs ++ ys) := by
  funext i
  by_cases hfirst : i < off + xs.length
  · rw [overwrite_outside (Or.inl hfirst)]
    by_cases hoff : off ≤ i
    · rw [overwrite, overwrite, if_pos hoff, if_pos hoff, List.getD_append _ _ _ _ (by omega)]
    · rw [overwrite, overwrite, if_neg hoff, if_neg hoff]
  · have hold : overwrite b off xs i = b i := overwrite_outside (Or.inr (by omega))
    have hsub : i - off - xs.length = i - (off + xs.length) := by omega
    rw [overwrite, if_pos (by omega), hold, overwrite, if_pos (by omega),
      List.getD_append_right _ _ _ _ (by omega), hsub]

end Buffer
