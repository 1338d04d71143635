import Mathlib

/-!
# Longest prefixes

`Longest P l p` : `p` is the longest prefix of `l` with `P`. Where `P` is true of the prefixes of
what it is true of, that is the prefix after which it fails (`longest_of_next`).
-/

namespace Prefix

variable {α : Type*}

/-- `p` is a prefix of `l` with `P`, and all others are prefixes of it. -/
structure Longest (P : List α → Prop) (l p : List α) : Prop where
  isPrefix : p <+: l
  holds : P p
  longest : ∀ q, q <+: l → P q → q <+: p

variable {P : List α → Prop}

/-- A prefix with `P` that the next item ends. -/
theorem longest_of_next (hclosed : ∀ {q r : List α}, q <+: r → P r → P q) {p rest : List α}
    (hp : P p) (hnext : ∀ a ∈ rest.head?, ¬ P (p ++ [a])) : Longest P (p ++ rest) p where
  isPrefix := List.prefix_append p rest
  holds := hp
  longest q hq hPq := by
    rcases List.prefix_or_prefix_of_prefix hq (List.prefix_append p rest) with h | ⟨t, rfl⟩
    · exact h
    have ht : t <+: rest := (List.prefix_append_right_inj p).mp hq
    cases t with
    | nil => rw [List.append_nil]
    | cons a t =>
      obtain ⟨u, rfl⟩ := ht
      have hle : p ++ [a] <+: p ++ a :: t := ⟨t, by simp⟩
      exact absurd (hclosed hle hPq) (hnext a rfl)

end Prefix
