import Mathlib

/-!
# Loops

A `while` loop given by its turn, a partial function of the state that is `none` where the loop is
left. `Exits turn n s t` : from `s` the loop is left at `t`, after `n` turns.

`exists_exits` is the rule of the loop : an invariant of the number of turns and the state, with a
bound on the number, gives that the loop is left and what holds there. `run` makes at most so many
turns, which are all that a loop needs that is left by then (`Exits.run_eq`).
-/

namespace Loop

variable {σ : Type*}

/-- From `s` the loop is left at `t`, after `n` turns. -/
inductive Exits (turn : σ → Option σ) : ℕ → σ → σ → Prop
  | here {s : σ} (h : turn s = none) : Exits turn 0 s s
  | turn {n : ℕ} {s s' t : σ} (h : turn s = some s') (hrest : Exits turn n s' t) :
    Exits turn (n + 1) s t

/-- At most `fuel` turns of the loop. -/
def run (turn : σ → Option σ) : ℕ → σ → σ
  | 0, s => s
  | fuel + 1, s =>
    match turn s with
    | none => s
    | some s' => run turn fuel s'

variable {turn : σ → Option σ} {n : ℕ} {s t : σ}

/-- The loop is over where it is left. -/
theorem Exits.over (h : Exits turn n s t) : turn t = none := by
  induction h with
  | here h => exact h
  | turn _ _ ih => exact ih

theorem Exits.run_eq (h : Exits turn n s t) {fuel : ℕ} (hn : n ≤ fuel) :
    run turn fuel s = t := by
  induction h generalizing fuel with
  | here h =>
    cases fuel with
    | zero => rfl
    | succ fuel => simp [run, h]
  | turn h _ ih =>
    obtain ⟨fuel, rfl⟩ := Nat.exists_eq_add_of_le' (Nat.one_le_of_lt hn)
    simpa [run, h] using ih (Nat.le_of_succ_le_succ hn)

/-- The rule of the loop : what holds of the state after `k` turns, with a bound on `k`. -/
theorem exists_exits {Inv : ℕ → σ → Prop} {bound : ℕ} (hle : ∀ k s, Inv k s → k ≤ bound)
    (hturn : ∀ k s s', Inv k s → turn s = some s' → Inv (k + 1) s') (hs : Inv 0 s) :
    ∃ n t, Exits turn n s t ∧ Inv n t := by
  -- by the number of turns that are left
  have hfrom (left k : ℕ) (s : σ) (hk : Inv k s) (hleft : bound - k ≤ left) :
      ∃ n t, Exits turn n s t ∧ Inv (k + n) t := by
    induction left generalizing k s with
    | zero =>
      rcases hnext : turn s with _ | s'
      · exact ⟨0, s, .here hnext, hk⟩
      · have := hle _ _ (hturn k s s' hk hnext)
        omega
    | succ left ih =>
      rcases hnext : turn s with _ | s'
      · exact ⟨0, s, .here hnext, hk⟩
      · obtain ⟨n, t, hexits, ht⟩ := ih (k + 1) s' (hturn k s s' hk hnext) (by omega)
        refine ⟨n + 1, t, .turn hnext hexits, ?_⟩
        rwa [← Nat.add_assoc, Nat.add_right_comm]
  simpa using hfrom bound 0 s hs (Nat.sub_le _ _)

end Loop
