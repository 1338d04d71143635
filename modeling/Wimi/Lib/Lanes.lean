import Mathlib

/-!
# Lane wiring of a bit vector

Wiring that cuts a word into lanes of `k` bits and drives each lane of the result from a
slice of the source : `out[k*i +: k] = in[src i +: k]`. `lanes k src` is the wired word.
Two wirings cancel when each source slice of the first is the lane the second drives back
(`lanes_lanes`), whatever the width of a lane and the number of lanes.

`swapHalves` is the wiring `{in[k-1:0], in[2k-1:k]}`.
-/

namespace Lanes

variable {n : ℕ}

/-- The word whose bits `[k*i +: k]` are the bits `[src i +: k]` of `w`. -/
def lanes (k : ℕ) (src : ℕ → ℕ) (w : BitVec n) : BitVec n :=
  BitVec.ofFnLE fun b => w.getLsbD (src (b / k) + b % k)

theorem getLsbD_lanes (k : ℕ) (src : ℕ → ℕ) (w : BitVec n) {b : ℕ} (hb : b < n) :
    (lanes k src w).getLsbD b = w.getLsbD (src (b / k) + b % k) := by
  rw [lanes, BitVec.getLsbD_ofFnLE, dif_pos hb]

/-- Lane `i` of the wired word is the slice the table names. -/
theorem extractLsb'_lanes {k : ℕ} (src : ℕ → ℕ) (w : BitVec n) {i : ℕ} (hi : k * i + k ≤ n) :
    (lanes k src w).extractLsb' (k * i) k = w.extractLsb' (src i) k := by
  apply BitVec.eq_of_getLsbD_eq
  intro b hb
  have hdiv : (k * i + b) / k = i := by
    rw [Nat.mul_add_div (by omega), Nat.div_eq_of_lt hb, Nat.add_zero]
  have hmod : (k * i + b) % k = b := by
    rw [Nat.mul_add_mod, Nat.mod_eq_of_lt hb]
  rw [BitVec.getLsbD_extractLsb', BitVec.getLsbD_extractLsb', getLsbD_lanes _ _ _ (by omega),
    hdiv, hmod]

/-- Two wirings over `m` lanes cancel if the first reads whole lanes and the second
drives the lane read back to where the first put it. -/
theorem lanes_lanes {k m : ℕ} (hn : n = k * m) {f g : ℕ → ℕ} {σ : ℕ → ℕ}
    (hσ : ∀ i < m, σ i < m) (hf : ∀ i < m, f i = k * σ i) (hg : ∀ i < m, g (σ i) = k * i)
    (w : BitVec n) : lanes k f (lanes k g w) = w := by
  subst hn
  apply BitVec.eq_of_getLsbD_eq
  intro b hb
  have hk : 0 < k := Nat.pos_of_ne_zero fun h => by simp [h] at hb
  have hi : b / k < m := Nat.div_lt_of_lt_mul hb
  have hr : b % k < k := Nat.mod_lt b hk
  have hdiv : (k * σ (b / k) + b % k) / k = σ (b / k) := by
    rw [Nat.mul_add_div hk, Nat.div_eq_of_lt hr, Nat.add_zero]
  have hmod : (k * σ (b / k) + b % k) % k = b % k := by
    rw [Nat.mul_add_mod, Nat.mod_eq_of_lt hr]
  have hlt : k * σ (b / k) + b % k < k * m :=
    calc k * σ (b / k) + b % k < k * σ (b / k) + k := by omega
      _ = k * (σ (b / k) + 1) := by rw [Nat.mul_succ]
      _ ≤ k * m := Nat.mul_le_mul_left k (hσ _ hi)
  rw [getLsbD_lanes _ _ _ hb, hf _ hi, getLsbD_lanes _ _ _ hlt, hdiv, hmod, hg _ hi,
    Nat.div_add_mod]

/-- The two halves of a word, exchanged. -/
def swapHalves {k : ℕ} (w : BitVec (k + k)) : BitVec (k + k) :=
  w.extractLsb' 0 k ++ w.extractLsb' k k

theorem getLsbD_swapHalves {k : ℕ} (w : BitVec (k + k)) (b : ℕ) (hb : b < k + k) :
    (swapHalves w).getLsbD b = w.getLsbD (if b < k then k + b else b - k) := by
  rw [swapHalves, BitVec.getLsbD_append]
  by_cases h : b < k
  · simp [h]
  · simp [h, show b - k < k by omega]

theorem swapHalves_append {k : ℕ} (hi lo : BitVec k) : swapHalves (hi ++ lo) = lo ++ hi := by
  apply BitVec.eq_of_getLsbD_eq
  intro b hb
  rw [getLsbD_swapHalves _ _ hb, BitVec.getLsbD_append, BitVec.getLsbD_append]
  by_cases h : b < k
  · simp [h]
  · simp [h, show b - k < k by omega]

end Lanes
