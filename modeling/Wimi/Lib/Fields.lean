import Mathlib

/-!
# Fields of packed words

A field of a word is `extractLsb' lo n` of it, its bits from `lo` on, `n` of them. Words that are
masked and merged keep the fields in which the mask is full and nothing is merged, and have what is
merged in those where the rest is clear (`field_and_of_full`, `field_or_of_clear`).

`Within m k` : the mask `m` has no bits outside of `k`, so it is clear where `k` is.
-/

namespace Fields

variable {w : ℕ}

/-- The mask has all bits of the field. -/
def Full (lo n : ℕ) (m : BitVec w) : Prop :=
  m.extractLsb' lo n = BitVec.allOnes n

/-- The word has no bit of the field. -/
def Clear (lo n : ℕ) (m : BitVec w) : Prop :=
  m.extractLsb' lo n = 0

/-- The bits of `m` are among those of `k`. -/
def Within (m k : BitVec w) : Prop :=
  m &&& ~~~k = 0

instance {lo n : ℕ} {m : BitVec w} : Decidable (Full lo n m) :=
  inferInstanceAs (Decidable (_ = _))

instance {lo n : ℕ} {m : BitVec w} : Decidable (Clear lo n m) :=
  inferInstanceAs (Decidable (_ = _))

variable {lo n : ℕ} {x y m k : BitVec w}

theorem field_and_of_full (h : Full lo n m) :
    (x &&& m).extractLsb' lo n = x.extractLsb' lo n := by
  rw [BitVec.extractLsb'_and, h, BitVec.and_allOnes]

theorem Clear.and (h : Clear lo n m) : Clear lo n (x &&& m) := by
  rw [Clear, BitVec.extractLsb'_and, h]
  exact BitVec.and_zero

theorem field_or_of_clear (h : Clear lo n y) :
    (x ||| y).extractLsb' lo n = x.extractLsb' lo n := by
  rw [BitVec.extractLsb'_or, h]
  exact BitVec.or_zero

theorem field_or_of_clear_left (h : Clear lo n x) :
    (x ||| y).extractLsb' lo n = y.extractLsb' lo n := by
  rw [BitVec.extractLsb'_or, h]
  exact BitVec.zero_or

/-- A mask has nothing where its bound has nothing. -/
theorem Within.clear (hm : Within m k) (hk : Clear lo n k) : Clear lo n m := by
  have hand : m &&& k = m := by
    calc m &&& k = (m &&& k) ||| 0 := BitVec.or_zero.symm
      _ = (m &&& k) ||| (m &&& ~~~k) := by rw [hm]
      _ = m &&& (k ||| ~~~k) := BitVec.and_or_distrib_left.symm
      _ = m := by rw [BitVec.or_not_self, BitVec.and_allOnes]
  rw [← hand]
  exact hk.and

/-- The complement of a mask is full where the mask is clear. -/
theorem Clear.full_not (h : Clear lo n m) (hn : lo + n ≤ w) : Full lo n (~~~m) := by
  refine BitVec.eq_of_getLsbD_eq fun i hi => ?_
  have hbit : (m.extractLsb' lo n).getLsbD i = false := by
    rw [h]
    exact BitVec.getLsbD_zero
  rw [BitVec.getLsbD_extractLsb', decide_eq_true hi, Bool.true_and] at hbit
  have hw : lo + i < w := by omega
  rw [BitVec.getLsbD_extractLsb', BitVec.getLsbD_not, hbit, BitVec.getLsbD_allOnes]
  simp [hi, hw]

end Fields
