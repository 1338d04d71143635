import Mathlib

/-!
# Residues of machine words

Words of `w` bits modulo a divisor of `2 ^ w`, where their arithmetic wraps without a trace,
and pieces of memory that continue each other up to such a modulus : the address of each is that
of the first and the lengths before it (`modEq_getElem`).
-/

namespace Residues

/-! ## Words -/

section Words

variable {w v m : ℕ}

theorem toNat_add_modEq (h : m ∣ 2 ^ w) (a b : BitVec w) :
    (a + b).toNat ≡ a.toNat + b.toNat [MOD m] := by
  rw [BitVec.toNat_add]
  exact (Nat.mod_modEq _ _).of_dvd h

theorem toNat_setWidth_modEq (h : m ∣ 2 ^ v) (a : BitVec w) :
    (a.setWidth v).toNat ≡ a.toNat [MOD m] := by
  rw [BitVec.toNat_setWidth]
  exact (Nat.mod_modEq _ _).of_dvd h

/-- The mask of a power of two takes the residue. -/
theorem toNat_and_sub_one {k : ℕ} (a : BitVec w) {b : BitVec w} (hb : b.toNat = 2 ^ k) :
    (a &&& (b - 1)).toNat = a.toNat % 2 ^ k := by
  have hw : 0 < w := by
    rcases Nat.eq_zero_or_pos w with rfl | hw
    · have := b.isLt
      have := Nat.two_pow_pos k
      omega
    · exact hw
  have hone : (1 : BitVec w).toNat = 1 := Nat.mod_eq_of_lt (Nat.one_lt_two_pow hw.ne')
  have hle : (1 : BitVec w) ≤ b := by
    rw [BitVec.le_def, hone, hb]
    exact Nat.two_pow_pos k
  rw [BitVec.toNat_and, BitVec.toNat_sub_of_le hle, hb, hone, Nat.and_two_pow_sub_one_eq_mod]

end Words

/-! ## Pieces -/

section Pieces

variable {α : Type*} (m : ℕ) (addr len : α → ℕ)

/-- A piece of memory ends where another begins, up to `m`. -/
def Continues (a b : α) : Prop :=
  addr a + len a ≡ addr b [MOD m]

variable {m addr len}

/-- In a list of pieces that continue each other, each begins behind the lengths before it. -/
theorem modEq_getElem {a : α} {l : List α} (h : (a :: l).IsChain (Continues m addr len)) {k : ℕ}
    (hk : k < (a :: l).length) :
    addr (a :: l)[k] ≡ addr a + (((a :: l).take k).map len).sum [MOD m] := by
  induction k with
  | zero => exact Nat.ModEq.refl _
  | succ k ih =>
    have hlt : k < (a :: l).length := Nat.lt_of_succ_lt hk
    have hnext : addr (a :: l)[k] + len (a :: l)[k] ≡ addr (a :: l)[k + 1] [MOD m] :=
      List.isChain_iff_getElem.mp h k hk
    rw [List.take_succ_eq_append_getElem hlt, List.map_append, List.sum_append,
      List.map_singleton, List.sum_singleton, ← Nat.add_assoc]
    exact hnext.symm.trans ((ih hlt).add_right _)

end Pieces

end Residues
