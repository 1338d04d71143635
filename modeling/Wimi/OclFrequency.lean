import Wimi.OclControl

/-!
# The reported OCL frequency

The value of `get_ocl_frequency` : the input frequency times the multiplier over both dividers,
where the fractions are thousandths. Numerator and denominator are products of 32 bits.

The numerator fits at all values of the registers (`toNat_numerator`), the denominator does not. It
wraps, and never to 0 (`denominator_ne_zero`), so the test behind it does not see it.

`ocl_frequency_iff` : the value is the quotient over the integers, and nothing wraps, exactly when
the denominator is below `2 ^ 32`.
-/

namespace Wimi

def XDMA_7V3_INPUT_FREQ : U64 := 100

def XDMA_KU3_INPUT_FREQ : U64 := 200

/-- `input`, for the device of `pci_dev`. -/
def inputFreq (device : BitVec 16) : U64 :=
  if device = 0x8138 then XDMA_KU3_INPUT_FREQ else XDMA_7V3_INPUT_FREQ

/-! ## The registers -/

namespace FrequencyEnv

variable (e : FrequencyEnv)

def div0 : U32 := e.config0 &&& 0xff

def mul0 : U32 := (e.config0 &&& 0xff00) >>> 8

def mulFrac0 : U32 := if e.config0 &&& 1 <<< 26 ≠ 0 then e.config0 >>> 16 &&& 0x3ff else 0

def div1 : U32 := e.config2 &&& 0xff

def divFrac1 : U32 := if e.config2 &&& 1 <<< 18 ≠ 0 then e.config2 >>> 8 &&& 0x3ff else 0

/-- `mul0` behind all its steps. -/
def numerator : U32 := (e.mul0 * 1000 + e.mulFrac0) * 1000

/-- `div0` behind all its steps. -/
def denominator : U32 := e.div0 * 1000 * (e.div1 * 1000 + e.divFrac1)

/-- The numerator over the integers, without the input. -/
def exactNumerator : ℕ := (1000 * e.mul0.toNat + e.mulFrac0.toNat) * 1000

/-- The denominator over the integers. -/
def exactDenominator : ℕ := 1000 * e.div0.toNat * (1000 * e.div1.toNat + e.divFrac1.toNat)

/-- The products and sums that the code holds in 32 bits, over the integers. -/
def products : List ℕ :=
  [1000 * e.mul0.toNat, 1000 * e.mul0.toNat + e.mulFrac0.toNat, 1000 * e.div0.toNat,
    1000 * e.div1.toNat, 1000 * e.div1.toNat + e.divFrac1.toNat, e.exactDenominator,
    e.exactNumerator]

end FrequencyEnv

/-- `get_ocl_frequency`, the value it returns. -/
def oclFrequency (device : BitVec 16) (e : FrequencyEnv) : U64 :=
  if e.status &&& 1 = 0 then 0 else
    if e.denominator = 0 then 0 else
      inputFreq device * e.numerator.setWidth 64 / e.denominator.setWidth 64

/-- What the value should be : the quotient over the integers, rounded down, without a product that
wraps or a division by 0 on the way. -/
structure ReportsFrequency (device : BitVec 16) (e : FrequencyEnv) : Prop where
  value : (oclFrequency device e).toNat =
    (inputFreq device).toNat * (1000 * e.mul0.toNat + e.mulFrac0.toNat) * 1000 /
      e.exactDenominator
  fits : ∀ n ∈ e.products, n < 2 ^ 32
  divides : e.denominator ≠ 0

/-! ## Ranges of the fields -/

theorem toNat_and_le {w : ℕ} (a b : BitVec w) : (a &&& b).toNat ≤ b.toNat := by
  rw [BitVec.toNat_and]
  exact Nat.and_le_right

theorem inputFreq_le (device : BitVec 16) : (inputFreq device).toNat ≤ 200 := by
  rw [inputFreq]
  split_ifs <;> decide

namespace FrequencyEnv

variable (e : FrequencyEnv)

theorem div0_le : e.div0.toNat ≤ 255 :=
  toNat_and_le _ _

theorem mul0_le : e.mul0.toNat ≤ 255 := by
  have hle : (e.config0 &&& 0xff00).toNat ≤ 0xff00 := toNat_and_le _ _
  rw [mul0, BitVec.toNat_ushiftRight, Nat.shiftRight_eq_div_pow]
  omega

theorem mulFrac0_le : e.mulFrac0.toNat ≤ 1023 := by
  rw [mulFrac0]
  split_ifs
  · exact toNat_and_le _ _
  · exact Nat.zero_le _

theorem div1_le : e.div1.toNat ≤ 255 :=
  toNat_and_le _ _

theorem divFrac1_le : e.divFrac1.toNat ≤ 1023 := by
  rw [divFrac1]
  split_ifs
  · exact toNat_and_le _ _
  · exact Nat.zero_le _

/-! ## Numerator and denominator -/

/-- The numerator does not wrap. -/
theorem toNat_numerator : e.numerator.toNat = e.exactNumerator := by
  have hmul := e.mul0_le
  have hfrac := e.mulFrac0_le
  have hthousand : (1000 : U32).toNat = 1000 := rfl
  rw [numerator, exactNumerator, BitVec.toNat_mul, BitVec.toNat_add, BitVec.toNat_mul, hthousand]
  omega

/-- The denominator does. -/
theorem toNat_denominator : e.denominator.toNat = e.exactDenominator % 2 ^ 32 := by
  have hdiv0 : (e.div0 * 1000).toNat = 1000 * e.div0.toNat := by
    have := e.div0_le
    have hthousand : (1000 : U32).toNat = 1000 := rfl
    rw [BitVec.toNat_mul, hthousand]
    omega
  have hdiv1 : (e.div1 * 1000 + e.divFrac1).toNat = 1000 * e.div1.toNat + e.divFrac1.toNat := by
    have := e.div1_le
    have := e.divFrac1_le
    have hthousand : (1000 : U32).toNat = 1000 := rfl
    rw [BitVec.toNat_add, BitVec.toNat_mul, hthousand]
    omega
  rw [denominator, BitVec.toNat_mul, hdiv0, hdiv1, exactDenominator]

variable {e}

/-- It does not wrap to 0 : the dividers hold too few factors of 2. -/
theorem denominator_ne_zero (hdiv : e.exactDenominator ≠ 0) : e.denominator ≠ 0 := by
  intro hzero
  have hmod : e.exactDenominator % 2 ^ 32 = 0 := by
    rw [← toNat_denominator, hzero]
    rfl
  have hdvd : 2 ^ 29 ∣ e.div0.toNat * (1000 * e.div1.toNat + e.divFrac1.toNat) := by
    refine (show Nat.Coprime (2 ^ 29) 125 by decide).dvd_of_dvd_mul_left ?_
    refine Nat.dvd_of_mul_dvd_mul_left (show 0 < 8 by decide) ?_
    calc 8 * 2 ^ 29 ∣ e.exactDenominator := Nat.dvd_of_mod_eq_zero hmod
      _ = 8 * (125 * (e.div0.toNat * (1000 * e.div1.toNat + e.divFrac1.toNat))) := by
        rw [exactDenominator]
        ring
  have hlt : e.div0.toNat * (1000 * e.div1.toNat + e.divFrac1.toNat) < 2 ^ 29 := by
    have hfrac := e.divFrac1_le
    have hdiv1 := e.div1_le
    calc e.div0.toNat * (1000 * e.div1.toNat + e.divFrac1.toNat)
        ≤ 255 * 256023 := Nat.mul_le_mul e.div0_le (by omega)
      _ < 2 ^ 29 := by decide
  have hprod := Nat.eq_zero_of_dvd_of_lt hdvd hlt
  exact hdiv (by rw [exactDenominator, mul_assoc, hprod, mul_zero])

end FrequencyEnv

open FrequencyEnv

/-- The value for all registers : the denominator counts modulo `2 ^ 32`. -/
theorem toNat_oclFrequency (device : BitVec 16) {e : FrequencyEnv} (hlocked : e.status &&& 1 ≠ 0)
    (hdiv : e.exactDenominator ≠ 0) :
    (oclFrequency device e).toNat =
      (inputFreq device).toNat * e.exactNumerator / (e.exactDenominator % 2 ^ 32) := by
  have hnum : e.exactNumerator < 2 ^ 32 := e.toNat_numerator ▸ e.numerator.isLt
  have hprod : (inputFreq device).toNat * e.exactNumerator < 2 ^ 64 :=
    calc (inputFreq device).toNat * e.exactNumerator
        ≤ 200 * 2 ^ 32 := Nat.mul_le_mul (inputFreq_le device) hnum.le
      _ < 2 ^ 64 := by decide
  have hwide (a : U32) : (a.setWidth 64).toNat = a.toNat :=
    BitVec.toNat_setWidth_of_le (by decide)
  rw [oclFrequency, if_neg hlocked, if_neg (denominator_ne_zero hdiv), BitVec.toNat_udiv,
    BitVec.toNat_mul, hwide, hwide, toNat_numerator, toNat_denominator, Nat.mod_eq_of_lt hprod]

/-- For all registers with the locked bit set and dividers that are not 0 : the value is the
quotient over the integers, and nothing wraps, if and only if the denominator is below `2 ^ 32`. -/
theorem ocl_frequency_iff (device : BitVec 16) {e : FrequencyEnv} (hlocked : e.status &&& 1 ≠ 0)
    (hdiv : e.exactDenominator ≠ 0) :
    ReportsFrequency device e ↔ e.exactDenominator < 2 ^ 32 := by
  refine ⟨fun h => h.fits _ (by simp [products]), fun hlt => ⟨?_, ?_, denominator_ne_zero hdiv⟩⟩
  · rw [toNat_oclFrequency device hlocked hdiv, Nat.mod_eq_of_lt hlt, exactNumerator, mul_assoc]
  · have hmul := e.mul0_le
    have hmulFrac := e.mulFrac0_le
    have hdiv0 := e.div0_le
    have hdiv1 := e.div1_le
    have hdivFrac := e.divFrac1_le
    simp only [products, List.forall_mem_cons, exactNumerator, List.not_mem_nil, false_imp_iff,
      implies_true, and_true]
    omega

/-- The clock at 100 MHz. -/
theorem ocl_frequency_hundred :
    ReportsFrequency 0x7038 ⟨1, 0x04000a01, 0x0a⟩ :=
  (ocl_frequency_iff _ (by decide) (by decide)).mpr (by decide)

/-- Both dividers are 255 : a multiplier of 255 over them counts as 42. -/
theorem not_reportsFrequency_wrapped : ¬∀ (device : BitVec 16) (e : FrequencyEnv),
    e.status &&& 1 ≠ 0 → e.exactDenominator ≠ 0 → ReportsFrequency device e := by
  intro h
  have hvalue := (h 0x7038 ⟨1, 0xffff, 0xff⟩ (by decide) (by decide)).value
  exact absurd hvalue (by decide)

end Wimi
