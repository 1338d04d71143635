import Mathlib

/-!
# The SPI master of the DAQ2 controller

`spi` shifts a 24-bit configuration word out, most significant bit first. A divider counts
32 cycles a bit and is restarted with the word; `sclk` is its top bit. The divider, the bit
counter and the shift register are clocked processes of their own, with the FSM state as
their only link.

`spi_frame` : every transaction is one frame. Once the FSM has left `C_START` the state is a
function of the word and the number of cycles since (`spiShift`), until the FSM is back in
`C_IDLE`.
-/

namespace Wimi

/-- The localparams of `state`. -/
inductive SpiFsm
  | idle
  | start
  | update
  | wait
  deriving DecidableEq, Repr

/-- Registers of `spi`. -/
@[ext]
structure Spi where
  state : SpiFsm
  bitCnt : BitVec 6
  data : BitVec 24
  clk16Cnt : BitVec 5
  deriving DecidableEq

/-- Pins of `spi` at one edge of `clk`. -/
structure SpiIn where
  rstN : Bool
  din : BitVec 24
  wrEn : Bool

namespace Spi

/-- `clk_en`, the last cycle of a bit. -/
def clkEn (s : Spi) : Bool :=
  s.clk16Cnt == 31

/-- `sdout`. -/
def sdout (s : Spi) : Bool :=
  s.data.getLsbD 23

/-- `sclk`. -/
def sclk (s : Spi) : Bool :=
  s.clk16Cnt.getLsbD 4 && (s.state == .update || s.state == .wait)

/-- `cs`. -/
def cs (s : Spi) : Bool :=
  s.state != .update

end Spi

/-- Next `state` of `spi`. -/
def spiNext (wrEn : Bool) (s : Spi) : SpiFsm :=
  match s.state with
  | .idle => if wrEn then .start else .idle
  | .start => .update
  | .update => if 24 ≤ s.bitCnt then .idle else .update
  | .wait => .idle

/-- One rising edge of `clk`. -/
def spiEdge (i : SpiIn) (s : Spi) : Spi where
  state := if !i.rstN then .idle else spiNext i.wrEn s
  bitCnt :=
    if !i.rstN || s.state == .idle then 0
    else if s.clkEn then if s.state == .update || s.state == .wait then s.bitCnt + 1 else 0
    else s.bitCnt
  data :=
    if !i.rstN then 0
    else if s.state == .start then i.din
    else if s.state == .update && s.clkEn then s.data <<< 1 else s.data
  clk16Cnt := if !i.rstN || s.state == .start then 0 else s.clk16Cnt + 1

/-- The state in each cycle, with `inputs u` sampled at the edge that ends cycle `u`. -/
def spiRun (s : Spi) (inputs : ℕ → SpiIn) : ℕ → Spi
  | 0 => s
  | u + 1 => spiEdge (inputs u) (spiRun s inputs u)

/-! ## The states of a transaction -/

/-- `C_UPDATE`, `m` cycles after the word `din` was loaded. -/
def spiShift (din : BitVec 24) (m : ℕ) : Spi where
  state := .update
  bitCnt := BitVec.ofNat 6 (m / 32)
  data := din <<< (m / 32)
  clk16Cnt := BitVec.ofNat 5 m

section Shift

variable (din : BitVec 24) (m : ℕ)

@[simp] theorem state_spiShift : (spiShift din m).state = .update :=
  rfl

@[simp] theorem bitCnt_spiShift : (spiShift din m).bitCnt = BitVec.ofNat 6 (m / 32) :=
  rfl

@[simp] theorem data_spiShift : (spiShift din m).data = din <<< (m / 32) :=
  rfl

@[simp] theorem clk16Cnt_spiShift : (spiShift din m).clk16Cnt = BitVec.ofNat 5 m :=
  rfl

theorem spiNext_spiShift (wrEn : Bool) :
    spiNext wrEn (spiShift din m) = if 24 ≤ (spiShift din m).bitCnt then .idle else .update :=
  rfl

end Shift

theorem clkEn_spiShift (din : BitVec 24) (m : ℕ) :
    (spiShift din m).clkEn = true ↔ m % 32 = 31 := by
  rw [Spi.clkEn, beq_iff_eq, ← BitVec.toNat_inj]
  simp [spiShift]

theorem sclk_spiShift (din : BitVec 24) (m : ℕ) :
    (spiShift din m).sclk = decide (16 ≤ m % 32) := by
  have hbit : (spiShift din m).sclk = m.testBit 4 := by
    simp [Spi.sclk, BitVec.getLsbD_ofNat, -BitVec.getLsbD_eq_getElem]
  rw [hbit, Nat.testBit_eq_decide_div_mod_eq, decide_eq_decide]
  omega

theorem sdout_spiShift (din : BitVec 24) {m : ℕ} (hm : m / 32 ≤ 23) :
    (spiShift din m).sdout = din.getLsbD (23 - m / 32) := by
  simp [Spi.sdout, BitVec.getLsbD_shiftLeft, Nat.not_lt.mpr hm, -BitVec.getLsbD_eq_getElem]

/-- The word is not done before its 24 bits. -/
theorem bits_done_iff (din : BitVec 24) {m : ℕ} (hm : m ≤ 768) :
    24 ≤ (spiShift din m).bitCnt ↔ m = 768 := by
  rw [BitVec.le_def, bitCnt_spiShift, BitVec.toNat_ofNat]
  change 24 ≤ m / 32 % 64 ↔ m = 768
  omega

/-- One more cycle of a word that is not done. -/
theorem spiEdge_spiShift (din : BitVec 24) {m : ℕ} (hm : m < 768) {i : SpiIn}
    (hi : i.rstN = true) : spiEdge i (spiShift din m) = spiShift din (m + 1) := by
  have hstate : spiNext i.wrEn (spiShift din m) = .update := by
    rw [spiNext_spiShift, if_neg ((bits_done_iff din hm.le).not.mpr hm.ne)]
  by_cases hbit : m % 32 = 31
  · have hclk := (clkEn_spiShift din m).mpr hbit
    have hnext : (m + 1) / 32 = m / 32 + 1 := by omega
    apply Spi.ext <;>
      simp [spiEdge, hi, hstate, hclk, hnext, BitVec.ofNat_add, BitVec.shiftLeft_add]
  · have hclk : (spiShift din m).clkEn = false := by
      rw [← Bool.not_eq_true, clkEn_spiShift]
      exact hbit
    have hnext : (m + 1) / 32 = m / 32 := by omega
    apply Spi.ext <;> simp [spiEdge, hi, hstate, hclk, hnext, BitVec.ofNat_add]

/-- The word is done : the FSM returns. -/
theorem state_spiEdge_done (din : BitVec 24) (i : SpiIn) :
    (spiEdge i (spiShift din 768)).state = .idle := by
  cases hi : i.rstN with
  | false => simp [spiEdge, hi]
  | true =>
    have hstate : spiNext i.wrEn (spiShift din 768) = .idle := by
      rw [spiNext_spiShift, if_pos ((bits_done_iff din le_rfl).mpr rfl)]
    simp [spiEdge, hi, hstate]

/-- `C_START` loads the word and restarts the divider. -/
theorem spiEdge_start {s : Spi} (hs : s.state = .start) (hbit : s.bitCnt = 0) {i : SpiIn}
    (hi : i.rstN = true) : spiEdge i s = spiShift i.din 0 := by
  apply Spi.ext <;> simp [spiEdge, spiNext, hi, hs, hbit]

/-- `C_IDLE` is left for `C_START`, with the bit counter at zero. -/
theorem spiEdge_idle {s : Spi} (hs : s.state = .idle) {i : SpiIn}
    (hleave : (spiEdge i s).state ≠ .idle) :
    (spiEdge i s).state = .start ∧ (spiEdge i s).bitCnt = 0 := by
  cases hi : i.rstN <;> cases hw : i.wrEn <;> simp_all [spiEdge, spiNext]

section Transaction

variable {s : Spi} {inputs : ℕ → SpiIn} {t : ℕ}

/-- A transaction begins with `C_START` and the word loaded behind it. -/
theorem spiRun_start (hrst : ∀ u, (inputs u).rstN = true)
    (hidle : (spiRun s inputs t).state = .idle)
    (hleave : (spiRun s inputs (t + 1)).state ≠ .idle) :
    (spiRun s inputs (t + 1)).state = .start ∧
      spiRun s inputs (t + 2) = spiShift (inputs (t + 1)).din 0 := by
  obtain ⟨hstart, hbit⟩ := spiEdge_idle hidle hleave
  exact ⟨hstart, spiEdge_start hstart hbit (hrst _)⟩

/-- The state in every cycle of a transaction behind `C_START`. -/
theorem spiRun_shift (hrst : ∀ u, (inputs u).rstN = true)
    (hidle : (spiRun s inputs t).state = .idle)
    (hleave : (spiRun s inputs (t + 1)).state ≠ .idle) {m : ℕ} (hm : m ≤ 768) :
    spiRun s inputs (t + 2 + m) = spiShift (inputs (t + 1)).din m := by
  induction m with
  | zero => exact (spiRun_start hrst hidle hleave).2
  | succ m ih =>
    have hprev := ih (by omega)
    change spiEdge _ (spiRun s inputs (t + 2 + m)) = _
    rw [hprev]
    exact spiEdge_spiShift _ (by omega) (hrst _)

/-- The FSM is back 771 cycles after it was left. -/
theorem spiRun_done (hrst : ∀ u, (inputs u).rstN = true)
    (hidle : (spiRun s inputs t).state = .idle)
    (hleave : (spiRun s inputs (t + 1)).state ≠ .idle) :
    (spiRun s inputs (t + 771)).state = .idle := by
  have hlast := spiRun_shift hrst hidle hleave (le_refl 768)
  change (spiEdge _ (spiRun s inputs (t + 2 + 768))).state = .idle
  rw [hlast]
  exact state_spiEdge_done _ _

/-- `sclk` in every cycle of a transaction, the cycle before it and the cycle behind it. -/
theorem sclk_spiRun (hrst : ∀ u, (inputs u).rstN = true)
    (hidle : (spiRun s inputs t).state = .idle)
    (hleave : (spiRun s inputs (t + 1)).state ≠ .idle) {j : ℕ} (hj : j ≤ 771) :
    (spiRun s inputs (t + j)).sclk = decide (16 ≤ (j - 2) % 32) := by
  have hlow {r : Spi} (hr : r.state = .idle ∨ r.state = .start) : r.sclk = false := by
    rcases hr with hr | hr <;> simp [Spi.sclk, hr]
  rcases Nat.lt_or_ge j 2 with h2 | h2
  · obtain rfl | rfl : j = 0 ∨ j = 1 := by omega
    · exact hlow (.inl hidle)
    · exact hlow (.inr (spiRun_start hrst hidle hleave).1)
  · obtain ⟨m, rfl⟩ := Nat.exists_eq_add_of_le h2
    rcases Nat.lt_or_ge m 769 with hm | hm
    · rw [← Nat.add_assoc, spiRun_shift hrst hidle hleave (by omega), sclk_spiShift,
        Nat.add_sub_cancel_left]
    · obtain rfl : m = 769 := by omega
      exact hlow (.inl (spiRun_done hrst hidle hleave))

end Transaction

/-! ## The frame -/

/-- The cycles of `[t, e)` that end with a rising edge of `sclk`, in their order. -/
def risingEdges (r : ℕ → Spi) (t e : ℕ) : List ℕ :=
  (List.range' t (e - t)).filter fun u => !(r u).sclk && (r (u + 1)).sclk

/-- The transaction that leaves `C_IDLE` behind cycle `t` is back in cycle `e` and was one frame
of `din`. -/
structure SpiFrame (r : ℕ → Spi) (din : BitVec 24) (t e : ℕ) : Prop where
  busy : ∀ u, t < u → u < e → (r u).state ≠ .idle
  returns : t < e ∧ (r e).state = .idle
  clocks : (risingEdges r t e).length = 24
  /-- Edge number `i` finds `cs` low and bit `23 - i` on `sdout`. -/
  shifts : ∀ i (hi : i < (risingEdges r t e).length),
    (r ((risingEdges r t e)[i] + 1)).cs = false ∧
      (r ((risingEdges r t e)[i] + 1)).sdout = din.getLsbD (23 - i)
  stable : ∀ u, t ≤ u → u < e → (r u).sclk = true → (r (u + 1)).sclk = true →
    (r (u + 1)).sdout = (r u).sdout

section Frame

variable {s : Spi} {inputs : ℕ → SpiIn} {t : ℕ}

/-- The rising edges, 32 cycles apart. -/
theorem risingEdges_spiRun (hrst : ∀ u, (inputs u).rstN = true)
    (hidle : (spiRun s inputs t).state = .idle)
    (hleave : (spiRun s inputs (t + 1)).state ≠ .idle) :
    risingEdges (spiRun s inputs) t (t + 771) =
      (List.range 24).map fun i => t + (17 + 32 * i) := by
  have hoffsets : (List.range 771).filter
      (fun j => !decide (16 ≤ (j - 2) % 32) && decide (16 ≤ (j + 1 - 2) % 32)) =
        (List.range 24).map fun i => 17 + 32 * i := by
    decide +kernel
  have hmap : ((List.range 24).map fun i => t + (17 + 32 * i)) =
      ((List.range 24).map fun i => 17 + 32 * i).map (t + ·) := by
    rw [List.map_map]
    rfl
  rw [hmap, ← hoffsets, risingEdges, Nat.add_sub_cancel_left, List.range'_eq_map_range,
    List.filter_map]
  refine congrArg _ (List.filter_congr fun j hj => ?_)
  have hj : j < 771 := List.mem_range.mp hj
  simp only [Function.comp_apply, Nat.add_assoc, sclk_spiRun hrst hidle hleave hj.le,
    sclk_spiRun hrst hidle hleave (Nat.succ_le_of_lt hj)]

/-- The transaction is one frame of the word sampled in `C_START`. -/
theorem spiFrame_spiRun (hrst : ∀ u, (inputs u).rstN = true)
    (hidle : (spiRun s inputs t).state = .idle)
    (hleave : (spiRun s inputs (t + 1)).state ≠ .idle) :
    SpiFrame (spiRun s inputs) (inputs (t + 1)).din t (t + 771) := by
  have hedges := risingEdges_spiRun hrst hidle hleave
  -- the state in cycle `u`, by its distance from `C_START`
  have hshift {u : ℕ} (h2 : t + 2 ≤ u) (hu : u ≤ t + 770) :
      spiRun s inputs u = spiShift (inputs (t + 1)).din (u - (t + 2)) := by
    have := spiRun_shift hrst hidle hleave (m := u - (t + 2)) (by omega)
    rwa [Nat.add_sub_cancel' h2] at this
  refine ⟨fun u htu hu => ?_, ⟨by omega, spiRun_done hrst hidle hleave⟩, ?_, fun i hi => ?_,
    fun u htu hu hhigh hnext => ?_⟩
  · rcases Nat.lt_or_ge u (t + 2) with h2 | h2
    · obtain rfl : u = t + 1 := by omega
      rw [(spiRun_start hrst hidle hleave).1]
      decide
    · rw [hshift h2 (by omega), state_spiShift]
      decide
  · rw [hedges, List.length_map, List.length_range]
  · have hi24 : i < 24 := by simpa [hedges] using hi
    have hu : (risingEdges (spiRun s inputs) t (t + 771))[i] + 1 = t + 2 + (16 + 32 * i) := by
      simp only [hedges, List.getElem_map, List.getElem_range]
      omega
    rw [hu, spiRun_shift hrst hidle hleave (by omega), sdout_spiShift _ (by omega)]
    have hbit : (16 + 32 * i) / 32 = i := by omega
    exact ⟨rfl, by rw [hbit]⟩
  · obtain ⟨j, rfl⟩ := Nat.exists_eq_add_of_le htu
    have hj : 16 ≤ (j - 2) % 32 := by
      simpa [sclk_spiRun hrst hidle hleave (show j ≤ 771 by omega)] using hhigh
    have hj' : 16 ≤ (j + 1 - 2) % 32 := by
      simpa [Nat.add_assoc, sclk_spiRun hrst hidle hleave (show j + 1 ≤ 771 by omega)] using hnext
    rw [hshift (by omega) (by omega), hshift (by omega) (by omega),
      sdout_spiShift _ (by omega), sdout_spiShift _ (by omega)]
    congr 2
    omega

/-- Nothing but the word sampled in `C_START` matters during a transaction. -/
theorem spiRun_congr (hrst : ∀ u, (inputs u).rstN = true)
    (hidle : (spiRun s inputs t).state = .idle)
    (hleave : (spiRun s inputs (t + 1)).state ≠ .idle) {inputs' : ℕ → SpiIn}
    (hrst' : ∀ u, (inputs' u).rstN = true) (hbefore : ∀ u ≤ t, inputs' u = inputs u)
    (hdin : (inputs' (t + 1)).din = (inputs (t + 1)).din) {u : ℕ} (hu : u < t + 771) :
    spiRun s inputs' u = spiRun s inputs u := by
  have hstart : ∀ u ≤ t + 1, spiRun s inputs' u = spiRun s inputs u := by
    intro u
    induction u with
    | zero => exact fun _ => rfl
    | succ u ih =>
      intro hu
      rw [spiRun, spiRun, ih (by omega), hbefore u (by omega)]
  rcases Nat.lt_or_ge u (t + 2) with h2 | h2
  · exact hstart u (by omega)
  · obtain ⟨m, rfl⟩ := Nat.exists_eq_add_of_le h2
    have hidle' : (spiRun s inputs' t).state = .idle := by rwa [hstart t (by omega)]
    have hleave' : (spiRun s inputs' (t + 1)).state ≠ .idle := by rwa [hstart (t + 1) le_rfl]
    rw [spiRun_shift hrst hidle hleave (by omega), spiRun_shift hrst' hidle' hleave' (by omega),
      hdin]

end Frame

/-- From any state and any phase of the divider, for any words and any pattern of `wr_en`
without a reset, a transaction comes to an end and is one frame of the word sampled in
`C_START`; and no other input during it changes any of its cycles. -/
theorem spi_frame (s : Spi) (inputs : ℕ → SpiIn) (hrst : ∀ u, (inputs u).rstN = true) {t : ℕ}
    (hidle : (spiRun s inputs t).state = .idle)
    (hleave : (spiRun s inputs (t + 1)).state ≠ .idle) :
    ∃ e, SpiFrame (spiRun s inputs) (inputs (t + 1)).din t e ∧
      ∀ inputs' : ℕ → SpiIn, (∀ u, (inputs' u).rstN = true) → (∀ u ≤ t, inputs' u = inputs u) →
        (inputs' (t + 1)).din = (inputs (t + 1)).din →
        (∀ u < e, spiRun s inputs' u = spiRun s inputs u) ∧ (spiRun s inputs' e).state = .idle := by
  refine ⟨t + 771, spiFrame_spiRun hrst hidle hleave, fun inputs' hrst' hbefore hdin => ?_⟩
  have hsame {u : ℕ} (hu : u < t + 771) := spiRun_congr hrst hidle hleave hrst' hbefore hdin hu
  refine ⟨fun u hu => hsame hu, spiRun_done hrst' ?_ ?_⟩
  · rwa [hsame (by omega)]
  · rwa [hsame (by omega)]

/-- A word written behind a reset. -/
theorem spi_frame_behind_reset :
    ∃ e, SpiFrame (spiRun ⟨.idle, 0, 0, 0⟩ fun u => ⟨true, 0x0120fe, u == 0⟩) 0x0120fe 0 e :=
  let ⟨e, hframe, _⟩ := spi_frame ⟨.idle, 0, 0, 0⟩ (fun u => ⟨true, 0x0120fe, u == 0⟩)
    (fun _ => rfl) (t := 0) rfl (by decide)
  ⟨e, hframe⟩

end Wimi
