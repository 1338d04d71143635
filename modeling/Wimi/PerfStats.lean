import Wimi.Kernel

/-!
# Performance counters

`get_perf_stats` : the counters of a measurement. Each is read as a high and a low register and put
together by `build_u64`, and the hardware counts on between the two reads.

`perf_counters_iff` : a count is one the counter had between its two reads exactly when the counter
is `Steady` : it fits the 60 bits `build_u64` keeps, and its low half does not go back.
-/

namespace Wimi

/-- `build_u64`. The mask of the high half has 28 bits. -/
def buildU64 (hi lo : U64) : U64 :=
  ((hi &&& 0xFFFFFFF) <<< 32) ||| (lo &&& 0xFFFFFFFF)

/-- `struct xdma_performance_ioctl`. -/
structure PerformanceIoctl where
  version : U32
  transferSize : U32
  stopped : U32
  iterations : U32
  clockCycleCount : U64
  dataCycleCount : U64
  pendingCount : U64
  deriving DecidableEq

/-- What the registers answer during one call, in the order they are read. -/
structure PerfReads where
  completedDescCount : U32
  perfCycHi : U32
  perfCycLo : U32
  perfDatHi : U32
  perfDatLo : U32
  perfPndHi : U32
  perfPndLo : U32

/-- `get_perf_stats`. -/
def getPerfStats (perf : PerformanceIoctl) (regs : PerfReads) : PerformanceIoctl :=
  { perf with
    iterations := (buildU64 0 (regs.completedDescCount.setWidth 64)).setWidth 32
    clockCycleCount := buildU64 (regs.perfCycHi.setWidth 64) (regs.perfCycLo.setWidth 64)
    dataCycleCount := buildU64 (regs.perfDatHi.setWidth 64) (regs.perfDatLo.setWidth 64)
    pendingCount := buildU64 (regs.perfPndHi.setWidth 64) (regs.perfPndLo.setWidth 64) }

/-! ## The hardware -/

/-- A counter of the hardware : its value at every access to a register. It never goes back. -/
structure HwCounter where
  value : ℕ → U64
  mono : ∀ m n, m ≤ n → value m ≤ value n

namespace HwCounter

/-- The high register. -/
def hi (c : HwCounter) (n : ℕ) : U32 := (c.value n >>> 32).setWidth 32

/-- The low register. -/
def lo (c : HwCounter) (n : ℕ) : U32 := (c.value n).setWidth 32

/-- `v` lies between the values at access `n` and at the next. -/
def Between (c : HwCounter) (n : ℕ) (v : U64) : Prop :=
  c.value n ≤ v ∧ v ≤ c.value (n + 1)

/-- The value at access `n` fits 60 bits, and its low half is at most that at the next. -/
def Steady (c : HwCounter) (n : ℕ) : Prop :=
  (c.value n).toNat < 2 ^ 60 ∧ (c.value n).toNat % 2 ^ 32 ≤ (c.value (n + 1)).toNat % 2 ^ 32

end HwCounter

/-- The registers `get_perf_stats` reads. -/
structure PerfCounters where
  completedDescCount : ℕ → U32
  cyc : HwCounter
  dat : HwCounter
  pnd : HwCounter

/-- What they answer to a call that makes access `n` and those behind it. -/
def PerfCounters.reads (hw : PerfCounters) (n : ℕ) : PerfReads where
  completedDescCount := hw.completedDescCount n
  perfCycHi := hw.cyc.hi (n + 1)
  perfCycLo := hw.cyc.lo (n + 2)
  perfDatHi := hw.dat.hi (n + 3)
  perfDatLo := hw.dat.lo (n + 4)
  perfPndHi := hw.pnd.hi (n + 5)
  perfPndLo := hw.pnd.lo (n + 6)

/-! ## The counts -/

/-- The halves as numbers. -/
theorem buildU64_toNat (hi lo : U64) :
    (buildU64 hi lo).toNat = hi.toNat % 2 ^ 28 * 2 ^ 32 + lo.toNat % 2 ^ 32 := by
  have hhi : (hi &&& 0xFFFFFFF).toNat = hi.toNat % 2 ^ 28 :=
    (BitVec.toNat_and hi _).trans (Nat.and_two_pow_sub_one_eq_mod _ 28)
  have hlo : (lo &&& 0xFFFFFFFF).toNat = lo.toNat % 2 ^ 32 :=
    (BitVec.toNat_and lo _).trans (Nat.and_two_pow_sub_one_eq_mod _ 32)
  have hfit : hi.toNat % 2 ^ 28 * 2 ^ 32 < 2 ^ 64 := by omega
  rw [buildU64, BitVec.toNat_or, BitVec.toNat_shiftLeft, hhi, hlo, Nat.shiftLeft_eq,
    Nat.mod_eq_of_lt hfit, ← Nat.shiftLeft_eq, Nat.shiftLeft_add_eq_or_of_lt]
  exact Nat.mod_lt _ (by decide)

/-- The count made of the high half at one access and the low half at the next. -/
theorem buildU64_counter (c : HwCounter) (n : ℕ) :
    (buildU64 ((c.hi n).setWidth 64) ((c.lo (n + 1)).setWidth 64)).toNat =
      (c.value n).toNat / 2 ^ 32 % 2 ^ 28 * 2 ^ 32 + (c.value (n + 1)).toNat % 2 ^ 32 := by
  have hvalue := (c.value n).isLt
  simp only [buildU64_toNat, HwCounter.hi, HwCounter.lo, BitVec.toNat_setWidth,
    BitVec.toNat_ushiftRight, Nat.shiftRight_eq_div_pow]
  omega

theorem between_iff (c : HwCounter) (n : ℕ) :
    c.Between n (buildU64 ((c.hi n).setWidth 64) ((c.lo (n + 1)).setWidth 64)) ↔ c.Steady n := by
  have hmono : (c.value n).toNat ≤ (c.value (n + 1)).toNat := c.mono n (n + 1) n.le_succ
  simp only [HwCounter.Between, HwCounter.Steady, BitVec.le_def, buildU64_counter]
  omega

/-- The counts `get_perf_stats` stores lie between the values at the two reads of their counters
exactly when the counters are steady there. -/
theorem perf_counters_iff (hw : PerfCounters) (n : ℕ) (perf : PerformanceIoctl) :
    (hw.cyc.Between (n + 1) (getPerfStats perf (hw.reads n)).clockCycleCount ∧
      hw.dat.Between (n + 3) (getPerfStats perf (hw.reads n)).dataCycleCount ∧
      hw.pnd.Between (n + 5) (getPerfStats perf (hw.reads n)).pendingCount) ↔
    hw.cyc.Steady (n + 1) ∧ hw.dat.Steady (n + 3) ∧ hw.pnd.Steady (n + 5) :=
  and_congr (between_iff _ _) (and_congr (between_iff _ _) (between_iff _ _))

/-! ## A carry between the reads -/

/-- A counter whose low half runs over between access 1 and access 2. -/
def carryValue (n : ℕ) : U64 := if n < 2 then 0x1FFFFFFFF else 0x200000000

theorem carryValue_mono (m n : ℕ) (h : m ≤ n) : carryValue m ≤ carryValue n := by
  rw [carryValue, carryValue]
  split_ifs
  · exact BitVec.le_refl _
  · decide
  · omega
  · exact BitVec.le_refl _

/-- Its registers, for all three counters. -/
def carryCounters : PerfCounters :=
  let c : HwCounter := ⟨carryValue, carryValue_mono⟩
  ⟨fun _ => 0, c, c, c⟩

/-- A measurement of version 1 and one page a descriptor, as it is started. -/
def pagePerf : PerformanceIoctl := ⟨1, 4096, 0, 0, 0, 0, 0⟩

/-- The high half is that of before the carry, the low half that of behind it. -/
theorem not_between_carry :
    ¬ (carryCounters.cyc.Between 1
        (getPerfStats pagePerf (carryCounters.reads 0)).clockCycleCount ∧
      carryCounters.dat.Between 3
        (getPerfStats pagePerf (carryCounters.reads 0)).dataCycleCount ∧
      carryCounters.pnd.Between 5
        (getPerfStats pagePerf (carryCounters.reads 0)).pendingCount) := by
  rintro ⟨⟨hle, -⟩, -⟩
  revert hle
  decide

end Wimi
