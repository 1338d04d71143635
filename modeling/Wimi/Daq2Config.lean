import Wimi.AxiLite
import Wimi.Spi

/-!
# Configuring the chips

`wr_reg_spi` of the configuration tool, the DAQ2 controller its stores reach, and the chips behind
the SPI bus. A chip shifts in a bit at every rising edge of `sclk` while it is selected, and takes
what it has shifted in when it is deselected.

`configures` : every chip takes the words of the calls that are for it, each once, whole and in
order, whatever the pauses between the stores, if the last store of a call comes when its word is
out.
-/

namespace Wimi

/-! ## The tool -/

/-- What the tool does with the registers of the controller. -/
inductive CfgOp
  /-- A store to another register. -/
  | store (reg : BitVec 5) (value : BitVec 32)
  /-- `wr_reg_spi`. -/
  | wrRegSpi (dev : ℕ) (offset data : BitVec 64)

/-- What `wr_reg_spi` selects `dev` with. -/
def selectWord (dev : ℕ) : BitVec 32 :=
  0xffff &&& ~~~((0x1 : BitVec 32) <<< (dev - 1))

/-- The word `wr_reg_spi` sends. -/
def spiWord (offset data : BitVec 64) : BitVec 32 :=
  ((offset <<< 8) + data).setWidth 32

/-! ## The controller -/

/-- The DAQ2 controller : its register bank and its SPI master. -/
structure Daq2 where
  slave : AxiSlave 5
  spi : Spi

namespace Daq2

/-- The pins of the SPI master. -/
def spiIn (s : Daq2) (i : Daq2In) : SpiIn where
  rstN := i.aresetn
  din := (s.slave.slvReg 0).extractLsb' 0 24
  wrEn := (s.slave.slvReg 1).getLsbD 0

/-- `cs_n[k]`. -/
def csN (s : Daq2) (k : ℕ) : Bool :=
  ((s.slave.slvReg 2).extractLsb' 0 3).getLsbD k

/-- One rising edge of `s00_axi_aclk`. -/
def edge (s : Daq2) (i : Daq2In) : Daq2 where
  slave := daq2Edge s.slave i
  spi := spiEdge (s.spiIn i) s.spi

/-- The write that is accepted at an edge, with all its bytes. -/
def accepted (s : Daq2) (i : Daq2In) : Option (BitVec 5 × BitVec 32) :=
  if s.slave.port.wren i.toAxiIn then some (field s.slave.port.awaddr, i.wdata) else none

end Daq2

/-- The controller is not reset, and what is written to it is whole words. -/
structure Daq2In.Stores (i : Daq2In) : Prop where
  aresetn : i.aresetn = true
  wstrb : i.wstrb = 15

/-- The state in each cycle. -/
def daq2Run (s : Daq2) (inputs : ℕ → Daq2In) : ℕ → Daq2
  | 0 => s
  | u + 1 => (daq2Run s inputs u).edge (inputs u)

/-- The write that is accepted in each cycle. -/
def writesOf (s : Daq2) (inputs : ℕ → Daq2In) (u : ℕ) : Option (BitVec 5 × BitVec 32) :=
  (daq2Run s inputs u).accepted (inputs u)

/-! ## The chips -/

/-- A chip : the bits it has shifted in since it was selected, and what it has taken. -/
structure SpiChip where
  bits : List Bool
  taken : List (List Bool)
  deriving DecidableEq

/-- One cycle of a chip. -/
def SpiChip.edge (csN rise sdout : Bool) (c : SpiChip) : SpiChip :=
  if csN then ⟨[], if c.bits = [] then c.taken else c.taken ++ [c.bits]⟩
  else if rise then ⟨c.bits ++ [sdout], c.taken⟩
  else c

/-- Chip `k` behind a controller. -/
def chipRun (k : ℕ) (r : ℕ → Daq2) : ℕ → SpiChip
  | 0 => ⟨[], []⟩
  | u + 1 => (chipRun k r u).edge ((r (u + 1)).csN k) (!(r u).spi.sclk && (r (u + 1)).spi.sclk)
      (r (u + 1)).spi.sdout

/-- The bits of a word, most significant first. -/
def wordBits (w : BitVec 24) : List Bool :=
  (List.range 24).map fun i => w.getLsbD (23 - i)

/-- What chip `k` is to take of an operation. -/
def CfgOp.wordFor (k : ℕ) : CfgOp → Option (List Bool)
  | .store _ _ => none
  | .wrRegSpi dev offset data =>
    if dev = k + 1 then some (wordBits ((spiWord offset data).extractLsb' 0 24)) else none

/-! ## When the stores arrive -/

/-- How long the SPI master takes from the store that starts it. -/
def spiCycles : ℕ := 772

/-- From cycle `t` on the next write accepted is `x`, in cycle `u`. -/
structure NextWrite (w : ℕ → Option (BitVec 5 × BitVec 32)) (t u : ℕ) (x : BitVec 5 × BitVec 32) :
    Prop where
  le : t ≤ u
  none : ∀ v, t ≤ v → v < u → w v = none
  some : w u = some x

/-- The stores of a call of `wr_reg_spi`, in the cycles they are accepted in. It sleeps for long
enough to have its word sent. -/
structure SpiCall (w : ℕ → Option (BitVec 5 × BitVec 32)) (t u v x y dev : ℕ)
    (offset data : BitVec 64) : Prop where
  device : 0 < dev ∧ dev ≤ 31
  select : NextWrite w t u (2, selectWord dev)
  word : NextWrite w (u + 1) v (0, spiWord offset data)
  start : NextWrite w (v + 1) x (1, 0x1)
  sleep : x + spiCycles ≤ y
  deselect : NextWrite w (x + 1) y (2, 0xffff)

/-- The writes accepted in the cycles `[t, e)` are those of some operations, in order. -/
inductive Performs (w : ℕ → Option (BitVec 5 × BitVec 32)) : ℕ → List CfgOp → ℕ → Prop
  | done {t e : ℕ} (hle : t ≤ e) (hnone : ∀ v, t ≤ v → v < e → w v = none) : Performs w t [] e
  | store {t u e : ℕ} {reg : BitVec 5} {value : BitVec 32} {ops : List CfgOp} (hreg : 2 < reg)
      (h : NextWrite w t u (reg, value)) (hrest : Performs w (u + 1) ops e) :
      Performs w t (.store reg value :: ops) e
  | wrRegSpi {t u v x y e dev : ℕ} {offset data : BitVec 64} {ops : List CfgOp}
      (h : SpiCall w t u v x y dev offset data) (hrest : Performs w (y + 1) ops e) :
      Performs w t (.wrRegSpi dev offset data :: ops) e

/-! ## Registers -/

section Registers

variable {s : Daq2} {i : Daq2In} {k : BitVec 5} {v : BitVec 32}

/-- A store of all the bytes of a register. -/
theorem writeBytes_all (old data : BitVec 32) : writeBytes old data 15 = data := by
  refine BitVec.eq_of_getLsbD_eq fun b hb => ?_
  have hstrb : ∀ b < 32, (15 : BitVec 4).getLsbD (b / 8) = true := by decide
  rw [writeBytes, BitVec.getLsbD_ofFnLE, dif_pos hb, if_pos (hstrb b hb)]

theorem accepted_eq_some (h : s.accepted i = some (k, v)) :
    s.slave.port.wren i.toAxiIn = true ∧ field s.slave.port.awaddr = k ∧ i.wdata = v := by
  obtain ⟨hwren, h⟩ := Option.ite_none_right_eq_some.mp h
  exact ⟨hwren, (Prod.mk.inj (Option.some.inj h)).1, (Prod.mk.inj (Option.some.inj h)).2⟩

/-- A register that no status pin is loaded in, behind an edge. -/
theorem slvReg_edge (hk : isStatus k = false) :
    (s.edge i).slave.slvReg k = s.slave.slvReg.edge daq2Map s.slave.port i.toAxiIn k := by
  change (if isStatus k then _ else _) = _
  rw [hk]
  rfl

/-- What is written to a register is there in the next cycle. -/
theorem slvReg_written (hi : i.Stores) (h : s.accepted i = some (k, v))
    (hk : isStatus k = false) : (s.edge i).slave.slvReg k = daq2Map.source k v := by
  obtain ⟨hwren, rfl, rfl⟩ := accepted_eq_some h
  have hmapped : daq2Map.mapped (field s.slave.port.awaddr) = true := by
    change (!isStatus _) = true
    rw [hk]
    rfl
  rw [slvReg_edge hk, Bank.edge, hi.aresetn, hwren, hmapped, hi.wstrb]
  simp only [Bool.not_true, Bool.false_eq_true, if_false, Bool.and_true, if_true]
  exact writeBytes_all _ _

/-- A register that is not written to stays, or is cleared if it only pulses. -/
theorem slvReg_not_written (hi : i.Stores) (h : ∀ v, s.accepted i ≠ some (k, v))
    (hk : isStatus k = false) :
    (s.edge i).slave.slvReg k = s.slave.slvReg k ∨
      daq2Map.pulse k = true ∧ (s.edge i).slave.slvReg k = 0 := by
  rw [slvReg_edge hk, Bank.edge, hi.aresetn]
  simp only [Bool.not_true, Bool.false_eq_true, if_false]
  split
  · next hwrite =>
    obtain ⟨hwren, -⟩ := Bool.and_eq_true_iff.mp hwrite
    refine .inl (if_neg fun hfield => h i.wdata ?_)
    rw [Daq2.accepted, if_pos hwren, hfield]
  · by_cases hpulse : daq2Map.pulse k = true
    · exact .inr ⟨hpulse, if_pos hpulse⟩
    · exact .inl (if_neg hpulse)

/-- A register that only pulses is clear behind a cycle without a write. -/
theorem slvReg_pulsed (hi : i.Stores) (h : s.accepted i = none) (hk : isStatus k = false)
    (hpulse : daq2Map.pulse k = true) : (s.edge i).slave.slvReg k = 0 := by
  have hwren : ¬s.slave.port.wren i.toAxiIn = true := fun hwren => by
    rw [Daq2.accepted, if_pos hwren] at h
    cases h
  rw [slvReg_edge hk, Bank.edge, hi.aresetn, Bool.eq_false_iff.mpr hwren, Bool.false_and,
    if_pos hpulse]
  rfl

end Registers

section Run

variable {s : Daq2} {inputs : ℕ → Daq2In} {t u e : ℕ} {k : BitVec 5} {v : BitVec 32}

/-- The SPI master by itself. -/
theorem spi_daq2Run (u : ℕ) : (daq2Run s inputs u).spi =
    spiRun s.spi (fun u => (daq2Run s inputs u).spiIn (inputs u)) u := by
  induction u with
  | zero => rfl
  | succ u ih =>
    rw [spiRun, ← ih]
    rfl

/-- A register that nothing is written to keeps its value. -/
theorem slvReg_kept (hin : ∀ u, (inputs u).Stores) (hk : isStatus k = false)
    (hpulse : daq2Map.pulse k = false) (hle : t ≤ e)
    (hnone : ∀ u, t ≤ u → u < e → ∀ v, writesOf s inputs u ≠ some (k, v)) :
    (daq2Run s inputs e).slave.slvReg k = (daq2Run s inputs t).slave.slvReg k := by
  induction e, hle using Nat.le_induction with
  | base => rfl
  | succ e hle ih =>
    refine Eq.trans ?_ (ih fun u hu hlt => hnone u hu (hlt.trans (Nat.lt_succ_self e)))
    rcases slvReg_not_written (hin e) (hnone e hle (Nat.lt_succ_self e)) hk with hsame | ⟨hp, -⟩
    · exact hsame
    · exact absurd (hp.symm.trans hpulse) (by decide)

/-- The start register is clear until it is written to. -/
theorem slvReg_clear (hin : ∀ u, (inputs u).Stores) (hle : t ≤ e)
    (hclear : (daq2Run s inputs t).slave.slvReg 1 = 0)
    (hnone : ∀ u, t ≤ u → u < e → ∀ v, writesOf s inputs u ≠ some (1, v)) :
    (daq2Run s inputs e).slave.slvReg 1 = 0 := by
  induction e, hle using Nat.le_induction with
  | base => exact hclear
  | succ e hle ih =>
    have hprev := ih fun u hu hlt => hnone u hu (hlt.trans (Nat.lt_succ_self e))
    rcases slvReg_not_written (hin e) (hnone e hle (Nat.lt_succ_self e)) rfl with hsame | ⟨-, hzero⟩
    · exact hsame.trans hprev
    · exact hzero

/-- An idle SPI master stays so until the start register is written to. -/
theorem spi_idle (hin : ∀ u, (inputs u).Stores) (hle : t ≤ e)
    (hidle : (daq2Run s inputs t).spi.state = .idle)
    (hclear : ∀ u, t ≤ u → u < e → (daq2Run s inputs u).slave.slvReg 1 = 0) :
    (daq2Run s inputs e).spi.state = .idle := by
  induction e, hle using Nat.le_induction with
  | base => exact hidle
  | succ e hle ih =>
    have hprev := ih fun u hu hlt => hclear u hu (hlt.trans (Nat.lt_succ_self e))
    change (if !(inputs e).aresetn then SpiFsm.idle else spiNext _ (daq2Run s inputs e).spi) = _
    rw [(hin e).aresetn, spiNext, hprev]
    change (if ((daq2Run s inputs e).slave.slvReg 1).getLsbD 0 then SpiFsm.start else _) = _
    rw [hclear e hle (Nat.lt_succ_self e)]
    rfl

end Run

/-! ## Bits -/

section Bits

variable {k t e : ℕ}

theorem risingEdges_append {r : ℕ → Spi} {m : ℕ} (htm : t ≤ m) (hme : m ≤ e) :
    risingEdges r t e = risingEdges r t m ++ risingEdges r m e := by
  rw [risingEdges, risingEdges, risingEdges, ← List.filter_append]
  congr 1
  obtain ⟨a, rfl⟩ := Nat.exists_eq_add_of_le htm
  obtain ⟨b, rfl⟩ := Nat.exists_eq_add_of_le hme
  rw [Nat.add_sub_cancel_left, Nat.add_sub_cancel_left, Nat.add_assoc, Nat.add_sub_cancel_left]
  exact (List.range'_append_1).symm

/-- There are no edges where the clock is low. -/
theorem risingEdges_eq_nil {r : ℕ → Spi} (hlow : ∀ u, t < u → u ≤ e → (r u).sclk = false) :
    risingEdges r t e = [] := by
  refine List.filter_eq_nil_iff.mpr fun u hu => ?_
  obtain ⟨hle, hlt⟩ := List.mem_range'_1.mp hu
  rw [hlow (u + 1) (Nat.lt_succ_of_le hle) (by omega), Bool.and_false]
  exact Bool.false_ne_true

/-- A frame is read as its word. -/
theorem SpiFrame.bits {r : ℕ → Spi} {din : BitVec 24} (h : SpiFrame r din t e) :
    ((risingEdges r t e).map fun u => (r (u + 1)).sdout) = wordBits din := by
  refine List.ext_getElem ?_ fun i hi _ => ?_
  · rw [List.length_map, h.clocks, wordBits, List.length_map, List.length_range]
  · rw [List.length_map] at hi
    simp only [wordBits, List.getElem_map, List.getElem_range]
    exact (h.shifts i hi).2

variable {r : ℕ → Daq2}

/-- A chip that is selected shifts in what is on the bus at the rising edges. -/
theorem chipRun_selected (hle : t ≤ e) (hcs : ∀ u, t < u → u ≤ e → (r u).csN k = false) :
    chipRun k r e = ⟨(chipRun k r t).bits ++
      (risingEdges (fun u => (r u).spi) t e).map fun u => (r (u + 1)).spi.sdout,
      (chipRun k r t).taken⟩ := by
  induction e, hle using Nat.le_induction with
  | base => simp [risingEdges]
  | succ e hle ih =>
    have hprev := ih fun u hu hlt => hcs u hu (hlt.trans (Nat.le_succ e))
    rw [risingEdges_append hle (Nat.le_succ e), chipRun, SpiChip.edge,
      hcs (e + 1) (Nat.lt_succ_of_le hle) le_rfl, hprev]
    have hone : risingEdges (fun u => (r u).spi) e (e + 1) =
        bif !(r e).spi.sclk && (r (e + 1)).spi.sclk then [e] else [] := by
      rw [risingEdges, Nat.add_sub_cancel_left, List.range'_one, List.filter_singleton]
    rw [hone]
    cases !(r e).spi.sclk && (r (e + 1)).spi.sclk <;> simp

/-- A chip that has shifted in nothing takes nothing as long as there are no rising edges while it
is selected. -/
theorem chipRun_still (hle : t ≤ e) (hempty : (chipRun k r t).bits = [])
    (h : ∀ u, t ≤ u → u < e → (r (u + 1)).csN k = true ∨ (r (u + 1)).spi.sclk = false) :
    chipRun k r e = chipRun k r t := by
  induction e, hle using Nat.le_induction with
  | base => rfl
  | succ e hle ih =>
    have hprev := ih fun u hu hlt => h u hu (hlt.trans (Nat.lt_succ_self e))
    rcases hc : chipRun k r t with ⟨bits, taken⟩
    obtain rfl : bits = [] := by simpa [hc] using hempty
    rw [chipRun, hprev, hc, SpiChip.edge]
    rcases h e hle (Nat.lt_succ_self e) with hcs | hlow
    · rw [hcs]
      rfl
    · rw [hlow, Bool.and_false]
      split <;> rfl

end Bits

/-! ## A call -/

theorem sclk_idle {m : Spi} (h : m.state = .idle) : m.sclk = false := by
  simp [Spi.sclk, h]

/-- `wr_reg_spi` selects the one chip. -/
theorem selectWord_bit {dev k : ℕ} (hdev : 0 < dev ∧ dev ≤ 31) (hk : k < 3) :
    ((selectWord dev).extractLsb' 0 3).getLsbD k = !decide (dev = k + 1) := by
  have hall : ∀ k < 3, ∀ dev ≤ 31, 0 < dev →
      ((selectWord dev).extractLsb' 0 3).getLsbD k = !decide (dev = k + 1) := by
    decide
  exact hall k hk dev hdev.2 hdev.1

/-- Between two calls : nothing is being sent, and chip `k` has taken `taken`. -/
structure Between (s : Daq2) (inputs : ℕ → Daq2In) (k t : ℕ) (taken : List (List Bool)) :
    Prop where
  idle : (daq2Run s inputs t).spi.state = .idle
  clear : (daq2Run s inputs t).slave.slvReg 1 = 0
  chip : chipRun k (daq2Run s inputs) t = ⟨[], taken⟩

section Call

variable {s : Daq2} {inputs : ℕ → Daq2In} {k t u v x y e dev : ℕ} {offset data : BitVec 64}
  {taken : List (List Bool)}

/-- Nothing happens until the start register is written to. -/
theorem Between.until (hin : ∀ u, (inputs u).Stores) (h : Between s inputs k t taken) (hle : t ≤ e)
    (hnone : ∀ u, t ≤ u → u < e → ∀ v, writesOf s inputs u ≠ some (1, v)) :
    Between s inputs k e taken := by
  have hclear {u : ℕ} (htu : t ≤ u) (hue : u ≤ e) : (daq2Run s inputs u).slave.slvReg 1 = 0 :=
    slvReg_clear hin htu h.clear fun z hz hlt => hnone z hz (hlt.trans_le hue)
  have hidle {u : ℕ} (htu : t ≤ u) (hue : u ≤ e) : (daq2Run s inputs u).spi.state = .idle :=
    spi_idle hin htu h.idle fun z hz hlt => hclear hz (hlt.le.trans hue)
  refine ⟨hidle hle le_rfl, hclear hle le_rfl, ?_⟩
  rw [chipRun_still hle (by rw [h.chip]) fun z hz hlt =>
    .inr (sclk_idle (hidle (hz.trans (Nat.le_succ z)) hlt)), h.chip]

/-- The stores of a call come one after the other. -/
theorem SpiCall.order {w : ℕ → Option (BitVec 5 × BitVec 32)}
    (h : SpiCall w t u v x y dev offset data) : t ≤ u ∧ u < v ∧ v < x ∧ x + spiCycles ≤ y :=
  ⟨h.select.le, h.word.le, h.start.le, h.sleep⟩

/-- What is written in the cycles of a call. -/
theorem SpiCall.writes {w : ℕ → Option (BitVec 5 × BitVec 32)}
    (h : SpiCall w t u v x y dev offset data) {z : ℕ} (htz : t ≤ z) (hzy : z ≤ y) :
    w z = none ∨ z = u ∧ w z = some (2, selectWord dev) ∨
      z = v ∧ w z = some (0, spiWord offset data) ∨ z = x ∧ w z = some (1, 0x1) ∨
      z = y ∧ w z = some (2, 0xffff) := by
  rcases Nat.lt_trichotomy z u with hlt | heq | hu
  · exact .inl (h.select.none z htz hlt)
  · exact .inr (.inl ⟨heq, heq ▸ h.select.some⟩)
  rcases Nat.lt_trichotomy z v with hlt | heq | hv
  · exact .inl (h.word.none z hu hlt)
  · exact .inr (.inr (.inl ⟨heq, heq ▸ h.word.some⟩))
  rcases Nat.lt_trichotomy z x with hlt | heq | hx
  · exact .inl (h.start.none z hv hlt)
  · exact .inr (.inr (.inr (.inl ⟨heq, heq ▸ h.start.some⟩)))
  rcases hzy.lt_or_eq with hlt | heq
  · exact .inl (h.deselect.none z hx hlt)
  · exact .inr (.inr (.inr (.inr ⟨heq, heq ▸ h.deselect.some⟩)))

/-- `cs_n` between the first and the last store of a call. -/
theorem SpiCall.csN (hin : ∀ u, (inputs u).Stores)
    (h : SpiCall (writesOf s inputs) t u v x y dev offset data) (hk : k < 3) {z : ℕ}
    (huz : u < z) (hzy : z ≤ y) : (daq2Run s inputs z).csN k = !decide (dev = k + 1) := by
  have horder := h.order
  have hwritten : (daq2Run s inputs (u + 1)).slave.slvReg 2 = selectWord dev :=
    slvReg_written (hin u) h.select.some rfl
  have hkept : (daq2Run s inputs z).slave.slvReg 2 = (daq2Run s inputs (u + 1)).slave.slvReg 2 := by
    refine slvReg_kept hin rfl rfl huz fun z' hz' hlt value => ?_
    rcases h.writes (z := z') (by omega) (by omega) with
      hw | ⟨rfl, -⟩ | ⟨rfl, hw⟩ | ⟨rfl, hw⟩ | ⟨rfl, -⟩
    · simp [hw]
    · omega
    · simp [hw]
    · simp [hw]
    · omega
  rw [Daq2.csN, hkept, hwritten]
  exact selectWord_bit h.device hk

/-- The word is there when the SPI master loads it. -/
theorem SpiCall.word_there (hin : ∀ u, (inputs u).Stores)
    (h : SpiCall (writesOf s inputs) t u v x y dev offset data) :
    (daq2Run s inputs (x + 2)).slave.slvReg 0 = spiWord offset data := by
  have horder := h.order
  have hwritten : (daq2Run s inputs (v + 1)).slave.slvReg 0 = spiWord offset data :=
    slvReg_written (hin v) h.word.some rfl
  rw [← hwritten]
  refine slvReg_kept hin rfl rfl (by omega) fun z hz hlt value => ?_
  rcases h.writes (z := z) (by omega) (by rw [spiCycles] at horder; omega) with
    hw | ⟨rfl, hw⟩ | ⟨rfl, -⟩ | ⟨rfl, hw⟩ | ⟨rfl, hw⟩
  · simp [hw]
  · simp [hw]
  · omega
  · simp [hw]
  · simp [hw]

/-- The start register is clear again two cycles behind the start. -/
theorem SpiCall.cleared (hin : ∀ u, (inputs u).Stores)
    (h : SpiCall (writesOf s inputs) t u v x y dev offset data) {z : ℕ} (hxz : x + 2 ≤ z)
    (hzy : z ≤ y + 1) : (daq2Run s inputs z).slave.slvReg 1 = 0 := by
  have horder := h.order
  have hbehind : (daq2Run s inputs (x + 2)).slave.slvReg 1 = 0 :=
    slvReg_pulsed (hin (x + 1))
      (h.deselect.none (x + 1) le_rfl (by rw [spiCycles] at horder; omega)) rfl rfl
  refine slvReg_clear hin hxz hbehind fun z' hz' hlt value => ?_
  rcases h.writes (z := z') (by omega) (by omega) with
    hw | ⟨rfl, hw⟩ | ⟨rfl, hw⟩ | ⟨rfl, -⟩ | ⟨rfl, hw⟩
  · simp [hw]
  · simp [hw]
  · simp [hw]
  · omega
  · simp [hw]

/-- The store to the start register makes the SPI master leave `C_IDLE`. -/
theorem SpiCall.leaves (hin : ∀ u, (inputs u).Stores)
    (h : SpiCall (writesOf s inputs) t u v x y dev offset data)
    (hready : Between s inputs k x taken) :
    (daq2Run s inputs (x + 1)).spi.state = .idle ∧
      (daq2Run s inputs (x + 2)).spi.state ≠ .idle := by
  have hidle : (daq2Run s inputs (x + 1)).spi.state = .idle := by
    refine spi_idle hin (Nat.le_succ x) hready.idle fun z hz hlt => ?_
    obtain rfl : z = x := by omega
    exact hready.clear
  have hstart : (daq2Run s inputs (x + 1)).slave.slvReg 1 = 0x01010101 :=
    slvReg_written (hin x) h.start.some rfl
  refine ⟨hidle, ?_⟩
  change (if !(inputs (x + 1)).aresetn then SpiFsm.idle
    else spiNext (((daq2Run s inputs (x + 1)).slave.slvReg 1).getLsbD 0)
      (daq2Run s inputs (x + 1)).spi) ≠ _
  rw [(hin (x + 1)).aresetn, hstart, spiNext, hidle]
  exact SpiFsm.noConfusion

/-- A call sends its word, and is done when its last store comes. -/
theorem SpiCall.sends (hin : ∀ u, (inputs u).Stores)
    (h : SpiCall (writesOf s inputs) t u v x y dev offset data)
    (hready : Between s inputs k x taken) :
    (∀ z, x + 772 ≤ z → z ≤ y + 1 → (daq2Run s inputs z).spi.state = .idle) ∧
      ((risingEdges (fun u => (daq2Run s inputs u).spi) x y).map fun u =>
        (daq2Run s inputs (u + 1)).spi.sdout) =
          wordBits ((spiWord offset data).extractLsb' 0 24) := by
  have hsleep : x + 772 ≤ y := h.sleep
  have hspi : (fun u => (daq2Run s inputs u).spi) =
      spiRun s.spi fun u => (daq2Run s inputs u).spiIn (inputs u) := funext spi_daq2Run
  obtain ⟨hidle, hleave⟩ := h.leaves hin hready
  have hrst : ∀ u, ((daq2Run s inputs u).spiIn (inputs u)).rstN = true := fun u => (hin u).aresetn
  rw [spi_daq2Run] at hidle hleave
  have hframe := spiFrame_spiRun hrst hidle hleave
  rw [← hspi] at hframe
  have hafter : ∀ z, x + 772 ≤ z → z ≤ y + 1 → (daq2Run s inputs z).spi.state = .idle :=
    fun z hz hzy => spi_idle hin hz hframe.returns.2 fun z' hz' hlt =>
      h.cleared hin (by omega) (by omega)
  have hbefore : risingEdges (fun u => (daq2Run s inputs u).spi) x (x + 1) = [] :=
    risingEdges_eq_nil fun z hz hzx => by
      obtain rfl : z = x + 1 := by omega
      exact sclk_idle ((spi_daq2Run _).symm ▸ hidle)
  have hbehind : risingEdges (fun u => (daq2Run s inputs u).spi) (x + 772) y = [] :=
    risingEdges_eq_nil fun z hz hzy => sclk_idle (hafter z hz.le (hzy.trans (Nat.le_succ y)))
  refine ⟨hafter, ?_⟩
  rw [risingEdges_append (Nat.le_succ x) (by omega), hbefore, List.nil_append,
    risingEdges_append (m := x + 772) (by omega) hsleep, hbehind, List.append_nil, hframe.bits,
    Daq2.spiIn, h.word_there hin]

/-- Chip `k` takes the word of a call if it is the one that is called. -/
theorem SpiCall.takes (hin : ∀ u, (inputs u).Stores)
    (h : SpiCall (writesOf s inputs) t u v x y dev offset data) (hk : k < 3)
    (hready : Between s inputs k t taken) :
    Between s inputs k (y + 1)
      (taken ++ (CfgOp.wordFor k (.wrRegSpi dev offset data)).toList) := by
  have horder : t ≤ u ∧ u < v ∧ v < x ∧ x + 772 ≤ y := h.order
  have hstart := hready.until hin (e := x) (by omega) fun z hz hlt value => by
    rcases h.writes (z := z) hz (by omega) with
      hw | ⟨rfl, hw⟩ | ⟨rfl, hw⟩ | ⟨rfl, -⟩ | ⟨rfl, hw⟩
    · simp [hw]
    · simp [hw]
    · simp [hw]
    · omega
    · omega
  obtain ⟨hafter, hbits⟩ := h.sends hin hstart
  refine ⟨hafter (y + 1) (by omega) le_rfl, h.cleared hin (by omega) le_rfl, ?_⟩
  have hdeselected : (daq2Run s inputs (y + 1)).csN k = true := by
    have hwritten : (daq2Run s inputs (y + 1)).slave.slvReg 2 = 0xffff :=
      slvReg_written (hin y) h.deselect.some rfl
    have hbits : ∀ k < 3, ((0xffff : BitVec 32).extractLsb' 0 3).getLsbD k = true := by decide
    rw [Daq2.csN, hwritten, hbits k hk]
  by_cases hdev : dev = k + 1
  · have hshifted := chipRun_selected (k := k) (r := daq2Run s inputs) (t := x) (e := y) (by omega)
      fun z hz hzy => by rw [h.csN hin hk (by omega) hzy, hdev]; simp
    rw [hstart.chip, hbits] at hshifted
    rw [chipRun, hdeselected, hshifted]
    simp [SpiChip.edge, CfgOp.wordFor, hdev, wordBits]
  · have hstill := chipRun_still (k := k) (r := daq2Run s inputs) (t := x) (e := y + 1) (by omega)
      (by rw [hstart.chip]) fun z hz hlt => .inl (by
        rcases Nat.lt_succ_iff_lt_or_eq.mp hlt with hzy | rfl
        · rw [h.csN hin hk (by omega) hzy, decide_eq_false hdev]
          rfl
        · exact hdeselected)
    rw [hstill, hstart.chip]
    simp [CfgOp.wordFor, hdev]

end Call

/-! ## The configuration -/

/-- The words of a list of operations, chip by chip. -/
theorem Performs.takes {s : Daq2} {inputs : ℕ → Daq2In} (hin : ∀ u, (inputs u).Stores) {k : ℕ}
    (hk : k < 3) {t e : ℕ} {ops : List CfgOp} (h : Performs (writesOf s inputs) t ops e)
    {taken : List (List Bool)} (hready : Between s inputs k t taken) :
    Between s inputs k e (taken ++ ops.filterMap (CfgOp.wordFor k)) := by
  induction h generalizing taken with
  | done hle hnone =>
    rw [List.filterMap_nil, List.append_nil]
    exact hready.until hin hle fun u hu hlt v => by simp [hnone u hu hlt]
  | @store t u e reg value ops hreg hnext _ ih =>
    refine ih (hready.until hin (hnext.le.trans (Nat.le_succ u)) fun z hz hlt v => ?_)
    rcases Nat.lt_succ_iff_lt_or_eq.mp hlt with hzu | rfl
    · simp [hnext.none z hz hzu]
    · rw [hnext.some]
      rintro ⟨⟩
      exact absurd hreg (by decide)
  | wrRegSpi hcall _ ih =>
    have hall := ih (hcall.takes hin hk hready)
    rw [List.append_assoc] at hall
    rw [List.filterMap_cons]
    split <;> simp_all

/-- A controller that is idle is given the stores of any list of operations of the tool, with any
pauses : every chip has taken the words of the calls that are for it, whole and in order, and no
other. -/
theorem configures (s : Daq2) (inputs : ℕ → Daq2In) (hin : ∀ u, (inputs u).Stores)
    (hidle : s.spi.state = .idle) (hclear : s.slave.slvReg 1 = 0) {ops : List CfgOp} {e : ℕ}
    (h : Performs (writesOf s inputs) 0 ops e) {k : ℕ} (hk : k < 3) :
    chipRun k (daq2Run s inputs) e = ⟨[], ops.filterMap (CfgOp.wordFor k)⟩ := by
  have hready : Between s inputs k 0 [] := ⟨hidle, hclear, rfl⟩
  exact (h.takes hin hk hready).chip

/-- The controller behind a reset. -/
def idleDaq2 : Daq2 where
  slave := ⟨.reset, 0, 0⟩
  spi := ⟨.idle, 0, 0, 0⟩

/-- The stores of `wr_reg_spi(3, 0x000, 0x24)` on the bus, two cycles each. -/
def softReset (u : ℕ) : Option (BitVec 7 × BitVec 32) :=
  if u < 2 then some (8, selectWord 3)
  else if u < 4 then some (0, spiWord 0x000 0x24)
  else if u < 6 then some (4, 0x1)
  else if u = 1000 ∨ u = 1001 then some (8, 0xffff)
  else none

/-- The pins while they are made. -/
def softResetPins (u : ℕ) : Daq2In where
  aresetn := true
  awaddr := ((softReset u).map Prod.fst).getD 0
  awvalid := (softReset u).isSome
  wdata := ((softReset u).map Prod.snd).getD 0
  wstrb := 15
  wvalid := (softReset u).isSome
  bready := true
  araddr := 0
  arvalid := false
  rready := true
  status := fun _ => 0

/-- Nothing is accepted when nothing is on the bus. -/
theorem softReset_none {u : ℕ} (h : softReset u = none) :
    writesOf idleDaq2 softResetPins u = none := by
  change (if _ then _ else _) = _
  rw [AxiPort.wren]
  simp [softResetPins, h]

theorem softReset_pause {u : ℕ} (h6 : 6 ≤ u) (hu : u < 1000) : softReset u = none := by
  simp [softReset, show ¬u < 2 by omega, show ¬u < 4 by omega, show ¬u < 6 by omega,
    show ¬(u = 1000 ∨ u = 1001) by omega]

/-- A port that has taken nothing takes a store in its second cycle. -/
theorem accepted_second {s : Daq2} {i j : Daq2In}
    (hport : s.slave.port.awready = false ∧ s.slave.port.wready = false) (hi : i.aresetn = true)
    (hvalid : i.awvalid = true ∧ i.wvalid = true) (hheld : j.awvalid = true ∧ j.wvalid = true) :
    s.accepted i = none ∧ (s.edge i).accepted j = some (field i.awaddr, j.wdata) := by
  constructor
  · simp [Daq2.accepted, AxiPort.wren, hport.1]
  · simp [Daq2.accepted, Daq2.edge, daq2Edge, AxiPort.edge, AxiPort.wren, hport, hi, hvalid, hheld]

/-- The last store is accepted in its second cycle. -/
theorem softReset_last : writesOf idleDaq2 softResetPins 1000 = none ∧
    writesOf idleDaq2 softResetPins 1001 = some (2, 0xffff) := by
  refine accepted_second (s := daq2Run idleDaq2 softResetPins (999 + 1)) ?_ rfl ⟨rfl, rfl⟩
    ⟨rfl, rfl⟩
  change (AxiPort.edge (softResetPins 999).toAxiIn _).awready = _ ∧
    (AxiPort.edge (softResetPins 999).toAxiIn _).wready = _
  rw [AxiPort.edge]
  simp [softResetPins, softReset]

/-- The call. -/
theorem softReset_performs :
    Performs (writesOf idleDaq2 softResetPins) 0 [.wrRegSpi 3 0x000 0x24] 1002 := by
  refine .wrRegSpi (u := 1) (v := 3) (x := 5) (y := 1001) ⟨by decide, ⟨by decide, ?_, rfl⟩,
    ⟨by decide, ?_, rfl⟩, ⟨by decide, ?_, rfl⟩, by decide, ⟨by decide, ?_, softReset_last.2⟩⟩
    (.done le_rfl fun v hv hlt => absurd hlt (by omega))
  · intro v _ hv
    obtain rfl : v = 0 := by omega
    rfl
  · intro v h2 hv
    obtain rfl : v = 2 := by omega
    rfl
  · intro v h4 hv
    obtain rfl : v = 4 := by omega
    rfl
  · intro v h6 hv
    rcases Nat.lt_succ_iff_lt_or_eq.mp hv with hlt | rfl
    · exact softReset_none (softReset_pause h6 hlt)
    · exact softReset_last.1

/-- The chip of `wr_reg_spi(3, 0x000, 0x24)` takes its word. -/
theorem configures_soft_reset : chipRun 2 (daq2Run idleDaq2 softResetPins) 1002 =
    ⟨[], [wordBits 0x000024]⟩ :=
  configures idleDaq2 softResetPins (fun _ => ⟨rfl, rfl⟩) rfl rfl softReset_performs (by decide)

end Wimi
