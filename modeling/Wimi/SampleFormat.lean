import Wimi.Lib.Fifo
import Wimi.Lib.Lanes

/-!
# Sample format of the JESD204B bridge

The data paths of `TX_AXIS` and `RX_AXIS` between the 256-bit host stream and the 128-bit
converter stream. On the way out a host word has its halves swapped at the FIFO input
(`txDin`), leaves `fifo_256to128` as two words and is permuted byte by byte onto
`M_AXIS_TDATA` (`txTdata`). On the way in a converter word is permuted onto `din`
(`rxDin`), two of them fill one output of `fifo_128to256`, and the halves of `dout` are
swapped onto `M_AXIS_TDATA` (`rxTdata`).

The vendor FIFOs keep order; the narrow side of each is the most significant half of the
wide word first (`fifo256to128`, `fifo128to256`).

`loopback` : the RX path undoes the TX path on every sequence of host words.
-/

namespace Wimi

open Lanes

/-- A word of the converter stream, eight 16-bit samples. -/
abbrev ConvWord := BitVec 128

/-- A word of the host stream. -/
abbrev HostWord := BitVec (128 + 128)

/-! ## TX_AXIS -/

/-- Source offset in `dout` of each byte of `M_AXIS_TDATA`. -/
def txByte (i : ℕ) : ℕ :=
  [8, 40, 72, 104, 0, 32, 64, 96, 24, 56, 88, 120, 16, 48, 80, 112].getD i 0

/-- `{S_AXIS_TDATA[127:0], S_AXIS_TDATA[255:128]}`, the FIFO input. -/
def txDin (tdata : HostWord) : HostWord :=
  swapHalves tdata

/-- `M_AXIS_TDATA[8*i +: 8] = dout[txByte i +: 8]`. -/
def txTdata (dout : ConvWord) : ConvWord :=
  lanes 8 txByte dout

/-- Words out of the 2:1 FIFO, the most significant half of each first. -/
def fifo256to128 (ws : List HostWord) : List ConvWord :=
  ws.flatMap fun w => [w.extractLsb' 128 128, w.extractLsb' 0 128]

/-- The TX data path on a sequence of host words. -/
def txPath (ws : List HostWord) : List ConvWord :=
  (fifo256to128 (ws.map txDin)).map txTdata

/-! ## RX_AXIS -/

/-- Source offset in `S_AXIS_TDATA` of each byte of `din`. -/
def rxByte (i : ℕ) : ℕ :=
  [32, 0, 96, 64, 40, 8, 104, 72, 48, 16, 112, 80, 56, 24, 120, 88].getD i 0

/-- `din[8*i +: 8] = S_AXIS_TDATA[rxByte i +: 8]`. -/
def rxDin (tdata : ConvWord) : ConvWord :=
  lanes 8 rxByte tdata

/-- `{dout[127:0], dout[255:128]}`, the stream output. -/
def rxTdata (dout : HostWord) : HostWord :=
  swapHalves dout

/-- The wide word of two narrow ones, the first written in the most significant half. -/
def fifoPack (p : ConvWord × ConvWord) : HostWord :=
  p.1 ++ p.2

/-- Words out of the 1:2 FIFO; a last word without a partner stays inside. -/
def fifo128to256 (ws : List ConvWord) : List HostWord :=
  (Fifo.pairs ws).map fifoPack

/-- The RX data path on a sequence of converter words. -/
def rxPath (ws : List ConvWord) : List HostWord :=
  (fifo128to256 (ws.map rxDin)).map rxTdata

/-- Each byte of `M_AXIS_TDATA` is the byte of `dout` its assignment names. -/
theorem txTdata_byte (dout : ConvWord) {i : ℕ} (hi : i < 16) :
    (txTdata dout).extractLsb' (8 * i) 8 = dout.extractLsb' (txByte i) 8 :=
  extractLsb'_lanes txByte dout (by omega)

/-! ## Round trip -/

/-- The byte of `S_AXIS_TDATA` that drives each byte of `din`. -/
def rxLane (i : ℕ) : ℕ :=
  rxByte i / 8

theorem rxLane_lt : ∀ i < 16, rxLane i < 16 := by
  decide

theorem rxByte_eq : ∀ i < 16, rxByte i = 8 * rxLane i := by
  decide

theorem txByte_rxLane : ∀ i < 16, txByte (rxLane i) = 8 * i := by
  decide

/-- The byte of `dout` that drives each byte of `M_AXIS_TDATA`. -/
def txLane (i : ℕ) : ℕ :=
  txByte i / 8

theorem txLane_lt : ∀ i < 16, txLane i < 16 := by
  decide

theorem txByte_eq : ∀ i < 16, txByte i = 8 * txLane i := by
  decide

theorem rxByte_txLane : ∀ i < 16, rxByte (txLane i) = 8 * i := by
  decide

/-- The RX byte permutation undoes the TX one. -/
theorem rxDin_txTdata (w : ConvWord) : rxDin (txTdata w) = w :=
  lanes_lanes (m := 16) rfl rxLane_lt rxByte_eq txByte_rxLane w

/-- The TX byte permutation undoes the RX one. -/
theorem txTdata_rxDin (w : ConvWord) : txTdata (rxDin w) = w :=
  lanes_lanes (m := 16) rfl txLane_lt txByte_eq rxByte_txLane w

/-- The first word of a beat lands in its low half. -/
theorem rxTdata_fifoPack (a b : ConvWord) : rxTdata (fifoPack (a, b)) = b ++ a :=
  swapHalves_append a b

theorem append_extractLsb' (w : HostWord) :
    w.extractLsb' 128 128 ++ w.extractLsb' 0 128 = w := by
  apply BitVec.eq_of_getLsbD_eq
  intro b hb
  rw [BitVec.getLsbD_append]
  by_cases h : b < 128
  · simp [h]
  · simp [h, show b - 128 < 128 by omega, show 128 + (b - 128) = b by omega]

theorem rxTdata_txDin (w : HostWord) : rxTdata (txDin w) = w := by
  conv_lhs => rw [← append_extractLsb' w]
  rw [txDin, rxTdata, swapHalves_append, swapHalves_append, append_extractLsb']

/-- The 1:2 FIFO packs back what the 2:1 FIFO unpacked. -/
theorem fifo128to256_fifo256to128 (ws : List HostWord) :
    fifo128to256 (fifo256to128 ws) = ws := by
  induction ws with
  | nil => rfl
  | cons w ws ih =>
    simp only [fifo256to128, fifo128to256, List.flatMap_cons, List.cons_append, List.nil_append,
      Fifo.pairs, List.map_cons] at ih ⊢
    rw [ih, fifoPack, append_extractLsb']

/-- Feeding the TX output into the RX input gives back every sequence of host words, and
the two byte permutations are inverse to each other. -/
theorem loopback (ws : List HostWord) :
    rxPath (txPath ws) = ws ∧
      (∀ w : ConvWord, rxDin (txTdata w) = w) ∧ ∀ w : ConvWord, txTdata (rxDin w) = w := by
  refine ⟨?_, rxDin_txTdata, txTdata_rxDin⟩
  have hbytes : rxDin ∘ txTdata = id := funext rxDin_txTdata
  have hhalves : rxTdata ∘ txDin = id := funext rxTdata_txDin
  calc rxPath (txPath ws)
      = (fifo128to256 ((fifo256to128 (ws.map txDin)).map (rxDin ∘ txTdata))).map rxTdata := by
        rw [rxPath, txPath, List.map_map]
    _ = (ws.map txDin).map rxTdata := by
        rw [hbytes, List.map_id, fifo128to256_fifo256to128]
    _ = ws := by
        rw [List.map_map, hhalves, List.map_id]

end Wimi
