import Wimi.Bridge

/-!
# The RX frame

A trigger leaves `RX_AXIS` with both FSMs active, both counters zero and the FIFO empty.
The write FSM stops one cycle after `wr_count` reaches `num_words`, so it may accept one
word too many; the read FSM stops one cycle after `rd_count` reaches `num_words / 2`.
With an even `num_words` the extra word has no partner in the FIFO and is never read.

`RxInv` is what every edge preserves : the counters count the handshakes, the FIFO was
written with the accepted words, and the beats are what was read from it
(`RxInv.slaveEdge`, `RxInv.masterEdge`). `rx_frame` reads the frame off it.
-/

namespace Wimi

/-- The frame of a sequence of converter words : two words a beat, the first in the low
half, each in the byte order of the host. -/
def rxFrame (ws : List ConvWord) : List HostWord :=
  (Fifo.pairs ws).map fun p => rxDin p.2 ++ rxDin p.1

/-- The frame is the RX data path. -/
theorem rxFrame_eq_rxPath (ws : List ConvWord) : rxFrame ws = rxPath ws := by
  rw [rxFrame, rxPath, fifo128to256, Fifo.pairs_map, List.map_map, List.map_map]
  exact List.map_congr_left fun p _ => (rxTdata_fifoPack (rxDin p.1) (rxDin p.2)).symm

theorem rxFrame_prefix {l m : List ConvWord} (h : l <+: m) : rxFrame l <+: rxFrame m :=
  (Fifo.pairs_prefix h).map _

/-- The state a trigger leaves, with `num_words` held at `n`. -/
def rxStart (n : BitVec 32) : RxState where
  sState := .writeFifo
  mState := .readFifo
  numWordsS := n
  numWordsM := n
  numWordsMM1 := n - 1
  wrCount := 0
  rdCount := 0
  flushS := false
  flushM := false
  fifo := Fifo.empty
  accepted := []
  beats := []

/-- No reset and no trigger at this edge, and `num_words` is `n`. -/
def RxQuiet (n : BitVec 32) : RxEdge → Prop
  | .slave i => i.aresetn = true ∧ i.mAresetn = true ∧ i.flush = false ∧ i.numWords = n
  | .master i => i.aresetn = true ∧ i.sAresetn = true ∧ i.flush = false ∧ i.numWords = n

/-- What every quiet edge after a trigger preserves. -/
structure RxInv (n : BitVec 32) (s : RxState) : Prop where
  numWordsS : s.numWordsS = n
  numWordsM : s.numWordsM = n
  numWordsMM1 : s.numWordsMM1 = n - 1
  flushS : s.flushS = false
  flushM : s.flushM = false
  wrCount : s.wrCount = BitVec.ofNat 18 s.accepted.length
  rdCount : s.rdCount = BitVec.ofNat 17 s.beats.length
  /-- While the write FSM is open the counter has not passed `num_words`. -/
  writing : s.sState = .writeFifo → s.accepted.length ≤ n.toNat % 2 ^ 18
  /-- The FSM closes one cycle late. -/
  extra : s.accepted.length ≤ n.toNat % 2 ^ 18 + 1
  written : s.fifo.written = s.accepted.map rxDin
  taken : s.fifo.taken = 2 * s.beats.length
  data : s.beats.map Prod.fst = rxFrame (s.accepted.take (2 * s.beats.length))
  last : ∀ k (hk : k < s.beats.length),
    s.beats[k].2 = (BitVec.ofNat 17 k == (n - 1).extractLsb' 1 17)

theorem rxInv_start (n : BitVec 32) : RxInv n (rxStart n) where
  numWordsS := rfl
  numWordsM := rfl
  numWordsMM1 := rfl
  flushS := rfl
  flushM := rfl
  wrCount := rfl
  rdCount := rfl
  writing _ := Nat.zero_le _
  extra := Nat.zero_le _
  written := rfl
  taken := rfl
  data := rfl
  last _ hk := absurd hk (Nat.not_lt_zero _)

/-- A write FSM that stays open has not reached `num_words`. -/
theorem RxInv.length_lt_of_open {n : BitVec 32} {s : RxState} (h : RxInv n s)
    (hs : s.sState = .writeFifo) (hopen : rxNextS s = .writeFifo) :
    s.accepted.length < n.toNat % 2 ^ 18 := by
  have hle := h.writing hs
  have hlt : n.toNat % 2 ^ 18 < 2 ^ 18 := Nat.mod_lt _ (by norm_num)
  have hne : s.accepted.length ≠ n.toNat % 2 ^ 18 := by
    intro heq
    have hcount : s.wrCount = s.numWordsS.extractLsb' 0 18 := by
      rw [h.wrCount, h.numWordsS]
      apply BitVec.eq_of_toNat_eq
      simp [heq]
    simp [rxNextS, hs, hcount] at hopen
  omega

/-- A slave edge without a handshake moves the write FSM only. -/
theorem rxSlaveEdge_of_not_wren {n : BitVec 32} {s : RxState} (h : RxInv n s) {i : RxSlaveIn}
    (hq : RxQuiet n (.slave i)) (hw : s.wren i = false) :
    rxSlaveEdge i s = { s with sState := rxNextS s } := by
  obtain ⟨hr, hm, hf, hn⟩ := hq
  simp [rxSlaveEdge, hr, hm, hf, hn, hw, h.flushS, ← h.numWordsS]

/-- A slave handshake counts, stores and records one word. -/
theorem rxSlaveEdge_of_wren {n : BitVec 32} {s : RxState} (h : RxInv n s) {i : RxSlaveIn}
    (hq : RxQuiet n (.slave i)) (hw : s.wren i = true) :
    rxSlaveEdge i s = { s with
      sState := rxNextS s
      wrCount := s.wrCount + 1
      fifo := s.fifo.push [rxDin i.tdata]
      accepted := s.accepted ++ [i.tdata] } := by
  obtain ⟨hr, hm, hf, hn⟩ := hq
  simp [rxSlaveEdge, hr, hm, hf, hn, hw, h.flushS, ← h.numWordsS]

theorem RxInv.slaveEdge {n : BitVec 32} {s : RxState} (h : RxInv n s) {i : RxSlaveIn}
    (hq : RxQuiet n (.slave i)) : RxInv n (rxSlaveEdge i s) := by
  cases hw : s.wren i with
  | false =>
    rw [rxSlaveEdge_of_not_wren h hq hw]
    refine { h with writing := fun hs => ?_ }
    cases hss : s.sState with
    | idle => simp [rxNextS, hss, h.flushS] at hs
    | writeFifo => exact h.writing hss
  | true =>
    rw [rxSlaveEdge_of_wren h hq hw]
    have hopen : s.sState = .writeFifo := by
      simp only [RxState.wren, RxState.sTready, Bool.and_eq_true, beq_iff_eq] at hw
      exact hw.2.1
    have hbeats : 2 * s.beats.length ≤ s.accepted.length := by
      simpa [h.taken, h.written] using s.fifo.le
    refine { h with
      wrCount := ?_, writing := fun hs => ?_, extra := ?_, written := ?_, data := ?_ }
    · apply BitVec.eq_of_toNat_eq
      simp [h.wrCount]
    · have := h.length_lt_of_open hopen hs
      simp only [List.length_append, List.length_singleton]
      omega
    · have := h.writing hopen
      simp only [List.length_append, List.length_singleton]
      omega
    · simp [h.written]
    · rw [List.take_append_of_le_length hbeats, h.data]

/-- A master handshake is one more beat, and the two words it carries were accepted. -/
theorem RxInv.beat {n : BitVec 32} {s : RxState} (h : RxInv n s) (hold : s.fifo.Holds 2) :
    2 * s.beats.length + 2 ≤ s.accepted.length ∧
      (s.beats.map Prod.fst) ++ [rxTdata s.dout] =
        rxFrame (s.accepted.take (2 * s.beats.length + 2)) := by
  have hlen : 2 * s.beats.length + 2 ≤ s.accepted.length := by
    simpa [Fifo.Holds, h.taken, h.written] using hold
  refine ⟨hlen, ?_⟩
  obtain ⟨a, b, rest, hrest⟩ : ∃ a b rest, s.accepted.drop (2 * s.beats.length) =
      a :: b :: rest := by
    match hd : s.accepted.drop (2 * s.beats.length) with
    | a :: b :: rest => exact ⟨a, b, rest, rfl⟩
    | [_] | [] =>
      have := congrArg List.length hd
      simp only [List.length_drop, List.length_cons, List.length_nil] at this
      omega
  have hstored : s.fifo.stored = rxDin a :: rxDin b :: rest.map rxDin := by
    rw [Fifo.stored, h.written, h.taken, ← List.map_drop, hrest, List.map_cons, List.map_cons]
  have htake : s.accepted.take (2 * s.beats.length + 2) =
      s.accepted.take (2 * s.beats.length) ++ [a, b] := by
    rw [List.take_add, hrest]
    rfl
  have heven : (s.accepted.take (2 * s.beats.length)).length % 2 = 0 := by
    rw [List.length_take, Nat.min_eq_left (by omega)]
    omega
  rw [htake, rxFrame, Fifo.pairs_append_pair _ _ _ heven, List.map_append, ← rxFrame, h.data,
    RxState.dout, hstored]
  simp [rxTdata_fifoPack]

/-- A master handshake reads two words the FIFO holds. -/
theorem RxState.holds_of_rden {s : RxState} {i : RxMasterIn} (hd : s.rden i = true) :
    s.fifo.Holds 2 := by
  simp only [RxState.rden, RxState.mTvalid, RxState.isEmpty, Bool.and_eq_true,
    Bool.not_eq_true', Bool.or_eq_false_iff] at hd
  simpa using hd.2.2.2

/-- A master edge without a handshake moves the read FSM only. -/
theorem rxMasterEdge_of_not_rden {n : BitVec 32} {s : RxState} (h : RxInv n s) {i : RxMasterIn}
    (hq : RxQuiet n (.master i)) (hd : s.rden i = false) :
    rxMasterEdge i s = { s with mState := rxNextM s } := by
  obtain ⟨hr, hs, hf, hn⟩ := hq
  have hm1 : n - 1 = s.numWordsMM1 := h.numWordsMM1.symm
  simp only [rxMasterEdge, hr, hs, hf, hn, hd, h.flushM, hm1, h.numWordsM]
  simp

/-- A master handshake counts, reads two words and records one beat. -/
theorem rxMasterEdge_of_rden {n : BitVec 32} {s : RxState} (h : RxInv n s) {i : RxMasterIn}
    (hq : RxQuiet n (.master i)) (hd : s.rden i = true) :
    rxMasterEdge i s = { s with
      mState := rxNextM s
      rdCount := s.rdCount + 1
      fifo := s.fifo.pop 2 (RxState.holds_of_rden hd)
      beats := s.beats ++ [(rxTdata s.dout, s.tlast)] } := by
  obtain ⟨hr, hs, hf, hn⟩ := hq
  have hm1 : n - 1 = s.numWordsMM1 := h.numWordsMM1.symm
  have hold := RxState.holds_of_rden hd
  simp only [rxMasterEdge, hr, hs, hf, hn, hd, h.flushM, hm1, h.numWordsM]
  simp [hold]

theorem RxInv.masterEdge {n : BitVec 32} {s : RxState} (h : RxInv n s) {i : RxMasterIn}
    (hq : RxQuiet n (.master i)) : RxInv n (rxMasterEdge i s) := by
  cases hd : s.rden i with
  | false =>
    rw [rxMasterEdge_of_not_rden h hq hd]
    exact { h with }
  | true =>
    rw [rxMasterEdge_of_rden h hq hd]
    obtain ⟨-, hdata⟩ := h.beat (RxState.holds_of_rden hd)
    refine { h with rdCount := ?_, taken := ?_, data := ?_, last := ?_ }
    · apply BitVec.eq_of_toNat_eq
      simp [h.rdCount]
    · simp only [Fifo.taken_pop, h.taken, List.length_append, List.length_singleton]
      omega
    · simpa [Nat.mul_add] using hdata
    · intro k hk
      simp only [List.length_append, List.length_singleton] at hk
      rcases Nat.lt_succ_iff_lt_or_eq.mp hk with hlt | rfl
      · simpa [List.getElem_append_left hlt] using h.last k hlt
      · simp [RxState.tlast, h.rdCount, h.numWordsMM1]

theorem RxInv.run {n : BitVec 32} {s : RxState} (h : RxInv n s) {es : List RxEdge}
    (hq : ∀ e ∈ es, RxQuiet n e) : RxInv n (es.foldl rxStep s) := by
  induction es generalizing s with
  | nil => exact h
  | cons e es ih =>
    refine ih ?_ fun e' he' => hq e' (List.mem_cons_of_mem e he')
    have he := hq e (by simp)
    cases e with
    | slave i => exact h.slaveEdge he
    | master i => exact h.masterEdge he

/-- The beats are a prefix of the frame of the first `num_words` accepted words. -/
theorem RxInv.beats_prefix {n : BitVec 32} {s : RxState} (h : RxInv n s)
    (hlen : 2 * s.beats.length ≤ n.toNat) :
    s.beats.map Prod.fst <+: rxFrame (s.accepted.take n.toNat) := by
  rw [h.data]
  refine rxFrame_prefix ?_
  rw [← Nat.min_eq_left hlen, ← List.take_take]
  exact List.take_prefix _ _

/-- With an even `num_words` below `2 ^ 18` the extra word has no partner. -/
theorem RxInv.length_beats_le {n : BitVec 32} {s : RxState} (h : RxInv n s)
    (heven : n.toNat % 2 = 0) (hn : n.toNat < 2 ^ 18) : s.beats.length ≤ n.toNat / 2 := by
  have hread := s.fifo.le
  have hextra := h.extra
  rw [h.taken, h.written, List.length_map] at hread
  rw [Nat.mod_eq_of_lt hn] at hextra
  omega

/-- `TLAST` marks beat number `num_words / 2`. -/
theorem RxInv.last_iff {n : BitVec 32} {s : RxState} (h : RxInv n s) (heven : n.toNat % 2 = 0)
    (h2 : 2 ≤ n.toNat) (hn : n.toNat < 2 ^ 18) (k : ℕ) (hk : k < s.beats.length) :
    s.beats[k].2 = true ↔ k + 1 = n.toNat / 2 := by
  have hle := h.length_beats_le heven hn
  have hpred : (n - 1).toNat = n.toNat - 1 := by
    have h1 : (1 : BitVec 32) ≤ n := by
      change 1 ≤ n.toNat
      omega
    rw [BitVec.toNat_sub_of_le h1]
    rfl
  rw [h.last k hk, beq_iff_eq, ← BitVec.toNat_inj, BitVec.toNat_ofNat,
    BitVec.extractLsb'_toNat, hpred, Nat.shiftRight_eq_div_pow]
  omega

/-- From the state a trigger leaves, with an even `num_words` in `[2, 2 ^ 18)` and neither
trigger nor reset, after any edges of the two clocks and whatever the streams and the FIFO
flags do : the beats transferred are a prefix of the frame of the first `num_words`
accepted words, at most `num_words / 2` of them, and `TLAST` is high on exactly the last. -/
theorem rx_frame {n : BitVec 32} (heven : n.toNat % 2 = 0) (h2 : 2 ≤ n.toNat)
    (hn : n.toNat < 2 ^ 18) {es : List RxEdge} (hq : ∀ e ∈ es, RxQuiet n e) :
    let s := es.foldl rxStep (rxStart n)
    s.beats.map Prod.fst <+: rxFrame (s.accepted.take n.toNat) ∧
      s.beats.length ≤ n.toNat / 2 ∧
      ∀ k (hk : k < s.beats.length), s.beats[k].2 = true ↔ k + 1 = n.toNat / 2 := by
  intro s
  have hs : RxInv n s := (rxInv_start n).run hq
  have hle := hs.length_beats_le heven hn
  exact ⟨hs.beats_prefix (by omega), hle, hs.last_iff heven h2 hn⟩

/-- The slave pins of a quiet edge that offers `w`. -/
def rxOffer (n : BitVec 32) (w : ConvWord) : RxEdge :=
  .slave ⟨true, true, true, w, false, false, n⟩

/-- The master pins of a quiet edge that is ready for a beat. -/
def rxReady (n : BitVec 32) : RxEdge :=
  .master ⟨true, true, true, false, false, n⟩

/-- A frame of two words : the third word offered finds the write FSM still open. -/
theorem rx_frame_two_words :
    let s := [rxOffer 2 1, rxOffer 2 2, rxOffer 2 3, rxReady 2, rxReady 2].foldl rxStep (rxStart 2)
    s.accepted.length = 3 ∧ s.beats.length = 1 ∧
      s.beats.map Prod.fst <+: rxFrame (s.accepted.take 2) ∧ s.beats.length ≤ 2 / 2 ∧
      ∀ k (hk : k < s.beats.length), s.beats[k].2 = true ↔ k + 1 = 2 / 2 :=
  ⟨rfl, rfl, rx_frame (n := 2) (by decide) (by decide) (by decide)
    (by simp [rxOffer, rxReady, RxQuiet])⟩

end Wimi
