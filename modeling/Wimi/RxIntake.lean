import Wimi.Lib.Run
import Wimi.RxFrame

/-!
# Intake of an RX frame

The write FSM of `RX_AXIS` leaves `WRITE_FIFO` at the edge behind the one that has counted the last
word, and `TREADY` goes by the state. At that edge it can take in a word too many.

`rx_intake_iff` : a run takes in `num_words` words exactly when no edge that finds all of them
counted has `TVALID` high and the FIFO not full (`NoExtraWord`). The master domain may do what it
likes.
-/

namespace Wimi

open Machine

/-! ## Runs -/

/-- The bridge, and the handshakes at its slave port since the trigger. -/
structure RxIntake where
  bridge : RxState
  handshakes : ℕ

/-- One edge, with `num_words` held at `n` and neither reset nor trigger in the slave domain. -/
def rxIntakeStep (n : BitVec 32) (x : RxIntake) : RxEdge → Option RxIntake
  | .slave i =>
    if i.aresetn = true ∧ i.flush = false ∧ i.numWords = n then
      some ⟨rxSlaveEdge i x.bridge, if x.bridge.wren i then x.handshakes + 1 else x.handshakes⟩
    else none
  | .master i => some { x with bridge := rxMasterEdge i x.bridge }

/-- The write side as a trigger leaves it. -/
structure RxTriggered (n : BitVec 32) (s : RxState) : Prop where
  sState : s.sState = .writeFifo
  wrCount : s.wrCount = 0
  flushS : s.flushS = false
  numWordsS : s.numWordsS = n

/-- What an edge of the intake should do : when the FSM is closed there were `num_words` handshakes,
and it closes at the first edge behind them. -/
structure RxCounts (n : BitVec 32) (x : RxIntake) (e : RxEdge) (x' : RxIntake) : Prop where
  closed : x'.bridge.sState = .idle → x'.handshakes = n.toNat
  closes : ∀ i, e = .slave i → x.handshakes = n.toNat → x'.bridge.sState = .idle

/-- An edge that finds the FSM open and all words counted is offered none, or the FIFO is full. -/
def NoExtraWord (n : BitVec 32) (x : RxIntake) (e : RxEdge) : Prop :=
  ∀ i, e = .slave i → x.bridge.sState = .writeFifo → x.bridge.wrCount.toNat = n.toNat →
    i.tvalid = false ∨ i.full = true

/-- What the edges of a good intake preserve. -/
structure RxIntakeInv (n : BitVec 32) (x : RxIntake) : Prop where
  numWordsS : x.bridge.numWordsS = n
  flushS : x.bridge.flushS = false
  wrCount : x.bridge.wrCount = BitVec.ofNat 18 x.handshakes
  le : x.handshakes ≤ n.toNat
  closed : x.bridge.sState = .idle → x.handshakes = n.toNat

theorem RxTriggered.inv {n : BitVec 32} {s : RxState} (h : RxTriggered n s) :
    RxIntakeInv n ⟨s, 0⟩ where
  numWordsS := h.numWordsS
  flushS := h.flushS
  wrCount := h.wrCount
  le := Nat.zero_le _
  closed hidle := by
    rw [h.sState] at hidle
    cases hidle

/-! ## One edge -/

section Edge

variable {n : BitVec 32} {x x' : RxIntake} {i : RxSlaveIn}

theorem rxWren_iff (s : RxState) (i : RxSlaveIn) :
    s.wren i = true ↔ i.tvalid = true ∧ s.sState = .writeFifo ∧ i.full = false := by
  simp [RxState.wren, RxState.sTready]

/-- The counter tells the handshakes. -/
theorem RxIntakeInv.toNat_wrCount (h : RxIntakeInv n x) (hn : n.toNat < 2 ^ 18) :
    x.bridge.wrCount.toNat = x.handshakes := by
  have hle := h.le
  rw [h.wrCount, BitVec.toNat_ofNat, Nat.mod_eq_of_lt (by omega)]

/-- The write FSM closes once all words were counted. -/
theorem RxIntakeInv.rxNextS_eq_idle_iff (h : RxIntakeInv n x) (hn : n.toNat < 2 ^ 18) :
    rxNextS x.bridge = .idle ↔ x.handshakes = n.toNat := by
  cases hs : x.bridge.sState with
  | idle => simp [rxNextS, hs, h.flushS, h.closed hs]
  | writeFifo =>
    have hcount : x.bridge.wrCount = x.bridge.numWordsS.extractLsb' 0 18 ↔
        x.handshakes = n.toNat := by
      rw [← BitVec.toNat_inj, h.toNat_wrCount hn, h.numWordsS, BitVec.extractLsb'_toNat,
        Nat.shiftRight_zero, Nat.mod_eq_of_lt hn]
    simp only [rxNextS, hs, beq_iff_eq, hcount]
    split_ifs with hall
    · simp [hall]
    · simp [hall]

/-- What an edge of the slave domain makes of the write side. -/
theorem rxSlaveEdge_writeSide (h : RxIntakeInv n x)
    (hq : i.aresetn = true ∧ i.flush = false ∧ i.numWords = n) :
    (rxSlaveEdge i x.bridge).sState = rxNextS x.bridge ∧
      (rxSlaveEdge i x.bridge).numWordsS = n ∧ (rxSlaveEdge i x.bridge).flushS = false ∧
      (rxSlaveEdge i x.bridge).wrCount =
        if x.bridge.wren i then x.bridge.wrCount + 1 else x.bridge.wrCount := by
  obtain ⟨hr, hf, hn⟩ := hq
  simp [rxSlaveEdge, hr, hf, hn, h.flushS]

theorem rx_intake_step {e : RxEdge} (hn : n.toNat < 2 ^ 18) (h : RxIntakeInv n x)
    (hstep : rxIntakeStep n x e = some x') (hc : NoExtraWord n x e) :
    RxIntakeInv n x' ∧ RxCounts n x e x' := by
  cases e with
  | master i =>
    obtain rfl := Option.some.inj hstep
    exact ⟨⟨h.numWordsS, h.flushS, h.wrCount, h.le, h.closed⟩, ⟨h.closed, nofun⟩⟩
  | slave i =>
    obtain ⟨hq, rfl⟩ := by simpa [rxIntakeStep] using hstep
    obtain ⟨hstate, hwords, hflush, hcount⟩ := rxSlaveEdge_writeSide h hq
    have hnext := h.rxNextS_eq_idle_iff hn
    cases hw : x.bridge.wren i with
    | false =>
      simp only [hw, Bool.false_eq_true, if_false] at hcount ⊢
      have hclosed : (rxSlaveEdge i x.bridge).sState = .idle → x.handshakes = n.toNat := by
        rw [hstate]
        exact hnext.mp
      refine ⟨⟨hwords, hflush, hcount.trans h.wrCount, h.le, hclosed⟩, hclosed, ?_⟩
      rintro j - hall
      exact hstate.trans (hnext.mpr hall)
    | true =>
      simp only [hw, if_true] at hcount ⊢
      obtain ⟨hvalid, hopen, hroom⟩ := (rxWren_iff _ _).mp hw
      have hmore : x.handshakes ≠ n.toNat := by
        intro hall
        rcases hc i rfl hopen ((h.toNat_wrCount hn).trans hall) with hnone | hfull
        · rw [hvalid] at hnone
          cases hnone
        · rw [hroom] at hfull
          cases hfull
      have hstays : (rxSlaveEdge i x.bridge).sState ≠ .idle := by
        rw [hstate]
        exact hnext.not.mpr hmore
      have hle : x.handshakes + 1 ≤ n.toNat := lt_of_le_of_ne h.le hmore
      refine ⟨⟨hwords, hflush, ?_, hle, fun hidle => absurd hidle hstays⟩,
        fun hidle => absurd hidle hstays, fun _ _ hall => absurd hall hmore⟩
      rw [hcount, h.wrCount]
      exact (BitVec.ofNat_add _ _).symm

/-- A good intake is never offered a word too many. -/
theorem noExtraWord_of_counts {e : RxEdge} (hn : n.toNat < 2 ^ 18) (h : RxIntakeInv n x)
    (hstep : rxIntakeStep n x e = some x') (hp : RxCounts n x e x') : NoExtraWord n x e := by
  rintro i rfl hopen hall
  obtain ⟨hq, rfl⟩ := by simpa [rxIntakeStep] using hstep
  rw [h.toNat_wrCount hn] at hall
  by_contra hextra
  rw [not_or, Bool.not_eq_false, Bool.not_eq_true] at hextra
  have hw := (rxWren_iff x.bridge i).mpr ⟨hextra.1, hopen, hextra.2⟩
  have hidle := (rxSlaveEdge_writeSide h hq).1.trans ((h.rxNextS_eq_idle_iff hn).mpr hall)
  have hcount := hp.closed hidle
  rw [if_pos hw, hall] at hcount
  exact absurd hcount (Nat.succ_ne_self _)

end Edge

/-- With `num_words` held below `2 ^ 18`, from any state a trigger leaves, whatever the streams, the
FIFO flags and the master domain do : every edge of a run takes in the frame as it should if and
only if no edge that finds all words counted takes in another. -/
theorem rx_intake_iff {n : BitVec 32} (hn : n.toNat < 2 ^ 18) {s : RxState} (h : RxTriggered n s)
    (es : List RxEdge) :
    Along (rxIntakeStep n) (RxCounts n) ⟨s, 0⟩ es ↔
      Along (rxIntakeStep n) (fun x e _ => NoExtraWord n x e) ⟨s, 0⟩ es :=
  along_iff (fun _ e _ h hstep hc => rx_intake_step (e := e) hn h hstep hc)
    (fun _ e _ h hstep hp => noExtraWord_of_counts (e := e) hn h hstep hp) h.inv

theorem rxStart_triggered (n : BitVec 32) : RxTriggered n (rxStart n) :=
  ⟨rfl, rfl, rfl, rfl⟩

/-- A frame of two words and a pause before the FSM closes. -/
theorem rx_intake_iff_pause :
    Along (rxIntakeStep 2) (RxCounts 2) ⟨rxStart 2, 0⟩
      [rxOffer 2 1, rxOffer 2 2, .slave ⟨true, true, false, 3, false, false, 2⟩] := by
  refine (rx_intake_iff (by decide) (rxStart_triggered 2) _).mpr
    (.cons rfl ?_ (.cons rfl ?_ (.cons rfl ?_ trivial)))
  · rintro i - - hall
    exact absurd hall (by decide)
  · rintro i - - hall
    exact absurd hall (by decide)
  · rintro i hi - -
    cases hi
    exact Or.inl rfl

/-- Three words offered in a row are all taken in. -/
theorem rx_intake_extra :
    ¬ Along (rxIntakeStep 2) (RxCounts 2) ⟨rxStart 2, 0⟩
      [rxOffer 2 1, rxOffer 2 2, rxOffer 2 3] := by
  intro h
  obtain ⟨-, h₁⟩ := h _ rfl
  obtain ⟨-, h₂⟩ := h₁ _ rfl
  obtain ⟨⟨hclosed, -⟩, -⟩ := h₂ _ rfl
  exact absurd (hclosed rfl) (by decide)

end Wimi
