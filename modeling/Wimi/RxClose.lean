import Wimi.RxFrame
import Wimi.Lib.Run

/-!
# The end of an RX frame

`TLAST` marks the beat that finds `rd_count` at `(num_words - 1)[17:1]`, and the read FSM
leaves `READ_FIFO` at the edge that finds it at `num_words[17:1]`. For an even `num_words`
that is the edge behind the marked beat. For an odd one the marked beat can be transferred
at the leaving edge only, so it is lost if the FIFO or the DMA is late by one cycle. For a
multiple of `2 ^ 18` the FSM leaves before the first beat.

`rx_close_iff` : the frame is closed exactly when the leaving edge is none of the latter
(`LeavesBehindLast`).
-/

namespace Wimi

open Machine

instance (n : BitVec 32) : DecidablePred (RxQuiet n)
  | .slave i => inferInstanceAs (Decidable
      (i.aresetn = true ∧ i.mAresetn = true ∧ i.flush = false ∧ i.numWords = n))
  | .master i => inferInstanceAs (Decidable
      (i.aresetn = true ∧ i.sAresetn = true ∧ i.flush = false ∧ i.numWords = n))

/-- One edge of a frame with `num_words` held at `n`. -/
def rxQuietStep (n : BitVec 32) (s : RxState) (e : RxEdge) : Option RxState :=
  if RxQuiet n e then some (rxStep s e) else none

theorem rxQuietStep_eq_some {n : BitVec 32} {s s' : RxState} {e : RxEdge} :
    rxQuietStep n s e = some s' ↔ RxQuiet n e ∧ rxStep s e = s' := by
  simp [rxQuietStep]

/-- A beat with `TLAST` high was transferred. -/
def RxState.Closed (s : RxState) : Prop :=
  ∃ b ∈ s.beats, b.2 = true

/-- What an edge should do : `READ_FIFO` is left with the frame closed, and a closed frame
gets no further beat. -/
def RxCloses (s : RxState) (_ : RxEdge) (s' : RxState) : Prop :=
  (s.mState = .readFifo → s'.mState = .idle → s'.Closed) ∧ (s.Closed → s'.beats = s.beats)

/-- At a master edge that finds `rd_count` at its end in `READ_FIFO`, `num_words` is no
multiple of `2 ^ 18`, and for an odd one a beat is transferred at that very edge. -/
def LeavesBehindLast (n : BitVec 32) (s : RxState) (e : RxEdge) : Prop :=
  ∀ i, e = .master i → s.mState = .readFifo → s.rdCount = n.extractLsb' 1 17 →
    n.toNat % 2 ^ 18 ≠ 0 ∧ (n.toNat % 2 = 1 → s.rden i = true)

/-- The count at which the read FSM leaves. -/
def rxEnd (n : BitVec 32) : ℕ :=
  n.toNat % 2 ^ 18 / 2

/-- The count of the beat that `TLAST` marks. -/
def rxLast (n : BitVec 32) : ℕ :=
  (n.toNat + (2 ^ 32 - 1)) % 2 ^ 18 / 2

theorem toNat_rxEnd (n : BitVec 32) : (n.extractLsb' 1 17).toNat = rxEnd n := by
  rw [BitVec.extractLsb'_toNat, Nat.shiftRight_eq_div_pow, rxEnd]
  omega

theorem toNat_rxLast (n : BitVec 32) : ((n - 1).extractLsb' 1 17).toNat = rxLast n := by
  have hpred : (n - 1).toNat = (n.toNat + (2 ^ 32 - 1)) % 2 ^ 32 := by
    rw [BitVec.toNat_sub, Nat.add_comm]
    rfl
  rw [BitVec.extractLsb'_toNat, Nat.shiftRight_eq_div_pow, hpred, rxLast]
  omega

theorem rxEnd_lt (n : BitVec 32) : rxEnd n < 2 ^ 17 := by
  rw [rxEnd]
  omega

theorem rxLast_lt (n : BitVec 32) : rxLast n < 2 ^ 17 := by
  rw [rxLast]
  omega

/-- For an even `num_words` the marked beat is the one before the end. -/
theorem rxLast_of_even {n : BitVec 32} (h0 : n.toNat % 2 ^ 18 ≠ 0) (heven : n.toNat % 2 = 0) :
    rxLast n + 1 = rxEnd n := by
  rw [rxLast, rxEnd]
  omega

/-- For an odd `num_words` it is the one behind it. -/
theorem rxLast_of_odd {n : BitVec 32} (hodd : n.toNat % 2 = 1) : rxLast n = rxEnd n := by
  rw [rxLast, rxEnd]
  omega

/-- For a multiple of `2 ^ 18` the end is the start. -/
theorem rxLast_of_multiple {n : BitVec 32} (h0 : n.toNat % 2 ^ 18 = 0) :
    rxEnd n = 0 ∧ rxLast n = 2 ^ 17 - 1 := by
  rw [rxLast, rxEnd]
  omega

theorem rxEnd_le (n : BitVec 32) : rxEnd n ≤ rxLast n + 1 := by
  rw [rxLast, rxEnd]
  omega

/-- What the edges of a closed frame preserve. -/
structure RxCloseInv (n : BitVec 32) (s : RxState) : Prop extends RxInv n s where
  reading : s.mState = .readFifo → s.beats.length ≤ rxEnd n
  left : s.mState = .idle → s.beats.length = rxLast n + 1

theorem rxCloseInv_start (n : BitVec 32) : RxCloseInv n (rxStart n) where
  toRxInv := rxInv_start n
  reading _ := Nat.zero_le _
  left h := nomatch h

/-- The marked beat was transferred once there are more beats than its count. -/
theorem RxInv.closed_iff {n : BitVec 32} {s : RxState} (h : RxInv n s)
    (hle : s.beats.length ≤ 2 ^ 17) : s.Closed ↔ rxLast n < s.beats.length := by
  have hlast : ∀ k (hk : k < s.beats.length), s.beats[k].2 = true ↔ k = rxLast n := by
    intro k hk
    rw [h.last k hk, beq_iff_eq, ← BitVec.toNat_inj, BitVec.toNat_ofNat, toNat_rxLast,
      Nat.mod_eq_of_lt (by omega)]
  constructor
  · rintro ⟨b, hb, hb2⟩
    obtain ⟨k, hk, rfl⟩ := List.getElem_of_mem hb
    rw [hlast k hk] at hb2
    omega
  · intro hk
    exact ⟨_, List.getElem_mem hk, (hlast _ hk).mpr rfl⟩

theorem RxCloseInv.length_le {n : BitVec 32} {s : RxState} (h : RxCloseInv n s) :
    s.beats.length ≤ rxLast n + 1 := by
  cases hm : s.mState with
  | idle => exact (h.left hm).le
  | readFifo => exact (h.reading hm).trans (rxEnd_le n)

theorem RxCloseInv.closed_iff {n : BitVec 32} {s : RxState} (h : RxCloseInv n s) :
    s.Closed ↔ rxLast n < s.beats.length :=
  h.toRxInv.closed_iff (h.length_le.trans (rxLast_lt n))

/-- `READ_FIFO` finds its counter at the end exactly when all beats up to it were read. -/
theorem RxCloseInv.rdCount_eq_iff {n : BitVec 32} {s : RxState} (h : RxCloseInv n s)
    (hm : s.mState = .readFifo) :
    s.rdCount = n.extractLsb' 1 17 ↔ s.beats.length = rxEnd n := by
  have hle := h.reading hm
  have hlt := rxEnd_lt n
  rw [h.rdCount, ← BitVec.toNat_inj, BitVec.toNat_ofNat, toNat_rxEnd, Nat.mod_eq_of_lt (by omega)]

/-- With an even `num_words` the FIFO never holds a beat behind the end. -/
theorem RxInv.rden_of_even {n : BitVec 32} {s : RxState} (h : RxInv n s)
    (heven : n.toNat % 2 = 0) (hend : rxEnd n ≤ s.beats.length) (i : RxMasterIn) :
    s.rden i = false := by
  by_contra hd
  rw [Bool.not_eq_false] at hd
  have hbeat := (h.beat (RxState.holds_of_rden hd)).1
  have hextra := h.extra
  rw [rxEnd] at hend
  omega

theorem rden_of_idle {s : RxState} (hm : s.mState = .idle) (i : RxMasterIn) :
    s.rden i = false := by
  simp [RxState.rden, RxState.mTvalid, hm]

/-- A closed frame gets no further beat. -/
theorem RxCloseInv.rden_of_closed {n : BitVec 32} {s : RxState} (h : RxCloseInv n s)
    (hc : s.Closed) (i : RxMasterIn) : s.rden i = false := by
  have hlt := h.closed_iff.mp hc
  cases hm : s.mState with
  | idle => exact rden_of_idle hm i
  | readFifo =>
    have hle := h.reading hm
    have heven : n.toNat % 2 = 0 := by
      by_contra hodd
      have := rxLast_of_odd (n := n) (by omega)
      omega
    have h0 : n.toNat % 2 ^ 18 ≠ 0 := by
      intro h0
      have := rxLast_of_multiple h0
      omega
    have := rxLast_of_even h0 heven
    exact h.rden_of_even heven (by omega) i

/-- The beats behind a master edge. -/
theorem RxInv.length_beats_masterEdge {n : BitVec 32} {s : RxState} (h : RxInv n s)
    {i : RxMasterIn} (hq : RxQuiet n (.master i)) :
    (rxMasterEdge i s).beats.length = s.beats.length + (s.rden i).toNat := by
  cases hd : s.rden i with
  | false => simp [rxMasterEdge_of_not_rden h hq hd]
  | true => simp [rxMasterEdge_of_rden h hq hd]

/-- `READ_FIFO` is left at the end, and not entered again without a trigger. -/
theorem RxInv.masterEdge_eq_readFifo_iff {n : BitVec 32} {s : RxState} (h : RxInv n s)
    {i : RxMasterIn} (hq : RxQuiet n (.master i)) :
    (rxMasterEdge i s).mState = .readFifo ↔
      s.mState = .readFifo ∧ s.rdCount ≠ n.extractLsb' 1 17 := by
  have hm : (rxMasterEdge i s).mState = rxNextM s := by simp [rxMasterEdge, hq.1]
  rw [hm]
  cases hs : s.mState <;> simp [rxNextM, hs, h.flushM, h.numWordsM]

/-- An edge that leaves behind the marked beat keeps the invariant. -/
theorem RxCloseInv.masterEdge {n : BitVec 32} {s : RxState} (h : RxCloseInv n s)
    {i : RxMasterIn} (hq : RxQuiet n (.master i)) (hc : LeavesBehindLast n s (.master i)) :
    RxCloseInv n (rxMasterEdge i s) := by
  have hlen := h.length_beats_masterEdge hq
  refine { h.toRxInv.masterEdge hq with reading := fun hr => ?_, left := fun hl => ?_ }
  · obtain ⟨hm, hne⟩ := (h.masterEdge_eq_readFifo_iff hq).mp hr
    have hle := h.reading hm
    have hne' := mt (h.rdCount_eq_iff hm).mpr hne
    have := (s.rden i).toNat_le
    omega
  · cases hm : s.mState with
    | idle =>
      rw [rden_of_idle hm i] at hlen
      exact hlen.trans (h.left hm)
    | readFifo =>
      have hend : s.rdCount = n.extractLsb' 1 17 := by
        by_contra hne
        rw [(h.masterEdge_eq_readFifo_iff hq).mpr ⟨hm, hne⟩] at hl
        cases hl
      have hread := (h.rdCount_eq_iff hm).mp hend
      obtain ⟨h0, hodd⟩ := hc i rfl hm hend
      rcases Nat.mod_two_eq_zero_or_one n.toNat with hpar | hpar
      · rw [h.rden_of_even hpar hread.ge i] at hlen
        exact hlen.trans (hread.trans (rxLast_of_even h0 hpar).symm)
      · rw [hodd hpar] at hlen
        exact hlen.trans (by rw [hread, rxLast_of_odd hpar]; rfl)

theorem rx_close_step {n : BitVec 32} {s s' : RxState} {e : RxEdge} (h : RxCloseInv n s)
    (hstep : rxQuietStep n s e = some s') (hc : LeavesBehindLast n s e) :
    RxCloseInv n s' ∧ RxCloses s e s' := by
  obtain ⟨hq, rfl⟩ := rxQuietStep_eq_some.mp hstep
  cases e with
  | slave i =>
    have hinv : RxCloseInv n (rxSlaveEdge i s) :=
      { h.toRxInv.slaveEdge hq with reading := h.reading, left := h.left }
    refine ⟨hinv, fun hr hl => ?_, fun _ => rfl⟩
    have hm : s.mState = .idle := hl
    rw [hr] at hm
    cases hm
  | master i =>
    have hinv := h.masterEdge hq hc
    refine ⟨hinv, fun _ hl => ?_, fun hclosed => ?_⟩
    · refine hinv.closed_iff.mpr ?_
      rw [hinv.left hl]
      exact Nat.lt_succ_self _
    · change (rxMasterEdge i s).beats = s.beats
      rw [rxMasterEdge_of_not_rden h.toRxInv hq (h.rden_of_closed hclosed i)]

/-- A frame left closed was left behind the marked beat. -/
theorem leavesBehindLast_of_closes {n : BitVec 32} {s s' : RxState} {e : RxEdge}
    (h : RxCloseInv n s) (hstep : rxQuietStep n s e = some s') (hp : RxCloses s e s') :
    LeavesBehindLast n s e := by
  rintro i rfl hm hend
  obtain ⟨hq, rfl⟩ := rxQuietStep_eq_some.mp hstep
  have hidle : (rxMasterEdge i s).mState = .idle := by
    cases hm' : (rxMasterEdge i s).mState with
    | idle => rfl
    | readFifo => exact absurd hend ((h.masterEdge_eq_readFifo_iff hq).mp hm').2
  have hread := (h.rdCount_eq_iff hm).mp hend
  have hlen := h.length_beats_masterEdge hq
  have hbit := (s.rden i).toNat_le
  have hlt := rxEnd_lt n
  have hclosed := ((h.toRxInv.masterEdge hq).closed_iff (by omega)).mp (hp.1 hm hidle)
  refine ⟨fun h0 => ?_, fun hodd => ?_⟩
  · have := rxLast_of_multiple h0
    omega
  · have := rxLast_of_odd hodd
    cases hd : s.rden i with
    | true => rfl
    | false =>
      rw [hd, Bool.toNat_false] at hlen
      omega

/-- From the state a trigger leaves, for every `num_words` held through the frame and any
edges of the two clocks : the read FSM leaves only behind a beat with `TLAST`, and no beat
follows that one, if and only if the edge that leaves it finds `num_words` no multiple of
`2 ^ 18` and, for an odd `num_words`, transfers a beat. -/
theorem rx_close_iff (n : BitVec 32) (es : List RxEdge) :
    Along (rxQuietStep n) RxCloses (rxStart n) es ↔
      Along (rxQuietStep n) (fun s e _ => LeavesBehindLast n s e) (rxStart n) es :=
  along_iff (fun _ e _ h hstep hc => rx_close_step (e := e) h hstep hc)
    (fun _ e _ h hstep hp => leavesBehindLast_of_closes (e := e) h hstep hp) (rxCloseInv_start n)

/-- Three words : one beat is read, the fourth word is late by one cycle, and the FSM has
left without a `TLAST`. -/
theorem rx_close_fails_on_odd :
    ¬ ∀ (n : BitVec 32) (es : List RxEdge), 1 ≤ n.toNat →
      Along (rxQuietStep n) RxCloses (rxStart n) es := by
  intro h
  have hrun := h 3 [rxOffer 3 1, rxOffer 3 2, rxOffer 3 3, rxReady 3, rxReady 3] (by decide)
  obtain ⟨-, hrun⟩ := hrun _ rfl
  obtain ⟨-, hrun⟩ := hrun _ rfl
  obtain ⟨-, hrun⟩ := hrun _ rfl
  obtain ⟨-, hrun⟩ := hrun _ rfl
  obtain ⟨b, hb, hlast⟩ := (hrun _ rfl).1.1 rfl rfl
  obtain rfl := List.mem_singleton.mp hb
  exact absurd hlast (by decide)

end Wimi
