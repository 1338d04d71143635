import Wimi.TxFrame

/-!
# Playing a TX frame

The read FSM of `TX_AXIS` takes the FIFO's `empty` for the end of the frame : where
`RX_AXIS` counts `num_words`, this FSM leaves `READ_FIFO` at the first edge that finds the
FIFO empty. The frame is being written meanwhile, so a host that is late by one beat ends
it early, and the rest is not played without another trigger.

`tx_play_iff` : a run plays its frames to the end exactly when the FIFO does not run empty
before the last word (`EmptyAtEnd`).
-/

namespace Wimi

open Machine

/-- A trigger comes when a word can be read. -/
def TriggerReadable (x : TxSession) : TxEdge → Prop
  | .slave _ => True
  | .master i => i.start = true → x.bridge.isEmpty i = false

instance (x : TxSession) : DecidablePred (TriggerReadable x)
  | .slave _ => inferInstanceAs (Decidable True)
  | .master i => inferInstanceAs (Decidable (i.start = true → x.bridge.isEmpty i = false))

/-- One edge of the bridge while a host sends `frame` and the converter plays it. -/
def txPlay (frame : List HostWord) (x : TxSession) (e : TxEdge) : Option TxSession :=
  if TriggerReadable x e then txSend frame x e else none

theorem txSend_of_txPlay {frame : List HostWord} {x x' : TxSession} {e : TxEdge}
    (h : txPlay frame x e = some x') : txSend frame x e = some x' := by
  rw [txPlay] at h
  split_ifs at h
  exact h

/-- What an edge should do : `READ_FIFO` is left with the whole frame transferred. -/
def TxPlays (frame : List HostWord) (x : TxSession) (_ : TxEdge) (x' : TxSession) : Prop :=
  x.bridge.mState = .readFifo → x'.bridge.mState = .idle → x'.bridge.beats = txPath frame

/-- A master edge that finds the FIFO empty in `READ_FIFO` comes behind the last word : the
whole frame was written, and no word of it is left to read. -/
def EmptyAtEnd (frame : List HostWord) (x : TxSession) (e : TxEdge) : Prop :=
  ∀ i, e = .master i → x.bridge.mState = .readFifo → x.bridge.isEmpty i = true →
    x.bridge.accepted = frame ∧ ¬ x.bridge.fifo.Holds 1

/-- What every edge of a playing bridge preserves : the beats are what was read, and the
FIFO was written with a part of the frame. -/
structure TxPlayInv (frame : List HostWord) (s : TxState) : Prop where
  flushS : s.flushS = false
  sent : s.accepted <+: frame
  written : s.fifo.written = fifo256to128 (s.accepted.map txDin)
  beats : s.beats = (s.fifo.written.take s.fifo.taken).map txTdata

theorem txPlayInv_start (frame : List HostWord) (m : MState) (startM : Bool) :
    TxPlayInv frame (txStart m startM).bridge where
  flushS := rfl
  sent := List.nil_prefix
  written := rfl
  beats := rfl

theorem TxPlayInv.slaveEdge {frame : List HostWord} {x : TxSession}
    (h : TxPlayInv frame x.bridge) {i : TxSlaveIn} (ho : x.Obeys frame i) :
    TxPlayInv frame (txSlaveEdge i x.bridge) := by
  cases hw : x.bridge.wren i with
  | false =>
    rw [txSlaveEdge_of_not_wren h.flushS ho.1 hw]
    exact { h with }
  | true =>
    rw [txSlaveEdge_of_wren h.flushS ho.1 hw]
    have hnext := (ho.2.2 ((wren_iff _ _).mp hw).1).1
    refine { h with sent := Fifo.sent_prefix h.sent hnext, written := ?_, beats := ?_ }
    · simp [h.written, fifo256to128_append]
    · change x.bridge.beats = ((x.bridge.fifo.written ++ _).take x.bridge.fifo.taken).map txTdata
      rw [h.beats, List.take_append_of_le_length x.bridge.fifo.le]

/-- A master handshake reads a word the FIFO holds. -/
theorem TxState.holds_of_rden {s : TxState} {i : TxMasterIn} (hd : s.rden i = true) :
    s.fifo.Holds 1 := by
  simp only [TxState.rden, TxState.mTvalid, TxState.isEmpty, Bool.and_eq_true,
    Bool.not_eq_true', Bool.or_eq_false_iff] at hd
  simpa using hd.2.2.2

/-- A master edge without a handshake moves the read FSM only. -/
theorem txMasterEdge_of_not_rden {s : TxState} {i : TxMasterIn}
    (hr : i.aresetn = true ∧ i.sAresetn = true) (hd : s.rden i = false) :
    txMasterEdge i s = { s with mState := txNextM s i, startM := i.start } := by
  simp [txMasterEdge, hr.1, hr.2, hd]

/-- A master handshake reads and records one word. -/
theorem txMasterEdge_of_rden {s : TxState} {i : TxMasterIn}
    (hr : i.aresetn = true ∧ i.sAresetn = true) (hd : s.rden i = true) :
    txMasterEdge i s = { s with
      mState := txNextM s i
      startM := i.start
      fifo := s.fifo.pop 1 (TxState.holds_of_rden hd)
      beats := s.beats ++ [txTdata s.dout] } := by
  have hold := TxState.holds_of_rden hd
  simp [txMasterEdge, hr.1, hr.2, hd, hold]

theorem TxPlayInv.masterEdge {frame : List HostWord} {s : TxState} (h : TxPlayInv frame s)
    {i : TxMasterIn} (hr : i.aresetn = true ∧ i.sAresetn = true) :
    TxPlayInv frame (txMasterEdge i s) := by
  cases hd : s.rden i with
  | false =>
    rw [txMasterEdge_of_not_rden hr hd]
    exact { h with }
  | true =>
    rw [txMasterEdge_of_rden hr hd]
    refine { h with beats := ?_ }
    have hold : s.fifo.taken < s.fifo.written.length := TxState.holds_of_rden hd
    have hdout : s.dout = s.fifo.written[s.fifo.taken] := by
      rw [TxState.dout, Fifo.stored, List.drop_eq_getElem_cons hold, List.headD_cons]
    change s.beats ++ [txTdata s.dout] =
      (s.fifo.written.take (s.fifo.taken + 1)).map txTdata
    rw [h.beats, hdout, List.take_succ_eq_append_getElem hold, List.map_append, List.map_singleton]

theorem TxPlayInv.step {frame : List HostWord} {x x' : TxSession} {e : TxEdge}
    (h : TxPlayInv frame x.bridge) (hstep : txSend frame x e = some x') :
    TxPlayInv frame x'.bridge := by
  cases e with
  | slave i =>
    obtain ⟨ho, rfl⟩ := by simpa [txSend] using hstep
    exact h.slaveEdge ho
  | master i =>
    obtain ⟨hr, rfl⟩ := by simpa [txSend] using hstep
    exact h.masterEdge hr

theorem length_fifo256to128 (ws : List HostWord) :
    (fifo256to128 ws).length = 2 * ws.length := by
  simp [fifo256to128, List.length_flatMap, Nat.mul_comm]

/-- The whole frame was transferred once it was written and read. -/
theorem TxPlayInv.beats_eq_iff {frame : List HostWord} {s : TxState} (h : TxPlayInv frame s) :
    s.beats = txPath frame ↔ s.accepted = frame ∧ ¬ s.fifo.Holds 1 := by
  have hwritten : s.fifo.written.length = 2 * s.accepted.length := by
    rw [h.written, length_fifo256to128, List.length_map]
  have hread := s.fifo.le
  constructor
  · intro hall
    have hlen := congrArg List.length hall
    rw [h.beats, txPath, List.length_map, List.length_take_of_le hread, List.length_map,
      length_fifo256to128, List.length_map] at hlen
    have hsent := h.sent.length_le
    refine ⟨h.sent.eq_of_length (by omega), ?_⟩
    rw [Fifo.Holds]
    omega
  · rintro ⟨rfl, hnone⟩
    rw [Fifo.Holds] at hnone
    rw [h.beats, List.take_of_length_le (by omega), h.written, txPath]

/-- `READ_FIFO` is left when the FIFO is empty. -/
theorem txNextM_eq_idle_iff {s : TxState} {i : TxMasterIn} (hm : s.mState = .readFifo) :
    txNextM s i = .idle ↔ s.isEmpty i = true := by
  simp [txNextM, hm]

/-- An empty FIFO transfers nothing. -/
theorem TxState.rden_of_isEmpty {s : TxState} {i : TxMasterIn} (he : s.isEmpty i = true) :
    s.rden i = false := by
  simp [TxState.rden, TxState.mTvalid, he]

theorem tx_play_step {frame : List HostWord} {x x' : TxSession} {e : TxEdge}
    (h : TxPlayInv frame x.bridge) (hstep : txPlay frame x e = some x') :
    TxPlayInv frame x'.bridge ∧ (TxPlays frame x e x' ↔ EmptyAtEnd frame x e) := by
  have hsend := txSend_of_txPlay hstep
  refine ⟨h.step hsend, ?_⟩
  cases e with
  | slave i =>
    obtain ⟨-, rfl⟩ := by simpa [txSend] using hsend
    refine iff_of_true (fun hm hidle => ?_) fun j hj => ?_
    · have hm' : x.bridge.mState = .idle := hidle
      rw [hm] at hm'
      cases hm'
    · cases hj
  | master i =>
    obtain ⟨hr, rfl⟩ := by simpa [txSend] using hsend
    have hnext : (txMasterEdge i x.bridge).mState = txNextM x.bridge i := by
      simp [txMasterEdge, hr.2]
    have hbeats (he : x.bridge.isEmpty i = true) :
        (txMasterEdge i x.bridge).beats = x.bridge.beats := by
      rw [txMasterEdge_of_not_rden hr (TxState.rden_of_isEmpty he)]
    constructor
    · rintro hp j hj hm he
      obtain rfl : i = j := by simpa using hj
      have hall := hp hm (hnext.trans ((txNextM_eq_idle_iff hm).mpr he))
      exact h.beats_eq_iff.mp ((hbeats he).symm.trans hall)
    · intro hc hm hidle
      have he := (txNextM_eq_idle_iff hm).mp (hnext.symm.trans hidle)
      exact (hbeats he).trans (h.beats_eq_iff.mpr (hc i rfl hm he))

/-- For every frame, however the host times its beats and the converter its `TREADY`, and
with triggers given while a word is readable : the read FSM returns to `IDLE` only with the
whole frame transferred if and only if it never finds the FIFO empty before that. -/
theorem tx_play_iff (frame : List HostWord) (es : List TxEdge) :
    Along (txPlay frame) (TxPlays frame) (txStart .idle false) es ↔
      Along (txPlay frame) (fun x e _ => EmptyAtEnd frame x e) (txStart .idle false) es :=
  along_iff
    (fun x e _ (h : TxPlayInv frame x.bridge) hstep hc =>
      let ⟨hinv, hiff⟩ := tx_play_step (e := e) h hstep
      ⟨hinv, hiff.mpr hc⟩)
    (fun _ e _ h hstep hp => (tx_play_step (e := e) h hstep).2.mp hp)
    (txPlayInv_start frame .idle false)

/-- The slave pins of an edge that offers `w`, and no further beat behind it if `last`. -/
def txOffer (w : HostWord) (last : Bool) : TxEdge :=
  .slave ⟨true, true, true, w, last, false, false⟩

/-- The master pins of an edge that is ready for a beat. -/
def txReady (start : Bool) : TxEdge :=
  .master ⟨true, true, true, false, start⟩

/-- A frame of two beats : the first is played before the second arrives, and the FSM has
returned to `IDLE`. -/
theorem tx_play_fails_on_late_host :
    ¬ ∀ (frame : List HostWord) (es : List TxEdge),
      Along (txPlay frame) (TxPlays frame) (txStart .idle false) es := by
  intro h
  have hrun := h [1, 2]
    [txOffer 1 false, txReady true, txReady false, txReady false, txReady false, txReady false]
  obtain ⟨-, hrun⟩ := hrun _ rfl
  obtain ⟨-, hrun⟩ := hrun _ rfl
  obtain ⟨-, hrun⟩ := hrun _ rfl
  obtain ⟨-, hrun⟩ := hrun _ rfl
  obtain ⟨-, hrun⟩ := hrun _ rfl
  have hall := congrArg List.length ((hrun _ rfl).1 rfl rfl)
  exact absurd hall (by decide)

end Wimi
