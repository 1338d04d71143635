import Wimi.Bridge
import Wimi.Lib.Run

/-!
# Intake of a TX frame

The write FSM of `TX_AXIS` leaves `WRITE_FIFO` on `S_AXIS_TLAST` alone, while a word is
written on `S_AXIS_TVALID`, the state and `full`. A host that obeys the handshake
(`TxSession.Obeys`) may raise `TLAST` while `TVALID` is low, and holds it through
back-pressure; the FSM then closes before the last beat was transferred.

`tx_intake_iff` : a run takes in the frame as it should exactly when `TLAST` never meets an
open FSM without the handshake (`TlastTransfers`).
-/

namespace Wimi

open Machine

/-- The bridge and a host that sends one frame. `pending` : the host had `TVALID` high and
was not given `TREADY` at the last slave edge. -/
structure TxSession where
  bridge : TxState
  pending : Bool

/-- The pins obey the AXI-Stream handshake for `frame`, without reset or flush : a beat
once offered stays, the beat offered is the next of the frame, and `TLAST` marks its last.
`TDATA` and `TLAST` are free while `TVALID` is low. -/
def TxSession.Obeys (frame : List HostWord) (x : TxSession) (i : TxSlaveIn) : Prop :=
  (i.aresetn = true ∧ i.mAresetn = true ∧ i.flush = false) ∧
    (x.pending = true → i.tvalid = true) ∧
    (i.tvalid = true → frame[x.bridge.accepted.length]? = some i.tdata ∧
      (i.tlast = true ↔ x.bridge.accepted.length + 1 = frame.length))

instance (frame : List HostWord) (x : TxSession) (i : TxSlaveIn) :
    Decidable (x.Obeys frame i) :=
  inferInstanceAs (Decidable (_ ∧ _))

/-- One edge of the bridge under a host that sends `frame`. -/
def txSend (frame : List HostWord) (x : TxSession) : TxEdge → Option TxSession
  | .slave i =>
    if x.Obeys frame i then
      some ⟨txSlaveEdge i x.bridge, i.tvalid && !x.bridge.sTready i⟩
    else none
  | .master i =>
    if i.aresetn = true ∧ i.sAresetn = true then some { x with bridge := txMasterEdge i x.bridge }
    else none

/-- The state a flush leaves, once `flush_s` is low again. -/
def txStart (m : MState) (startM : Bool) : TxSession where
  bridge :=
    { sState := .writeFifo, mState := m, startM, flushS := false, fifo := Fifo.empty,
      accepted := [], beats := [] }
  pending := false

/-- What an edge of the intake should do : the FIFO was written with a prefix of the frame,
each beat once and in order; the FSM closes only at an edge that transfers the `TLAST`
beat; and it is closed only when the whole frame was written. -/
def TxIntake (frame : List HostWord) (x : TxSession) (e : TxEdge) (x' : TxSession) : Prop :=
  (x'.bridge.accepted <+: frame ∧
    x'.bridge.fifo.written = fifo256to128 (x'.bridge.accepted.map txDin)) ∧
  (x.bridge.sState = .writeFifo → x'.bridge.sState = .idle →
    ∃ i, e = .slave i ∧ x.bridge.wren i = true ∧ i.tlast = true) ∧
  (x'.bridge.sState = .idle → x'.bridge.accepted = frame)

/-- At an edge that finds the FSM open with `TLAST` high, `TVALID` is high and the FIFO is
not full. -/
def TlastTransfers (x : TxSession) (e : TxEdge) : Prop :=
  ∀ i, e = .slave i → x.bridge.sState = .writeFifo → i.tlast = true →
    i.tvalid = true ∧ i.full = false

/-- What the edges of a good intake preserve. -/
structure TxInv (frame : List HostWord) (x : TxSession) : Prop where
  flushS : x.bridge.flushS = false
  sent : x.bridge.accepted <+: frame
  written : x.bridge.fifo.written = fifo256to128 (x.bridge.accepted.map txDin)
  closed : x.bridge.sState = .idle → x.bridge.accepted = frame

theorem txInv_start (frame : List HostWord) (m : MState) (startM : Bool) :
    TxInv frame (txStart m startM) where
  flushS := rfl
  sent := List.nil_prefix
  written := rfl
  closed h := nomatch h

theorem fifo256to128_append (l m : List HostWord) :
    fifo256to128 (l ++ m) = fifo256to128 l ++ fifo256to128 m := by
  simp [fifo256to128]

/-- A slave edge without a handshake moves the write FSM only. -/
theorem txSlaveEdge_of_not_wren {s : TxState} (hs : s.flushS = false) {i : TxSlaveIn}
    (hq : i.aresetn = true ∧ i.mAresetn = true ∧ i.flush = false) (hw : s.wren i = false) :
    txSlaveEdge i s = { s with sState := txNextS s i } := by
  obtain ⟨hr, hm, hf⟩ := hq
  simp [txSlaveEdge, hr, hm, hf, hw, hs]

/-- A slave handshake stores and records one word. -/
theorem txSlaveEdge_of_wren {s : TxState} (hs : s.flushS = false) {i : TxSlaveIn}
    (hq : i.aresetn = true ∧ i.mAresetn = true ∧ i.flush = false) (hw : s.wren i = true) :
    txSlaveEdge i s = { s with
      sState := txNextS s i
      fifo := s.fifo.push (fifo256to128 [txDin i.tdata])
      accepted := s.accepted ++ [i.tdata] } := by
  obtain ⟨hr, hm, hf⟩ := hq
  simp [txSlaveEdge, hr, hm, hf, hw, hs]

/-- A master edge leaves the intake alone. -/
theorem txMasterEdge_intake (s : TxState) {i : TxMasterIn}
    (hr : i.aresetn = true ∧ i.sAresetn = true) :
    (txMasterEdge i s).sState = s.sState ∧ (txMasterEdge i s).flushS = s.flushS ∧
      (txMasterEdge i s).accepted = s.accepted ∧
      (txMasterEdge i s).fifo.written = s.fifo.written := by
  refine ⟨rfl, rfl, rfl, ?_⟩
  simp only [txMasterEdge, hr.1, hr.2, Bool.not_true, Bool.or_self, Bool.false_eq_true, if_false]
  split_ifs <;> rfl

theorem wren_iff (s : TxState) (i : TxSlaveIn) :
    s.wren i = true ↔ i.tvalid = true ∧ s.sState = .writeFifo ∧ i.full = false := by
  simp [TxState.wren, TxState.sTready]

/-- The write FSM closes exactly on `TLAST`. -/
theorem txNextS_eq_idle_iff {frame : List HostWord} {x : TxSession} (h : TxInv frame x)
    (i : TxSlaveIn) :
    txNextS x.bridge i = .idle ↔ x.bridge.sState = .idle ∨ i.tlast = true := by
  cases hs : x.bridge.sState <;> simp [txNextS, hs, h.flushS]

theorem tx_intake_step {frame : List HostWord} {x x' : TxSession} {e : TxEdge}
    (h : TxInv frame x) (hstep : txSend frame x e = some x') (hc : TlastTransfers x e) :
    TxInv frame x' ∧ TxIntake frame x e x' := by
  cases e with
  | master i =>
    obtain ⟨hr, rfl⟩ := by simpa [txSend] using hstep
    obtain ⟨hs, hf, ha, hw⟩ := txMasterEdge_intake x.bridge hr
    have hinv : TxInv frame { x with bridge := txMasterEdge i x.bridge } :=
      ⟨by rw [hf]; exact h.flushS, by rw [ha]; exact h.sent, by rw [ha, hw]; exact h.written,
        by rw [hs, ha]; exact h.closed⟩
    refine ⟨hinv, ⟨hinv.sent, hinv.written⟩, fun hopen hidle => ?_, hinv.closed⟩
    rw [hs, hopen] at hidle
    cases hidle
  | slave i =>
    obtain ⟨ho, rfl⟩ := by simpa [txSend] using hstep
    have hinv : TxInv frame ⟨txSlaveEdge i x.bridge, i.tvalid && !x.bridge.sTready i⟩ := by
      cases hw : x.bridge.wren i with
      | false =>
        rw [txSlaveEdge_of_not_wren h.flushS ho.1 hw]
        refine ⟨h.flushS, h.sent, h.written, fun hidle => ?_⟩
        rcases (txNextS_eq_idle_iff h i).mp hidle with hs | hl
        · exact h.closed hs
        · cases hs : x.bridge.sState with
          | idle => exact h.closed hs
          | writeFifo =>
            obtain ⟨hv, hfull⟩ := hc i rfl hs hl
            rw [(wren_iff _ _).mpr ⟨hv, hs, hfull⟩] at hw
            cases hw
      | true =>
        rw [txSlaveEdge_of_wren h.flushS ho.1 hw]
        obtain ⟨hv, hs, -⟩ := (wren_iff _ _).mp hw
        obtain ⟨hnext, hlast⟩ := ho.2.2 hv
        have hsent := Fifo.sent_prefix h.sent hnext
        refine ⟨h.flushS, hsent, ?_, fun hidle => ?_⟩
        · simp [h.written, fifo256to128_append]
        · rcases (txNextS_eq_idle_iff h i).mp hidle with hidle | hl
          · rw [hs] at hidle
            cases hidle
          · exact hsent.eq_of_length (by simpa using hlast.mp hl)
    refine ⟨hinv, ⟨hinv.sent, hinv.written⟩, fun hopen hidle => ⟨i, rfl, ?_⟩, hinv.closed⟩
    have hnext : txNextS x.bridge i = .idle := by
      simpa [txSlaveEdge, ho.1.1] using hidle
    have hl : i.tlast = true := by
      rcases (txNextS_eq_idle_iff h i).mp hnext with hs | hl
      · rw [hopen] at hs
        cases hs
      · exact hl
    obtain ⟨hv, hfull⟩ := hc i rfl hopen hl
    exact ⟨(wren_iff _ _).mpr ⟨hv, hopen, hfull⟩, hl⟩

/-- A good intake never shows an open FSM a `TLAST` it cannot take. -/
theorem tlastTransfers_of_intake {frame : List HostWord} {x x' : TxSession} {e : TxEdge}
    (h : TxInv frame x) (hstep : txSend frame x e = some x') (hp : TxIntake frame x e x') :
    TlastTransfers x e := by
  rintro i rfl hopen hl
  obtain ⟨ho, rfl⟩ := by simpa [txSend] using hstep
  have hidle : (txSlaveEdge i x.bridge).sState = .idle := by
    simpa [txSlaveEdge, ho.1.1] using (txNextS_eq_idle_iff h i).mpr (Or.inr hl)
  obtain ⟨j, hj, hw, -⟩ := hp.2.1 hopen hidle
  obtain rfl : i = j := by simpa using hj
  obtain ⟨hv, -, hfull⟩ := (wren_iff _ _).mp hw
  exact ⟨hv, hfull⟩

/-- From the state a flush leaves, whatever `full` does and however the host times its
beats : every edge of the run takes in the frame as it should if and only if at every edge
that finds the FSM open with `TLAST` high the beat is transferred. -/
theorem tx_intake_iff (frame : List HostWord) (m : MState) (startM : Bool) (es : List TxEdge) :
    Along (txSend frame) (TxIntake frame) (txStart m startM) es ↔
      Along (txSend frame) (fun x e _ => TlastTransfers x e) (txStart m startM) es :=
  along_iff (fun _ e _ h hstep hc => tx_intake_step (e := e) h hstep hc)
    (fun _ e _ h hstep hp => tlastTransfers_of_intake (e := e) h hstep hp)
    (txInv_start frame m startM)

/-- The last beat of a one-beat frame meets a full FIFO : the FSM closes and the beat is
never written. -/
theorem tx_intake_fails_on_full :
    ¬ ∀ (frame : List HostWord) (m : MState) (startM : Bool) (es : List TxEdge),
      Along (txSend frame) (TxIntake frame) (txStart m startM) es := by
  intro h
  have hstep : txSend [7] (txStart .idle false)
      (.slave ⟨true, true, true, 7, true, true, false⟩) =
        some ⟨{ (txStart .idle false).bridge with sState := .idle }, true⟩ := rfl
  have hintake := (h [7] .idle false [.slave ⟨true, true, true, 7, true, true, false⟩] _ hstep).1
  exact absurd (hintake.2.2 rfl) (by decide)

end Wimi
