import Wimi.RxClose
import Wimi.TxPlay

/-!
# The hold rule on the bridge outputs

A beat offered on `M_AXIS` and not taken must be offered again, unchanged, at the next
edge. `TVALID`, `TDATA` and `TLAST` are functions of the FSM state, the counters and the
FIFO, so the rule needs that the FSM stays in `READ_FIFO` with a beat pending. `TX_AXIS`
leaves on an empty FIFO only, and `RX_AXIS` at a count that, for an even `num_words`, it
reaches with no beat left.

The FIFOs are first-word-fall-through : a word shown stays shown until it is read.
`stream_hold` is the rule for both outputs, along every run. `TX_AXIS` has no `TLAST`.
-/

namespace Wimi

open Machine

/-- A bridge output under observation at the edges of `M_AXIS_ACLK`. -/
structure Watched (σ α : Type) where
  bridge : σ
  /-- The FIFO showed a word at the last master edge, and it was not read. -/
  shown : Bool
  /-- The beat with `TVALID` high and `TREADY` low at the last master edge. -/
  offered : Option α

/-! ## TX_AXIS -/

/-- One edge of `TX_AXIS` behind a trigger : neither a reset nor a flush, and no word shown
is withdrawn. -/
def txHold (x : Watched TxState ConvWord) : TxEdge → Option (Watched TxState ConvWord)
  | .slave i =>
    if i.aresetn = true ∧ i.mAresetn = true ∧ i.flush = false then
      some { x with bridge := txSlaveEdge i x.bridge }
    else none
  | .master i =>
    if (i.aresetn = true ∧ i.sAresetn = true) ∧ (x.shown = true → i.empty = false) then
      some {
        bridge := txMasterEdge i x.bridge
        shown := !x.bridge.isEmpty i && !x.bridge.rden i
        offered :=
          if x.bridge.mTvalid i && !i.tready then some (txTdata x.bridge.dout) else none }
    else none

/-- A beat that was not taken is offered again : `TVALID` is high with the same `TDATA`. -/
def TxHolds (x : Watched TxState ConvWord) (e : TxEdge) (_ : Watched TxState ConvWord) : Prop :=
  ∀ i b, e = .master i → x.offered = some b →
    x.bridge.mTvalid i = true ∧ txTdata x.bridge.dout = b

/-- What a beat not taken leaves : the FSM has not moved and the word is still there. -/
structure TxPending (x : Watched TxState ConvWord) (b : ConvWord) : Prop where
  shown : x.shown = true
  reading : x.bridge.mState = .readFifo
  stored : x.bridge.fifo.Holds 1
  dout : txTdata x.bridge.dout = b

/-- What every edge preserves. -/
structure TxHoldInv (x : Watched TxState ConvWord) : Prop where
  flushS : x.bridge.flushS = false
  pending : ∀ b, x.offered = some b → TxPending x b

theorem txHoldInv_start {s : TxState} (h : s.flushS = false) : TxHoldInv ⟨s, false, none⟩ where
  flushS := h
  pending _ hb := nomatch hb

/-- A write does not change the word shown. -/
theorem TxState.dout_push {s : TxState} (h : s.fifo.Holds 1) (ws : List ConvWord) :
    TxState.dout { s with fifo := s.fifo.push ws } = s.dout := by
  obtain ⟨a, rest, hs⟩ : ∃ a rest, s.fifo.stored = a :: rest :=
    List.exists_cons_of_length_pos h.le_length
  simp [TxState.dout, hs]

theorem TxHoldInv.slaveEdge {x : Watched TxState ConvWord} (h : TxHoldInv x) {i : TxSlaveIn}
    (hq : i.aresetn = true ∧ i.mAresetn = true ∧ i.flush = false) :
    TxHoldInv { x with bridge := txSlaveEdge i x.bridge } := by
  cases hw : x.bridge.wren i with
  | false =>
    rw [txSlaveEdge_of_not_wren h.flushS hq hw]
    exact ⟨h.flushS, fun b hb => { h.pending b hb with }⟩
  | true =>
    rw [txSlaveEdge_of_wren h.flushS hq hw]
    refine ⟨h.flushS, fun b hb => ?_⟩
    have hp := h.pending b hb
    exact { hp with
      stored := hp.stored.push _
      dout := (congrArg txTdata (TxState.dout_push hp.stored _)).trans hp.dout }

/-- A pending beat is offered. -/
theorem TxPending.mTvalid {x : Watched TxState ConvWord} {b : ConvWord} (h : TxPending x b)
    {i : TxMasterIn} (hr : i.aresetn = true ∧ i.sAresetn = true)
    (hshown : x.shown = true → i.empty = false) : x.bridge.mTvalid i = true := by
  simpa [TxState.mTvalid, TxState.isEmpty, h.reading, hr.1, hr.2, hshown h.shown] using h.stored

/-- A beat offered and not taken is pending behind the edge. -/
theorem txPending_masterEdge {s : TxState} {i : TxMasterIn}
    (hr : i.aresetn = true ∧ i.sAresetn = true) (hv : s.mTvalid i = true)
    (hready : i.tready = false) (offered : Option ConvWord) :
    TxPending ⟨txMasterEdge i s, !s.isEmpty i && !s.rden i, offered⟩ (txTdata s.dout) := by
  have hd : s.rden i = false := by simp [TxState.rden, hready]
  obtain ⟨hm, he⟩ := by simpa [TxState.mTvalid] using hv
  have hold : s.fifo.Holds 1 := by
    simp only [TxState.isEmpty, Bool.or_eq_false_iff] at he
    simpa using he.2
  rw [txMasterEdge_of_not_rden hr hd]
  exact {
    shown := by simp [he, hd]
    reading := by simp [txNextM, hm, he]
    stored := hold
    dout := rfl }

theorem tx_hold_step {x x' : Watched TxState ConvWord} {e : TxEdge} (h : TxHoldInv x)
    (hstep : txHold x e = some x') : TxHoldInv x' ∧ TxHolds x e x' := by
  cases e with
  | slave i =>
    obtain ⟨hq, rfl⟩ := by simpa [txHold] using hstep
    exact ⟨h.slaveEdge hq, fun _ _ hj => nomatch hj⟩
  | master i =>
    obtain ⟨⟨hr, hshown⟩, hx⟩ := Option.ite_none_right_eq_some.mp hstep
    obtain rfl := Option.some.inj hx
    refine ⟨⟨h.flushS, fun b hb => ?_⟩, fun j b hj hb => ?_⟩
    · obtain ⟨hoff, hb⟩ := Option.ite_none_right_eq_some.mp hb
      obtain rfl := Option.some.inj hb
      obtain ⟨hv, hready⟩ := by simpa using hoff
      exact txPending_masterEdge hr hv hready _
    · obtain rfl : i = j := by simpa using hj
      exact ⟨(h.pending b hb).mTvalid hr hshown, (h.pending b hb).dout⟩

/-! ## RX_AXIS -/

/-- One edge of `RX_AXIS` behind a trigger with `num_words` held at `n` : neither a reset nor
a further trigger, and no word shown is withdrawn. -/
def rxHold (n : BitVec 32) (x : Watched RxState (HostWord × Bool)) :
    RxEdge → Option (Watched RxState (HostWord × Bool))
  | .slave i =>
    if RxQuiet n (.slave i) then some { x with bridge := rxSlaveEdge i x.bridge } else none
  | .master i =>
    if RxQuiet n (.master i) ∧ (x.shown = true → i.empty = false) then
      some {
        bridge := rxMasterEdge i x.bridge
        shown := !x.bridge.isEmpty i && !x.bridge.rden i
        offered :=
          if x.bridge.mTvalid i && !i.tready then
            some (rxTdata x.bridge.dout, x.bridge.tlast)
          else none }
    else none

/-- A beat that was not taken is offered again : `TVALID` is high with the same `TDATA` and
`TLAST`. -/
def RxHolds (x : Watched RxState (HostWord × Bool)) (e : RxEdge)
    (_ : Watched RxState (HostWord × Bool)) : Prop :=
  ∀ i b, e = .master i → x.offered = some b →
    x.bridge.mTvalid i = true ∧ (rxTdata x.bridge.dout, x.bridge.tlast) = b

/-- What a beat not taken leaves : the FSM has not moved and the word is still there. -/
structure RxPending (x : Watched RxState (HostWord × Bool)) (b : HostWord × Bool) : Prop where
  shown : x.shown = true
  reading : x.bridge.mState = .readFifo
  stored : x.bridge.fifo.Holds 2
  beat : (rxTdata x.bridge.dout, x.bridge.tlast) = b

/-- What every edge preserves. -/
structure RxHoldInv (n : BitVec 32) (x : Watched RxState (HostWord × Bool)) : Prop where
  frame : RxInv n x.bridge
  pending : ∀ b, x.offered = some b → RxPending x b

theorem rxHoldInv_start (n : BitVec 32) : RxHoldInv n ⟨rxStart n, false, none⟩ where
  frame := rxInv_start n
  pending _ hb := nomatch hb

/-- A write does not change the word shown. -/
theorem RxState.dout_push {s : RxState} (h : s.fifo.Holds 2) (ws : List ConvWord) :
    RxState.dout { s with fifo := s.fifo.push ws } = s.dout := by
  have hlen := h.le_length
  match hs : s.fifo.stored with
  | a :: b :: rest => simp [RxState.dout, hs]
  | [_] | [] => simp [hs] at hlen

theorem RxHoldInv.slaveEdge {n : BitVec 32} {x : Watched RxState (HostWord × Bool)}
    (h : RxHoldInv n x) {i : RxSlaveIn} (hq : RxQuiet n (.slave i)) :
    RxHoldInv n { x with bridge := rxSlaveEdge i x.bridge } := by
  refine ⟨h.frame.slaveEdge hq, fun b hb => ?_⟩
  have hp := h.pending b hb
  cases hw : x.bridge.wren i with
  | false =>
    rw [rxSlaveEdge_of_not_wren h.frame hq hw]
    exact { hp with }
  | true =>
    rw [rxSlaveEdge_of_wren h.frame hq hw]
    have hdout := RxState.dout_push hp.stored [rxDin i.tdata]
    exact { hp with
      stored := hp.stored.push _
      beat := (congrArg (fun d => (rxTdata d, x.bridge.tlast)) hdout).trans hp.beat }

/-- A pending beat is offered. -/
theorem RxPending.mTvalid {x : Watched RxState (HostWord × Bool)} {b : HostWord × Bool}
    (h : RxPending x b) {i : RxMasterIn} (hr : i.aresetn = true ∧ i.sAresetn = true)
    (hshown : x.shown = true → i.empty = false) : x.bridge.mTvalid i = true := by
  simpa [RxState.mTvalid, RxState.isEmpty, h.reading, hr.1, hr.2, hshown h.shown] using h.stored

/-- With an even `num_words` a beat in the FIFO is one before the end. -/
theorem RxInv.rdCount_ne_end {n : BitVec 32} {s : RxState} (h : RxInv n s)
    (heven : n.toNat % 2 = 0) (hold : s.fifo.Holds 2) : s.rdCount ≠ n.extractLsb' 1 17 := by
  have hbeat := (h.beat hold).1
  have hextra := h.extra
  rw [h.rdCount, Ne, ← BitVec.toNat_inj, BitVec.toNat_ofNat, toNat_rxEnd, rxEnd]
  omega

/-- A beat offered and not taken is pending behind the edge. -/
theorem RxInv.pending_masterEdge {n : BitVec 32} {s : RxState} (h : RxInv n s)
    (heven : n.toNat % 2 = 0) {i : RxMasterIn} (hq : RxQuiet n (.master i))
    (hv : s.mTvalid i = true) (hready : i.tready = false)
    (offered : Option (HostWord × Bool)) :
    RxPending ⟨rxMasterEdge i s, !s.isEmpty i && !s.rden i, offered⟩
      (rxTdata s.dout, s.tlast) := by
  have hd : s.rden i = false := by simp [RxState.rden, hready]
  obtain ⟨hm, he⟩ := by simpa [RxState.mTvalid] using hv
  have hold : s.fifo.Holds 2 := by
    simp only [RxState.isEmpty, Bool.or_eq_false_iff] at he
    simpa using he.2
  have hstays := (h.masterEdge_eq_readFifo_iff hq).mpr ⟨hm, h.rdCount_ne_end heven hold⟩
  rw [rxMasterEdge_of_not_rden h hq hd] at hstays ⊢
  exact {
    shown := by simp [he, hd]
    reading := hstays
    stored := hold
    beat := rfl }

theorem rx_hold_step {n : BitVec 32} (heven : n.toNat % 2 = 0)
    {x x' : Watched RxState (HostWord × Bool)} {e : RxEdge} (h : RxHoldInv n x)
    (hstep : rxHold n x e = some x') : RxHoldInv n x' ∧ RxHolds x e x' := by
  cases e with
  | slave i =>
    obtain ⟨hq, rfl⟩ := by simpa [rxHold] using hstep
    exact ⟨h.slaveEdge hq, fun _ _ hj => nomatch hj⟩
  | master i =>
    obtain ⟨⟨hquiet, hshown⟩, hx⟩ := Option.ite_none_right_eq_some.mp hstep
    obtain rfl := Option.some.inj hx
    refine ⟨⟨h.frame.masterEdge hquiet, fun b hb => ?_⟩, fun j b hj hb => ?_⟩
    · obtain ⟨hoff, hb⟩ := Option.ite_none_right_eq_some.mp hb
      obtain rfl := Option.some.inj hb
      obtain ⟨hv, hready⟩ := by simpa using hoff
      exact h.frame.pending_masterEdge heven hquiet hv hready _
    · obtain rfl : i = j := by simpa using hj
      exact ⟨(h.pending b hb).mTvalid ⟨hquiet.1, hquiet.2.1⟩ hshown, (h.pending b hb).beat⟩

/-- The hold rule, in every state a run reaches and whatever its pins : of `TX_AXIS` from any
state with `flush_s` low, and of `RX_AXIS` from the state a trigger leaves, for every even
`num_words`. -/
theorem stream_hold :
    (∀ s : TxState, s.flushS = false → ∀ es,
      Along txHold TxHolds ⟨s, false, none⟩ es) ∧
    ∀ n : BitVec 32, n.toNat % 2 = 0 → ∀ es,
      Along (rxHold n) RxHolds ⟨rxStart n, false, none⟩ es := by
  refine ⟨fun s hs es => ?_, fun n heven es => ?_⟩
  · exact along_of_step (C := fun _ _ _ => True)
      (fun _ e _ h hstep _ => tx_hold_step (e := e) h hstep) (txHoldInv_start hs)
      (along_of_inputs fun _ _ _ _ => trivial)
  · exact along_of_step (C := fun _ _ _ => True)
      (fun _ e _ h hstep _ => rx_hold_step (e := e) heven h hstep) (rxHoldInv_start n)
      (along_of_inputs fun _ _ _ _ => trivial)

/-- Both outputs behind a trigger : a beat is offered, not taken for a cycle, and taken. -/
theorem stream_hold_back_pressure :
    Along txHold TxHolds ⟨(txStart .readFifo false).bridge, false, none⟩
        [txOffer 1 true, .master ⟨true, true, false, false, false⟩, txReady false] ∧
      Along (rxHold 2) RxHolds ⟨rxStart 2, false, none⟩
        [rxOffer 2 1, rxOffer 2 2, .master ⟨true, true, false, false, false, 2⟩, rxReady 2] :=
  ⟨stream_hold.1 _ rfl _, stream_hold.2 2 (by decide) _⟩

end Wimi
