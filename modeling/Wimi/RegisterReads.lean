import Wimi.AxiLite
import Wimi.Lib.Run

/-!
# Register reads of the DAQ2 controller

`axi_rvalid` stays high until the master raises `RREADY`, but `axi_rdata` is loaded at the
edge that accepts the address and cleared at the next one. A master that takes the data one
cycle late reads zero. The bridge, with the same handshake, has no `else` there and holds
the data.

`register_read_iff` : the data transferred are those of the register exactly when they are
taken in their first cycle, or the register was zero.
-/

namespace Wimi

open Machine

/-- The slave and a master that reads. `asked` : the address that was offered and not accepted
at the last edge. `expected` : what the register of the outstanding read held when its
address was accepted. `waited` : the last edge found `RVALID` high and `RREADY` low. -/
structure ReadSession where
  ctrl : AxiSlave 5
  asked : Option (BitVec 7)
  expected : Option (BitVec 32)
  waited : Bool

/-- The pins of a master that holds its address until it is accepted and offers the next one
only with no read outstanding behind this edge. -/
def ReadSession.Obeys (x : ReadSession) (i : Daq2In) : Prop :=
  i.aresetn = true ∧ (∀ a ∈ x.asked, i.arvalid = true ∧ i.araddr = a) ∧
    (i.arvalid = true → x.expected = none ∨ (x.ctrl.port.rvalid = true ∧ i.rready = true))

instance ReadSession.decidableObeys (x : ReadSession) (i : Daq2In) : Decidable (x.Obeys i) :=
  inferInstanceAs (Decidable (_ ∧ _ ∧ _))

/-- One edge of the slave under such a master. -/
def daq2Read (x : ReadSession) (i : Daq2In) : Option ReadSession :=
  if x.Obeys i then
    some {
      ctrl := daq2Edge x.ctrl i
      asked := if i.arvalid && !x.ctrl.port.arready then some i.araddr else none
      expected :=
        if x.ctrl.port.arready && i.arvalid then some (x.ctrl.slvReg (field i.araddr))
        else if x.ctrl.port.rvalid && i.rready then none else x.expected
      waited := x.ctrl.port.rvalid && !i.rready }
  else none

/-- The state behind a reset. -/
def readStart (x : AxiSlave 5) (i : Daq2In) : ReadSession where
  ctrl := daq2Edge x { i with aresetn := false }
  asked := none
  expected := none
  waited := false

/-- The data transferred are what the register held when the address was accepted. -/
def ReadsRegister (x : ReadSession) (i : Daq2In) (_ : ReadSession) : Prop :=
  x.ctrl.port.rvalid = true → i.rready = true → x.expected = some x.ctrl.rdata

/-- Data not taken in their first cycle are those of a register that was zero. -/
def TakenAtOnce (x : ReadSession) (i : Daq2In) (_ : ReadSession) : Prop :=
  x.ctrl.port.rvalid = true → i.rready = true → x.waited = true → x.expected = some 0

/-- What every edge preserves. -/
structure ReadInv (x : ReadSession) : Prop where
  asked : x.asked = if x.ctrl.port.arready then some x.ctrl.port.araddr else none
  free : x.ctrl.port.arready = true → x.expected = none
  valid : x.ctrl.port.rvalid = true →
    ∃ v, x.expected = some v ∧ x.ctrl.rdata = if x.waited then 0 else v

theorem readInv_start (x : AxiSlave 5) (i : Daq2In) : ReadInv (readStart x i) where
  asked := rfl
  free h := nomatch h
  valid h := nomatch h

/-- An accepted address is answered at the next edge with the register it names. -/
theorem ReadInv.accept {x : ReadSession} (h : ReadInv x) {i : Daq2In} (ho : x.Obeys i)
    (hr : x.ctrl.port.arready = true) :
    i.arvalid = true ∧ i.araddr = x.ctrl.port.araddr ∧ x.ctrl.port.rvalid = false := by
  obtain ⟨hv, ha⟩ := ho.2.1 x.ctrl.port.araddr (by rw [h.asked, if_pos hr]; rfl)
  refine ⟨hv, ha, ?_⟩
  by_contra hvalid
  obtain ⟨v, hexp, -⟩ := h.valid (Bool.not_eq_false _ ▸ hvalid)
  rw [h.free hr] at hexp
  cases hexp

theorem ReadInv.step {x x' : ReadSession} {i : Daq2In} (h : ReadInv x)
    (hstep : daq2Read x i = some x') : ReadInv x' := by
  obtain ⟨ho, hx⟩ := Option.ite_none_right_eq_some.mp hstep
  obtain rfl := Option.some.inj hx
  have hn := ho.1
  cases hr : x.ctrl.port.arready with
  | true =>
    obtain ⟨hv, ha, hvalid⟩ := h.accept ho hr
    refine ⟨?_, ?_, fun _ => ⟨x.ctrl.slvReg (field i.araddr), ?_, ?_⟩⟩
    all_goals
      simp [daq2Edge, AxiPort.edge, AxiPort.rden, AxiSlave.regDataOut, hn, hr, hv, hvalid, ha]
  | false =>
    refine ⟨?_, fun hready => ?_, fun hvalid => ?_⟩
    · cases hv : i.arvalid <;> simp [daq2Edge, AxiPort.edge, hn, hr, hv]
    · have hv : i.arvalid = true := by simpa [daq2Edge, AxiPort.edge, hn, hr] using hready
      rcases ho.2.2 hv with hnone | ⟨hrv, hrr⟩
      · simp [hnone]
      · simp [hrv, hrr]
    · obtain ⟨hor, hrv⟩ :
          (x.ctrl.port.rvalid = false ∨ i.rready = false) ∧ x.ctrl.port.rvalid = true := by
        simpa [daq2Edge, AxiPort.edge, hn, hr] using hvalid
      have hrr : i.rready = false := by simpa [hrv] using hor
      obtain ⟨v, hexp, -⟩ := h.valid hrv
      refine ⟨v, ?_, ?_⟩
      · simp [hrr, hexp]
      · simp [daq2Edge, AxiPort.rden, hn, hr, hrv, hrr]

/-- A transfer is right if it comes at once, or the register was zero. -/
theorem ReadInv.readsRegister_iff {x x' : ReadSession} {i : Daq2In} (h : ReadInv x) :
    ReadsRegister x i x' ↔ TakenAtOnce x i x' := by
  refine forall_congr' fun hvalid => forall_congr' fun _ => ?_
  obtain ⟨v, hexp, hdata⟩ := h.valid hvalid
  rw [hexp, hdata]
  cases x.waited <;> simp

/-- For every state reset leaves and every master that obeys the handshake with one read
outstanding at most, whenever it raises `RREADY` : every transfer carries what the register
held when its address was accepted if and only if every transfer of a nonzero register comes
in the first cycle of `RVALID`. -/
theorem register_read_iff (x : AxiSlave 5) (i : Daq2In) (is : List Daq2In) :
    Along daq2Read ReadsRegister (readStart x i) is ↔
      Along daq2Read TakenAtOnce (readStart x i) is :=
  along_iff (fun _ _ _ h hstep hc => ⟨h.step hstep, h.readsRegister_iff.mpr hc⟩)
    (fun _ _ _ h _ hp => h.readsRegister_iff.mp hp) (readInv_start x i)

/-- Pins that read register 4, whose status pin shows 7. -/
def readStatus (arvalid rready : Bool) : Daq2In where
  aresetn := true
  awaddr := 0
  awvalid := false
  wdata := 0
  wstrb := 0
  wvalid := false
  bready := false
  araddr := 16
  arvalid
  rready
  status _ := 7

/-- `RREADY` comes one cycle late : the register held 7 and zero is transferred. -/
theorem register_read_fails_on_stall :
    ¬ ∀ (x : AxiSlave 5) (i : Daq2In) (is : List Daq2In),
      Along daq2Read ReadsRegister (readStart x i) is := by
  intro h
  have hrun := h ⟨AxiPort.reset, 0, 0⟩ (readStatus false false)
    [readStatus true false, readStatus true false, readStatus false false, readStatus false true]
  obtain ⟨-, hrun⟩ := hrun _ rfl
  obtain ⟨-, hrun⟩ := hrun _ rfl
  obtain ⟨-, hrun⟩ := hrun _ rfl
  have hread := (hrun _ rfl).1 rfl rfl
  exact absurd hread (by decide)

end Wimi
