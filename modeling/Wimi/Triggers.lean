import Wimi.AxiLite
import Wimi.Lib.Run

/-!
# Trigger pulses

`slv_reg1` and `slv_reg2` of the bridge (`trigger_rx`, `trigger_tx`, `flush`) and `slv_reg1`
of the DAQ2 controller (`wr_en`) clear themselves, but not at an edge that writes another
register. What makes each write a pulse of one cycle is the handshake : a write enable needs
`axi_awready`, which never stays high, so no write follows the one that set the register
(`PulseInv`).
-/

namespace Wimi

open Machine

variable {n : ℕ}

/-- At an edge, `slv_reg<k>` becomes nonzero by a write to its own address only, and a
nonzero one is cleared. -/
def Pulses (k : BitVec n) (x : AxiSlave n) (i : AxiIn (n + 2)) (x' : AxiSlave n) : Prop :=
  (x'.slvReg k ≠ 0 → x.port.wren i = true ∧ field x.port.awaddr = k) ∧
    (x.slvReg k ≠ 0 → x'.slvReg k = 0)

/-- A nonzero self-clearing register meets no write enable. -/
def PulseInv (k : BitVec n) (x : AxiSlave n) : Prop :=
  x.slvReg k ≠ 0 → x.port.awready = false

theorem AxiPort.awready_of_wren {w : ℕ} {p : AxiPort w} {i : AxiIn w} (h : p.wren i = true) :
    p.awready = true := by
  simp only [AxiPort.wren, Bool.and_eq_true] at h
  exact h.1.2

/-- `axi_awready` never stays high. -/
theorem AxiPort.awready_edge {w : ℕ} {p : AxiPort w} {i : AxiIn w} (h : p.awready = true) :
    (p.edge i).awready = false := by
  cases hr : i.aresetn <;> simp [AxiPort.edge, AxiPort.reset, hr, h]

/-- Without a write a self-clearing register is cleared. -/
theorem Bank.edge_of_not_wren {m : BankMap n} {p : AxiPort (n + 2)} {i : AxiIn (n + 2)} {r : Bank n}
    {k : BitVec n} (hk : m.pulse k = true) (hw : p.wren i = false) : Bank.edge m p i r k = 0 := by
  simp [Bank.edge, hk, hw]

/-- A write to another address does not set a register. -/
theorem Bank.edge_of_ne {m : BankMap n} {p : AxiPort (n + 2)} {i : AxiIn (n + 2)} {r : Bank n}
    {k : BitVec n} (hne : field p.awaddr ≠ k) (hr : r k = 0) : Bank.edge m p i r k = 0 := by
  simp [Bank.edge, hne, hr]

/-- What an edge of the handshake and the write process does to a self-clearing register. -/
theorem pulse_step {m : BankMap n} {k : BitVec n} (hk : m.pulse k = true) {x x' : AxiSlave n}
    {i : AxiIn (n + 2)} (h : PulseInv k x) (hport : x'.port = x.port.edge i)
    (hreg : x'.slvReg k = x.slvReg.edge m x.port i k) : PulseInv k x' ∧ Pulses k x i x' := by
  have hset : x'.slvReg k ≠ 0 → x.port.wren i = true ∧ field x.port.awaddr = k := by
    intro hne
    have hw : x.port.wren i = true := by
      by_contra hw
      exact hne (hreg.trans (Bank.edge_of_not_wren hk (Bool.not_eq_true _ ▸ hw)))
    refine ⟨hw, by_contra fun hother => ?_⟩
    have hzero : x.slvReg k = 0 := by
      by_contra hx
      exact absurd (AxiPort.awready_of_wren hw) (Bool.not_eq_true _ ▸ h hx)
    exact hne (hreg.trans (Bank.edge_of_ne hother hzero))
  refine ⟨fun hne => ?_, hset, fun hne => ?_⟩
  · rw [hport]
    exact AxiPort.awready_edge (AxiPort.awready_of_wren (hset hne).1)
  · have hw : x.port.wren i = false := by
      simp [AxiPort.wren, h hne]
    exact hreg.trans (Bank.edge_of_not_wren hk hw)

theorem bridge_pulse_step {k : BitVec 3} (hk : bridgeMap.pulse k = true) {x : AxiSlave 3}
    {i : AxiIn 5} (h : PulseInv k x) :
    PulseInv k (bridgeEdge x i) ∧ Pulses k x i (bridgeEdge x i) :=
  pulse_step hk h rfl rfl

theorem daq2_pulse_step {x : AxiSlave 5} {i : Daq2In} (h : PulseInv 1 x) :
    PulseInv 1 (daq2Edge x i) ∧ Pulses 1 x i.toAxiIn (daq2Edge x i) :=
  pulse_step (m := daq2Map) rfl h rfl rfl

/-- Whatever state reset finds the slaves in, and whatever the master does afterwards, further
resets included : at every edge the trigger registers become nonzero by a write to their own
address only, and are cleared if they were nonzero. -/
theorem trigger_pulses :
    (∀ (x : AxiSlave 3) (i : AxiIn 5) (is : List (AxiIn 5)),
      Along (fun x i => some (bridgeEdge x i)) (fun x i x' => Pulses 1 x i x' ∧ Pulses 2 x i x')
        (bridgeEdge x { i with aresetn := false }) is) ∧
    ∀ (x : AxiSlave 5) (i : Daq2In) (is : List Daq2In),
      Along (fun x i => some (daq2Edge x i)) (fun x i x' => Pulses 1 x i.toAxiIn x')
        (daq2Edge x { i with aresetn := false }) is := by
  refine ⟨fun x i is => ?_, fun x i is => ?_⟩
  · refine along_of_step (C := fun _ _ _ => True)
      (fun x i x' (h : PulseInv 1 x ∧ PulseInv 2 x) hstep _ => ?_) ⟨fun _ => rfl, fun _ => rfl⟩
      (along_of_inputs fun _ _ _ _ => trivial)
    obtain rfl := Option.some.inj hstep
    have h1 := bridge_pulse_step (i := i) rfl h.1
    have h2 := bridge_pulse_step (i := i) rfl h.2
    exact ⟨⟨h1.1, h2.1⟩, h1.2, h2.2⟩
  · refine along_of_step (C := fun _ _ _ => True) (fun x i x' (h : PulseInv 1 x) hstep _ => ?_)
      (fun _ => rfl) (along_of_inputs fun _ _ _ _ => trivial)
    obtain rfl := Option.some.inj hstep
    exact daq2_pulse_step h

end Wimi
