import Mathlib

/-!
# The AXI4-Lite register banks

`S00_AXI` of the bridge and of the DAQ2 controller : the same handshake registers in front
of a bank of 32-bit registers. One function per rising edge of `S_AXI_ACLK`; it takes the
pins and the state before it and gives every register its nonblocking assignment.

The banks differ in which addresses the write `case` names, in the registers that write a
constant and clear themselves, and in what `axi_rdata` does when no read is enabled. The
response codes are always `OKAY` and left out.
-/

namespace Wimi

/-- Pins of an AXI4-Lite slave with `w` address bits. -/
structure AxiIn (w : ℕ) where
  aresetn : Bool
  awaddr : BitVec w
  awvalid : Bool
  wdata : BitVec 32
  wstrb : BitVec 4
  wvalid : Bool
  bready : Bool
  araddr : BitVec w
  arvalid : Bool
  rready : Bool

/-- Handshake registers. -/
structure AxiPort (w : ℕ) where
  awaddr : BitVec w
  awready : Bool
  wready : Bool
  bvalid : Bool
  araddr : BitVec w
  arready : Bool
  rvalid : Bool

namespace AxiPort

variable {w : ℕ}

/-- `slv_reg_wren`. -/
def wren (p : AxiPort w) (i : AxiIn w) : Bool :=
  p.wready && i.wvalid && p.awready && i.awvalid

/-- `slv_reg_rden`. -/
def rden (p : AxiPort w) (i : AxiIn w) : Bool :=
  p.arready && i.arvalid && !p.rvalid

/-- The state reset leaves. -/
def reset : AxiPort w where
  awaddr := 0
  awready := false
  wready := false
  bvalid := false
  araddr := 0
  arready := false
  rvalid := false

/-- One rising edge of `S_AXI_ACLK`. -/
def edge (i : AxiIn w) (p : AxiPort w) : AxiPort w :=
  if !i.aresetn then reset else
  { awaddr := if !p.awready && i.awvalid && i.wvalid then i.awaddr else p.awaddr
    awready := !p.awready && i.awvalid && i.wvalid
    wready := !p.wready && i.wvalid && i.awvalid
    bvalid :=
      if p.awready && i.awvalid && !p.bvalid && p.wready && i.wvalid then true
      else if i.bready && p.bvalid then false else p.bvalid
    araddr := if !p.arready && i.arvalid then i.araddr else p.araddr
    arready := !p.arready && i.arvalid
    rvalid :=
      if p.arready && i.arvalid && !p.rvalid then true
      else if p.rvalid && i.rready then false else p.rvalid }

end AxiPort

/-- `old` with the bytes that `strb` selects taken from `data`. -/
def writeBytes (old data : BitVec 32) (strb : BitVec 4) : BitVec 32 :=
  BitVec.ofFnLE fun b => if strb.getLsbD (b / 8) then data.getLsbD b else old.getLsbD b

/-- The registers of a bank behind an address field of `n` bits. -/
abbrev Bank (n : ℕ) := BitVec n → BitVec 32

/-- How the write process treats the registers of a bank. -/
structure BankMap (n : ℕ) where
  /-- The write `case` has a branch for the register. -/
  mapped : BitVec n → Bool
  /-- The bytes its branch writes where they are strobed. -/
  source : BitVec n → BitVec 32 → BitVec 32
  /-- The register is cleared by the `default` branch and without a write. -/
  pulse : BitVec n → Bool

/-- The address field that selects a register, above the byte offset. -/
def field {n : ℕ} (addr : BitVec (n + 2)) : BitVec n :=
  addr.extractLsb' 2 n

/-- The write process at one edge. -/
def Bank.edge {n : ℕ} (m : BankMap n) (p : AxiPort (n + 2)) (i : AxiIn (n + 2)) (r : Bank n) :
    Bank n := fun k =>
  if !i.aresetn then 0
  else if p.wren i && m.mapped (field p.awaddr) then
    if field p.awaddr = k then writeBytes (r k) (m.source k i.wdata) i.wstrb else r k
  else if m.pulse k then 0 else r k

/-- A slave : its handshake, its registers and `axi_rdata`. -/
structure AxiSlave (n : ℕ) where
  port : AxiPort (n + 2)
  slvReg : Bank n
  rdata : BitVec 32

namespace AxiSlave

variable {n : ℕ}

/-- `reg_data_out`. -/
def regDataOut (x : AxiSlave n) : BitVec 32 :=
  x.slvReg (field x.port.araddr)

end AxiSlave

/-! ## The bridge -/

/-- `S00_AXI` of the bridge : eight registers, all with a branch. `slv_reg2` takes a one in
each strobed byte. -/
def bridgeMap : BankMap 3 where
  mapped _ := true
  source k wdata := if k = 2 then 0x01010101 else wdata
  pulse k := k == 1 || k == 2

/-- One rising edge of `S_AXI_ACLK` in the bridge. `axi_rdata` holds what was read. -/
def bridgeEdge (x : AxiSlave 3) (i : AxiIn 5) : AxiSlave 3 where
  port := x.port.edge i
  slvReg := x.slvReg.edge bridgeMap x.port i
  rdata := if !i.aresetn then 0 else if x.port.rden i then x.regDataOut else x.rdata

/-! ## The DAQ2 controller -/

/-- Registers 4 to 8, which show the status pins `slv4` to `slv8`. -/
def isStatus (k : BitVec 5) : Bool :=
  4 ≤ k && k ≤ 8

/-- `S00_AXI` of the DAQ2 controller : the status registers have no branch. `slv_reg1` takes a
one in each strobed byte. -/
def daq2Map : BankMap 5 where
  mapped k := !isStatus k
  source k wdata := if k = 1 then 0x01010101 else wdata
  pulse k := k == 1

/-- Pins of the DAQ2 slave. `status k` is the pin `slv<k>` of a status register. -/
structure Daq2In extends AxiIn 7 where
  status : Bank 5

/-- One rising edge of `S_AXI_ACLK` in the DAQ2 controller. The status registers are loaded
whenever there is no reset, and `axi_rdata` is cleared when no read is enabled. -/
def daq2Edge (x : AxiSlave 5) (i : Daq2In) : AxiSlave 5 where
  port := x.port.edge i.toAxiIn
  slvReg := fun k =>
    if isStatus k then if i.aresetn then i.status k else x.slvReg k
    else x.slvReg.edge daq2Map x.port i.toAxiIn k
  rdata := if !i.aresetn then 0 else if x.port.rden i.toAxiIn then x.regDataOut else 0

end Wimi
