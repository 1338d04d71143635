import Wimi.SampleFormat

/-!
# Stream FSMs of the JESD204B bridge

The two clock domains of `RX_AXIS` and `TX_AXIS`, one function per clock edge. An edge
takes the pin values of its domain and the state before it, and gives every register of
that domain its nonblocking assignment. No register of one domain is read by the other :
the domains meet in the FIFO only, and edges that coincide are the master edge followed by
the slave edge.

The FIFO is ideal. Its `full` flag, and an `empty` flag raised while words are stored,
are pins : they may follow the contents with any delay. What the FIFO does promise is
that it is not read when it does not hold a word of the read port.

`accepted` and `beats` are histories : the input words of the slave handshakes and the
output words of the master handshakes, oldest first.
-/

namespace Wimi

/-- State of a write FSM (`s_state`). -/
inductive SState
  | idle
  | writeFifo
  deriving DecidableEq, Repr

/-- State of a read FSM (`m_state`). -/
inductive MState
  | idle
  | readFifo
  deriving DecidableEq, Repr

/-! ## RX_AXIS -/

/-- Registers of `RX_AXIS`, its FIFO, and the histories of both handshakes. -/
structure RxState where
  sState : SState
  mState : MState
  numWordsS : BitVec 32
  numWordsM : BitVec 32
  /-- `num_words - 1`, registered. -/
  numWordsMM1 : BitVec 32
  wrCount : BitVec 18
  rdCount : BitVec 17
  flushS : Bool
  flushM : Bool
  fifo : Fifo ConvWord
  accepted : List ConvWord
  /-- Words transferred on `M_AXIS` with their `TLAST`. -/
  beats : List (HostWord × Bool)

/-- Pins of the slave domain at one edge of `S_AXIS_ACLK`. The other domain's reset
reaches the FIFO. -/
structure RxSlaveIn where
  aresetn : Bool
  mAresetn : Bool
  tvalid : Bool
  tdata : ConvWord
  full : Bool
  flush : Bool
  numWords : BitVec 32

/-- Pins of the master domain at one edge of `M_AXIS_ACLK`. `empty` keeps the FIFO's
`empty` flag up although words are stored. -/
structure RxMasterIn where
  aresetn : Bool
  sAresetn : Bool
  tready : Bool
  empty : Bool
  flush : Bool
  numWords : BitVec 32

namespace RxState

/-- `axis_s_tready`. -/
def sTready (s : RxState) (i : RxSlaveIn) : Bool :=
  s.sState == .writeFifo && !i.full

/-- `wren`, the slave handshake. -/
def wren (s : RxState) (i : RxSlaveIn) : Bool :=
  i.tvalid && s.sTready i

/-- The FIFO's `empty` output. -/
def isEmpty (s : RxState) (i : RxMasterIn) : Bool :=
  i.empty || !i.aresetn || !i.sAresetn || !decide (s.fifo.Holds 2)

/-- `axis_m_tvalid`. -/
def mTvalid (s : RxState) (i : RxMasterIn) : Bool :=
  s.mState == .readFifo && !s.isEmpty i

/-- `rden`, the master handshake. -/
def rden (s : RxState) (i : RxMasterIn) : Bool :=
  i.tready && s.mTvalid i

/-- The FIFO's `dout` : its next two words, the first in the most significant half. -/
def dout (s : RxState) : HostWord :=
  match s.fifo.stored with
  | a :: b :: _ => fifoPack (a, b)
  | _ => 0

/-- `M_AXIS_TLAST`. -/
def tlast (s : RxState) : Bool :=
  s.rdCount == s.numWordsMM1.extractLsb' 1 17

end RxState

/-- Next `s_state` of `RX_AXIS`. -/
def rxNextS (s : RxState) : SState :=
  match s.sState with
  | .idle => if s.flushS then .writeFifo else .idle
  | .writeFifo => if s.wrCount == s.numWordsS.extractLsb' 0 18 then .idle else .writeFifo

/-- Next `m_state` of `RX_AXIS`. -/
def rxNextM (s : RxState) : MState :=
  match s.mState with
  | .idle => if s.flushM then .readFifo else .idle
  | .readFifo => if s.rdCount == s.numWordsM.extractLsb' 1 17 then .idle else .readFifo

/-- One rising edge of `S_AXIS_ACLK`. The FIFO is held in reset while `flush_s` is high. -/
def rxSlaveEdge (i : RxSlaveIn) (s : RxState) : RxState :=
  let flushS := i.aresetn && i.flush
  { s with
    sState := if i.aresetn then rxNextS s else .idle
    numWordsS := if i.aresetn then i.numWords else 0
    flushS := flushS
    wrCount := if !i.aresetn || s.flushS then 0 else if s.wren i then s.wrCount + 1 else s.wrCount
    fifo :=
      if !i.aresetn || !i.mAresetn || s.flushS || flushS then Fifo.empty
      else if s.wren i then s.fifo.push [rxDin i.tdata] else s.fifo
    accepted := if s.wren i then s.accepted ++ [i.tdata] else s.accepted }

/-- One rising edge of `M_AXIS_ACLK`. -/
def rxMasterEdge (i : RxMasterIn) (s : RxState) : RxState :=
  { s with
    mState := if i.aresetn then rxNextM s else .idle
    numWordsM := if i.aresetn then i.numWords else 0
    numWordsMM1 := if i.aresetn then i.numWords - 1 else 0
    flushM := i.aresetn && i.flush
    rdCount := if !i.aresetn || s.flushM then 0 else if s.rden i then s.rdCount + 1 else s.rdCount
    fifo :=
      if !i.aresetn || !i.sAresetn then Fifo.empty
      else if h : s.rden i ∧ s.fifo.Holds 2 then s.fifo.pop 2 h.2 else s.fifo
    beats := if s.rden i then s.beats ++ [(rxTdata s.dout, s.tlast)] else s.beats }

/-- An edge of one of the two clocks, with the pins it samples. -/
inductive RxEdge
  | slave (i : RxSlaveIn)
  | master (i : RxMasterIn)

/-- `RX_AXIS` after one edge. -/
def rxStep (s : RxState) : RxEdge → RxState
  | .slave i => rxSlaveEdge i s
  | .master i => rxMasterEdge i s

/-! ## TX_AXIS -/

/-- Registers of `TX_AXIS`, its FIFO, and the histories of both handshakes. -/
structure TxState where
  sState : SState
  mState : MState
  startM : Bool
  flushS : Bool
  fifo : Fifo ConvWord
  /-- Words written to the FIFO. -/
  accepted : List HostWord
  /-- Words transferred on `M_AXIS`. -/
  beats : List ConvWord

/-- Pins of the slave domain at one edge of `S_AXIS_ACLK`. -/
structure TxSlaveIn where
  aresetn : Bool
  mAresetn : Bool
  tvalid : Bool
  tdata : HostWord
  tlast : Bool
  full : Bool
  flush : Bool

/-- Pins of the master domain at one edge of `M_AXIS_ACLK`. `m_state` samples the slave
domain's reset. -/
structure TxMasterIn where
  aresetn : Bool
  sAresetn : Bool
  tready : Bool
  empty : Bool
  start : Bool

namespace TxState

/-- `axis_s_tready`. -/
def sTready (s : TxState) (i : TxSlaveIn) : Bool :=
  s.sState == .writeFifo && !i.full

/-- `wren`, the slave handshake. -/
def wren (s : TxState) (i : TxSlaveIn) : Bool :=
  i.tvalid && s.sTready i

/-- The FIFO's `empty` output. -/
def isEmpty (s : TxState) (i : TxMasterIn) : Bool :=
  i.empty || !i.aresetn || !i.sAresetn || !decide (s.fifo.Holds 1)

/-- `axis_m_tvalid`. -/
def mTvalid (s : TxState) (i : TxMasterIn) : Bool :=
  s.mState == .readFifo && !s.isEmpty i

/-- `rden`, the master handshake. -/
def rden (s : TxState) (i : TxMasterIn) : Bool :=
  i.tready && s.mTvalid i

/-- The FIFO's `dout`. -/
def dout (s : TxState) : ConvWord :=
  s.fifo.stored.headD 0

end TxState

/-- Next `s_state` of `TX_AXIS` : out of `WRITE_FIFO` on `S_AXIS_TLAST`. -/
def txNextS (s : TxState) (i : TxSlaveIn) : SState :=
  match s.sState with
  | .idle => if s.flushS then .writeFifo else .idle
  | .writeFifo => if i.tlast then .idle else .writeFifo

/-- Next `m_state` of `TX_AXIS`. -/
def txNextM (s : TxState) (i : TxMasterIn) : MState :=
  match s.mState with
  | .idle => if s.startM then .readFifo else .idle
  | .readFifo => if s.isEmpty i then .idle else .readFifo

/-- One rising edge of `S_AXIS_ACLK`. -/
def txSlaveEdge (i : TxSlaveIn) (s : TxState) : TxState :=
  let flushS := i.aresetn && i.flush
  { s with
    sState := if i.aresetn then txNextS s i else .idle
    flushS := flushS
    fifo :=
      if !i.aresetn || !i.mAresetn || s.flushS || flushS then Fifo.empty
      else if s.wren i then s.fifo.push (fifo256to128 [txDin i.tdata]) else s.fifo
    accepted := if s.wren i then s.accepted ++ [i.tdata] else s.accepted }

/-- One rising edge of `M_AXIS_ACLK`. -/
def txMasterEdge (i : TxMasterIn) (s : TxState) : TxState :=
  { s with
    mState := if i.sAresetn then txNextM s i else .idle
    startM := i.aresetn && i.start
    fifo :=
      if !i.aresetn || !i.sAresetn then Fifo.empty
      else if h : s.rden i ∧ s.fifo.Holds 1 then s.fifo.pop 1 h.2 else s.fifo
    beats := if s.rden i then s.beats ++ [txTdata s.dout] else s.beats }

/-- An edge of one of the two clocks, with the pins it samples. -/
inductive TxEdge
  | slave (i : TxSlaveIn)
  | master (i : TxMasterIn)

end Wimi
