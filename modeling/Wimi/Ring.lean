import Wimi.Kernel

/-!
# The receive ring of a streaming engine

The hardware writes an `xdma_result` for each block of the ring it has filled.
`engine_ring_process` moves `rx_tail` over new results and counts the packets that end there,
and `complete_cyclic` takes the results of a packet from `rx_head` on. The hardware may write
between any two turns of these loops, so each is given by its turn.
-/

namespace Wimi

def RX_BUF_BLOCK : U32 := 4096
def RX_BUF_PAGES : ℕ := 256
def RX_BUF_SIZE : ℕ := RX_BUF_PAGES * RX_BUF_BLOCK.toNat
def C2H_WB : U32 := 0x52B4
def RX_STATUS_EOP : U32 := 1

/-- An `xdma_result`. -/
structure XdmaResult where
  status : U32
  length : U32
  deriving DecidableEq

/-- The block is the last of its packet. -/
def XdmaResult.eop (r : XdmaResult) : Bool :=
  r.status &&& RX_STATUS_EOP ≠ 0

/-- The part of an `xdma_engine` that is about its ring, with the result buffer. -/
structure RxRing where
  result : ℕ → XdmaResult
  rxHead : ℕ
  rxTail : ℕ
  rxOverrun : Bool
  eopFound : Bool

/-- Overwrite result `i`. -/
def RxRing.set (ring : RxRing) (i : ℕ) (r : XdmaResult) : RxRing :=
  { ring with result := Function.update ring.result i r }

/-- The ring as `cyclic_transfer_setup` leaves it, with a zeroed result buffer. -/
def RxRing.setup : RxRing :=
  ⟨fun _ => ⟨0, 0⟩, 0, 0, false, false⟩

/-- One turn of the loop of `engine_ring_process` : the ring and `eop_count` behind it; none
is the end of the loop. -/
def engineRingTurn (ring : RxRing) (eopCount : ℕ) : Option (RxRing × ℕ) :=
  let r := ring.result ring.rxTail
  if r.status ≠ 0 ∧ ¬ ring.rxOverrun then
    let rxTail := (ring.rxTail + 1) % RX_BUF_PAGES
    some ({ ring with
      rxTail := rxTail
      rxOverrun := if rxTail = ring.rxHead then true else ring.rxOverrun },
      if r.eop then eopCount + 1 else eopCount)
  else none

/-- The locals of `complete_cyclic`. -/
structure Completion where
  head : ℕ
  pktLength : U32
  fault : Bool
  eop : Bool
  deriving DecidableEq

/-- `complete_cyclic` when it has taken the lock. -/
def Completion.start (ring : RxRing) : Completion :=
  ⟨ring.rxHead, 0, false, false⟩

/-- `complete_cyclic` goes by one result. -/
def Completion.add (c : Completion) (r : XdmaResult) : Completion :=
  if r.status >>> 16 ≠ C2H_WB then { c with fault := true }
  else if r.length > RX_BUF_BLOCK then { c with fault := true }
  else if r.length = 0 then { c with fault := true }
  else { c with pktLength := c.pktLength + r.length, eop := r.eop || c.eop }

/-- Clear the result at the head of the ring and step over it. -/
def RxRing.clearHead (ring : RxRing) : RxRing :=
  { ring.set ring.rxHead ⟨0, 0⟩ with rxHead := (ring.rxHead + 1) % RX_BUF_PAGES }

/-- One turn of the loop of `complete_cyclic`; none is its end at an unwritten result. -/
def completeTurn (ring : RxRing) (c : Completion) : Option (RxRing × Completion) :=
  let r := ring.result ring.rxHead
  if r.status ≠ 0 then some (ring.clearHead, c.add r) else none

/-- The loop is left after this turn. -/
def Completion.Stops (c : Completion) : Prop :=
  c.fault ∨ c.eop

instance (c : Completion) : Decidable c.Stops :=
  inferInstanceAs (Decidable (_ ∨ _))

/-- What `complete_cyclic` passes to `copy_cyclic_to_user`, if it calls it. -/
def Completion.copied (c : Completion) : Option (ℕ × ℤ) :=
  if ¬ c.fault ∧ c.eop then some (c.head, c.pktLength.toInt) else none

/-- What `complete_cyclic` returns, once the user has its packet. -/
def Completion.rc (c : Completion) : ℤ :=
  if c.fault then -Errno.eio.code
  else if c.eop then c.pktLength.toInt
  else 0

end Wimi
