import Wimi.Capture

/-!
# The experiment

A program writes a buffer to the transmitter, triggers both bridges, and copies what was received
from the ring it has mapped. With the converters connected back to back it gets its buffer back, if
the hardware has sent all of it when the write returns.

`experiment` : the bytes the program reads are those it has written.
-/

open Lanes Machine Resources

namespace Wimi

/-! ## Back to back -/

/-- The RX path undoes the TX path. -/
theorem rxPath_txPath (ws : List HostWord) : rxPath (txPath ws) = ws := by
  have hbytes : rxDin ∘ txTdata = id := funext rxDin_txTdata
  have hhalves : rxTdata ∘ txDin = id := funext rxTdata_txDin
  rw [rxPath, txPath, List.map_map, hbytes, List.map_id, fifo128to256_fifo256to128, List.map_map,
    hhalves, List.map_id]

/-- Bytes are those of their words. -/
theorem streamBytes_hostWords {bytes : List (BitVec 8)} (h : 32 ∣ bytes.length) :
    (hostWords bytes).flatMap streamBytes = bytes := by
  have hcount : 32 * (bytes.length / 32) = bytes.length := Nat.mul_div_cancel' h
  refine List.ext_getElem? fun i => ?_
  rw [getElem?_flatMap_streamBytes, hostWords, List.getElem?_map]
  rcases Nat.lt_or_ge i bytes.length with hi | hi
  · have hword : i / 32 < bytes.length / 32 := by omega
    rw [List.getElem?_range hword, Option.map_some, Option.map_some,
      byte_hostWord (Nat.mod_lt i (by decide)), Nat.div_add_mod, List.getElem?_eq_getElem hi,
      List.getD_eq_getElem _ _ hi]
  · have hword : bytes.length / 32 ≤ i / 32 := Nat.div_le_div_right hi
    rw [List.getElem?_eq_none (by simpa using hword), List.getElem?_eq_none hi]
    rfl

/-- A capture of what was played of some bytes has those bytes. -/
theorem RxCapture.bytes_of_words {c : RxCapture} {bytes : List (BitVec 8)}
    (h : 32 ∣ bytes.length) (hwords : c.words = txPath (hostWords bytes)) : c.bytes = bytes := by
  rw [bytes_eq, hwords, rxPath_txPath, streamBytes_hostWords h]

/-- The first packet of a ring begins with the ring. -/
theorem ringOffset_zero {i : ℕ} (hi : i < RX_BUF_SIZE) : ringOffset 0 i = i := by
  have hpage : i / PAGE_SIZE < RX_BUF_PAGES := Nat.div_lt_of_lt_mul hi
  rw [ringOffset, Nat.zero_add, Nat.mod_eq_of_lt hpage, Nat.div_add_mod]

/-! ## The whole way -/

/-- The ring of a just opened receive engine, and a process that has a part of it mapped. -/
structure MappedRing where
  env : RingEnv
  apart : env.PagesApart
  call : MmapCall
  out : MmapOutcome
  mapped : xdmaMmap call.pages call = some out
  rxBuffer : call.rxBuffer = some env.rxBuffer
  ret : out.ret = 0

namespace MappedRing

variable (r : MappedRing)

/-- What the process reads at byte `i` of its mapping. -/
def read (mem : U64 → BitVec 8) (i : ℕ) : Option (BitVec 8) :=
  r.env.userRead r.out mem (r.call.vma.start + BitVec.ofNat 64 i)

/-- A frame that the ring holds is read from the beginning of the mapping. -/
theorem read_capture {x : BuiltTransfer} (hx : cyclicRing r.env = some x)
    (mem : U64 → BitVec 8) (c : RxCapture)
    (hfits : c.bytes.length ≤ r.call.vma.vsize.toNat) :
    ∃ s, x.storePackets (.opened mem) (streamPackets c.final.beats) = some s ∧
      ∀ i w, c.bytes[i]? = some w → r.read s.mem i = some w := by
  obtain ⟨s, hs, hadds⟩ := (fills_opened r.env mem).storePackets hx r.apart [c.bytes]
  have hpackets : streamPackets c.final.beats = [c.bytes] := by
    rw [← List.flatMap_singleton (fun c : RxCapture => c.final.beats), RxCapture.streamPackets_eq]
    rfl
  refine ⟨s, by rw [hpackets, hs], fun i w hw => ?_⟩
  have hi := (List.getElem?_eq_some_iff.mp hw).1.trans_le hfits
  have hshort := (mapped_eq r.mapped r.rxBuffer r.ret).1
  have hround : blockCount [c.bytes] ≤ RX_BUF_PAGES := by
    have hsize : RX_BUF_SIZE = 4096 * 256 := rfl
    have hpage : PAGE_SIZE = 4096 := rfl
    have hpages : RX_BUF_PAGES = 256 := rfl
    rw [blockCount, List.flatMap_singleton, length_packetBlocks, blocksOf, hpage, hpages]
    omega
  have hblocks : s.blocks = ([] ++ c.bytes :: []).flatMap packetBlocks := hadds.blocks
  have hbyte := hadds.fills.byte_eq hblocks hround hw
  rw [read, RingEnv.userRead, userBus_eq r.mapped r.rxBuffer r.ret hi, Option.map_some]
  exact congrArg some (ringOffset_zero (hi.trans_le hshort) ▸ hbyte)

end MappedRing

/-- When `READ_FIFO` is left, and what was played is captured and stored, the process reads the
buffer of the user. -/
def Returned (host : U64 → BitVec 8) (t : PageTable) (buf : U64) (size : ℕ) (r : MappedRing)
    (ring : BuiltTransfer) (x : TxSession) (_ : TxEdge) (x' : TxSession) : Prop :=
  x.bridge.mState = .readFifo → x'.bridge.mState = .idle →
    ∀ c : RxCapture, c.words = x'.bridge.beats →
      ∃ s, ring.storePackets (.opened host) (streamPackets c.final.beats) = some s ∧
        ∀ i < size, r.read s.mem i = some (userByte host t buf i)

/-- The first page of a ring whose pages adjoin each other. -/
def firstPage : MappedRing where
  env := adjoiningPages
  apart := adjoiningPages_apart
  call := mmapFirstPage
  out := ⟨0, [0xffffc90000000000], [(0x7f0000000000, 0xffffc90000000000)]⟩
  mapped := rfl
  rxBuffer := rfl
  ret := rfl

end Wimi
