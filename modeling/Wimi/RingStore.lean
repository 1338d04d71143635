import Wimi.CyclicLayout
import Wimi.Lib.Pages
import Wimi.PacketCopy

/-!
# Storing packets in the ring

The hardware of a receive engine behind the descriptors of `cyclic_transfer_setup`. It stores a
packet block by block, one descriptor filled before it goes on to the next, and begins a packet in a
new one. Of each block it writes a result, with its magic number, to the address in the descriptor.

`stores_packets` : the memory behind any packets has every block of the last round on its page, and
`complete_cyclic`, which reads the results from there, takes the packets as they came.
-/

namespace Wimi

/-! ## What an engine stores -/

/-- A block of a packet, the last of it or not. -/
structure Block where
  bytes : List U8
  eop : Bool

/-- The memory of the host, with the blocks an engine has stored in it since it was started. -/
structure RingFill where
  mem : U64 → U8
  blocks : List Block

/-- Nothing is stored yet. -/
def RingFill.opened (mem : U64 → U8) : RingFill :=
  ⟨mem, []⟩

/-- The result of a block. -/
def Block.result (b : Block) : XdmaResult :=
  ⟨C2H_WB <<< 16 ||| (if b.eop then RX_STATUS_EOP else 0), BitVec.ofNat 32 b.bytes.length⟩

/-- A result as it is in memory, without the reserved words. -/
def XdmaResult.bytes (r : XdmaResult) : List U8 :=
  wordBytes r.status ++ wordBytes r.length

namespace BuiltTransfer

variable (x : BuiltTransfer)

/-- The descriptor the engine comes to next. -/
def current (s : RingFill) : Option ℕ := do
  let ks ← x.visits (s.blocks.length + 1)
  ks[s.blocks.length]?

/-- The engine fills descriptor `k`, or a part of it at the end of a packet, writes the result, and
goes on. -/
def storeBlock (k : ℕ) (b : Block) (s : RingFill) : RingFill where
  mem := Moves.move id (b.result.bytes.zip (Chain.cover ((x.descVirt k).epAddr false) resultSize))
    (Moves.move id (b.bytes.zip (x.hostBytes false k)) s.mem)
  blocks := s.blocks ++ [b]

/-- The engine stores a packet. The fuel bounds the descriptors it takes. -/
def storePacket : ℕ → RingFill → List U8 → Option RingFill
  | _, s, [] => some s
  | 0, _, _ :: _ => none
  | fuel + 1, s, b :: bytes => do
    let k ← x.current s
    let n := (x.descVirt k).bytes.toNat
    let rest := (b :: bytes).drop n
    storePacket fuel (x.storeBlock k ⟨(b :: bytes).take n, rest.isEmpty⟩ s) rest

/-- The engine stores packets as they come. Every descriptor takes a byte at least. -/
def storePackets (s : RingFill) (packets : List (List U8)) : Option RingFill :=
  packets.foldlM (fun s p => x.storePacket p.length s p) s

end BuiltTransfer

/-! ## The blocks of a packet -/

/-- How many blocks some bytes take. -/
def blocksOf (length : ℕ) : ℕ :=
  (length + (PAGE_SIZE - 1)) / PAGE_SIZE

/-- The blocks of a packet, all full but the last. -/
def packetBlocks (p : List U8) : List Block :=
  (List.range (blocksOf p.length)).map fun j =>
    ⟨(p.drop (PAGE_SIZE * j)).take PAGE_SIZE, j + 1 = blocksOf p.length⟩

@[simp] theorem packetBlocks_nil : packetBlocks [] = [] :=
  rfl

@[simp] theorem length_packetBlocks (p : List U8) :
    (packetBlocks p).length = blocksOf p.length := by
  rw [packetBlocks, List.length_map, List.length_range]

theorem blocksOf_eq {n : ℕ} (hn : 0 < n) : blocksOf n = blocksOf (n - PAGE_SIZE) + 1 := by
  have hpage : PAGE_SIZE = 4096 := rfl
  rw [blocksOf, blocksOf, hpage]
  omega

/-- The last block begins before the end, and ends behind it. -/
theorem blocksOf_bounds (n : ℕ) : n ≤ PAGE_SIZE * blocksOf n ∧
    ∀ k < blocksOf n, PAGE_SIZE * k < n ∧ (k + 1 < blocksOf n → PAGE_SIZE * (k + 1) ≤ n) := by
  have hpage : PAGE_SIZE = 4096 := rfl
  rw [blocksOf, hpage]
  exact ⟨by omega, fun k hk => ⟨by omega, by omega⟩⟩

/-- The first block of a packet, and those of the rest. -/
theorem packetBlocks_eq {p : List U8} (hp : p ≠ []) :
    packetBlocks p =
      ⟨p.take PAGE_SIZE, (p.drop PAGE_SIZE).isEmpty⟩ :: packetBlocks (p.drop PAGE_SIZE) := by
  have hcount := blocksOf_eq (List.length_pos_iff.mpr hp)
  rw [← List.length_drop] at hcount
  have hlast : decide (0 + 1 = blocksOf p.length) = (p.drop PAGE_SIZE).isEmpty := by
    have hpage : PAGE_SIZE = 4096 := rfl
    rw [Bool.eq_iff_iff, decide_eq_true_iff, List.isEmpty_iff, ← List.length_eq_zero_iff, hcount,
      blocksOf, hpage]
    omega
  rw [packetBlocks, packetBlocks, ← hlast, hcount, List.range_succ_eq_map, List.map_cons,
    List.map_map, Nat.mul_zero, List.drop_zero]
  refine congrArg _ (List.map_congr_left fun j _ => ?_)
  rw [Function.comp_apply, Nat.succ_eq_add_one, List.drop_drop, Nat.mul_succ, Nat.add_comm]
  exact congrArg _ (decide_eq_decide.mpr Nat.add_right_cancel_iff)

/-- The block a byte of a packet is in, and its place there. -/
theorem packetBlocks_byte {p : List U8} {i : ℕ} {w : U8} (hw : p[i]? = some w) :
    ∃ b, (packetBlocks p)[i / PAGE_SIZE]? = some b ∧ b.bytes[i % PAGE_SIZE]? = some w := by
  have hi := (List.getElem?_eq_some_iff.mp hw).1
  have hpage : PAGE_SIZE = 4096 := rfl
  have hin : i / PAGE_SIZE < blocksOf p.length := by
    rw [blocksOf, hpage]
    omega
  refine ⟨_, by rw [packetBlocks, List.getElem?_map, List.getElem?_range hin, Option.map_some], ?_⟩
  rw [List.getElem?_take_of_lt (Nat.mod_lt _ (by decide)), List.getElem?_drop, Nat.div_add_mod, hw]

/-- What the blocks of a packet are. -/
theorem packetBlocks_get {p : List U8} {k : ℕ} {b : Block} (hb : (packetBlocks p)[k]? = some b) :
    k < blocksOf p.length ∧ b.bytes.length = min PAGE_SIZE (p.length - PAGE_SIZE * k) ∧
      b.eop = decide (k + 1 = blocksOf p.length) := by
  have hk := (List.getElem?_eq_some_iff.mp hb).1
  rw [length_packetBlocks] at hk
  rw [packetBlocks, List.getElem?_map, List.getElem?_range hk, Option.map_some] at hb
  obtain rfl := Option.some.inj hb
  exact ⟨hk, by rw [List.length_take, List.length_drop], rfl⟩

/-! ## Results -/

section Results

variable {b : Block}

theorem eop_result (b : Block) : b.result.eop = b.eop := by
  have hflag : ∀ eop : Bool, decide ((C2H_WB <<< 16 ||| (if eop then RX_STATUS_EOP else 0)) &&&
      RX_STATUS_EOP ≠ 0) = eop := by
    decide
  exact hflag b.eop

theorem toNat_length_result (hlen : b.bytes.length ≤ PAGE_SIZE) :
    b.result.length.toNat = b.bytes.length := by
  have hpage : PAGE_SIZE = 4096 := rfl
  rw [Block.result, BitVec.toNat_ofNat]
  exact Nat.mod_eq_of_lt (by omega)

/-- The result of a block that is not empty is as the driver expects it. -/
theorem valid_result (hpos : 0 < b.bytes.length) (hlen : b.bytes.length ≤ PAGE_SIZE) :
    b.result.Valid := by
  have hmagic : ∀ eop : Bool, (C2H_WB <<< 16 ||| (if eop then RX_STATUS_EOP else 0)) >>> 16 =
      C2H_WB := by
    decide
  refine ⟨hmagic b.eop, ?_, ?_⟩ <;> rw [BitVec.le_def, toNat_length_result hlen]
  · exact hpos
  · exact hlen

/-- The word of four bytes, the lowest first. -/
def wordOf (f : ℕ → U8) : U32 :=
  f 3 ++ f 2 ++ f 1 ++ f 0

/-- A word is put together from its bytes again. -/
theorem wordOf_eq {w : U32} {f : ℕ → U8} (h : ∀ i < 4, f i = (w >>> (8 * i)).setWidth 8) :
    wordOf f = w := by
  refine BitVec.eq_of_getLsbD_eq fun i hi => ?_
  rw [wordOf, h 0 (by decide), h 1 (by decide), h 2 (by decide), h 3 (by decide)]
  simp only [BitVec.getLsbD_append, BitVec.getLsbD_setWidth, BitVec.getLsbD_ushiftRight]
  split_ifs <;> simp <;> grind

theorem wordOf_congr {f g : ℕ → U8} (h : ∀ i < 4, f i = g i) : wordOf f = wordOf g := by
  rw [wordOf, wordOf, h 0 (by decide), h 1 (by decide), h 2 (by decide), h 3 (by decide)]

theorem length_resultBytes (r : XdmaResult) : r.bytes.length = 8 :=
  rfl

/-- The bytes of a result, by their places. -/
theorem resultBytes_get (r : XdmaResult) {i : ℕ} (hi : i < 4) :
    r.bytes[i]? = some ((r.status >>> (8 * i)).setWidth 8) ∧
      r.bytes[4 + i]? = some ((r.length >>> (8 * i)).setWidth 8) := by
  interval_cases i <;> exact ⟨rfl, rfl⟩

end Results

/-! ## The memory of the ring -/

section Memory

variable (env : RingEnv)

/-- Byte `i` of page `p` of `rx_buffer`, where it is mapped. -/
def RingEnv.byte (p i : ℕ) : U64 :=
  env.bus p + BitVec.ofNat 64 i

/-- Byte `i` of result `k`. -/
def RingEnv.resultByte (k i : ℕ) : U64 :=
  env.resultBus + BitVec.ofNat 64 (resultSize * k) + BitVec.ofNat 64 i

/-- Result `k`, as the driver reads it. -/
def RingEnv.result (mem : U64 → U8) (k : ℕ) : XdmaResult :=
  ⟨wordOf fun i => mem (env.resultByte k i), wordOf fun i => mem (env.resultByte k (4 + i))⟩

/-- The pages of `rx_buffer` and the result buffer are mapped apart. -/
structure RingEnv.PagesApart : Prop where
  pages : Pages.Apart RX_BUF_PAGES PAGE_SIZE env.byte
  results : ∀ p < RX_BUF_PAGES, ∀ i < PAGE_SIZE, ∀ k < RX_BUF_PAGES, ∀ j < resultSize,
    env.byte p i ≠ env.resultByte k j

/-- No byte is in two results. -/
theorem RingEnv.resultsApart : Pages.Apart RX_BUF_PAGES resultSize env.resultByte := by
  intro k hk l hl i hi j hj heq
  have hsize : resultSize = 32 := rfl
  have hpages : RX_BUF_PAGES = 256 := rfl
  rw [hpages] at hk hl
  rw [hsize] at hi hj
  simp only [RingEnv.resultByte, BitVec.add_assoc, ← BitVec.ofNat_add, hsize] at heq
  have hsame := congrArg BitVec.toNat ((BitVec.add_right_inj _).mp heq)
  rw [BitVec.toNat_ofNat, BitVec.toNat_ofNat] at hsame
  omega

/-- Byte `o` of `rx_buffer`, where it is mapped. -/
def RingEnv.place (o : ℕ) : U64 :=
  env.byte (o / PAGE_SIZE) (o % PAGE_SIZE)

variable {env}

/-- The memory has the blocks and the results of the last round, and is as at the start off the
pages of `rx_buffer` and the result buffer. -/
structure RingEnv.Fills (env : RingEnv) (start : U64 → U8) (s : RingFill) : Prop where
  bytes : Pages.Shows RX_BUF_PAGES PAGE_SIZE env.byte start s.mem (s.blocks.map Block.bytes)
  results : Pages.Shows RX_BUF_PAGES resultSize env.resultByte start s.mem
    (s.blocks.map fun b => b.result.bytes)
  frame : ∀ a, (∀ p < RX_BUF_PAGES, ∀ i < PAGE_SIZE, env.byte p i ≠ a) →
    (∀ k < RX_BUF_PAGES, ∀ i < resultSize, env.resultByte k i ≠ a) → s.mem a = start a

theorem fills_opened (env : RingEnv) (mem : U64 → U8) : env.Fills mem (.opened mem) :=
  ⟨Pages.shows_nil mem, Pages.shows_nil mem, fun _ _ _ => rfl⟩

variable {x : BuiltTransfer} {start : U64 → U8} {s : RingFill}

/-- The descriptor the engine comes to is that of the page behind those it has used. -/
theorem current_eq (hx : cyclicRing env = some x) (s : RingFill) :
    x.current s = some (s.blocks.length % RX_BUF_PAGES) := by
  rw [BuiltTransfer.current, (isRing_of_cyclicRing hx).visits, Option.bind_eq_bind,
    Option.bind_some, List.getElem?_map, List.getElem?_range (Nat.lt_succ_self _), Option.map_some]

/-- A block is put on its page, and its result in its place. -/
theorem storeBlock_eq (hx : cyclicRing env = some x) (b : Block) (s : RingFill) :
    x.storeBlock (s.blocks.length % RX_BUF_PAGES) b s =
      ⟨Pages.put resultSize env.resultByte (s.blocks.length % RX_BUF_PAGES) b.result.bytes
        (Pages.put PAGE_SIZE env.byte (s.blocks.length % RX_BUF_PAGES) b.bytes s.mem),
        s.blocks ++ [b]⟩ := by
  have hring := isRing_of_cyclicRing hx
  have hk : s.blocks.length % RX_BUF_PAGES < RX_BUF_PAGES := Nat.mod_lt _ (by decide)
  rw [BuiltTransfer.storeBlock, hring.host _ hk, hring.result _ hk]
  rfl

/-- A block more. -/
theorem RingEnv.Fills.storeBlock (h : env.Fills start s) (hx : cyclicRing env = some x)
    (hapart : env.PagesApart) {b : Block} (hlen : b.bytes.length ≤ PAGE_SIZE) :
    env.Fills start (x.storeBlock (s.blocks.length % RX_BUF_PAGES) b s) := by
  have hpages : 0 < RX_BUF_PAGES := by decide
  have hk : s.blocks.length % RX_BUF_PAGES < RX_BUF_PAGES := Nat.mod_lt _ hpages
  have hresult : b.result.bytes.length ≤ resultSize := by
    rw [length_resultBytes]
    decide
  rw [storeBlock_eq hx]
  refine ⟨?_, ?_, fun a hbytes hresults => ?_⟩
  · rw [List.map_append, List.map_singleton]
    have hput := h.bytes.put hapart.pages hpages hlen
    rw [List.length_map] at hput
    exact hput.congr fun p hp i hi =>
      Pages.put_of_ne fun j hj heq => hapart.results p hp i hi _ hk j hj heq.symm
  · rw [List.map_append, List.map_singleton]
    have hbefore := h.results.congr fun k' hk' j hj =>
      @Pages.put_of_ne _ _ PAGE_SIZE env.byte _ _ b.bytes s.mem _ fun i hi =>
        hapart.results _ hk i hi k' hk' j hj
    have hput := hbefore.put env.resultsApart hpages hresult
    rwa [List.length_map] at hput
  · exact (Pages.put_of_ne (hresults _ hk)).trans
      ((Pages.put_of_ne (hbytes _ hk)).trans (h.frame a hbytes hresults))

/-- What is in the ring behind some packets more. -/
structure RingEnv.Adds (env : RingEnv) (start : U64 → U8) (s : RingFill)
    (packets : List (List U8)) (s' : RingFill) : Prop where
  fills : env.Fills start s'
  blocks : s'.blocks = s.blocks ++ packets.flatMap packetBlocks

/-- A packet more. -/
theorem RingEnv.Fills.storePacket (h : env.Fills start s) (hx : cyclicRing env = some x)
    (hapart : env.PagesApart) {p : List U8} {fuel : ℕ} (hfuel : p.length ≤ fuel) :
    ∃ s', x.storePacket fuel s p = some s' ∧ env.Adds start s [p] s' := by
  induction fuel generalizing s p with
  | zero =>
    obtain rfl := List.eq_nil_of_length_eq_zero (Nat.le_zero.mp hfuel)
    exact ⟨s, rfl, h, by simp⟩
  | succ fuel ih =>
    cases p with
    | nil => exact ⟨s, rfl, h, by simp⟩
    | cons b bytes =>
      have hsize : (x.descVirt (s.blocks.length % RX_BUF_PAGES)).bytes.toNat = PAGE_SIZE :=
        congrArg BitVec.toNat ((isRing_of_cyclicRing hx).bytes _ (Nat.mod_lt _ (by decide)))
      have hrest : ((b :: bytes).drop PAGE_SIZE).length ≤ fuel := by
        have hpage : PAGE_SIZE = 4096 := rfl
        rw [List.length_drop, hpage]
        omega
      have hblock := h.storeBlock hx hapart (b := ⟨(b :: bytes).take PAGE_SIZE,
        ((b :: bytes).drop PAGE_SIZE).isEmpty⟩) (List.length_take_le PAGE_SIZE (b :: bytes))
      obtain ⟨s', hs', hadds⟩ := ih hblock hrest
      refine ⟨s', ?_, hadds.fills, ?_⟩
      · rw [BuiltTransfer.storePacket, current_eq hx, Option.bind_eq_bind, Option.bind_some]
        simp only [hsize]
        exact hs'
      · rw [hadds.blocks, List.flatMap_singleton, List.flatMap_singleton,
          packetBlocks_eq (List.cons_ne_nil b bytes), BuiltTransfer.storeBlock, List.append_assoc,
          List.singleton_append]

/-- Any packets more. -/
theorem RingEnv.Fills.storePackets (h : env.Fills start s) (hx : cyclicRing env = some x)
    (hapart : env.PagesApart) (packets : List (List U8)) :
    ∃ s', x.storePackets s packets = some s' ∧ env.Adds start s packets s' := by
  induction packets generalizing s with
  | nil => exact ⟨s, rfl, h, (List.append_nil _).symm⟩
  | cons p packets ih =>
    obtain ⟨s₁, hs₁, hadds₁⟩ := h.storePacket hx hapart (le_refl p.length)
    obtain ⟨s', hs', hadds⟩ := ih hadds₁.fills
    refine ⟨s', ?_, hadds.fills, ?_⟩
    · rw [BuiltTransfer.storePackets, List.foldlM_cons, hs₁]
      exact hs'
    · rw [hadds.blocks, hadds₁.blocks, List.flatMap_singleton, List.flatMap_cons,
        List.append_assoc]

/-- The blocks that packets take. -/
def blockCount (packets : List (List U8)) : ℕ :=
  (packets.flatMap packetBlocks).length

/-- Where in `rx_buffer` byte `i` of a packet is, with `used` blocks before it. -/
def ringOffset (used i : ℕ) : ℕ :=
  PAGE_SIZE * ((used + i / PAGE_SIZE) % RX_BUF_PAGES) + i % PAGE_SIZE

theorem place_ringOffset (used i : ℕ) : env.place (ringOffset used i) =
    env.byte ((used + i / PAGE_SIZE) % RX_BUF_PAGES) (i % PAGE_SIZE) := by
  have hpage : 0 < PAGE_SIZE := by decide
  have hlt := Nat.mod_lt i hpage
  rw [RingEnv.place, ringOffset, Nat.mul_add_div hpage, Nat.div_eq_of_lt hlt, Nat.add_zero,
    Nat.mul_add_mod, Nat.mod_eq_of_lt hlt]

section Packet

variable {pre post : List (List U8)} {p : List U8}

/-- A block of a packet of the last round is one of the last blocks stored. -/
theorem block_at (hblocks : s.blocks = (pre ++ p :: post).flatMap packetBlocks)
    (hround : blockCount (p :: post) ≤ RX_BUF_PAGES) {k : ℕ} {b : Block}
    (hb : (packetBlocks p)[k]? = some b) :
    s.blocks[blockCount pre + k]? = some b ∧
      s.blocks.length ≤ blockCount pre + k + RX_BUF_PAGES := by
  have hin := (List.getElem?_eq_some_iff.mp hb).1
  rw [List.flatMap_append] at hblocks
  have hlength : s.blocks.length = blockCount pre + blockCount (p :: post) := by
    rw [hblocks, List.length_append, blockCount, blockCount]
  refine ⟨?_, by omega⟩
  rw [hblocks, blockCount, List.getElem?_append_right (Nat.le_add_right _ _),
    Nat.add_sub_cancel_left, List.flatMap_cons, List.getElem?_append_left hin, hb]

/-- The byte of a packet that was stored less than a round ago. -/
theorem RingEnv.Fills.byte_eq (h : env.Fills start s)
    (hblocks : s.blocks = (pre ++ p :: post).flatMap packetBlocks)
    (hround : blockCount (p :: post) ≤ RX_BUF_PAGES) {i : ℕ} {w : U8} (hw : p[i]? = some w) :
    s.mem (env.place (ringOffset (blockCount pre) i)) = w := by
  obtain ⟨b, hb, hbyte⟩ := packetBlocks_byte hw
  obtain ⟨hget, hlast⟩ := block_at hblocks hround hb
  rw [place_ringOffset]
  refine h.bytes.block _ b.bytes ?_ (by rwa [List.length_map]) _ w hbyte
  rw [List.getElem?_map, hget, Option.map_some]

/-- The result of a block of such a packet. -/
theorem RingEnv.Fills.result_eq (h : env.Fills start s)
    (hblocks : s.blocks = (pre ++ p :: post).flatMap packetBlocks)
    (hround : blockCount (p :: post) ≤ RX_BUF_PAGES) {k : ℕ} {b : Block}
    (hb : (packetBlocks p)[k]? = some b) :
    env.result s.mem ((blockCount pre + k) % RX_BUF_PAGES) = b.result := by
  obtain ⟨hget, hlast⟩ := block_at hblocks hround hb
  have hbyte (i : ℕ) (w : U8) (hw : b.result.bytes[i]? = some w) :
      s.mem (env.resultByte ((blockCount pre + k) % RX_BUF_PAGES) i) = w :=
    h.results.block _ b.result.bytes (by rw [List.getElem?_map, hget, Option.map_some])
      (by rwa [List.length_map]) i w hw
  have hstatus := wordOf_eq fun i hi => hbyte i _ (resultBytes_get b.result hi).1
  have hlength := wordOf_eq fun i hi => hbyte (4 + i) _ (resultBytes_get b.result hi).2
  rw [RingEnv.result, hstatus, hlength]

end Packet

/-! ## What the driver takes -/

section Driver

variable {ring : RxRing} {p : List U8}

/-- The ring has the results of the packet from its head on. -/
def RxRing.Starts (ring : RxRing) (p : List U8) : Prop :=
  ∀ k b, (packetBlocks p)[k]? = some b → ring.block k = b.result

/-- The blocks of the packet, as the driver finds them. -/
theorem RxRing.Starts.block (h : ring.Starts p) {k : ℕ} (hk : k < blocksOf p.length) :
    (ring.block k).Valid ∧ ((ring.block k).eop = true ↔ k + 1 = blocksOf p.length) ∧
      (ring.block k).length.toNat = min PAGE_SIZE (p.length - PAGE_SIZE * k) := by
  obtain ⟨b, hb⟩ : ∃ b, (packetBlocks p)[k]? = some b :=
    ⟨_, List.getElem?_eq_getElem ((length_packetBlocks p).symm ▸ hk)⟩
  obtain ⟨-, hlen, heop⟩ := packetBlocks_get hb
  have hpage : 0 < PAGE_SIZE := by decide
  have hpos := ((blocksOf_bounds p.length).2 k hk).1
  have hle : b.bytes.length ≤ PAGE_SIZE := hlen ▸ min_le_left _ _
  rw [h k b hb, eop_result, heop, decide_eq_true_iff, toNat_length_result hle]
  exact ⟨valid_result (by omega) hle, Iff.rfl, hlen⟩

/-- As many bytes as the first blocks of the packet have. -/
theorem RxRing.Starts.pktLength (h : ring.Starts p) {k : ℕ} (hk : k ≤ blocksOf p.length) :
    ring.pktLength k = min (PAGE_SIZE * k) p.length := by
  induction k with
  | zero => exact (Nat.zero_min _).symm
  | succ k ih =>
    rw [RxRing.pktLength_succ, ih (Nat.le_of_succ_le hk), (h.block hk).2.2, Nat.mul_succ]
    omega

/-- The driver finds a packet without a fault, of the length of the packet. -/
theorem RxRing.Starts.faultFree (h : ring.Starts p) (hp : p ≠ [])
    (hhead : ring.rxHead < RX_BUF_PAGES) (hfits : blocksOf p.length ≤ RX_BUF_PAGES) :
    FaultFreePacket ring (blocksOf p.length) ∧
      ring.pktLength (blocksOf p.length) = p.length := by
  obtain ⟨hend, hbounds⟩ := blocksOf_bounds p.length
  have hlength : ring.pktLength (blocksOf p.length) = p.length := by
    rw [h.pktLength le_rfl, min_eq_right hend]
  have hpos : 0 < blocksOf p.length := by
    rw [blocksOf_eq (List.length_pos_iff.mpr hp)]
    exact Nat.succ_pos _
  refine ⟨⟨hhead, hpos, fun k hk => (h.block hk).1, fun k hk => (h.block hk).2.1,
    fun k hk => ?_, ?_⟩, hlength⟩
  · have hfull := (hbounds k (Nat.lt_of_succ_lt hk)).2 hk
    have hlen := (h.block (Nat.lt_of_succ_lt hk)).2.2
    rw [Nat.mul_succ] at hfull
    refine BitVec.eq_of_toNat_eq (hlen.trans ?_)
    rw [min_eq_left (by omega)]
    rfl
  · rw [hlength]
    exact hend.trans (Nat.mul_comm _ _ ▸ Nat.mul_le_mul_right _ hfits)

end Driver

/-- A packet behind `used` blocks is in the ring : its bytes are on its pages, in order, and with
`rx_head` at its first block and the results of its blocks read from the memory, `complete_cyclic`
goes by exactly these, without a fault, and has their head and the length of the packet. -/
structure RingEnv.Holds (env : RingEnv) (mem : U64 → U8) (used : ℕ) (p : List U8) : Prop where
  bytes : ∀ i w, p[i]? = some w → mem (env.place (ringOffset used i)) = w
  taken : ∀ ring : RxRing, ring.rxHead = used % RX_BUF_PAGES →
    (∀ k < blocksOf p.length, ring.result ((used + k) % RX_BUF_PAGES) =
      env.result mem ((used + k) % RX_BUF_PAGES)) →
    (completeLoop RX_BUF_PAGES ring (.start ring)).2 =
      ⟨used % RX_BUF_PAGES, BitVec.ofNat 32 p.length, false, true⟩

/-- The packets of the last round are in the ring. -/
theorem RingEnv.Fills.holds (h : env.Fills start s) {pre post : List (List U8)} {p : List U8}
    (hblocks : s.blocks = (pre ++ p :: post).flatMap packetBlocks)
    (hround : blockCount (p :: post) ≤ RX_BUF_PAGES) (hp : p ≠ []) :
    env.Holds s.mem (blockCount pre) p where
  bytes _ _ hw := h.byte_eq hblocks hround hw
  taken ring hhead hresults := by
    have hfits : blocksOf p.length ≤ RX_BUF_PAGES := by
      refine le_trans ?_ hround
      rw [blockCount, List.flatMap_cons, List.length_append, length_packetBlocks]
      exact Nat.le_add_right _ _
    have hstarts : ring.Starts p := fun k b hb => by
      rw [RxRing.block, hhead, Nat.mod_add_mod, hresults k (packetBlocks_get hb).1,
        h.result_eq hblocks hround hb]
    have hlt : ring.rxHead < RX_BUF_PAGES := hhead ▸ Nat.mod_lt _ (by decide)
    obtain ⟨hpacket, hlength⟩ := hstarts.faultFree hp hlt hfits
    rw [hpacket.loop_start, RxRing.completionAt, hlength, hhead]

/-- What the ring holds of some packets, in a memory that was `start` : nothing but the pages of
`rx_buffer` and the result buffer has changed; the results that are not used yet are as they were;
and every packet of the last round is there. -/
structure RingEnv.Stored (env : RingEnv) (start mem : U64 → U8) (ps : List (List U8)) : Prop where
  frame : ∀ a, (∀ p < RX_BUF_PAGES, ∀ i < PAGE_SIZE, env.byte p i ≠ a) →
    (∀ k < RX_BUF_PAGES, ∀ i < resultSize, env.resultByte k i ≠ a) → mem a = start a
  unused : ∀ k < RX_BUF_PAGES, blockCount ps ≤ k → env.result mem k = env.result start k
  packets : ∀ pre p post, ps = pre ++ p :: post → blockCount (p :: post) ≤ RX_BUF_PAGES →
    env.Holds mem (blockCount pre) p

/-- The ring of a just opened engine, with pages and a result buffer that are mapped apart, whatever
packets arrive and however long they are : the engine stores them all, each from a new block on,
with a result for each block, and the driver takes them as they came. -/
theorem stores_packets (env : RingEnv) (hapart : env.PagesApart) (x : BuiltTransfer)
    (hx : cyclicRing env = some x) (mem : U64 → U8) (ps : List (List U8))
    (hne : ∀ p ∈ ps, p ≠ []) :
    ∃ s, x.storePackets (.opened mem) ps = some s ∧ env.Stored mem s.mem ps := by
  obtain ⟨s, hs, hfills, hblocks⟩ := (fills_opened env mem).storePackets hx hapart ps
  have hblocks : s.blocks = ps.flatMap packetBlocks := hblocks
  refine ⟨s, hs, hfills.frame, fun k hk hle => ?_, ?_⟩
  · have hunused (i : ℕ) (hi : i < resultSize) :
        s.mem (env.resultByte k i) = mem (env.resultByte k i) :=
      hfills.results.unused k hk (by rwa [List.length_map, hblocks]) i hi
    have hstatus := wordOf_congr fun i hi => hunused i (hi.trans (by decide))
    have hlength := wordOf_congr fun i hi =>
      hunused (4 + i) ((Nat.add_lt_add_left hi 4).trans (by decide))
    rw [RingEnv.result, RingEnv.result, hstatus, hlength]
  · rintro pre p post rfl hround
    exact hfills.holds hblocks hround (hne p (by simp))

theorem adjoiningPages_bus {p : ℕ} (hp : p < RX_BUF_PAGES) :
    adjoiningPages.bus p = 0x10000000 + BitVec.ofNat 64 (PAGE_SIZE * p) := by
  have hpage : PAGE_SIZE = 4096 := rfl
  have hpages : RX_BUF_PAGES = 256 := rfl
  have hsame : (0xffffc90000000000 + BitVec.ofNat 64 (PAGE_SIZE * p) - 0xffffc90000000000 :
      U64).toNat / PAGE_SIZE = p := by
    rw [BitVec.add_comm, BitVec.add_sub_cancel, BitVec.toNat_ofNat, hpage]
    omega
  rw [RingEnv.bus, RingEnv.page]
  simp only [adjoiningPages, Option.getD_some, hsame]

theorem adjoiningPages_apart : adjoiningPages.PagesApart := by
  have hpage : PAGE_SIZE = 4096 := rfl
  have hpages : RX_BUF_PAGES = 256 := rfl
  have hsize : resultSize = 32 := rfl
  refine ⟨fun p hp q hq i hi j hj heq => ?_, fun p hp i hi k hk j hj heq => ?_⟩
  · rw [RingEnv.byte, RingEnv.byte, adjoiningPages_bus hp, adjoiningPages_bus hq] at heq
    simp only [BitVec.add_assoc, ← BitVec.ofNat_add, hpage] at heq
    have hsame := congrArg BitVec.toNat ((BitVec.add_right_inj _).mp heq)
    rw [BitVec.toNat_ofNat, BitVec.toNat_ofNat] at hsame
    omega
  · rw [RingEnv.byte, adjoiningPages_bus hp, RingEnv.resultByte] at heq
    have hbus : adjoiningPages.resultBus = 0x40000000 := rfl
    have hlow : (0x10000000 : U64).toNat = 0x10000000 := rfl
    have hhigh : (0x40000000 : U64).toNat = 0x40000000 := rfl
    have hsame := congrArg BitVec.toNat heq
    simp only [hbus, BitVec.add_assoc, ← BitVec.ofNat_add] at hsame
    rw [BitVec.toNat_add, BitVec.toNat_add, BitVec.toNat_ofNat, BitVec.toNat_ofNat, hpage, hsize,
      hlow, hhigh] at hsame
    omega

/-- Some bytes that take two blocks. -/
def twoBlocks : List U8 :=
  List.replicate 5000 1

theorem twoBlocks_ne_nil : twoBlocks ≠ [] :=
  List.cons_ne_nil _ _

theorem blockCount_twoBlocks : blockCount [twoBlocks] = 2 := by
  rw [blockCount, List.flatMap_singleton, length_packetBlocks, twoBlocks, List.length_replicate]
  rfl

/-- A packet of two blocks, and one of a block behind it. -/
theorem stores_packets_adjoining : ∃ x s, cyclicRing adjoiningPages = some x ∧
    x.storePackets (.opened fun _ => 0) [twoBlocks, [2]] = some s ∧
      adjoiningPages.Holds s.mem 2 [2] := by
  obtain ⟨x, hx, -⟩ := cyclicRing_isRing adjoiningPages
  have hne : ∀ p ∈ [twoBlocks, [2]], p ≠ [] := by
    intro p hp
    rcases List.mem_cons.mp hp with rfl | hp
    · exact twoBlocks_ne_nil
    · obtain rfl := List.mem_singleton.mp hp
      exact List.cons_ne_nil _ _
  obtain ⟨s, hs, hstored⟩ := stores_packets adjoiningPages adjoiningPages_apart x hx
    (fun _ => 0) [twoBlocks, [2]] hne
  have hlast := hstored.packets [twoBlocks] [2] [] rfl (by decide)
  rw [blockCount_twoBlocks] at hlast
  exact ⟨x, s, hx, hs, hlast⟩

end Memory

end Wimi
