import Wimi.Playback
import Wimi.RingMmap
import Wimi.RingStore
import Wimi.RxFrame

/-!
# Capturing samples

From the lanes of the converter through `RX_AXIS` and the ring of a streaming engine to a process
that has the ring mapped.

`captured` : through its mapping, a process has the samples of a frame, each lane its byte of every
pair.
-/

open Lanes Machine Resources

namespace Wimi

/-! ## What a process has mapped -/

section Mapped

variable {env : RingEnv} {call : MmapCall} {out : MmapOutcome}

/-- The address behind address `u` of a process : that of the page inserted there, which
`vmalloc_to_page` has found for an address in `rx_buffer`. -/
def RingEnv.userBus (env : RingEnv) (out : MmapOutcome) (u : U64) : Option U64 := do
  let m ← out.mapped.find? fun m => decide ((u - m.1).toNat < PAGE_SIZE)
  let page ← env.vmallocToPage m.2
  some (env.dma page + (u - m.1))

/-- How far a byte of a mapping is behind the beginning of a page. -/
theorem sub_page (a : U64) {o k : ℕ} (hk : k ≤ o / PAGE_SIZE) (ho : o < 2 ^ 64) :
    a + BitVec.ofNat 64 o - (a + BitVec.ofNat 64 (PAGE_SIZE * k)) =
      BitVec.ofNat 64 (o - PAGE_SIZE * k) := by
  have hle : PAGE_SIZE * k ≤ o := (Nat.mul_le_mul_left _ hk).trans (Nat.mul_div_le _ _)
  obtain ⟨d, rfl⟩ := Nat.exists_eq_add_of_le hle
  rw [BitVec.ofNat_add, ← BitVec.add_assoc, Nat.add_sub_cancel_left, BitVec.add_comm,
    BitVec.add_sub_cancel]

/-- A call that goes through maps `rx_buffer` from its beginning on. -/
theorem mapped_eq (hmap : xdmaMmap call.pages call = some out)
    (hbuf : call.rxBuffer = some env.rxBuffer) (hret : out.ret = 0) :
    call.vma.vsize.toNat ≤ RX_BUF_SIZE ∧ ∀ k < call.pages,
      out.mapped[k]? = some (call.vma.start + BitVec.ofNat 64 (PAGE_SIZE * k),
        env.rxBuffer + BitVec.ofNat 64 (PAGE_SIZE * k)) := by
  obtain ⟨n, hpages, hvsize⟩ := call.vsize_eq
  rw [xdmaMmap] at hmap
  split at hmap
  · obtain rfl := Option.some.inj hmap
    exact absurd hret (Errno.neg_code_neg _).ne
  next hshort =>
  obtain ⟨out', hout', hinserts⟩ := insertPages_spec call.insertRc 0 call.vma.start
    (call.rxBuffer.getD 0) hvsize
  obtain rfl := Option.some.inj (hmap.symm.trans (hout' call.pages hpages.ge))
  have hall (k : ℕ) (hk : k ≤ n) : call.insertRc (0 + k) = 0 := by
    by_contra hrc
    exact hinserts.failed ⟨k, hk, hrc⟩ hret
  refine ⟨not_lt.mp hshort, fun k hk => ?_⟩
  rw [(hinserts.whole hall).2 k (by omega), hbuf, Option.getD_some]

/-- A byte of the mapping is that byte of `rx_buffer`, whatever the page offset is. -/
theorem userBus_eq (hmap : xdmaMmap call.pages call = some out)
    (hbuf : call.rxBuffer = some env.rxBuffer) (hret : out.ret = 0) {o : ℕ}
    (ho : o < call.vma.vsize.toNat) :
    env.userBus out (call.vma.start + BitVec.ofNat 64 o) = some (env.place o) := by
  obtain ⟨hshort, hmapped⟩ := mapped_eq hmap hbuf hret
  have hpage : 0 < PAGE_SIZE := by decide
  have hfits : o < 2 ^ 64 := ho.trans (BitVec.isLt _)
  obtain ⟨n, hpages, hvsize⟩ := call.vsize_eq
  have hk : o / PAGE_SIZE < call.pages := by
    rw [hpages]
    exact Nat.div_lt_of_lt_mul (hvsize ▸ ho)
  have hoff : o - PAGE_SIZE * (o / PAGE_SIZE) = o % PAGE_SIZE := (Nat.mod_eq_sub _ _).symm
  have hlt := Nat.mod_lt o hpage
  have hsmall (m : ℕ) (hm : m ≤ o) : (BitVec.ofNat 64 m).toNat = m := by
    rw [BitVec.toNat_ofNat]
    exact Nat.mod_eq_of_lt (hm.trans_lt hfits)
  have hfind : out.mapped.find? (fun m => decide
      ((call.vma.start + BitVec.ofNat 64 o - m.1).toNat < PAGE_SIZE)) =
      some (call.vma.start + BitVec.ofNat 64 (PAGE_SIZE * (o / PAGE_SIZE)),
        env.rxBuffer + BitVec.ofNat 64 (PAGE_SIZE * (o / PAGE_SIZE))) := by
    obtain ⟨hin, hget⟩ := List.getElem?_eq_some_iff.mp (hmapped _ hk)
    refine List.find?_eq_some_iff_getElem.mpr ⟨?_, _, hin, hget, fun j hj => ?_⟩
    · rw [sub_page _ le_rfl hfits, hoff, hsmall _ (Nat.mod_le _ _)]
      exact decide_eq_true hlt
    · obtain ⟨_, hget'⟩ := List.getElem?_eq_some_iff.mp (hmapped j (hj.trans hk))
      -- an earlier page ends before the byte
      have hnext : PAGE_SIZE * (j + 1) ≤ o :=
        (Nat.mul_le_mul_left _ hj).trans (Nat.mul_div_le _ _)
      rw [Nat.mul_succ] at hnext
      rw [hget', sub_page _ hj.le hfits, hsmall _ (Nat.sub_le _ _), Bool.not_eq_true',
        decide_eq_false_iff_not]
      omega
  have hpage' : o / PAGE_SIZE < RX_BUF_PAGES :=
    Nat.div_lt_of_lt_mul (ho.trans_le hshort)
  rw [RingEnv.userBus, hfind, Option.bind_eq_bind, Option.bind_some, env.vmallocToPage_eq hpage',
    Option.bind_eq_bind, Option.bind_some, sub_page _ le_rfl hfits, hoff]
  rfl

end Mapped

/-! ## Words and bytes -/

/-- Every other word is a low half, and every other a high one. -/
theorem fifo256to128_fifo128to256 : ∀ l : List ConvWord, l.length % 2 = 0 →
    fifo256to128 (fifo128to256 l) = l
  | [], _ => rfl
  | [_], h => by simp at h
  | a :: b :: l, h => by
    have hl : l.length % 2 = 0 := by
      rw [List.length_cons, List.length_cons] at h
      omega
    have hhigh : (a ++ b : BitVec (128 + 128)).extractLsb' 128 128 = a := by
      refine BitVec.eq_of_getLsbD_eq fun i hi => ?_
      rw [BitVec.getLsbD_extractLsb', BitVec.getLsbD_append]
      simp [hi]
    have hlow : (a ++ b : BitVec (128 + 128)).extractLsb' 0 128 = b := by
      refine BitVec.eq_of_getLsbD_eq fun i hi => ?_
      rw [BitVec.getLsbD_extractLsb', BitVec.getLsbD_append]
      simp [hi]
    rw [fifo128to256, Fifo.pairs, List.map_cons, ← fifo128to256, fifoPack,
      ← List.singleton_append, fifo256to128_append, fifo256to128_fifo128to256 l hl]
    simp [fifo256to128, hhigh, hlow]

/-- The TX path undoes the RX path on pairs of words. -/
theorem txPath_rxPath {l : List ConvWord} (h : l.length % 2 = 0) : txPath (rxPath l) = l := by
  have hbytes : txTdata ∘ rxDin = id := funext txTdata_rxDin
  have hhalves : txDin ∘ rxTdata = id := by
    funext w
    rw [Function.comp_apply, ← append_extractLsb' w, txDin, rxTdata, swapHalves_append,
      swapHalves_append, id]
  calc txPath (rxPath l)
      = (fifo256to128 ((fifo128to256 (l.map rxDin)).map (txDin ∘ rxTdata))).map txTdata := by
        rw [txPath, rxPath, List.map_map]
    _ = (l.map rxDin).map txTdata := by
        rw [hhalves, List.map_id, fifo256to128_fifo128to256 _ (by rwa [List.length_map])]
    _ = l := by
        rw [List.map_map, hbytes, List.map_id]

/-- The bytes of a word of the host stream, the lowest first. -/
def streamBytes (w : HostWord) : List (BitVec 8) :=
  (List.range 32).map fun i => w.extractLsb' (8 * i) 8

theorem length_streamBytes (w : HostWord) : (streamBytes w).length = 32 := by
  rw [streamBytes, List.length_map, List.length_range]

theorem length_flatMap_streamBytes (ws : List HostWord) :
    (ws.flatMap streamBytes).length = 32 * ws.length := by
  induction ws with
  | nil => rfl
  | cons w ws ih =>
    rw [List.flatMap_cons, List.length_append, length_streamBytes, ih, List.length_cons]
    omega

/-- The bytes of some words, each by its place. -/
theorem getElem?_flatMap_streamBytes (ws : List HostWord) (i : ℕ) :
    (ws.flatMap streamBytes)[i]? = ws[i / 32]?.map fun w => w.extractLsb' (8 * (i % 32)) 8 := by
  induction ws generalizing i with
  | nil => rfl
  | cons w ws ih =>
    rw [List.flatMap_cons]
    rcases Nat.lt_or_ge i 32 with hi | hi
    · have hfirst : i / 32 = 0 := Nat.div_eq_of_lt hi
      rw [List.getElem?_append_left (by rwa [length_streamBytes]), streamBytes, List.getElem?_map,
        List.getElem?_range hi, hfirst, Nat.mod_eq_of_lt hi]
      rfl
    · obtain ⟨d, rfl⟩ := Nat.exists_eq_add_of_le hi
      have hnext : (32 + d) / 32 = d / 32 + 1 := by omega
      rw [List.getElem?_append_right (by rwa [length_streamBytes]), length_streamBytes,
        Nat.add_sub_cancel_left, ih, hnext, List.getElem?_cons_succ, Nat.add_mod_left]

/-- Words are put together from their bytes again. -/
theorem hostWords_streamBytes (ws : List HostWord) : hostWords (ws.flatMap streamBytes) = ws := by
  have hlen : (ws.flatMap streamBytes).length / 32 = ws.length := by
    rw [length_flatMap_streamBytes, Nat.mul_div_cancel_left _ (by decide)]
  refine List.ext_getElem (by rw [hostWords, List.length_map, List.length_range, hlen])
    fun j _ hj => BitVec.eq_of_getLsbD_eq fun b hb => ?_
  have hword : (32 * j + b / 8) / 32 = j := by omega
  have hbyte : 8 * ((32 * j + b / 8) % 32) + b % 8 = b := by omega
  simp only [hostWords, List.getElem_map, List.getElem_range]
  rw [BitVec.getLsbD_ofFnLE, dif_pos hb, List.getD_eq_getElem?_getD,
    getElem?_flatMap_streamBytes, hword, List.getElem?_eq_getElem hj, Option.map_some,
    Option.getD_some, BitVec.getLsbD_extractLsb', hbyte, decide_eq_true (Nat.mod_lt b (by decide)),
    Bool.true_and]

/-! ## Frames -/

/-- The packets on the host stream. -/
def streamPackets (beats : List (HostWord × Bool)) : List (List (BitVec 8)) :=
  (Packets.closed Prod.snd [] beats).map (List.flatMap fun b => streamBytes b.1)

/-- What happens at `RX_AXIS` from a trigger on until the whole frame has left it. -/
structure RxCapture where
  numWords : BitVec 32
  edges : List RxEdge
  even : numWords.toNat % 2 = 0
  two_le : 2 ≤ numWords.toNat
  lt : numWords.toNat < 2 ^ 18
  quiet : ∀ e ∈ edges, RxQuiet numWords e
  whole : (edges.foldl rxStep (rxStart numWords)).beats.length = numWords.toNat / 2

namespace RxCapture

variable (c : RxCapture)

/-- The bridge when the frame has left it. -/
def final : RxState :=
  c.edges.foldl rxStep (rxStart c.numWords)

/-- The words of the frame, as they came from the converter. -/
def words : List ConvWord :=
  c.final.accepted.take c.numWords.toNat

/-- The bytes of the frame. -/
def bytes : List (BitVec 8) :=
  c.final.beats.flatMap fun b => streamBytes b.1

theorem inv : RxInv c.numWords c.final :=
  (rxInv_start c.numWords).run c.quiet

theorem length_words : c.words.length = c.numWords.toNat := by
  have hle := c.final.fifo.le
  have heven := c.even
  rw [c.inv.taken, c.inv.written, List.length_map, final, c.whole] at hle
  rw [words, List.length_take, min_eq_left (by rw [final]; omega)]

/-- The beats are the frame of the words. -/
theorem beats_eq : c.final.beats.map Prod.fst = rxPath c.words := by
  have heven := c.even
  have hall : 2 * c.final.beats.length = c.numWords.toNat := by
    rw [final, c.whole]
    omega
  rw [c.inv.data, hall, rxFrame_eq_rxPath, words]

/-- The frame is one packet. -/
theorem whole_beats : Packets.Whole Prod.snd c.final.beats := by
  have htwo := c.two_le
  have hlen : c.final.beats.length = c.numWords.toNat / 2 := c.whole
  refine Packets.whole_of_last_iff (List.ne_nil_of_length_pos (by omega)) fun k b hb => ?_
  obtain ⟨hk, rfl⟩ := List.getElem?_eq_some_iff.mp hb
  rw [hlen]
  exact c.inv.last_iff c.even c.two_le c.lt k hk

/-- Frames are the packets of their stream. -/
theorem streamPackets_eq (cs : List RxCapture) :
    streamPackets (cs.flatMap fun c => c.final.beats) = cs.map bytes := by
  have hwhole : ∀ p ∈ cs.map fun c => c.final.beats, Packets.Whole Prod.snd p := by
    intro p hp
    obtain ⟨c, -, rfl⟩ := List.mem_map.mp hp
    exact c.whole_beats
  rw [streamPackets, List.flatMap_def, Packets.closed_flatten hwhole, List.map_map]
  rfl

theorem bytes_eq : c.bytes = (rxPath c.words).flatMap streamBytes := by
  rw [← c.beats_eq, List.flatMap_map, bytes]

theorem length_bytes : c.bytes.length = 16 * c.numWords.toNat := by
  have heven := c.even
  have hbeats := congrArg List.length c.beats_eq
  rw [List.length_map, final, c.whole] at hbeats
  rw [bytes_eq, length_flatMap_streamBytes, ← hbeats]
  omega

/-- The lanes carried the bytes of the frame, each lane its byte of every pair, in order. -/
theorem laneBytes_words {lane : ℕ} (hlane : lane < 4) : laneBytes lane c.words =
    (List.range (4 * c.numWords.toNat)).map fun q => c.bytes.getD (4 * q + laneByte lane) 0 := by
  have heven := c.even
  have hlen := c.length_bytes
  have hdvd : 32 ∣ c.bytes.length := by omega
  have hwords : c.words = txPath (hostWords c.bytes) := by
    rw [bytes_eq, hostWords_streamBytes, txPath_rxPath (by rw [length_words, heven])]
  have hcount : c.bytes.length / 4 = 4 * c.numWords.toNat := by omega
  conv_lhs => rw [hwords]
  rw [laneBytes_txPath hdvd hlane, hcount]

end RxCapture

/-- The byte a process reads at address `u`. -/
def RingEnv.userRead (env : RingEnv) (out : MmapOutcome) (mem : U64 → BitVec 8) (u : U64) :
    Option (BitVec 8) :=
  (env.userBus out u).map mem

/-- Some captures, the ring of a just opened engine that stores their frames, with pages that are
mapped apart, and a process that has a part of it mapped : of every capture whose beginning was less
than a round ago and whose bytes are in the part, the process reads what was on the lanes of the
converter, each lane the same byte of every pair of samples, in order. -/
theorem captured (env : RingEnv) (hapart : env.PagesApart) (x : BuiltTransfer)
    (hx : cyclicRing env = some x) (mem : U64 → BitVec 8) (call : MmapCall) (out : MmapOutcome)
    (hmap : xdmaMmap call.pages call = some out) (hbuf : call.rxBuffer = some env.rxBuffer)
    (hret : out.ret = 0) (cs : List RxCapture) :
    ∃ s, x.storePackets (.opened mem) (streamPackets (cs.flatMap fun c => c.final.beats)) = some s ∧
      ∀ pre c post, cs = pre ++ c :: post →
        blockCount ((c :: post).map RxCapture.bytes) ≤ RX_BUF_PAGES →
        (∀ i < 16 * c.numWords.toNat,
          ringOffset (blockCount (pre.map RxCapture.bytes)) i < call.vma.vsize.toNat) →
        ∀ lane < 4, (laneBytes lane c.words).map some =
          (List.range (4 * c.numWords.toNat)).map fun q =>
            env.userRead out s.mem (call.vma.start + BitVec.ofNat 64
              (ringOffset (blockCount (pre.map RxCapture.bytes)) (4 * q + laneByte lane))) := by
  obtain ⟨s, hs, hadds⟩ :=
    (fills_opened env mem).storePackets hx hapart (cs.map RxCapture.bytes)
  have hblocks : s.blocks = (cs.map RxCapture.bytes).flatMap packetBlocks := hadds.blocks
  refine ⟨s, by rw [RxCapture.streamPackets_eq, hs], ?_⟩
  rintro pre c post rfl hround hin lane hlane
  rw [List.map_append, List.map_cons] at hblocks
  rw [c.laneBytes_words hlane, List.map_map]
  refine List.map_congr_left fun q hq => ?_
  have hlen := c.length_bytes
  have hbyte : 4 * q + laneByte lane < c.bytes.length := by
    have hq := List.mem_range.mp hq
    have := (txByte_lane lane hlane 3 (by decide)).2
    omega
  have hread := hadds.fills.byte_eq hblocks hround (List.getElem?_eq_getElem hbyte)
  rw [Function.comp_apply, List.getD_eq_getElem _ _ hbyte, RingEnv.userRead,
    userBus_eq hmap hbuf hret (hin _ (hlen ▸ hbyte)), Option.map_some, hread]

/-- A frame of two words. -/
def twoWords : RxCapture where
  numWords := 2
  edges := [rxOffer 2 1, rxOffer 2 2, rxReady 2]
  even := rfl
  two_le := by decide
  lt := by decide
  quiet := by simp [rxOffer, rxReady, RxQuiet]
  whole := rfl

/-- The first page of the ring, mapped. -/
def mmapFirstPage : MmapCall :=
  { mmapSecondPage with vma := { mmapSecondPage.vma with pgoff := 0 } }

theorem captured_two_words : ∃ x out s, cyclicRing adjoiningPages = some x ∧
    xdmaMmap 1 mmapFirstPage = some out ∧
    x.storePackets (.opened fun _ => 0) (streamPackets twoWords.final.beats) = some s ∧
    ∀ lane < 4, (laneBytes lane twoWords.words).map some = (List.range 8).map fun q =>
      adjoiningPages.userRead out s.mem
        (mmapFirstPage.vma.start + BitVec.ofNat 64 (ringOffset 0 (4 * q + laneByte lane))) := by
  obtain ⟨x, hx, -⟩ := cyclicRing_isRing adjoiningPages
  have hmap : xdmaMmap mmapFirstPage.pages mmapFirstPage =
    some ⟨0, [0xffffc90000000000], [(0x7f0000000000, 0xffffc90000000000)]⟩ := rfl
  obtain ⟨s, hs, hread⟩ := captured adjoiningPages adjoiningPages_apart x hx (fun _ => 0)
    mmapFirstPage _ hmap rfl rfl [twoWords]
  rw [List.flatMap_singleton] at hs
  exact ⟨x, _, s, hx, hmap, hs, hread [] twoWords [] rfl (by decide) (by decide)⟩

end Wimi
