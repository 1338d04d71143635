import Wimi.DataPath
import Wimi.TxPlay

/-!
# Playing a buffer

A write to a streaming engine, and the bridge that plays what it sends. An engine puts the bytes of
its descriptors on its stream, with `TLAST` on the last byte of a descriptor that ends a packet.

* `write_sends` : a write sends its buffer, a packet for every chunk;
* `plays_buffer` : a write of a single chunk that has all been sent, taken in before the trigger, is
  played without a gap, each sample of each channel on its lanes, in order.
-/

open Lanes Machine Resources

namespace Wimi

/-! ## What an engine sends -/

section Stream

variable {γ : Type*}

/-- Some bytes on a stream, with `TLAST` on the last of them if they end a packet. -/
def withLast (eop : Bool) (bytes : List γ) : List (γ × Bool) :=
  bytes.mapIdx fun i b => (b, eop && decide (i + 1 = bytes.length))

/-- What an engine puts on its stream for descriptor `k`. -/
def BuiltTransfer.sends (x : BuiltTransfer) (dirToDev : Bool) (host : U64 → γ) (k : ℕ) :
    List (γ × Bool) :=
  withLast (decide ((x.descVirt k).Has XDMA_DESC_EOP)) ((x.hostBytes dirToDev k).map host)

/-- What an engine that follows the chain puts on its stream. -/
def BuiltTransfer.engineSends (x : BuiltTransfer) (dirToDev : Bool) (host : U64 → γ) :
    Option (List (γ × Bool)) :=
  (x.walk x.descNum x.descNum).map (List.flatMap (x.sends dirToDev host))

@[simp] theorem length_withLast (eop : Bool) (bytes : List γ) :
    (withLast eop bytes).length = bytes.length := by
  simp [withLast]

/-- What does not end a packet goes on in what follows. -/
theorem withLast_append (eop : Bool) {l m : List γ} (hm : m ≠ []) :
    withLast false l ++ withLast eop m = withLast eop (l ++ m) := by
  have hpos := List.length_pos_iff.mpr hm
  refine List.ext_getElem (by simp) fun i hi _ => ?_
  simp only [List.length_append, length_withLast] at hi
  rw [List.getElem_append]
  split
  · next hl =>
    rw [length_withLast] at hl
    have hne : ¬ i + 1 = l.length + m.length := by omega
    simp [withLast, hl, hne]
  · next hl =>
    rw [length_withLast] at hl
    have hlast : i - l.length + 1 = m.length ↔ i + 1 = l.length + m.length := by omega
    simp [withLast, List.getElem_append, hl, hlast]

variable {c : BuildArgs} {x : BuiltTransfer} {bus epAddr : U64} {bs : List SgEntry}

/-- The first descriptors of a chain send the bytes of the first blocks. -/
theorem IsChain.sends_take (h : IsChain c x bus epAddr bs) (hpos : ∀ b ∈ bs, 0 < b.len.toNat)
    (host : U64 → γ) {k : ℕ} (hk : k ≤ bs.length) :
    (List.range k).flatMap (x.sends c.dirToDev host) =
      withLast (decide (k = bs.length)) (((bs.take k).flatMap SgEntry.cover).map host) := by
  induction k with
  | zero => rfl
  | succ k ih =>
    have hlink := h.link k hk
    have hopen : decide (k = bs.length) = false := decide_eq_false (Nat.ne_of_lt hk)
    have hblock : (x.hostBytes c.dirToDev k).map host = (bs[k].cover).map host := by
      rw [BuiltTransfer.hostBytes, hlink.host, hlink.bytes]
      rfl
    have hne : (bs[k].cover).map host ≠ [] := by
      rw [← List.length_pos_iff, List.length_map, SgEntry.cover, Chain.length_cover]
      exact hpos _ (List.getElem_mem _)
    have hends : decide ((x.descVirt k).Has XDMA_DESC_EOP) = decide (k + 1 = bs.length) :=
      decide_eq_decide.mpr (hlink.has_iff (by simp [lastFlags]))
    rw [List.range_succ, List.flatMap_append, ih (Nat.le_of_succ_le hk), List.flatMap_singleton,
      hopen, BuiltTransfer.sends, hends, hblock, withLast_append _ hne,
      List.take_succ_eq_append_getElem hk, List.flatMap_append, List.map_append,
      List.flatMap_singleton]

/-- An engine that follows a chain sends the bytes of its blocks as one packet. -/
theorem IsChain.engineSends (h : IsChain c x bus epAddr bs) (hpos : ∀ b ∈ bs, 0 < b.len.toNat)
    (hsome : 0 < bs.length) (hfew : bs.length ≤ 2 ^ 31) (host : U64 → γ) :
    x.engineSends c.dirToDev host =
      some (withLast true ((bs.flatMap SgEntry.cover).map host)) := by
  rw [BuiltTransfer.engineSends, h.descNum, h.walk_eq hsome hfew le_rfl le_rfl, Option.map_some,
    h.sends_take hpos host le_rfl, List.take_length, decide_eq_true rfl]

end Stream

/-! ## What a write sends -/

section Write

variable {γ : Type*} (host : U64 → γ)

/-- Byte `i` of a buffer of the user. -/
def userByte (t : PageTable) (buf : U64) (i : ℕ) : γ :=
  host (t.userAddr buf i)

/-- The bytes of a buffer on the stream, with `TLAST` on the last of every chunk. -/
def sentBuffer (t : PageTable) (buf : U64) (size : ℕ) : List (γ × Bool) :=
  (List.range size).map fun i => (userByte host t buf i,
    decide (i + 1 = size ∨ XDMA_TRANSFER_MAX_BYTES.toNat ∣ i + 1))

/-- `char_sgdma_read_write` of an engine that streams. -/
def sendRequest (a : EngineAlignment) (t : PageTable) (runs : ℕ → ChunkRun) (buf count pos : U64)
    (dirToDev : Bool) : Option (RequestEnd (γ × Bool)) :=
  runRequest (·.engineSends a.dirToDev host) a t runs buf count pos dirToDev

variable {host} {a : EngineAlignment} {t : PageTable} {runs : ℕ → ChunkRun} {buf count pos : U64}
  {size : ℕ}

/-- The last byte of a chunk, by its place in the buffer. -/
theorem ends_chunk {M d n i k : ℕ} (hd : M * k = d) (hfits : d + n ≤ size) (hmax : n ≤ M)
    (hend : n = M ∨ d + n = size) (hi : i < n) :
    (d + i + 1 = size ∨ M ∣ d + i + 1) ↔ i + 1 = n := by
  rw [Nat.add_assoc, Nat.dvd_add_right (Dvd.intro k hd)]
  constructor
  · rintro (hlast | hdvd)
    · omega
    · have := Nat.le_of_dvd (Nat.succ_pos i) hdvd
      omega
  · intro hlast
    rcases hend with rfl | hend
    · exact .inr (hlast ▸ dvd_rfl)
    · exact .inl (by omega)

/-- A chunk of a buffer on the stream is a packet. -/
theorem part_sentBuffer {d n k : ℕ} (hd : XDMA_TRANSFER_MAX_BYTES.toNat * k = d)
    (hfits : d + n ≤ size) (hmax : n ≤ XDMA_TRANSFER_MAX_BYTES.toNat)
    (hend : n = XDMA_TRANSFER_MAX_BYTES.toNat ∨ d + n = size) :
    ((sentBuffer host t buf size).drop d).take n =
      withLast true ((List.range n).map (userByte host t (buf + BitVec.ofNat 64 d))) := by
  refine List.ext_getElem (by simp [sentBuffer]; omega) fun i hi _ => ?_
  have hin : i < n := (List.length_take_le _ _).trans_lt' hi
  have haddr : userByte host t buf (d + i) = userByte host t (buf + BitVec.ofNat 64 d) i := by
    rw [userByte, userByte, PageTable.userAddr, PageTable.userAddr, BitVec.ofNat_add,
      BitVec.add_assoc]
  simp only [sentBuffer, withLast, List.getElem_take, List.getElem_drop, List.getElem_map,
    List.getElem_range, List.getElem_mapIdx, List.length_map, List.length_range, Bool.true_and,
    haddr]
  exact congrArg _ (decide_eq_decide.mpr (ends_chunk hd hfits hmax hend hin))

/-- Where a chunk begins, and how long it is. -/
theorem chunk_extent {k : ℕ} (hgo : ((enterRequest buf pos size).past k).call.Continues) :
    XDMA_TRANSFER_MAX_BYTES.toNat * k = (offset size k).toNat ∧
      ((enterRequest buf pos size).past k).call.chunk.toNat ≤ XDMA_TRANSFER_MAX_BYTES.toNat ∧
      (((enterRequest buf pos size).past k).call.chunk.toNat = XDMA_TRANSFER_MAX_BYTES.toNat ∨
        (offset size k).toNat + ((enterRequest buf pos size).past k).call.chunk.toNat = size) := by
  have hk := past_continues.mp hgo
  have hlt := lt_chunkCount.mp hk
  have hchunk := (past_chunk buf pos hk).2
  obtain ⟨M, hM⟩ : ∃ M : ℕ, XDMA_TRANSFER_MAX_BYTES = M := ⟨_, rfl⟩
  rw [hM, ← Nat.cast_mul] at hlt hchunk
  rw [hchunk, offset, hM, ← Nat.cast_mul, min_eq_left hlt.le, Int.toNat_natCast, Int.toNat_natCast,
    Nat.mul_comm k M]
  rw [Nat.mul_comm k M] at hlt
  generalize M * k = d at hlt ⊢
  omega

/-- An engine that streams sends for a chunk its part of the buffer. -/
theorem works_engineSends (host : U64 → γ) :
    Works (·.engineSends a.dirToDev host) a t buf pos size (sentBuffer host t buf size) := by
  intro k hgo p env rc l l' n x hpages hcreate
  obtain ⟨hcount, hmax⟩ := ReadWrite.chunk_bounds hgo
  obtain ⟨bus, bs, hchain, hcovers⟩ :=
    chain_createTransfer (c := a.buildArgs) rfl hcount hmax hpages hcreate
  refine (hchain.engineSends hcovers.pos hcovers.some hcovers.few host).trans (congrArg some ?_)
  obtain ⟨hd, hle, hend⟩ := chunk_extent hgo
  rw [hcovers.cover, ReadWrite.toNat_chunk hgo, transferAddr_past (past_continues.mp hgo),
    part_sentBuffer hd (chunk_fits hgo) hle hend, Chain.cover, List.map_map, List.map_map]
  rfl

/-- A write of a single chunk sends one packet. -/
theorem sentBuffer_single (hmax : size ≤ XDMA_TRANSFER_MAX_BYTES.toNat) :
    sentBuffer host t buf size = withLast true ((List.range size).map (userByte host t buf)) := by
  have hpart : ((sentBuffer host t buf size).drop 0).take size =
      withLast true ((List.range size).map (userByte host t (buf + BitVec.ofNat 64 0))) :=
    part_sentBuffer (Nat.mul_zero _) (Nat.zero_add size).le hmax (.inr (Nat.zero_add size))
  rw [List.drop_zero, List.take_of_length_le (by simp [sentBuffer])] at hpart
  exact hpart.trans (by rw [BitVec.add_zero])

/-- Whatever becomes of its chunks, if the hardware has sent all of each that completes, a write to
a streaming engine sends the first of its bytes, with `TLAST` on the last of every chunk, and all of
them when it returns its size. -/
theorem write_sends (host : U64 → γ) (a : EngineAlignment) (t : PageTable) (runs : ℕ → ChunkRun)
    (buf count pos : U64) (dirToDev : Bool) (hmoved : MovesCompleted runs count.toInt.toNat)
    (out : RequestEnd (γ × Bool))
    (h : sendRequest host a t runs buf count pos dirToDev = some out) :
    ∃ m, RequestEnded (sentBuffer host t buf count.toInt.toNat) pos count.toInt.toNat m out :=
  runRequest_ended (works_engineSends host) hmoved h

/-- An engine that streams to the device. -/
def streamEngine : EngineAlignment :=
  ⟨true, true, false, 1, 1⟩

/-- A write of 32 bytes over the border of two pages goes through. -/
theorem oneWord_sends (host : U64 → γ) : ∃ out,
    sendRequest host streamEngine (.of (· ^^^ 1)) (fun _ => twoPageRun) 0xff0 32 0 true =
        some out ∧ out.ret = 32 ∧ out.done.length = 32 := by
  have hall : AllComplete (fun _ => twoPageRun) (.of (· ^^^ 1)) 0xff0 32 :=
    allComplete_single (by decide) (twoPageRun_completes (by decide) (by decide) (by decide))
  have hcount : (32 : U64).toInt = (32 : ℕ) := by decide
  have haccept : charSgdmaReadWrite streamEngine 0xff0 32 0 true = .ok ⟨.enter 32 0, 0xff0⟩ := rfl
  obtain ⟨out, hout, hret, hdone⟩ :=
    runRequest_completes (works_engineSends host) haccept hcount hall
  exact ⟨out, hout, hret, by simp [hdone, sentBuffer]⟩

theorem write_sends_one_word : ∃ out m,
    sendRequest (fun a => a.setWidth 8) streamEngine (.of (· ^^^ 1)) (fun _ => twoPageRun) 0xff0 32
        0 true = some out ∧
      RequestEnded (sentBuffer (fun a => a.setWidth 8) (.of (· ^^^ 1)) 0xff0 32) 0 32 m
        (out : RequestEnd (BitVec 8 × Bool)) := by
  obtain ⟨out, hout, -⟩ := oneWord_sends fun a => (a.setWidth 8 : BitVec 8)
  obtain ⟨m, hm⟩ := write_sends _ _ _ _ _ _ _ _ (twoPageRun_moves (by decide)) out hout
  exact ⟨out, m, hout, hm⟩

end Write

/-! ## Words and lanes -/

/-- The words of some bytes on the 256-bit stream, the first byte lowest. -/
def hostWords (bytes : List (BitVec 8)) : List HostWord :=
  (List.range (bytes.length / 32)).map fun j =>
    BitVec.ofFnLE fun b => (bytes.getD (32 * j + b / 8) 0).getLsbD (b % 8)

/-- The bytes on lane `lane` of the converter stream, of which each word has four. -/
def laneBytes (lane : ℕ) (ws : List ConvWord) : List (BitVec 8) :=
  ws.flatMap fun w => (List.range 4).map fun j => w.extractLsb' (8 * (4 * lane + j)) 8

/-- The byte of a pair of samples that is on a lane : the high and the low byte of the first, and
those of the second. -/
def laneByte (lane : ℕ) : ℕ :=
  [1, 0, 3, 2].getD lane 0

section Lanes

variable {bytes : List (BitVec 8)} {lane : ℕ}

/-- Every byte of a list of words is that of its place. -/
theorem byte_hostWord {j i : ℕ} (hi : i < 32) :
    (BitVec.ofFnLE fun b : Fin (128 + 128) =>
      (bytes.getD (32 * j + b / 8) 0).getLsbD (b % 8)).extractLsb' (8 * i) 8 =
        bytes.getD (32 * j + i) 0 := by
  refine BitVec.eq_of_getLsbD_eq fun b hb => ?_
  have hlt : 8 * i + b < 128 + 128 := by omega
  have hdiv : (8 * i + b) / 8 = i := by omega
  have hmod : (8 * i + b) % 8 = b := by omega
  rw [BitVec.getLsbD_extractLsb', BitVec.getLsbD_ofFnLE, dif_pos hlt]
  simp [hb, hdiv, hmod]

theorem txByte_lane : ∀ lane < 4, ∀ j < 4, txByte (4 * lane + j) = 8 * (4 * j + laneByte lane) ∧
    4 * j + laneByte lane < 16 := by
  decide

/-- The bytes of a half of a host word on a lane. -/
theorem laneBytes_txTdata (hlane : lane < 4) (w : ConvWord) :
    laneBytes lane [txTdata w] =
      (List.range 4).map fun j => w.extractLsb' (8 * (4 * j + laneByte lane)) 8 := by
  rw [laneBytes, List.flatMap_singleton]
  refine List.map_congr_left fun j hj => ?_
  rw [txTdata_byte w (by have := List.mem_range.mp hj; omega),
    (txByte_lane lane hlane j (List.mem_range.mp hj)).1]

/-- Blocks of a sequence, one behind the other. -/
theorem flatMap_blocks {α : Type*} (g : ℕ → α) (m n : ℕ) :
    ((List.range n).flatMap fun j => (List.range m).map fun i => g (m * j + i)) =
      (List.range (m * n)).map g := by
  induction n with
  | zero => simp
  | succ n ih =>
    rw [List.range_succ, List.flatMap_append, ih, List.flatMap_singleton, Nat.mul_succ,
      List.range_add, List.map_append, List.map_map]
    rfl

/-- A byte of a half of a host word. -/
theorem byte_half (w : HostWord) {off i : ℕ} (hi : 8 * i + 8 ≤ 128) :
    (w.extractLsb' (8 * off) 128).extractLsb' (8 * i) 8 = w.extractLsb' (8 * (off + i)) 8 := by
  refine BitVec.eq_of_getLsbD_eq fun b hb => ?_
  have hlt : 8 * i + b < 128 := by omega
  have hplace : 8 * off + (8 * i + b) = 8 * (off + i) + b := by omega
  simp only [BitVec.getLsbD_extractLsb', hb, hlt, hplace, decide_true, Bool.true_and]

/-- A host word leaves low half first. -/
theorem txPath_singleton (w : HostWord) :
    txPath [w] = [txTdata (w.extractLsb' 0 128), txTdata (w.extractLsb' 128 128)] := by
  have hhigh : (txDin w).extractLsb' 128 128 = w.extractLsb' 0 128 := by
    refine BitVec.eq_of_getLsbD_eq fun b hb => ?_
    rw [BitVec.getLsbD_extractLsb', txDin, getLsbD_swapHalves _ _ (by omega)]
    simp [hb]
  have hlow : (txDin w).extractLsb' 0 128 = w.extractLsb' 128 128 := by
    refine BitVec.eq_of_getLsbD_eq fun b hb => ?_
    rw [BitVec.getLsbD_extractLsb', txDin, getLsbD_swapHalves _ _ (by omega)]
    simp [hb]
  simp [txPath, fifo256to128, hhigh, hlow]

theorem txPath_append (ws vs : List HostWord) : txPath (ws ++ vs) = txPath ws ++ txPath vs := by
  simp [txPath, fifo256to128_append]

theorem laneBytes_append (ws vs : List ConvWord) :
    laneBytes lane (ws ++ vs) = laneBytes lane ws ++ laneBytes lane vs :=
  List.flatMap_append

/-- The bytes of a host word on a lane. -/
theorem laneBytes_word (hlane : lane < 4) (w : HostWord) :
    laneBytes lane (txPath [w]) =
      (List.range 8).map fun i => w.extractLsb' (8 * (4 * i + laneByte lane)) 8 := by
  have hhalf (off : ℕ) : laneBytes lane [txTdata (w.extractLsb' (8 * off) 128)] =
      (List.range 4).map fun i => w.extractLsb' (8 * (off + (4 * i + laneByte lane))) 8 := by
    rw [laneBytes_txTdata hlane]
    refine List.map_congr_left fun i hi => byte_half w ?_
    have := (txByte_lane lane hlane i (List.mem_range.mp hi)).2
    omega
  rw [txPath_singleton, ← List.singleton_append, laneBytes_append, hhalf 0, hhalf 16,
    show (8 : ℕ) = 4 + 4 from rfl, List.range_add, List.map_append, List.map_map]
  congr 1
  · simp only [Nat.zero_add]
  · refine List.map_congr_left fun i _ => ?_
    have hplace : 16 + (4 * i + laneByte lane) = 4 * (4 + i) + laneByte lane := by omega
    rw [Function.comp_apply, hplace]

theorem laneBytes_words (hlane : lane < 4) (ws : List HostWord) :
    laneBytes lane (txPath ws) = ws.flatMap fun w =>
      (List.range 8).map fun i => w.extractLsb' (8 * (4 * i + laneByte lane)) 8 := by
  induction ws with
  | nil => rfl
  | cons w ws ih =>
    rw [← List.singleton_append, txPath_append, laneBytes_append, laneBytes_word hlane, ih,
      List.flatMap_append, List.flatMap_singleton]

/-- The lanes carry the samples, each lane its byte of every pair, in order. -/
theorem laneBytes_txPath (h : 32 ∣ bytes.length) (hlane : lane < 4) :
    laneBytes lane (txPath (hostWords bytes)) =
      (List.range (bytes.length / 4)).map fun q => bytes.getD (4 * q + laneByte lane) 0 := by
  have hquarter : bytes.length / 4 = 8 * (bytes.length / 32) := by omega
  rw [laneBytes_words hlane, hostWords, List.flatMap_map, hquarter, ← flatMap_blocks _ 8]
  refine List.flatMap_congr fun j _ => List.map_congr_left fun i hi => ?_
  have hi := List.mem_range.mp hi
  have hbyte : laneByte lane < 4 := by
    have := (txByte_lane lane hlane 3 (by decide)).2
    omega
  have hplace : 32 * j + (4 * i + laneByte lane) = 4 * (8 * j + i) + laneByte lane := by omega
  rw [byte_hostWord (by omega), hplace]

end Lanes

/-! ## Playing -/

/-- The trigger comes when the whole frame is in the FIFO, which does not show itself empty from
then on without being so. -/
def TriggerBehind (frame : List HostWord) (x : TxSession) (e : TxEdge) : Prop :=
  ∀ i, e = .master i → (i.start = true → x.bridge.accepted = frame) ∧
    (x.bridge.mState = .readFifo → i.empty = false)

/-- While words are left, `READ_FIFO` goes on, and every edge at which the converter is ready
transfers the next of them; behind the last, it is left. -/
def PlaysOn (frame : List HostWord) (x : TxSession) (e : TxEdge) (x' : TxSession) : Prop :=
  ∀ i, e = .master i → x.bridge.mState = .readFifo →
    if x.bridge.beats = txPath frame then x'.bridge.mState = .idle ∧ x'.bridge.beats = txPath frame
    else x'.bridge.mState = .readFifo ∧ (i.tready = true →
      ∃ w, (txPath frame)[x.bridge.beats.length]? = some w ∧
        x'.bridge.beats = x.bridge.beats ++ [w])

/-- What the edges preserve if the trigger comes behind the frame. -/
structure BehindInv (frame : List HostWord) (s : TxState) : Prop extends TxPlayInv frame s where
  whole : s.mState = .readFifo ∨ s.startM = true → s.accepted = frame

section Playing

variable {frame : List HostWord} {x x' : TxSession} {e : TxEdge}

/-- Behind the frame nothing more is taken in. -/
theorem BehindInv.slaveEdge (h : BehindInv frame x.bridge) {i : TxSlaveIn}
    (ho : x.Obeys frame i) : BehindInv frame (txSlaveEdge i x.bridge) := by
  refine ⟨h.toTxPlayInv.slaveEdge ho, fun hgo => ?_⟩
  have hwhole := h.whole hgo
  cases hw : x.bridge.wren i with
  | false => rwa [txSlaveEdge_of_not_wren h.flushS ho.1 hw]
  | true =>
    have hnext := (ho.2.2 ((wren_iff _ _).mp hw).1).1
    rw [hwhole, List.getElem?_eq_none le_rfl] at hnext
    cases hnext

/-- What was read of a frame that was taken in is where it begins. -/
theorem TxPlayInv.beats_begin {s : TxState} (h : TxPlayInv frame s) (hwhole : s.accepted = frame) :
    s.beats <+: txPath frame := by
  rw [h.beats, txPath, ← hwhole, ← h.written]
  exact (List.take_prefix _ _).map _

theorem BehindInv.masterEdge {s : TxState} (h : BehindInv frame s) {i : TxMasterIn}
    (hr : i.aresetn = true ∧ i.sAresetn = true) (hstart : i.start = true → s.accepted = frame) :
    BehindInv frame (txMasterEdge i s) := by
  refine ⟨h.toTxPlayInv.masterEdge hr, fun hgo => ?_⟩
  rw [(txMasterEdge_intake s hr).2.2.1]
  rcases hgo with hread | hstarted
  · have hnext : txNextM s i = .readFifo := by simpa [txMasterEdge, hr.2] using hread
    cases hm : s.mState with
    | idle =>
      refine h.whole (.inr ?_)
      by_contra hno
      simp [txNextM, hm, hno] at hnext
    | readFifo => exact h.whole (.inl hm)
  · exact hstart (by simpa [txMasterEdge, hr.1] using hstarted)

/-- A bridge that has the whole frame plays on. -/
theorem BehindInv.playsOn {s : TxState} (h : BehindInv frame s) {i : TxMasterIn}
    (hr : i.aresetn = true ∧ i.sAresetn = true) (hm : s.mState = .readFifo)
    (hempty : i.empty = false) :
    if s.beats = txPath frame then
      (txMasterEdge i s).mState = .idle ∧ (txMasterEdge i s).beats = txPath frame
    else (txMasterEdge i s).mState = .readFifo ∧ (i.tready = true →
      ∃ w, (txPath frame)[s.beats.length]? = some w ∧
        (txMasterEdge i s).beats = s.beats ++ [w]) := by
  have hwhole := h.whole (.inl hm)
  have hend : s.beats = txPath frame ↔ s.isEmpty i = true := by
    rw [h.beats_eq_iff]
    simp [hwhole, TxState.isEmpty, hempty, hr]
  have hnext : (txMasterEdge i s).mState = txNextM s i := by simp [txMasterEdge, hr.2]
  split
  · next hall =>
    have he := hend.mp hall
    refine ⟨hnext.trans ((txNextM_eq_idle_iff hm).mpr he), ?_⟩
    rw [txMasterEdge_of_not_rden hr (TxState.rden_of_isEmpty he)]
    exact hall
  · next hleft =>
    have he : s.isEmpty i = false := Bool.eq_false_iff.mpr (mt hend.mpr hleft)
    refine ⟨hnext.trans (by simp [txNextM, hm, he]), fun hready => ?_⟩
    have hd : s.rden i = true := by simp [TxState.rden, TxState.mTvalid, hready, hm, he]
    have hbeats : (txMasterEdge i s).beats = s.beats ++ [txTdata s.dout] := by
      rw [txMasterEdge_of_rden hr hd]
    have hprefix := (h.toTxPlayInv.masterEdge hr).beats_begin
      ((txMasterEdge_intake s hr).2.2.1.trans hwhole)
    rw [hbeats] at hprefix
    obtain ⟨rest, hrest⟩ := hprefix
    exact ⟨_, by simp [← hrest], hbeats⟩

theorem plays_on_step (h : BehindInv frame x.bridge) (hstep : txSend frame x e = some x')
    (hc : TriggerBehind frame x e) : BehindInv frame x'.bridge ∧ PlaysOn frame x e x' := by
  cases e with
  | slave i =>
    obtain ⟨ho, rfl⟩ := by simpa [txSend] using hstep
    exact ⟨h.slaveEdge ho, fun j hj => by cases hj⟩
  | master i =>
    obtain ⟨hr, rfl⟩ := by simpa [txSend] using hstep
    obtain ⟨hstart, hempty⟩ := hc i rfl
    refine ⟨h.masterEdge hr hstart, ?_⟩
    rintro j hj hm
    obtain rfl : i = j := by simpa using hj
    exact h.playsOn hr hm (hempty hm)

/-- `READ_FIFO` is left with the whole frame transferred. -/
theorem PlaysOn.txPlays (h : PlaysOn frame x e x') (hstep : txSend frame x e = some x') :
    TxPlays frame x e x' := by
  intro hm hidle
  cases e with
  | slave i =>
    obtain ⟨-, rfl⟩ := by simpa [txSend] using hstep
    have hsame : x.bridge.mState = .idle := hidle
    rw [hm] at hsame
    cases hsame
  | master i =>
    have hplays := h i rfl hm
    split at hplays
    · exact hplays.2
    · rw [hplays.1] at hidle
      cases hidle

end Playing

/-- When `READ_FIFO` is left, every lane has carried its byte of every pair of samples of the
buffer, in order. -/
def Played (host : U64 → BitVec 8) (t : PageTable) (buf : U64) (size : ℕ) (x : TxSession)
    (_ : TxEdge) (x' : TxSession) : Prop :=
  x.bridge.mState = .readFifo → x'.bridge.mState = .idle → ∀ lane < 4,
    laneBytes lane x'.bridge.beats =
      (List.range (size / 4)).map fun q => userByte host t buf (4 * q + laneByte lane)

/-- The words a write has put on its stream. -/
def RequestEnd.words (out : RequestEnd (BitVec 8 × Bool)) : List HostWord :=
  hostWords (out.done.map Prod.fst)

theorem map_fst_withLast {γ : Type*} (eop : Bool) (bytes : List γ) :
    (withLast eop bytes).map Prod.fst = bytes := by
  refine List.ext_getElem (by simp) fun i hi _ => ?_
  simp [withLast]

/-- The lanes of a buffer. -/
theorem laneBytes_buffer {host : U64 → BitVec 8} {t : PageTable} {buf : U64} {size lane : ℕ}
    (h : 32 ∣ size) (hlane : lane < 4) :
    laneBytes lane (txPath (hostWords ((List.range size).map (userByte host t buf)))) =
      (List.range (size / 4)).map fun q => userByte host t buf (4 * q + laneByte lane) := by
  have hbyte : laneByte lane < 4 := by
    have := (txByte_lane lane hlane 3 (by decide)).2
    omega
  rw [laneBytes_txPath (by simpa using h) hlane, List.length_map, List.length_range]
  refine List.map_congr_left fun q hq => ?_
  have hlt : 4 * q + laneByte lane < size := by
    have := List.mem_range.mp hq
    omega
  rw [List.getD_eq_getElem _ _ (by simpa using hlt), List.getElem_map, List.getElem_range]

/-- A write of a single chunk that goes through, with all sent that completes, sends its buffer as
one packet. -/
theorem sendRequest_done {host : U64 → BitVec 8} {a : EngineAlignment} {t : PageTable}
    {runs : ℕ → ChunkRun} {buf count pos : U64} {size : ℕ} {out : RequestEnd (BitVec 8 × Bool)}
    (hsize : count.toInt = size) (hmax : size ≤ XDMA_TRANSFER_MAX_BYTES.toNat)
    (hmoved : MovesCompleted runs size)
    (h : sendRequest host a t runs buf count pos true = some out) (hret : 0 ≤ out.ret) :
    out.done = withLast true ((List.range size).map (userByte host t buf)) := by
  have hmoved : MovesCompleted runs count.toInt.toNat := by rwa [hsize, Int.toNat_natCast]
  obtain ⟨m, -, hdone, hresult⟩ := runRequest_ended (works_engineSends host) hmoved h
  rw [hsize, Int.toNat_natCast] at hdone hresult
  rcases hresult with ⟨-, rfl, -⟩ | ⟨hneg, -⟩
  · rw [hdone, List.take_of_length_le (by simp [sentBuffer]), sentBuffer_single hmax]
  · exact absurd hret (not_le.mpr hneg)

/-- The words of a packet. -/
theorem words_eq {out : RequestEnd (BitVec 8 × Bool)} {bytes : List (BitVec 8)}
    (h : out.done = withLast true bytes) : out.words = hostWords bytes := by
  rw [RequestEnd.words, h, map_fst_withLast]

theorem behindInv_start (frame : List HostWord) :
    BehindInv frame (txStart .idle false).bridge :=
  ⟨txPlayInv_start _ .idle false, fun h => by simp [txStart] at h⟩

/-- A write of a buffer to a streaming engine that goes through, of a single chunk that the hardware
has sent when it completes and of whole words, sends one packet. A bridge that was flushed takes it
in, however it comes in; and if the trigger comes when it is in, every edge at which the converter
is ready transfers the next word, and the bridge stops when every sample of the buffer has left on
its lanes. -/
theorem plays_buffer (host : U64 → BitVec 8) (a : EngineAlignment) (t : PageTable)
    (runs : ℕ → ChunkRun) (buf count pos : U64) (size : ℕ) (out : RequestEnd (BitVec 8 × Bool))
    (es : List TxEdge) (hsize : count.toInt = size) (hmax : size ≤ XDMA_TRANSFER_MAX_BYTES.toNat)
    (hwords : 32 ∣ size) (hmoved : MovesCompleted runs size)
    (h : sendRequest host a t runs buf count pos true = some out) (hret : 0 ≤ out.ret)
    (hes : Along (txSend out.words) (fun x e _ => TriggerBehind out.words x e)
      (txStart .idle false) es) :
    out.done = withLast true ((List.range size).map (userByte host t buf)) ∧
      Along (txSend out.words)
        (fun x e x' => PlaysOn out.words x e x' ∧ Played host t buf size x e x')
        (txStart .idle false) es := by
  have hbuffer := sendRequest_done hsize hmax hmoved h hret
  have hframe := words_eq hbuffer
  have hedge (x : TxSession) (e : TxEdge) (x' : TxSession) (hx : BehindInv out.words x.bridge)
      (hstep : txSend out.words x e = some x') (hc : TriggerBehind out.words x e) :
      BehindInv out.words x'.bridge ∧
        PlaysOn out.words x e x' ∧ Played host t buf size x e x' := by
    obtain ⟨hx', hplays⟩ := plays_on_step hx hstep hc
    refine ⟨hx', hplays, fun hm hidle lane hlane => ?_⟩
    rw [hplays.txPlays hstep hm hidle, hframe, laneBytes_buffer hwords hlane]
  exact ⟨hbuffer, along_of_step hedge (behindInv_start _) hes⟩

/-- A write of one word over the border of two pages, the trigger behind it. -/
def oneWordEdges (w : HostWord) : List TxEdge :=
  [txOffer w true, txReady true, txReady false, txReady false, txReady false, txReady false]

theorem triggerBehind_one_word (w : HostWord) :
    Along (txSend [w]) (fun x e _ => TriggerBehind [w] x e) (txStart .idle false)
      (oneWordEdges w) := by
  intro s₁ h₁
  refine ⟨fun i hi => TxEdge.noConfusion hi, ?_⟩
  obtain ⟨-, rfl⟩ := by simpa [txSend, txOffer] using h₁
  intro s₂ h₂
  refine ⟨fun i hi => ?_, along_of_inputs fun e he x x' i hi => ?_⟩
  · obtain rfl := TxEdge.master.inj hi
    exact ⟨fun _ => rfl, fun _ => rfl⟩
  · obtain rfl : e = txReady false := by simpa [oneWordEdges] using he
    obtain rfl := TxEdge.master.inj hi
    exact ⟨fun h => Bool.noConfusion h, fun _ => rfl⟩

theorem plays_buffer_one_word :
    ∃ out w, sendRequest (fun a => a.setWidth 8) streamEngine (.of (· ^^^ 1)) (fun _ => twoPageRun)
        0xff0 32 0 true = some out ∧ out.words = [w] ∧
      Along (txSend out.words) (fun x e x' => PlaysOn out.words x e x' ∧
        Played (fun a => a.setWidth 8) (.of (· ^^^ 1)) 0xff0 32 x e x') (txStart .idle false)
        (oneWordEdges w) := by
  obtain ⟨out, hout, hret, hlen⟩ := oneWord_sends fun a => (a.setWidth 8 : BitVec 8)
  obtain ⟨w, hw⟩ : ∃ w, out.words = [w] := by
    rw [← List.length_eq_one_iff, RequestEnd.words, hostWords, List.length_map, List.length_range,
      List.length_map, hlen]
  obtain ⟨-, hplays⟩ := plays_buffer (fun a => a.setWidth 8) streamEngine (.of (· ^^^ 1))
    (fun _ => twoPageRun) 0xff0 32 0 32 out (oneWordEdges w) (by decide) (by decide) (by decide)
    (twoPageRun_moves (by decide)) hout (by rw [hret]; decide)
    (by rw [hw]; exact triggerBehind_one_word w)
  exact ⟨out, w, hout, hw, hplays⟩

end Wimi
