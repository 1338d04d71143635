import Wimi.PageLists
import Wimi.UserRequests
import Wimi.Lib.Moves

/-!
# The data of a request

What a request moves between the memory of the user and that of the device : the pages of the user
behind their page table, the chunks, their scatterlists, the merged descriptors, and the engine that
follows them. In interrupt mode, with increasing addresses. How far the hardware is with a chunk
when its wait returns is not known : that all of a chunk has been moved when its transfer is found
completed (`MovesCompleted`) is a condition on the runs.

* `carries_createTransfer` : an engine that follows the chain of a transfer copies the stretch it
  was created for;
* `moveRequest_ended` : a request moves its bytes in order, all of them when it returns its size,
  and the first of them when it returns an error;
* `request_copies` : what that leaves in the two memories.
-/

open Resources

namespace Wimi

/-! ## The user's memory -/

/-- Where the pages of the user are mapped to, by their virtual page numbers. -/
structure PageTable where
  bus : ℕ → U64
  aligned : ∀ i, PAGE_SIZE ∣ (bus i).toNat

namespace PageTable

variable (t : PageTable)

/-- The bus address of an address of the user. -/
def translate (addr : U64) : U64 :=
  t.bus (addr.toNat / PAGE_SIZE) + offsetInPage addr

/-- What pinning a stretch from `start` on answers. -/
def pinned (rc : ℤ) (start : U64) : PinnedPages :=
  ⟨rc, fun i => t.bus (start.toNat / PAGE_SIZE + i), fun _ => t.aligned _⟩

/-- The moves of a copy of `n` bytes at `buf` in the user's memory and `pos` in the device's, each
with its bus address and its device address. -/
def copies (buf pos : U64) (n : ℕ) : List (U64 × U64) :=
  ((Chain.cover buf n).map t.translate).zip (Chain.cover pos n)

variable {t} {buf pos : U64} {m n : ℕ}

@[simp] theorem length_copies : (t.copies buf pos n).length = n := by
  simp [copies]

theorem copies_add : t.copies buf pos (m + n) =
    t.copies buf pos m ++
      t.copies (buf + BitVec.ofNat 64 m) (pos + BitVec.ofNat 64 m) n := by
  rw [copies, Chain.cover_append, Chain.cover_append, List.map_append, List.zip_append (by simp)]
  rfl

theorem take_copies : (t.copies buf pos n).take m = t.copies buf pos (min m n) := by
  rcases le_total m n with hle | hle
  · obtain ⟨k, rfl⟩ := Nat.exists_eq_add_of_le hle
    rw [copies_add, List.take_left' length_copies, min_eq_left hle]
  · rw [List.take_of_length_le (by simpa using hle), min_eq_right hle]

/-- A part of a copy is a copy. -/
theorem part_copies {d : ℕ} (h : d + m ≤ n) : ((t.copies buf pos n).drop d).take m =
    t.copies (buf + BitVec.ofNat 64 d) (pos + BitVec.ofNat 64 d) m := by
  obtain ⟨k, rfl⟩ := Nat.exists_eq_add_of_le h
  rw [Nat.add_assoc, copies_add, List.drop_left' length_copies, copies_add,
    List.take_left' length_copies]

end PageTable

/-! ## What an engine moves -/

namespace BuiltTransfer

variable (x : BuiltTransfer) (dirToDev : Bool)

/-- The moves of descriptor `k`, each with its host address and its device address. -/
def moves (k : ℕ) : List (U64 × U64) :=
  (x.hostBytes dirToDev k).zip
    (Chain.cover ((x.descVirt k).epAddr dirToDev) (x.descVirt k).bytes.toNat)

/-- The moves of an engine that follows the chain. -/
def engineMoves : Option (List (U64 × U64)) :=
  (x.walk x.descNum x.descNum).map (List.flatMap (x.moves dirToDev))

/-- An engine that follows the chain visits its descriptors in order, and moves `ms`. -/
structure Carries (ms : List (U64 × U64)) : Prop where
  few : x.descNum ≤ 2 ^ 31
  walk : x.walk x.descNum x.descNum = some (List.range x.descNum)
  moves : (List.range x.descNum).flatMap (x.moves dirToDev) = ms

variable {x dirToDev} {ms : List (U64 × U64)}

theorem Carries.engineMoves (h : x.Carries dirToDev ms) : x.engineMoves dirToDev = some ms := by
  rw [BuiltTransfer.engineMoves, h.walk, Option.map_some, h.moves]

/-- What such an engine has visited after some steps. -/
theorem Carries.visits (h : x.Carries dirToDev ms) (n : ℕ) :
    x.visits n = some (List.range (min n x.descNum)) := by
  rw [BuiltTransfer.visits, Chain.visits_of_walk h.walk, List.take_range]

end BuiltTransfer

section Engine

variable {c : BuildArgs} {x : BuiltTransfer} {bus epAddr : U64} {bs : List SgEntry}

/-- The bytes of some blocks, to as many device addresses. -/
def blockMoves (epAddr : U64) (bs : List SgEntry) : List (U64 × U64) :=
  (bs.flatMap SgEntry.cover).zip (Chain.cover epAddr (bs.map fun b => b.len.toNat).sum)

theorem length_blocks (bs : List SgEntry) :
    (bs.flatMap SgEntry.cover).length = (bs.map fun b => b.len.toNat).sum := by
  rw [List.length_flatMap]
  congr 1
  exact List.map_congr_left fun b _ => Chain.length_cover _ _

theorem blockMoves_append_singleton (b : SgEntry) :
    blockMoves epAddr (bs ++ [b]) = blockMoves epAddr bs ++
      b.cover.zip (Chain.cover
        (epAddr + BitVec.ofNat 64 (bs.map fun b => b.len.toNat).sum) b.len.toNat) := by
  rw [blockMoves, List.flatMap_append, List.map_append, List.sum_append, Chain.cover_append,
    List.zip_append (by rw [length_blocks, Chain.length_cover]), List.flatMap_singleton,
    List.map_singleton, List.sum_singleton]
  rfl

namespace IsChain

/-- The first descriptors move the bytes of the first blocks. -/
theorem moves_take (h : IsChain c x bus epAddr bs) (hincr : c.nonIncrAddr = false) {k : ℕ}
    (hk : k ≤ bs.length) :
    (List.range k).flatMap (x.moves c.dirToDev) = blockMoves epAddr (bs.take k) := by
  induction k with
  | zero => rfl
  | succ k ih =>
    have hlink := h.link k hk
    have hdevice := hlink.device.trans (advances_eq _ _)
    rw [if_neg (by simp [hincr])] at hdevice
    rw [List.range_succ, List.flatMap_append, ih (Nat.le_of_succ_le hk), List.flatMap_singleton,
      List.take_succ_eq_append_getElem hk, blockMoves_append_singleton, BuiltTransfer.moves,
      BuiltTransfer.hostBytes, hlink.host, hlink.bytes, hdevice]
    rfl

/-- An engine that follows a chain moves the bytes of its blocks, in order. -/
theorem carries (h : IsChain c x bus epAddr bs) (hincr : c.nonIncrAddr = false)
    (hpos : 0 < bs.length) (hmax : bs.length ≤ 2 ^ 31) :
    x.Carries c.dirToDev (blockMoves epAddr bs) where
  few := h.descNum ▸ hmax
  walk := by rw [h.descNum, h.walk_eq hpos hmax le_rfl le_rfl]
  moves := by rw [h.descNum, h.moves_take hincr le_rfl, List.take_length]

end IsChain

end Engine

/-! ## Transfers -/

section Transfer

variable {t : PageTable} {start count epAddr : U64} {sgl : List SgEntry}

/-- An address on a page of the user, with its page number. -/
theorem toNat_onPage {page off : ℕ} (hoff : off < PAGE_SIZE)
    (htop : PAGE_SIZE * (start.toNat / PAGE_SIZE + page) + PAGE_SIZE ≤ 2 ^ 64) :
    (start - offsetInPage start + BitVec.ofNat 64 (PAGE_SIZE * page) + BitVec.ofNat 64 off).toNat =
      PAGE_SIZE * (start.toNat / PAGE_SIZE + page) + off := by
  have hle : offsetInPage start ≤ start := by
    rw [BitVec.le_def, offsetInPage_toNat]
    exact Nat.mod_le _ _
  have hsplit := Nat.div_add_mod start.toNat PAGE_SIZE
  rw [BitVec.toNat_add, BitVec.toNat_add, BitVec.toNat_sub_of_le hle, offsetInPage_toNat,
    BitVec.toNat_ofNat, BitVec.toNat_ofNat]
  rw [mul_add] at htop ⊢
  omega

/-- Where the page table has an address on a page of the user. -/
theorem translate_onPage {page off : ℕ} (hoff : off < PAGE_SIZE)
    (htop : PAGE_SIZE * (start.toNat / PAGE_SIZE + page) + PAGE_SIZE ≤ 2 ^ 64) :
    t.translate (start - offsetInPage start + BitVec.ofNat 64 (PAGE_SIZE * page) +
      BitVec.ofNat 64 off) = t.bus (start.toNat / PAGE_SIZE + page) + BitVec.ofNat 64 off := by
  have haddr := toNat_onPage hoff htop
  have hpage : 0 < PAGE_SIZE := by decide
  rw [PageTable.translate, haddr, Nat.mul_add_div hpage, Nat.div_eq_of_lt hoff, Nat.add_zero]
  congr 1
  refine BitVec.eq_of_toNat_eq ?_
  rw [offsetInPage_toNat, haddr, Nat.mul_add_mod, BitVec.toNat_ofNat, Nat.mod_eq_of_lt hoff,
    Nat.mod_eq_of_lt (hoff.trans (by decide))]

/-- An entry is mapped to where the page table has its bytes. -/
theorem cover_mapped {e : PageEntry} (hon : e.OnPage)
    (htop : PAGE_SIZE * (start.toNat / PAGE_SIZE + e.page) + PAGE_SIZE ≤ 2 ^ 64) :
    (e.mapped fun i => t.bus (start.toNat / PAGE_SIZE + i)).cover =
      (e.bytes start).map t.translate := by
  rw [SgEntry.cover, PageEntry.bytes, Chain.cover, Chain.cover, List.map_map]
  refine List.map_congr_left fun k hk => ?_
  have hlt : e.offset.toNat + k < PAGE_SIZE :=
    (Nat.add_lt_add_left (List.mem_range.mp hk) _).trans_le hon.2
  have hoffset : e.offset.setWidth 64 + BitVec.ofNat 64 k =
      BitVec.ofNat 64 (e.offset.toNat + k) := by
    rw [BitVec.ofNat_add, BitVec.ofNat_toNat]
  rw [Function.comp_apply, PageEntry.mapped, BitVec.add_assoc, hoffset, BitVec.add_assoc, hoffset,
    translate_onPage hlt htop]

/-- The scatterlist of a stretch that is pinned : its entries are of at least a byte and at most a
page, few, and cover what the page table has of the stretch. -/
structure Pinned (t : PageTable) (start count : U64) (sgl : List SgEntry) : Prop where
  cover : sgl.flatMap SgEntry.cover = (Chain.cover start count.toNat).map t.translate
  pos : ∀ e ∈ sgl, 0 < e.len.toNat
  le : ∀ e ∈ sgl, e.len.toNat ≤ PAGE_SIZE
  few : sgl.length ≤ 2 ^ 31

theorem pinned_of_mapUserPages {rc : ℤ} (hcount : count ≠ 0) (hmax : count.toNat ≤ 2 ^ 32)
    (h : mapUserPages (t.pinned rc start) start count = some sgl) : Pinned t start count sgl := by
  have hpos : 0 < count.toNat := Nat.pos_of_ne_zero fun h => hcount (BitVec.eq_of_toNat_eq h)
  obtain ⟨⟨hwrap, -⟩, es₀, hes₀, rfl⟩ := mapUserPages_spec h
  have hend := toNat_add_of_not_wraps hwrap
  have hpages : nrPages start count = touchedPages start count :=
    nrPages_eq hcount (fewPages_of_le hmax) hwrap
  obtain ⟨es, hes, hlist⟩ := populateSgl_isPageList start hpos
  obtain rfl : es = es₀ := by
    rw [hpages, hes] at hes₀
    exact Option.some.inj hes₀
  have hlen : es.length = touchedPages start count := by
    rw [← List.length_map PageEntry.page, hlist.pages, List.length_range]
  have htop : ∀ e ∈ es, PAGE_SIZE * (start.toNat / PAGE_SIZE + e.page) + PAGE_SIZE ≤ 2 ^ 64 := by
    intro e he
    have hmem : e.page ∈ es.map PageEntry.page := List.mem_map_of_mem he
    rw [hlist.pages, List.mem_range, touchedPages] at hmem
    have hlast : (start + count).toNat < 2 ^ 64 := BitVec.isLt _
    rw [hend] at hlast
    have hpage : PAGE_SIZE = 4096 := rfl
    rw [hpage] at hmem ⊢
    omega
  refine ⟨?_, ?_, ?_, ?_⟩
  · rw [List.flatMap_map, ← hlist.bytes, List.map_flatMap]
    exact List.flatMap_congr fun e he => cover_mapped (hlist.onPage e he) (htop e he)
  · exact List.forall_mem_map.mpr fun e he => (hlist.onPage e he).1
  · exact List.forall_mem_map.mpr fun e he => le_of_add_le_right (hlist.onPage e he).2
  · rw [List.length_map, hlen, touchedPages]
    have hpage : PAGE_SIZE = 4096 := rfl
    rw [hpage]
    omega

/-- The blocks of a chain are of at least a byte, few, and cover what the page table has of a
stretch. -/
structure Covers (t : PageTable) (start count : U64) (bs : List SgEntry) : Prop where
  cover : bs.flatMap SgEntry.cover = (Chain.cover start count.toNat).map t.translate
  pos : ∀ b ∈ bs, 0 < b.len.toNat
  some : 0 < bs.length
  few : bs.length ≤ 2 ^ 31

/-- A transfer is a chain that covers the stretch it is created for. -/
theorem chain_createTransfer {p : Ptr} {c : BuildArgs} {env : CreateEnv} {rc : ℤ}
    {l l' : Ledger TransferResource} {n : ℕ} {x : BuiltTransfer}
    (hpage : c.pageSize = pageBytes) (hcount : count ≠ 0) (hmax : count.toNat ≤ 2 ^ 32)
    (hpages : env.pages = t.pinned rc start)
    (h : createTransfer p c env start count epAddr l = (l', .transfer n x)) :
    ∃ bus bs, IsChain c x bus epAddr bs ∧ Covers t start count bs := by
  obtain ⟨-, -, sgl, descBus, hget, -, hx⟩ := createTransfer_found h
  rw [hpages] at hget
  obtain ⟨hcover, hpos, hle, hfew⟩ := pinned_of_mapUserPages hcount hmax hget
  obtain ⟨e, rest, rfl, -⟩ := mapUserPages_aligned hget
  obtain ⟨y, hy, hchain⟩ := transferCreate_isChain (c := c) env.mem descBus epAddr e rest
  obtain rfl := Option.some.inj (hx.symm.trans hy)
  have hok : MergeOk c e.addr 0 e rest := by
    refine ⟨?_, by simp, ?_, hpos, ?_⟩ <;> rw [hpage]
    · decide
    · decide
    · exact hle
  have hblocks : (merge c e.addr 0 e rest).flatMap SgEntry.cover =
      (Chain.cover start count.toNat).map t.translate := by
    rw [← hcover, cover_merge hok]
    rfl
  have hlen := length_merge (c := c) e.addr 0 e rest
  exact ⟨descBus, _, hchain, hblocks, fun b hb => (len_merge hok b hb).1, hlen.1,
    hlen.2.trans hfew⟩

/-- The engine copies the stretch a transfer is created for. -/
theorem carries_createTransfer {p : Ptr} {c : BuildArgs} {env : CreateEnv} {rc : ℤ}
    {l l' : Ledger TransferResource} {n : ℕ} {x : BuiltTransfer} (hincr : c.nonIncrAddr = false)
    (hpage : c.pageSize = pageBytes) (hcount : count ≠ 0) (hmax : count.toNat ≤ 2 ^ 32)
    (hpages : env.pages = t.pinned rc start)
    (h : createTransfer p c env start count epAddr l = (l', .transfer n x)) :
    x.Carries c.dirToDev (t.copies start epAddr count.toNat) := by
  obtain ⟨bus, bs, hchain, hcovers⟩ := chain_createTransfer hpage hcount hmax hpages h
  have hcopies : blockMoves epAddr bs = t.copies start epAddr count.toNat := by
    rw [blockMoves, ← length_blocks, hcovers.cover, List.length_map, Chain.length_cover]
    rfl
  exact hcopies ▸ hchain.carries hincr hcovers.some hcovers.few

end Transfer

/-! ## Requests -/

/-- What the system does with a chunk : the kernel its transfer is created in, how the wait for it
returns, and how many bytes have been moved by then. -/
structure ChunkRun where
  create : CreateEnv
  wait : Awaited
  moved : ℕ

/-- The kernel a transfer at `start` is created in. Where the pages are is in the page table. -/
def CreateEnv.over (env : CreateEnv) (t : PageTable) (start : U64) : CreateEnv :=
  { env with pages := t.pinned env.pages.rc start }

/-- The kernel a chunk at `start` finds. -/
def ChunkRun.env (run : ChunkRun) (t : PageTable) (start : U64) : CreateEnv :=
  run.create.over t start

/-- The hardware has moved all of every chunk whose transfer is found completed. -/
def MovesCompleted (runs : ℕ → ChunkRun) (size : ℕ) : Prop :=
  ∀ k < chunkCount size, (runs k).wait.state = .completed →
    min XDMA_TRANSFER_MAX_BYTES (size - k * XDMA_TRANSFER_MAX_BYTES) ≤ (runs k).moved

/-- The number of the next chunk, and what the engine has done. -/
structure ChunkLog (α : Type*) where
  chunk : ℕ
  done : List α

/-- What a request has done when it returns : what it returns, where it leaves `*pos`, and what the
engine has done. -/
structure RequestEnd (α : Type*) where
  ret : ℤ
  pos : U64
  done : List α

section Runs

variable {α : Type*} (work : BuiltTransfer → Option (List α)) (a : EngineAlignment)
  (t : PageTable) (runs : ℕ → ChunkRun)

/-- A chunk, for whose chain an engine does `work` : it has done the first of it when the wait
returns. -/
def runChunk (s : ReadWrite) (log : ChunkLog α) : Option (ChunkOutcome × ChunkLog α) :=
  let run := runs log.chunk
  match createTransfer log.chunk a.buildArgs (run.env t s.transferAddr) s.transferAddr
    (BitVec.ofInt 64 s.call.chunk) (BitVec.ofInt 64 s.call.pos) .empty with
  | (_, .null) => some (.null, log)
  | (_, .bug) => none
  | (_, .transfer _ x) =>
    (work x).map fun ws =>
      (.awaited run.wait.toWaitEnd, ⟨log.chunk + 1, log.done ++ ws.take run.moved⟩)

/-- `char_sgdma_read_write`. None is a kernel that has stopped. -/
def runRequest (buf count pos : U64) (dirToDev : Bool) : Option (RequestEnd α) :=
  match charSgdmaReadWrite a buf count pos dirToDev with
  | .error e => some ⟨-e.code, pos, []⟩
  | .ok s => (transferData (runChunk work a t runs) s ⟨0, []⟩).map fun r =>
      ⟨r.1.ret, r.1.filePos, r.2.done⟩

/-- Whatever its transfer is created in, the engine does `ws` for the chunk at `s`. -/
def ReadWrite.Does (s : ReadWrite) (ws : List α) : Prop :=
  ∀ (p : Ptr) (env : CreateEnv) (rc : ℤ) (l l' : Ledger TransferResource) (n : ℕ)
    (x : BuiltTransfer), env.pages = t.pinned rc s.transferAddr →
    createTransfer p a.buildArgs env s.transferAddr (BitVec.ofInt 64 s.call.chunk)
      (BitVec.ofInt 64 s.call.pos) l = (l', .transfer n x) → work x = some ws

/-- What the engine does for a chunk of a request is its part of `whole`. -/
def Works (buf pos : U64) (size : ℕ) (whole : List α) : Prop :=
  ∀ k, ((enterRequest buf pos size).past k).call.Continues →
    ((enterRequest buf pos size).past k).Does work a t ((whole.drop (offset size k).toNat).take
      ((enterRequest buf pos size).past k).call.chunk.toNat)

end Runs

/-- A request that has come to its end behind `m` bytes : it returns its size, or an error and a
position that is not further than the bytes. -/
structure RequestEnded {α : Type*} (whole : List α) (pos : U64) (size m : ℕ) (out : RequestEnd α) :
    Prop where
  le : m ≤ size
  done : out.done = whole.take m
  result : (out.ret = size ∧ m = size ∧ out.pos = pos + BitVec.ofNat 64 size) ∨
    (out.ret < 0 ∧ ∃ d ≤ m, out.pos = pos + BitVec.ofNat 64 d)

/-- `char_sgdma_read_write` of an engine that copies. -/
def moveRequest (a : EngineAlignment) (t : PageTable) (runs : ℕ → ChunkRun)
    (buf count pos : U64) (dirToDev : Bool) : Option (RequestEnd (U64 × U64)) :=
  runRequest (·.engineMoves a.dirToDev) a t runs buf count pos dirToDev

section Request

variable {a : EngineAlignment} {t : PageTable} {runs : ℕ → ChunkRun} {buf count pos : U64}
  {size k : ℕ}

/-- The length of a chunk is that of its transfer. -/
theorem ReadWrite.toNat_chunk {s : ReadWrite} (hgo : s.call.Continues) :
    (BitVec.ofInt 64 s.call.chunk).toNat = s.call.chunk.toNat := by
  have hle : s.call.chunk ≤ XDMA_TRANSFER_MAX_BYTES := by
    rw [Call.chunk_eq_min]
    exact min_le_left _ _
  rw [BitVec.toNat_ofInt, Int.emod_eq_of_lt (chunk_pos hgo).le (hle.trans_lt (by decide))]

variable {α : Type*} {work : BuiltTransfer → Option (List α)} {whole : List α}

/-- What a chunk does : nothing without a transfer, and else the first of its work. -/
theorem runChunk_cases {s : ReadWrite} {log log' : ChunkLog α} {o : ChunkOutcome} {ws : List α}
    (hworks : s.Does work a t ws) (h : runChunk work a t runs s log = some (o, log')) :
    (o = .null ∧ log' = log) ∨
      (o = .awaited (runs log.chunk).wait.toWaitEnd ∧
        log' = ⟨log.chunk + 1, log.done ++ ws.take (runs log.chunk).moved⟩) := by
  simp only [runChunk] at h
  split at h
  · obtain ⟨rfl, rfl⟩ := Prod.mk.inj (Option.some.inj h)
    exact .inl ⟨rfl, rfl⟩
  · cases h
  next x hcreate =>
  rw [hworks _ _ _ _ _ _ _ rfl hcreate, Option.map_some] at h
  obtain ⟨rfl, rfl⟩ := Prod.mk.inj (Option.some.inj h)
  exact .inr ⟨rfl, rfl⟩

/-- A chunk of which all is moved when it completes does the first of its work and fails, or all of
it and completes. -/
theorem runChunk_spec {s : ReadWrite} {log log' : ChunkLog α} {o : ChunkOutcome} {d : ℕ}
    (hworks : s.Does work a t ((whole.drop d).take s.call.chunk.toNat))
    (hlog : log.done = whole.take d)
    (hmoved : (runs log.chunk).wait.state = .completed → s.call.chunk ≤ (runs log.chunk).moved)
    (h : runChunk work a t runs s log = some (o, log')) :
    ∃ m ≤ s.call.chunk.toNat, log'.done = whole.take (d + m) ∧
      (o.Fails ∨ m = s.call.chunk.toNat ∧ log'.chunk = log.chunk + 1 ∧
        ∃ w, o = .awaited w ∧ w.state = .completed) := by
  rcases runChunk_cases hworks h with ⟨rfl, rfl⟩ | ⟨rfl, rfl⟩
  · exact ⟨0, Nat.zero_le _, hlog, .inl trivial⟩
  refine ⟨min (runs log.chunk).moved s.call.chunk.toNat, min_le_right _ _, ?_, ?_⟩
  · rw [hlog, List.take_take, List.take_add]
  by_cases hdone : (runs log.chunk).wait.state = .completed
  · exact .inr ⟨min_eq_right (Int.toNat_le.mpr (hmoved hdone)), rfl, _, rfl, hdone⟩
  · exact .inl (InterruptOutcome.fails (o := .awaited (runs log.chunk).wait) hdone)

variable (buf pos size k) in
/-- The bytes of a chunk bring the request to the next. -/
theorem offset_succ :
    offset size (k + 1) = offset size k + ((enterRequest buf pos size).past k).call.chunk := by
  obtain ⟨-, -, hdone, -⟩ := past_spec buf pos size (k + 1)
  obtain ⟨-, -, hdone', -⟩ := past_spec buf pos size k
  rw [← hdone, ← hdone', ReadWrite.past_succ]
  exact ReadWrite.next_completed.2.2.1

variable (size k) in
theorem offset_bounds : 0 ≤ offset size k ∧ offset size k ≤ size :=
  ⟨le_min (mul_nonneg (Int.natCast_nonneg _) (by decide)) (Int.natCast_nonneg _), min_le_right _ _⟩

variable (buf pos size k) in
/-- Where the loop is after `k` chunks that complete. -/
theorem filePos_past :
    ((enterRequest buf pos size).past k).filePos = pos + BitVec.ofNat 64 (offset size k).toNat := by
  obtain ⟨-, -, -, hpos⟩ := past_spec buf pos size k
  rw [ReadWrite.filePos, hpos, BitVec.ofInt_add, BitVec.ofInt_toInt, ← BitVec.ofInt_natCast,
    Int.toNat_of_nonneg (offset_bounds size k).1]

theorem transferAddr_past (hk : k < chunkCount size) :
    ((enterRequest buf pos size).past k).transferAddr =
      buf + BitVec.ofNat 64 (offset size k).toNat := by
  have hoffset : offset size k = k * XDMA_TRANSFER_MAX_BYTES :=
    min_eq_left (lt_chunkCount.mp hk).le
  rw [(past_chunk buf pos hk).1, ← hoffset, ← BitVec.ofInt_natCast,
    Int.toNat_of_nonneg (offset_bounds size k).1]

/-- A chunk is within its request. -/
theorem chunk_fits (hgo : ((enterRequest buf pos size).past k).call.Continues) :
    (offset size k).toNat + ((enterRequest buf pos size).past k).call.chunk.toNat ≤ size := by
  have hpos := ReadWrite.chunk_pos hgo
  have hdone := (offset_bounds size k).1
  have hle := (offset_bounds size (k + 1)).2
  rw [offset_succ buf pos size k] at hle
  generalize offset size k = done at hle hdone ⊢
  omega

theorem ReadWrite.left_filePos (s : ReadWrite) : s.left.filePos = s.filePos :=
  rfl

/-- A request that has left its loop behind all its chunks returns its size. -/
theorem left_ret : ((enterRequest buf pos size).past (chunkCount size)).left.ret = size := by
  obtain ⟨-, hres, hdone, -⟩ := past_spec buf pos size (chunkCount size)
  rw [ReadWrite.ret, ReadWrite.left_phase hres, hdone, offset_chunkCount]

/-- The loop ends behind all chunks, each of which has kept `P`, or at one that fails with `Q`. -/
theorem transferData_run {σ : Type*} {turn : ReadWrite → σ → Option (ChunkOutcome × σ)}
    {P Q : ℕ → σ → Prop}
    (hturn : ∀ k env o env', ((enterRequest buf pos size).past k).call.Continues → P k env →
      turn ((enterRequest buf pos size).past k) env = some (o, env') →
        (o.Fails ∧ Q k env') ∨ (∃ w, o = .awaited w ∧ w.state = .completed) ∧ P (k + 1) env')
    {c : ReadWrite} {env env' : σ} (hk : k ≤ chunkCount size) (hP : P k env)
    (h : transferData turn ((enterRequest buf pos size).past k) env = some (c, env')) :
    (c = ((enterRequest buf pos size).past (chunkCount size)).left ∧
        P (chunkCount size) env') ∨
      ∃ j, ((enterRequest buf pos size).past j).call.Continues ∧ Q j env' ∧ c.ret < 0 ∧
        c.filePos = ((enterRequest buf pos size).past j).filePos := by
  induction hleft : chunkCount size - k generalizing k env with
  | zero =>
    obtain rfl : k = chunkCount size := by omega
    rw [transferData, if_neg (mt past_continues.mp (lt_irrefl _))] at h
    obtain ⟨rfl, rfl⟩ := Prod.mk.inj (Option.some.inj h)
    exact .inl ⟨rfl, hP⟩
  | succ left ih =>
    have hlt : k < chunkCount size := by omega
    have hgo : ((enterRequest buf pos size).past k).call.Continues := past_continues.mpr hlt
    cases hnext : turn ((enterRequest buf pos size).past k) env with
    | none =>
      rw [transferData, if_pos hgo, hnext] at h
      cases h
    | some next =>
      obtain ⟨o, env₁⟩ := next
      rcases hturn k env o env₁ hgo hP hnext with ⟨hfails, hQ⟩ | ⟨⟨w, rfl, hcompleted⟩, hP'⟩
      · -- the request ends at this chunk
        obtain ⟨c', hrun, ⟨ret, hneg, hret⟩, hkept⟩ := transferData_error hgo hnext hfails
        obtain ⟨rfl, rfl⟩ := Prod.mk.inj (Option.some.inj (hrun.symm.trans h))
        refine .inr ⟨k, hgo, hQ, ?_, congrArg (BitVec.ofInt 64) hkept⟩
        rw [ReadWrite.ret, hret]
        exact hneg
      · have hzero : Call.outcome w.state w.rc = 0 := Call.outcome_eq_zero.mpr (.inl hcompleted)
        rw [transferData, if_pos hgo, hnext] at h
        dsimp only at h
        rw [ReadWrite.next_of_outcome hzero, ← ReadWrite.past_succ] at h
        exact ih hlt hP' h (by omega)

/-- A request of which all is moved that completes comes to its end behind some of its bytes. -/
theorem transferData_ended (hworks : Works work a t buf pos size whole)
    (hmoved : MovesCompleted runs size) {c : ReadWrite} {log' : ChunkLog α}
    (h : transferData (runChunk work a t runs) (enterRequest buf pos size) ⟨0, []⟩ =
      some (c, log')) :
    ∃ m, RequestEnded whole pos size m ⟨c.ret, c.filePos, log'.done⟩ := by
  have hturn (k : ℕ) (log : ChunkLog α) (o : ChunkOutcome) (log' : ChunkLog α)
      (hgo : ((enterRequest buf pos size).past k).call.Continues)
      (hlog : log.chunk = k ∧ log.done = whole.take (offset size k).toNat)
      (hnext : runChunk work a t runs ((enterRequest buf pos size).past k) log = some (o, log')) :
      (o.Fails ∧ ∃ m ≤ ((enterRequest buf pos size).past k).call.chunk.toNat,
          log'.done = whole.take ((offset size k).toNat + m)) ∨
        (∃ w, o = .awaited w ∧ w.state = .completed) ∧ log'.chunk = k + 1 ∧
          log'.done = whole.take (offset size (k + 1)).toNat := by
    obtain ⟨rfl, hdone⟩ := hlog
    have hk := past_continues.mp hgo
    obtain ⟨m, hm, hdone', hfails | ⟨rfl, hchunk, hcompleted⟩⟩ := runChunk_spec
      (hworks log.chunk hgo) hdone (fun hstate => (past_chunk buf pos hk).2 ▸ hmoved _ hk hstate)
      hnext
    · exact .inl ⟨hfails, m, hm, hdone'⟩
    · refine .inr ⟨hcompleted, hchunk, ?_⟩
      rw [hdone', offset_succ buf pos size log.chunk,
        Int.toNat_add (offset_bounds size log.chunk).1 (ReadWrite.chunk_pos hgo).le]
  have hstart : (offset size 0).toNat = 0 := by simp [offset]
  rcases transferData_run (k := 0) (P := fun k log => log.chunk = k ∧
      log.done = whole.take (offset size k).toNat) hturn (Nat.zero_le _)
      ⟨rfl, by rw [hstart, List.take_zero]⟩ h with
    ⟨rfl, -, hdone⟩ | ⟨j, hgo, ⟨m, hm, hdone⟩, hneg, hpos⟩
  · have hpos := filePos_past buf pos size (chunkCount size)
    rw [offset_chunkCount, Int.toNat_natCast] at hdone hpos
    exact ⟨size, le_rfl, hdone, .inl ⟨left_ret, rfl, (ReadWrite.left_filePos _).trans hpos⟩⟩
  · exact ⟨_, (Nat.add_le_add_left hm _).trans (chunk_fits hgo), hdone,
      .inr ⟨hneg, _, Nat.le_add_right _ _, hpos.trans (filePos_past buf pos size j)⟩⟩

/-- Whatever is moved, it is of the request. -/
theorem transferData_within (hworks : Works work a t buf pos size whole) {c : ReadWrite}
    {log' : ChunkLog α}
    (h : transferData (runChunk work a t runs) (enterRequest buf pos size) ⟨0, []⟩ =
      some (c, log')) : log'.done ⊆ whole := by
  have hturn (k : ℕ) (log : ChunkLog α) (o : ChunkOutcome) (log' : ChunkLog α)
      (hgo : ((enterRequest buf pos size).past k).call.Continues) (hlog : log.done ⊆ whole)
      (hnext : runChunk work a t runs ((enterRequest buf pos size).past k) log = some (o, log')) :
      (o.Fails ∧ log'.done ⊆ whole) ∨
        (∃ w, o = .awaited w ∧ w.state = .completed) ∧ log'.done ⊆ whole := by
    rcases runChunk_cases (hworks k hgo) hnext with ⟨rfl, rfl⟩ | ⟨rfl, rfl⟩
    · exact .inl ⟨trivial, hlog⟩
    have hsub : log.done ++ ((whole.drop (offset size k).toNat).take
        ((enterRequest buf pos size).past k).call.chunk.toNat).take (runs log.chunk).moved ⊆
          whole :=
      List.append_subset.mpr ⟨hlog, fun x hx =>
        List.mem_of_mem_drop (List.mem_of_mem_take (List.mem_of_mem_take hx))⟩
    by_cases hdone : (runs log.chunk).wait.state = .completed
    · exact .inr ⟨⟨_, rfl, hdone⟩, hsub⟩
    · exact .inl ⟨InterruptOutcome.fails (o := .awaited (runs log.chunk).wait) hdone, hsub⟩
  rcases transferData_run (k := 0) (P := fun _ log => log.done ⊆ whole) hturn (Nat.zero_le _)
      (List.nil_subset _) h with ⟨-, hsub⟩ | ⟨-, -, hsub, -⟩
  · exact hsub
  · exact hsub

/-- A request of a negative length does not enter its loop. -/
theorem transferData_negative {σ : Type*} {turn : ReadWrite → σ → Option (ChunkOutcome × σ)}
    {n : ℤ} (hneg : n < 0) (env : σ) :
    transferData turn ⟨.enter n pos.toInt, buf⟩ env =
      some ((⟨.enter n pos.toInt, buf⟩ : ReadWrite).left, env) := by
  rw [transferData, if_neg]
  · rfl
  · exact fun hgo => absurd hgo.2 (not_lt.mpr hneg.le)

/-- A request is refused, has nothing to do, or runs its loop. -/
theorem runRequest_cases {dirToDev : Bool} {out : RequestEnd α}
    (h : runRequest work a t runs buf count pos dirToDev = some out) :
    (∃ e : Errno, out = ⟨-e.code, pos, []⟩) ∨
      (count.toInt.toNat = 0 ∧ out.ret = count.toInt.toNat ∧ out.pos = pos ∧ out.done = []) ∨
      ∃ c log, transferData (runChunk work a t runs)
          (enterRequest buf pos count.toInt.toNat) ⟨0, []⟩ = some (c, log) ∧
        out = ⟨c.ret, c.filePos, log.done⟩ := by
  unfold runRequest at h
  split at h
  · exact .inl ⟨_, (Option.some.inj h).symm⟩
  next s hs =>
  obtain rfl := charSgdmaReadWrite_ok hs
  obtain ⟨⟨c, log⟩, hrun, rfl⟩ := Option.map_eq_some_iff.mp h
  refine .inr ?_
  rcases lt_or_ge count.toInt 0 with hneg | hnonneg
  · rw [transferData_negative hneg] at hrun
    obtain ⟨rfl, rfl⟩ := Prod.mk.inj (Option.some.inj hrun)
    rw [Int.toNat_of_nonpos hneg.le]
    exact .inl ⟨rfl, rfl, BitVec.ofInt_toInt, rfl⟩
  · have hsize : (count.toInt.toNat : ℤ) = count.toInt := Int.toNat_of_nonneg hnonneg
    rw [← hsize] at hrun
    exact .inr ⟨c, log, hrun, rfl⟩

/-- Every request of which all is moved that completes comes to its end behind some of its bytes. -/
theorem runRequest_ended {dirToDev : Bool} {out : RequestEnd α}
    (hworks : Works work a t buf pos count.toInt.toNat whole)
    (hmoved : MovesCompleted runs count.toInt.toNat)
    (h : runRequest work a t runs buf count pos dirToDev = some out) :
    ∃ m, RequestEnded whole pos count.toInt.toNat m out := by
  rcases runRequest_cases h with ⟨e, rfl⟩ | ⟨hzero, hret, hpos, hdone⟩ | ⟨c, log, hrun, rfl⟩
  · have hneg : -e.code < 0 := by cases e <;> decide
    exact ⟨0, Nat.zero_le _, rfl, .inr ⟨hneg, 0, le_rfl, (BitVec.add_zero _).symm⟩⟩
  · refine ⟨0, Nat.zero_le _, hdone, .inl ⟨hret, hzero.symm, ?_⟩⟩
    rw [hpos, hzero]
    exact (BitVec.add_zero _).symm
  · exact transferData_ended hworks hmoved hrun

/-- Whatever a request moves is of it. -/
theorem runRequest_within {dirToDev : Bool} {out : RequestEnd α}
    (hworks : Works work a t buf pos count.toInt.toNat whole)
    (h : runRequest work a t runs buf count pos dirToDev = some out) : out.done ⊆ whole := by
  rcases runRequest_cases h with ⟨e, rfl⟩ | ⟨-, -, -, hdone⟩ | ⟨c, log, hrun, rfl⟩
  · exact List.nil_subset _
  · exact hdone ▸ List.nil_subset _
  · exact transferData_within hworks hrun

/-- An engine that copies does for a chunk its part of the copies. -/
theorem works_engineMoves (hincr : a.nonIncrAddr = false) :
    Works (·.engineMoves a.dirToDev) a t buf pos size (t.copies buf pos size) := by
  intro k hgo p env rc l l' n x hpages hcreate
  obtain ⟨hcount, hmax⟩ := ReadWrite.chunk_bounds hgo
  have hcarries := carries_createTransfer (c := a.buildArgs) hincr rfl hcount hmax hpages hcreate
  rw [ReadWrite.toNat_chunk hgo, transferAddr_past (past_continues.mp hgo)] at hcarries
  refine hcarries.engineMoves.trans (congrArg some ?_)
  rw [PageTable.part_copies (chunk_fits hgo)]
  exact congrArg (t.copies _ · _) (filePos_past buf pos size k)

/-- Every request of an engine that copies comes to its end behind some of its bytes. -/
theorem moveRequest_ended {dirToDev : Bool} {out : RequestEnd (U64 × U64)}
    (hincr : a.nonIncrAddr = false) (hmoved : MovesCompleted runs count.toInt.toNat)
    (h : moveRequest a t runs buf count pos dirToDev = some out) :
    ∃ m, RequestEnded (t.copies buf pos count.toInt.toNat) pos count.toInt.toNat m out :=
  runRequest_ended (works_engineMoves hincr) hmoved h

/-- A chunk finds all it asks for, and its transfer completes. -/
structure ChunkRun.Completes (run : ChunkRun) (t : PageTable) (start count : U64) : Prop where
  transfer : (run.env t start).transfer = true
  whole : (run.env t start).Whole start count
  completed : run.wait.state = .completed
  moved : count.toNat ≤ run.moved

/-- Such a chunk does all of its work. -/
theorem runChunk_completes {s : ReadWrite} (log : ChunkLog α) {ws : List α}
    (hworks : s.Does work a t ws) (hgo : s.call.Continues) (hlen : ws.length ≤ s.call.chunk.toNat)
    (h : (runs log.chunk).Completes t s.transferAddr (BitVec.ofInt 64 s.call.chunk)) :
    ∃ w, w.state = .completed ∧ runChunk work a t runs s log =
      some (.awaited w, ⟨log.chunk + 1, log.done ++ ws⟩) := by
  obtain ⟨hcount, hmax⟩ := ReadWrite.chunk_bounds hgo
  obtain ⟨n, x, -, hcreate⟩ := createTransfer_of_whole log.chunk a.buildArgs
    (BitVec.ofInt 64 s.call.pos) .empty hcount hmax h.transfer h.whole
  have hmoved := h.moved
  rw [ReadWrite.toNat_chunk hgo] at hmoved
  refine ⟨(runs log.chunk).wait.toWaitEnd, h.completed, ?_⟩
  simp only [runChunk, hcreate, hworks _ _ _ _ _ _ _ rfl hcreate, Option.map_some,
    List.take_of_length_le (hlen.trans hmoved)]

/-- The chunks of a request all complete. -/
def AllComplete (runs : ℕ → ChunkRun) (t : PageTable) (buf : U64) (size : ℕ) : Prop :=
  ∀ k < chunkCount size, (runs k).Completes t (buf + BitVec.ofInt 64 (k * XDMA_TRANSFER_MAX_BYTES))
    (BitVec.ofInt 64 (min XDMA_TRANSFER_MAX_BYTES (size - k * XDMA_TRANSFER_MAX_BYTES)))

/-- A request of a single chunk. -/
theorem allComplete_single (hsize : (size : ℤ) ≤ XDMA_TRANSFER_MAX_BYTES)
    (h : (runs 0).Completes t buf (BitVec.ofNat 64 size)) : AllComplete runs t buf size := by
  intro k hk
  have hlt := lt_chunkCount.mp hk
  obtain rfl : k = 0 := by
    by_contra hne
    have hone : (1 : ℤ) ≤ k := by exact_mod_cast Nat.one_le_iff_ne_zero.mpr hne
    have hmax : XDMA_TRANSFER_MAX_BYTES ≤ k * XDMA_TRANSFER_MAX_BYTES :=
      le_mul_of_one_le_left (by decide) hone
    exact absurd hlt (not_lt.mpr (hsize.trans hmax))
  rw [Nat.cast_zero, zero_mul, sub_zero, min_eq_right hsize, BitVec.ofInt_natCast]
  have hzero : BitVec.ofInt 64 0 = 0 := rfl
  rw [hzero]
  exact (BitVec.add_zero buf).symm ▸ h

/-- Chunk by chunk such a request is done. -/
theorem runChunk_allComplete (hworks : Works work a t buf pos size whole)
    (h : AllComplete runs t buf size) (hk : k < chunkCount size) :
    ∃ w, w.state = .completed ∧
      runChunk work a t runs ((enterRequest buf pos size).past k)
        ⟨k, whole.take (offset size k).toNat⟩ =
      some (.awaited w, ⟨k + 1, whole.take (offset size (k + 1)).toNat⟩) := by
  have hgo : ((enterRequest buf pos size).past k).call.Continues := past_continues.mpr hk
  obtain ⟨haddr, hchunk⟩ := past_chunk buf pos hk
  have hcompletes := h k hk
  rw [← haddr, ← hchunk] at hcompletes
  obtain ⟨w, hw, hturn⟩ :=
    runChunk_completes ⟨k, whole.take (offset size k).toNat⟩ (hworks k hgo) hgo
      (List.length_take_le _ _) hcompletes
  refine ⟨w, hw, hturn.trans ?_⟩
  rw [← List.take_add, ← Int.toNat_add (offset_bounds size k).1 (ReadWrite.chunk_pos hgo).le,
    ← offset_succ]

/-- A request that is not refused, whose chunks all complete, returns its size. -/
theorem runRequest_completes {dirToDev : Bool} {s : ReadWrite}
    (hworks : Works work a t buf pos size whole)
    (hs : charSgdmaReadWrite a buf count pos dirToDev = .ok s) (hsize : count.toInt = size)
    (h : AllComplete runs t buf size) :
    ∃ out, runRequest work a t runs buf count pos dirToDev = some out ∧ out.ret = size ∧
      out.done = whole.take size := by
  have hpast := transferData_past
    (fun k => (⟨k, whole.take (offset size k).toNat⟩ : ChunkLog α)) le_rfl
    fun j hj => runChunk_allComplete hworks h hj
  have hstart : (⟨0, whole.take (offset size 0).toNat⟩ : ChunkLog α) = ⟨0, []⟩ := by
    simp [offset]
  rw [hstart, offset_chunkCount, Int.toNat_natCast] at hpast
  set c := ((enterRequest buf pos size).past (chunkCount size)).left with hc
  have hend : transferData (runChunk work a t runs) (enterRequest buf pos size) ⟨0, []⟩ =
      some (c, ⟨chunkCount size, whole.take size⟩) := by
    refine hpast.trans ?_
    rw [transferData, if_neg (mt past_continues.mp (lt_irrefl _))]
    rfl
  have hdone : runRequest work a t runs buf count pos dirToDev =
      some ⟨c.ret, c.filePos, whole.take size⟩ := by
    rw [runRequest, hs, charSgdmaReadWrite_ok hs, hsize]
    exact congrArg (Option.map _) hend
  exact ⟨_, hdone, left_ret, rfl⟩

/-- A request of an engine that copies. -/
theorem moveRequest_completes {dirToDev : Bool} {s : ReadWrite} (hincr : a.nonIncrAddr = false)
    (hs : charSgdmaReadWrite a buf count pos dirToDev = .ok s) (hsize : count.toInt = size)
    (h : AllComplete runs t buf size) :
    ∃ out, moveRequest a t runs buf count pos dirToDev = some out ∧ out.ret = size := by
  obtain ⟨out, hout, hret, -⟩ := runRequest_completes (works_engineMoves hincr) hs hsize h
  exact ⟨out, hout, hret⟩

end Request

/-! ## The memories -/

section Memories

variable {γ : Type*}

/-- The memory behind the bus and the memory of the device. -/
structure Memories (γ : Type*) where
  host : U64 → γ
  device : U64 → γ

/-- The memories after some moves. -/
def Memories.after (s : Memories γ) (dirToDev : Bool) (ms : List (U64 × U64)) : Memories γ :=
  if dirToDev then { s with device := Moves.move s.host ms s.device }
  else { s with host := Moves.move s.device (ms.map Prod.swap) s.host }

/-- Where the device has byte `i` from `pos` on. -/
def deviceAddr (pos : U64) (i : ℕ) : U64 :=
  pos + BitVec.ofNat 64 i

theorem deviceAddr_inj {pos : U64} {i j : ℕ} (hi : i < 2 ^ 64) (hj : j < 2 ^ 64)
    (h : deviceAddr pos i = deviceAddr pos j) : i = j := by
  rw [← Chain.toNat_sub_cover pos hi, ← Chain.toNat_sub_cover pos hj]
  exact congrArg (fun a => (a - pos).toNat) h

/-- Where the bus has byte `i` of a buffer of the user. -/
def PageTable.userAddr (t : PageTable) (buf : U64) (i : ℕ) : U64 :=
  t.translate (buf + BitVec.ofNat 64 i)

/-- The buffer of `n` bytes has each of them at a place of its own. -/
def PageTable.Apart (t : PageTable) (buf : U64) (n : ℕ) : Prop :=
  ((List.range n).map (t.userAddr buf)).Nodup

variable {t : PageTable} {buf pos : U64} {m n : ℕ}

instance (t : PageTable) (buf : U64) (n : ℕ) : Decidable (t.Apart buf n) :=
  inferInstanceAs (Decidable (List.Nodup _))

/-- `m` bytes have been copied, to the device or to the user, and nothing else has changed. -/
def CopiesBytes (dirToDev : Bool) (t : PageTable) (buf pos : U64) (m : ℕ) (s s' : Memories γ) :
    Prop :=
  if dirToDev then
    s'.host = s.host ∧
      Moves.Copied (fun i => s.host (t.userAddr buf i)) (deviceAddr pos) m s.device s'.device
  else
    s'.device = s.device ∧
      Moves.Copied (fun i => s.device (deviceAddr pos i)) (t.userAddr buf) m s.host s'.host

theorem PageTable.copies_eq : t.copies buf pos n =
    ((List.range n).map (t.userAddr buf)).zip ((List.range n).map (deviceAddr pos)) := by
  rw [copies, Chain.cover, List.map_map]
  rfl

theorem PageTable.Apart.mono (h : t.Apart buf n) (hle : m ≤ n) : t.Apart buf m :=
  h.sublist (List.Sublist.map _ (List.range_sublist.mpr hle))

/-- The moves of a copy copy its bytes. -/
theorem copiesBytes_after (dirToDev : Bool) (s : Memories γ) (hmax : n ≤ 2 ^ 64)
    (hapart : dirToDev = false → t.Apart buf n) :
    CopiesBytes dirToDev t buf pos n s (s.after dirToDev (t.copies buf pos n)) := by
  cases dirToDev with
  | true =>
    refine ⟨rfl, ?_⟩
    rw [t.copies_eq]
    exact Moves.copied_move _ (Chain.nodup_cover pos hmax) _ _
  | false =>
    refine ⟨rfl, ?_⟩
    change Moves.Copied _ _ _ _ (Moves.move _ ((t.copies buf pos n).map Prod.swap) _)
    rw [t.copies_eq, List.zip_swap]
    exact Moves.copied_move _ (hapart rfl) _ _

/-- What a request does : it copies the first `m` of its bytes, and returns its size when these are
all, or an error. -/
structure RequestCopies (dirToDev : Bool) (t : PageTable) (buf pos : U64) (size m : ℕ)
    (out : RequestEnd (U64 × U64)) (s s' : Memories γ) : Prop where
  le : m ≤ size
  copies : CopiesBytes dirToDev t buf pos m s s'
  result : (out.ret = size ∧ m = size ∧ out.pos = pos + BitVec.ofNat 64 size) ∨
    (out.ret < 0 ∧ ∃ d ≤ m, out.pos = pos + BitVec.ofNat 64 d)

theorem toInt_toNat_le (count : U64) : count.toInt.toNat ≤ 2 ^ 64 := by
  have := count.toInt_lt
  omega

theorem RequestEnded.requestCopies {dirToDev : Bool} {size : ℕ}
    {out : RequestEnd (U64 × U64)} (s : Memories γ)
    (h : RequestEnded (t.copies buf pos size) pos size m out) (hmax : size ≤ 2 ^ 64)
    (hapart : dirToDev = false → t.Apart buf size) :
    RequestCopies dirToDev t buf pos size m out s (s.after dirToDev out.done) := by
  refine ⟨h.le, ?_, h.result⟩
  rw [h.done, PageTable.take_copies, min_eq_left h.le]
  exact copiesBytes_after dirToDev s (h.le.trans hmax) fun hdir => (hapart hdir).mono h.le

/-- For every buffer, page table and position, every size, and whatever becomes of its chunks, a
request copies between the user and the device if the hardware has moved all of each chunk that
completes : all its bytes when it returns its size, and else the first of them, with an error and a
position that has not gone past them. No other byte of either memory changes. -/
theorem request_copies (a : EngineAlignment) (t : PageTable) (runs : ℕ → ChunkRun)
    (buf count pos : U64) (dirToDev : Bool) (hincr : a.nonIncrAddr = false)
    (hapart : dirToDev = false → t.Apart buf count.toInt.toNat)
    (hmoved : MovesCompleted runs count.toInt.toNat) (s : Memories γ)
    (out : RequestEnd (U64 × U64))
    (h : moveRequest a t runs buf count pos dirToDev = some out) :
    ∃ m, RequestCopies dirToDev t buf pos count.toInt.toNat m out s
      (s.after dirToDev out.done) := by
  obtain ⟨m, hend⟩ := moveRequest_ended hincr hmoved h
  exact ⟨m, hend.requestCopies s (toInt_toNat_le count) hapart⟩

/-- Page `i` of the user is page `f i` of the bus. -/
def PageTable.of (f : ℕ → ℕ) : PageTable where
  bus i := BitVec.ofNat 64 (PAGE_SIZE * f i)
  aligned i := by
    rw [BitVec.toNat_ofNat]
    exact (Nat.dvd_mod_iff (by decide)).mpr (Nat.dvd_mul_right _ _)

/-- A chunk of two pages that is moved and completes. -/
def twoPageRun : ChunkRun where
  create := (pinningAnswers 2).create
  wait := ⟨⟨.completed, 0⟩, fun h => nomatch h⟩
  moved := 2 * PAGE_SIZE

/-- It completes a stretch on two pages. -/
theorem twoPageRun_completes {t : PageTable} {start count : U64} (hwrap : ¬ start + count < start)
    (htwo : nrPages start count = 2) (hcount : count.toNat ≤ 2 * PAGE_SIZE) :
    twoPageRun.Completes t start count :=
  ⟨rfl, ⟨rfl, rfl, rfl, ⟨hwrap, htwo.symm⟩, rfl, Option.some_ne_none _⟩, rfl, hcount⟩

theorem twoPageRun_moves {size : ℕ} (hsize : size ≤ 2 * PAGE_SIZE) :
    MovesCompleted (fun _ => twoPageRun) size := by
  intro k _ _
  have hall : (size : ℤ) ≤ (2 * PAGE_SIZE : ℕ) := by exact_mod_cast hsize
  have hk : (0 : ℤ) ≤ k * XDMA_TRANSFER_MAX_BYTES := mul_nonneg (Int.natCast_nonneg k) (by decide)
  exact (min_le_right _ _).trans ((sub_le_self _ hk).trans hall)

/-- Three bytes over the border of two pages, which the bus has the other way round. -/
theorem request_copies_two_pages :
    ∃ out m, moveRequest plainEngine (.of (· ^^^ 1)) (fun _ => twoPageRun) 0xffe 3 0xffe true =
        some out ∧
      RequestCopies true (.of (· ^^^ 1)) 0xffe 0xffe 3 m out
        (⟨fun a => a, fun _ => 0⟩ : Memories U64)
        ((⟨fun a => a, fun _ => 0⟩ : Memories U64).after true out.done) := by
  have hall : AllComplete (fun _ => twoPageRun) (.of (· ^^^ 1)) 0xffe 3 :=
    allComplete_single (by decide) (twoPageRun_completes (by decide) (by decide) (by decide))
  have hcount : (3 : U64).toInt = (3 : ℕ) := by decide
  have haccept : charSgdmaReadWrite plainEngine 0xffe 3 0xffe true = .ok ⟨.enter 3 0xffe, 0xffe⟩ :=
    rfl
  obtain ⟨out, hout, -⟩ := moveRequest_completes rfl haccept hcount hall
  obtain ⟨m, hcopies⟩ := request_copies plainEngine (.of (· ^^^ 1)) (fun _ => twoPageRun) 0xffe 3
    0xffe true rfl (fun h => nomatch h) (twoPageRun_moves (by decide)) ⟨fun a => a, fun _ => 0⟩ out
    hout
  exact ⟨out, m, hout, hcopies⟩

end Memories

end Wimi
