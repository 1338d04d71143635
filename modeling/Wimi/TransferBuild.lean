import Wimi.Descriptor
import Wimi.Lib.Chain

/-!
# Building a descriptor chain

`transfer_build` merges contiguous entries of a DMA-mapped scatterlist into descriptors,
`transfer_perf` (or the same steps in `transfer_create`) terminates the last one, and
`xdma_desc_adjacent` packs the prefetch hints.

The merge is stated on its own, as the list of blocks it makes; `transferBuildFrom_eq` says
that the loop writes exactly these.

`desc_chain` : a DMA engine that follows the chain visits every descriptor once, in order,
and moves exactly the bytes of the scatterlist.
-/

open Chain

namespace Wimi

/-- A DMA-mapped scatterlist entry. -/
structure SgEntry where
  addr : U64
  len : U32

/-- A DMA-mapped scatterlist : at least one entry, at most as many as an `int` counts, each
of at least a byte and at most a page. -/
structure Sgl (pageSize : U64) where
  entries : List SgEntry
  ne_nil : entries ≠ []
  nents_lt : entries.length < 2 ^ 31
  len_pos : ∀ e ∈ entries, 0 < e.len.toNat
  len_le : ∀ e ∈ entries, e.len.toNat ≤ pageSize.toNat

/-- The settings a chain is built with. -/
structure BuildArgs where
  pageSize : U64
  dirToDev : Bool
  nonIncrAddr : Bool
  forceNewDesc : Bool
  userspace : Bool

namespace BuildArgs

variable (c : BuildArgs)

/-- `new_desc`, decided between entry `e` and the one behind it. `contLen` is the length of
the block up to and with `e`. -/
def newDesc (contLen : U32) (e next : SgEntry) : Bool :=
  next.addr ≠ e.addr + e.len.setWidth 64 ∨
    contLen.setWidth 64 > XDMA_DESC_MAX_BYTES - c.pageSize ∨ (c.forceNewDesc ∧ ¬ c.userspace)

/-- The end point address behind a block. -/
def advance (epAddr : U64) (contLen : U32) : U64 :=
  if c.userspace then
    if c.nonIncrAddr then epAddr else epAddr + contLen.setWidth 64
  else epAddr + contLen.setWidth 64

end BuildArgs

/-! ## The source's loop -/

/-- The locals of `transfer_build` that survive a turn of its loop. `addr` is the address of
the current entry. -/
structure BuildState where
  descVirt : DescTable
  j : ℕ
  epAddr : U64
  contAddr : U64
  contLen : U32

/-- One turn of the loop of `transfer_build`, from entry `e` to `next`. -/
def buildStep (c : BuildArgs) (s : BuildState) (e next : SgEntry) : BuildState :=
  let contLen := s.contLen + e.len
  if c.newDesc contLen e next then
    { descVirt := Function.update s.descVirt s.j
        (xdmaDescSet (s.descVirt s.j) s.contAddr s.epAddr contLen c.dirToDev)
      j := s.j + 1
      epAddr := c.advance s.epAddr contLen
      contAddr := next.addr
      contLen := 0 }
  else { s with contLen := contLen }

/-- `transfer_build` from entry `e` on : the table, and the index of the last descriptor. -/
def transferBuildFrom (c : BuildArgs) (s : BuildState) (e : SgEntry) :
    List SgEntry → DescTable × ℕ
  | [] =>
    (Function.update s.descVirt s.j
      (xdmaDescSet (s.descVirt s.j) s.contAddr s.epAddr (s.contLen + e.len) c.dirToDev), s.j)
  | next :: rest => transferBuildFrom c (buildStep c s e next) next rest

/-- `transfer_build`. The second `none` is `BUG_ON(j > sgl_nents)`. -/
def transferBuild (c : BuildArgs) (descVirt : DescTable) (epAddr : U64) :
    List SgEntry → Option (DescTable × ℕ)
  | [] => none
  | e :: rest =>
    let (t, j) := transferBuildFrom c ⟨descVirt, 0, epAddr, e.addr, 0⟩ e rest
    if j > rest.length + 1 then none else some (t, j)

/-- Replace descriptor `last` by a terminated one that stops the engine, ends the packet and
asks for an interrupt : the body of `transfer_perf`, and its copy in `transfer_create`. -/
def terminateLast (t : DescTable) (last : ℕ) : Option DescTable := do
  let control := XDMA_DESC_STOPPED ||| XDMA_DESC_EOP ||| XDMA_DESC_COMPLETED
  let d ← xdmaDescControl (xdmaDescLink (t last) none) control
  some (Function.update t last d)

/-- `transfer_perf`. -/
def transferPerf (t : DescTable) (last : ℕ) : Option DescTable :=
  terminateLast t last

/-- What `transfer_create` keeps of a chain in its `xdma_transfer`. -/
structure BuiltTransfer where
  descVirt : DescTable
  descBus : U64
  descNum : ℕ
  descAdjacent : ℕ

/-- The loop that fills in the adjacent numbers, after its first `i` turns. -/
def fillAdjacent (t : DescTable) (descNum : ℕ) : ℕ → DescTable
  | 0 => t
  | i + 1 =>
    let t := fillAdjacent t descNum i
    Function.update t i (xdmaDescAdjacent (t i) (descNum - i - 1))

/-- `transfer_create` from the mapped scatterlist on, with the descriptors allocated in `mem`
at `descBus`. -/
def transferCreate (c : BuildArgs) (mem : DescTable) (descBus epAddr : U64)
    (sgl : List SgEntry) : Option BuiltTransfer := do
  let t ← xdmaDescAlloc mem descBus sgl.length
  let (t, last) ← transferBuild c t epAddr sgl
  let t ← if c.userspace then transferPerf t last else terminateLast t last
  let descNum := last + 1
  some ⟨fillAdjacent t descNum descNum, descBus, descNum, descNum⟩

/-! ## The merge on its own -/

/-- The addresses of an entry. -/
def SgEntry.cover (e : SgEntry) : List U64 :=
  Chain.cover e.addr e.len.toNat

/-- The blocks entries are merged into from entry `e` on, when a block of `contLen` bytes is
open at `contAddr`. -/
def merge (c : BuildArgs) (contAddr : U64) (contLen : U32) (e : SgEntry) :
    List SgEntry → List SgEntry
  | [] => [⟨contAddr, contLen + e.len⟩]
  | next :: rest =>
    if c.newDesc (contLen + e.len) e next then
      ⟨contAddr, contLen + e.len⟩ :: merge c next.addr 0 next rest
    else merge c contAddr (contLen + e.len) next rest

/-- Fill in one descriptor for each block, from index `j` on. -/
def writeBlocks (c : BuildArgs) (t : DescTable) (j : ℕ) (epAddr : U64) :
    List SgEntry → DescTable
  | [] => t
  | b :: bs =>
    writeBlocks c (Function.update t j (xdmaDescSet (t j) b.addr epAddr b.len c.dirToDev)) (j + 1)
      (c.advance epAddr b.len) bs

/-- The end point address after some blocks. -/
def BuildArgs.advances (c : BuildArgs) (epAddr : U64) (bs : List SgEntry) : U64 :=
  bs.foldl (fun a b => c.advance a b.len) epAddr

variable {c : BuildArgs}

theorem length_merge (contAddr : U64) (contLen : U32) (e : SgEntry) (rest : List SgEntry) :
    0 < (merge c contAddr contLen e rest).length ∧
      (merge c contAddr contLen e rest).length ≤ rest.length + 1 := by
  induction rest generalizing contAddr contLen e with
  | nil => exact ⟨Nat.one_pos, le_refl _⟩
  | cons next rest ih =>
    rw [merge]
    split
    · have := ih next.addr 0 next
      simp only [List.length_cons]
      omega
    · have := ih contAddr (contLen + e.len) next
      simp only [List.length_cons]
      omega

/-- The loop writes the blocks of the merge. -/
theorem transferBuildFrom_eq (s : BuildState) (e : SgEntry) (rest : List SgEntry) :
    transferBuildFrom c s e rest =
      (writeBlocks c s.descVirt s.j s.epAddr (merge c s.contAddr s.contLen e rest),
        s.j + (merge c s.contAddr s.contLen e rest).length - 1) := by
  induction rest generalizing s e with
  | nil => rfl
  | cons next rest ih =>
    rw [transferBuildFrom, ih, merge, buildStep]
    split
    · have := (length_merge (c := c) next.addr 0 next rest).1
      simp only [writeBlocks, List.length_cons, Prod.mk.injEq, true_and]
      omega
    · rfl

/-- What the merge relies on between two entries : the open block ends where `e` begins and
leaves room for another page. -/
structure MergeOk (c : BuildArgs) (contAddr : U64) (contLen : U32) (e : SgEntry)
    (rest : List SgEntry) : Prop where
  page : c.pageSize.toNat ≤ XDMA_DESC_MAX_BYTES.toNat
  adjoins : contAddr + contLen.setWidth 64 = e.addr
  room : contLen.toNat + c.pageSize.toNat ≤ XDMA_DESC_MAX_BYTES.toNat
  pos : ∀ d ∈ e :: rest, 0 < d.len.toNat
  le : ∀ d ∈ e :: rest, d.len.toNat ≤ c.pageSize.toNat

/-- The source goes on with a block only where the next entry adjoins it, below the size at
which another page might not fit. -/
theorem adjoins_of_newDesc_eq_false {contLen : U32} {e next : SgEntry}
    (h : c.newDesc contLen e next = false) :
    next.addr = e.addr + e.len.setWidth 64 ∧
      contLen.setWidth 64 ≤ XDMA_DESC_MAX_BYTES - c.pageSize := by
  simp only [BuildArgs.newDesc, decide_eq_false_iff_not, not_or, not_not] at h
  exact ⟨h.1, BitVec.not_lt.mp h.2.1⟩

namespace MergeOk

variable {contAddr : U64} {contLen : U32} {e next : SgEntry} {rest : List SgEntry}

/-- The block grown by `e` fits in a descriptor, and its length does not wrap. -/
theorem toNat_add (h : MergeOk c contAddr contLen e rest) :
    (contLen + e.len).toNat = contLen.toNat + e.len.toNat ∧
      (contLen + e.len).toNat ≤ XDMA_DESC_MAX_BYTES.toNat ∧ 0 < (contLen + e.len).toNat := by
  have hmax : XDMA_DESC_MAX_BYTES.toNat = 262143 := rfl
  have := h.room
  have := h.pos e List.mem_cons_self
  have := h.le e List.mem_cons_self
  rw [BitVec.toNat_add, Nat.mod_eq_of_lt (by omega)]
  omega

/-- A block that ends at `e` covers what it covered, and `e`. -/
theorem cover_add (h : MergeOk c contAddr contLen e rest) :
    Chain.cover contAddr (contLen + e.len).toNat =
      Chain.cover contAddr contLen.toNat ++ e.cover := by
  rw [h.toNat_add.1, cover_append, SgEntry.cover, ← h.adjoins, BitVec.ofNat_toNat]

/-- A new block can be opened at the next entry. -/
theorem of_new (h : MergeOk c contAddr contLen e (next :: rest)) :
    MergeOk c next.addr 0 next rest where
  page := h.page
  adjoins := by simp
  room := by simpa using h.page
  pos d hd := h.pos d (List.mem_cons_of_mem _ hd)
  le d hd := h.le d (List.mem_cons_of_mem _ hd)

/-- The block can go on when the source goes on with it. -/
theorem of_not_new (h : MergeOk c contAddr contLen e (next :: rest))
    (hnew : c.newDesc (contLen + e.len) e next = false) :
    MergeOk c contAddr (contLen + e.len) next rest where
  page := h.page
  adjoins := by
    rw [(adjoins_of_newDesc_eq_false hnew).1, ← h.adjoins, BitVec.add_assoc]
    congr 1
    refine BitVec.eq_of_toNat_eq ?_
    have := h.toNat_add
    have := contLen.isLt
    have := e.len.isLt
    simp only [BitVec.toNat_setWidth, BitVec.toNat_add] at this ⊢
    omega
  room := by
    have hle := (adjoins_of_newDesc_eq_false hnew).2
    rw [BitVec.le_def, BitVec.toNat_sub_of_le h.page, BitVec.toNat_setWidth,
      Nat.mod_eq_of_lt (by omega)] at hle
    have := h.page
    omega
  pos d hd := h.pos d (List.mem_cons_of_mem _ hd)
  le d hd := h.le d (List.mem_cons_of_mem _ hd)

end MergeOk

/-- The blocks cover the open block and the entries from `e` on, in order. -/
theorem cover_merge {contAddr : U64} {contLen : U32} {e : SgEntry} {rest : List SgEntry}
    (h : MergeOk c contAddr contLen e rest) :
    (merge c contAddr contLen e rest).flatMap SgEntry.cover =
      Chain.cover contAddr contLen.toNat ++ (e :: rest).flatMap SgEntry.cover := by
  induction rest generalizing contAddr contLen e with
  | nil =>
    rw [merge, List.flatMap_singleton, List.flatMap_singleton, ← h.cover_add]
    rfl
  | cons next rest ih =>
    rw [merge]
    split
    · rw [List.flatMap_cons, ih h.of_new, SgEntry.cover, h.cover_add]
      simp
    · next hnew =>
      rw [ih (h.of_not_new (by simpa using hnew)), h.cover_add]
      simp

/-- Every block fits in a descriptor. -/
theorem len_merge {contAddr : U64} {contLen : U32} {e : SgEntry} {rest : List SgEntry}
    (h : MergeOk c contAddr contLen e rest) :
    ∀ b ∈ merge c contAddr contLen e rest,
      0 < b.len.toNat ∧ b.len.toNat ≤ XDMA_DESC_MAX_BYTES.toNat := by
  induction rest generalizing contAddr contLen e with
  | nil => simpa [merge] using h.toNat_add.2.symm
  | cons next rest ih =>
    rw [merge]
    split
    · intro b hb
      rcases List.mem_cons.mp hb with rfl | hb
      · exact h.toNat_add.2.symm
      · exact ih h.of_new b hb
    · next hnew => exact ih (h.of_not_new (by simpa using hnew))

/-! ## The table the loop leaves -/

section Table

variable (t : DescTable) (j : ℕ) (epAddr : U64)

/-- Only the descriptors of the blocks are written. -/
theorem writeBlocks_outside (bs : List SgEntry) {k : ℕ} (hk : k < j ∨ j + bs.length ≤ k) :
    writeBlocks c t j epAddr bs k = t k := by
  induction bs generalizing t j epAddr with
  | nil => rfl
  | cons b bs ih =>
    rw [List.length_cons] at hk
    rw [writeBlocks, ih _ _ _ (by omega), Function.update_of_ne (by omega)]

/-- Each block is written to its descriptor, with the end point address behind the blocks
before it. -/
theorem writeBlocks_get (bs : List SgEntry) {k : ℕ} (hk : k < bs.length) :
    writeBlocks c t j epAddr bs (j + k) =
      xdmaDescSet (t (j + k)) bs[k].addr (c.advances epAddr (bs.take k)) bs[k].len c.dirToDev := by
  induction bs generalizing t j epAddr k with
  | nil => exact absurd hk (Nat.not_lt_zero k)
  | cons b bs ih =>
    rw [writeBlocks]
    cases k with
    | zero =>
      rw [writeBlocks_outside _ _ _ _ (Or.inl (by omega)), Nat.add_zero, Function.update_self]
      rfl
    | succ k =>
      have hlt : k < bs.length := by simpa using hk
      rw [show j + (k + 1) = j + 1 + k by omega, ih _ _ _ hlt, Function.update_of_ne (by omega)]
      rfl

theorem fillAdjacent_of_le {n i k : ℕ} (h : i ≤ k) : fillAdjacent t n i k = t k := by
  induction i with
  | zero => rfl
  | succ i ih =>
    rw [fillAdjacent, Function.update_of_ne (by omega)]
    exact ih (by omega)

/-- The adjacent numbers leave everything but the adjacency alone. -/
theorem fillAdjacent_of_lt {n i k : ℕ} (h : k < i) :
    fillAdjacent t n i k = xdmaDescAdjacent (t k) (n - k - 1) := by
  induction i with
  | zero => omega
  | succ i ih =>
    rw [fillAdjacent]
    rcases Nat.lt_succ_iff_lt_or_eq.mp h with hlt | rfl
    · rw [Function.update_of_ne (by omega)]
      exact ih hlt
    · rw [Function.update_self, fillAdjacent_of_le _ (le_refl _)]

end Table

/-- The control byte of the last descriptor of a chain. -/
def lastControl : U32 :=
  XDMA_DESC_STOPPED ||| XDMA_DESC_EOP ||| XDMA_DESC_COMPLETED

/-- A descriptor with no next one and the control byte of the last of a chain. -/
def terminated (d : XdmaDesc) : XdmaDesc :=
  { xdmaDescLink d none with
    control := ((xdmaDescLink d none).control &&& ~~~LS_BYTE_MASK) ||| lastControl }

theorem terminateLast_eq (t : DescTable) (last : ℕ) :
    terminateLast t last = some (Function.update t last (terminated (t last))) := by
  rw [terminateLast, show XDMA_DESC_STOPPED ||| XDMA_DESC_EOP ||| XDMA_DESC_COMPLETED = lastControl
    from rfl, xdmaDescControl_of_mask _ lastControl (by decide)]
  rfl

theorem nextAddr_terminated (d : XdmaDesc) : (terminated d).nextAddr = 0 :=
  nextAddr_zero

theorem controlByte_terminated (d : XdmaDesc) : (terminated d).controlByte = lastControl :=
  control_set_and_mask lastControl _ (by decide)

/-- The table of the blocks `bs`, before the adjacent numbers are filled in. -/
def finishedTable (c : BuildArgs) (t : DescTable) (epAddr : U64) (bs : List SgEntry) :
    DescTable :=
  let written := writeBlocks c t 0 epAddr bs
  Function.update written (bs.length - 1) (terminated (written (bs.length - 1)))

/-- The descriptor of a block, terminated when it is the last. -/
theorem finishedTable_get (t : DescTable) (epAddr : U64) {bs : List SgEntry} {k : ℕ}
    (hk : k < bs.length) :
    let d := xdmaDescSet (t k) bs[k].addr (c.advances epAddr (bs.take k)) bs[k].len c.dirToDev
    finishedTable c t epAddr bs k = if k + 1 = bs.length then terminated d else d := by
  have hget := writeBlocks_get (c := c) t 0 epAddr bs hk
  rw [Nat.zero_add] at hget
  split
  · obtain rfl : k = bs.length - 1 := by omega
    rw [finishedTable, Function.update_self, hget]
  · rw [finishedTable, Function.update_of_ne (by omega), hget]

/-- Descriptor `k` of a finished chain of the blocks `bs` at `bus` : linked to the one behind
it, or terminated when it is the last, and moving its block. -/
structure IsLink (c : BuildArgs) (bus epAddr : U64) (bs : List SgEntry) (k : ℕ)
    (d : XdmaDesc) : Prop where
  lt : k < bs.length
  next : d.nextAddr =
    if k + 1 = bs.length then 0 else bus + BitVec.ofNat 64 (descSize * (k + 1))
  control : d.controlByte = if k + 1 = bs.length then lastControl else 0
  bytes : d.bytes = bs[k].len
  host : d.hostAddr c.dirToDev = bs[k].addr
  device : d.epAddr c.dirToDev = c.advances epAddr (bs.take k)

/-- The adjacency is no part of a link. -/
theorem IsLink.adjacent {bus epAddr : U64} {bs : List SgEntry} {k : ℕ} {d : XdmaDesc}
    (h : IsLink c bus epAddr bs k d) (n : ℤ) : IsLink c bus epAddr bs k (xdmaDescAdjacent d n) :=
  { h with control := (controlByte_xdmaDescAdjacent d n).trans h.control }

/-- A finished chain of the blocks `bs`. -/
structure IsChain (c : BuildArgs) (x : BuiltTransfer) (bus epAddr : U64)
    (bs : List SgEntry) : Prop where
  descBus : x.descBus = bus
  descNum : x.descNum = bs.length
  link : ∀ k < bs.length, IsLink c bus epAddr bs k (x.descVirt k)

/-- `transfer_build` on a nonempty list : the blocks of the merge, from index 0 on. -/
theorem transferBuild_eq (t : DescTable) (epAddr : U64) (e : SgEntry) (rest : List SgEntry) :
    transferBuild c t epAddr (e :: rest) =
      some (writeBlocks c t 0 epAddr (merge c e.addr 0 e rest),
        (merge c e.addr 0 e rest).length - 1) := by
  have := (length_merge (c := c) e.addr 0 e rest).2
  simp only [transferBuild, transferBuildFrom_eq, Nat.zero_add]
  exact if_neg (by omega)

/-- `transfer_create` on a nonempty list, in the table `t` that was allocated for it. -/
theorem transferCreate_eq {mem t : DescTable} {descBus : U64} (epAddr : U64) {e : SgEntry}
    {rest : List SgEntry} (ht : xdmaDescAlloc mem descBus (e :: rest).length = some t) :
    transferCreate c mem descBus epAddr (e :: rest) =
      let bs := merge c e.addr 0 e rest
      some ⟨fillAdjacent (finishedTable c t epAddr bs) bs.length bs.length, descBus, bs.length,
        bs.length⟩ := by
  have hlen := length_merge (c := c) e.addr 0 e rest
  rw [transferCreate, ht, Option.bind_eq_bind, Option.bind_some, transferBuild_eq,
    Option.bind_eq_bind, Option.bind_some]
  simp only [transferPerf, ite_self, terminateLast_eq, Option.bind_some,
    Nat.sub_add_cancel hlen.1]
  rfl

/-- `transfer_create` makes a finished chain of the merged blocks. -/
theorem transferCreate_isChain (mem : DescTable) (descBus epAddr : U64) (e : SgEntry)
    (rest : List SgEntry) :
    ∃ x, transferCreate c mem descBus epAddr (e :: rest) = some x ∧
      IsChain c x descBus epAddr (merge c e.addr 0 e rest) := by
  have hlen := length_merge (c := c) e.addr 0 e rest
  have hentries : 0 < (e :: rest).length := Nat.succ_pos _
  obtain ⟨t, ht, hcontrol, hlink, -⟩ := xdmaDescAlloc_spec mem descBus hentries
  simp only [List.length_cons] at hcontrol hlink
  refine ⟨_, transferCreate_eq epAddr ht, rfl, rfl, fun k hk => ?_⟩
  simp only [fillAdjacent_of_lt _ hk]
  refine IsLink.adjacent ?_ _
  have hget := finishedTable_get (c := c) t epAddr hk
  dsimp only at hget
  rw [hget]
  by_cases hklast : k + 1 = (merge c e.addr 0 e rest).length
  · rw [if_pos hklast]
    refine ⟨hk, ?_, ?_, bytes_xdmaDescSet .., hostAddr_xdmaDescSet .., epAddr_xdmaDescSet ..⟩
    · rw [if_pos hklast, nextAddr_terminated]
    · rw [if_pos hklast, controlByte_terminated]
  · rw [if_neg hklast]
    refine ⟨hk, ?_, ?_, bytes_xdmaDescSet .., hostAddr_xdmaDescSet .., epAddr_xdmaDescSet ..⟩
    · rw [if_neg hklast, nextAddr_xdmaDescSet, hlink k (by omega)]
    · rw [if_neg hklast, XdmaDesc.controlByte, control_xdmaDescSet]
      exact hcontrol k (by omega)

/-! ## What the DMA engine does with it -/

/-- The descriptor of a table of `n` at `bus` that lies at bus address `a`. -/
def fetchDesc (bus : U64) (n : ℕ) (a : U64) : Option ℕ :=
  let off := (a - bus).toNat
  if off % descSize = 0 ∧ off / descSize < n then some (off / descSize) else none

/-- A flag of the control word is set. -/
def XdmaDesc.Has (d : XdmaDesc) (flag : U32) : Prop :=
  d.control &&& flag ≠ 0

instance (d : XdmaDesc) (flag : U32) : Decidable (d.Has flag) :=
  inferInstanceAs (Decidable (_ ≠ _))

/-- The descriptors a DMA engine visits that starts at `desc_bus` and follows the next
pointers until a descriptor with `XDMA_DESC_STOPPED`, in a table of `n`. -/
def BuiltTransfer.walk (x : BuiltTransfer) (n fuel : ℕ) : Option (List ℕ) :=
  Chain.walk (fetchDesc x.descBus n) (fun k => (x.descVirt k).nextAddr)
    (fun k => decide ((x.descVirt k).Has XDMA_DESC_STOPPED)) fuel x.descBus

/-- The bytes of root complex memory descriptor `k` moves, in order. -/
def BuiltTransfer.hostBytes (x : BuiltTransfer) (dirToDev : Bool) (k : ℕ) : List U64 :=
  Chain.cover ((x.descVirt k).hostAddr dirToDev) (x.descVirt k).bytes.toNat

/-- The descriptors a DMA engine visits in at most `n` steps from `desc_bus` on. -/
def BuiltTransfer.visits (x : BuiltTransfer) (n : ℕ) : Option (List ℕ) :=
  Chain.visits (fetchDesc x.descBus x.descNum) (fun k => (x.descVirt k).nextAddr)
    (fun k => decide ((x.descVirt k).Has XDMA_DESC_STOPPED)) n x.descBus

theorem fetchDesc_of_lt (bus : U64) {n k : ℕ} (hn : n ≤ 2 ^ 31) (hk : k < n) :
    fetchDesc bus n (bus + BitVec.ofNat 64 (descSize * k)) = some k := by
  have hoff : (bus + BitVec.ofNat 64 (descSize * k) - bus).toNat = 32 * k := by
    rw [BitVec.add_comm, BitVec.add_sub_cancel, BitVec.toNat_ofNat, descSize]
    omega
  refine (if_pos ?_).trans ?_ <;> rw [hoff, descSize]
  · omega
  · congr 1
    omega

/-- An engine goes round descriptors that are linked in a ring and do not stop it. -/
theorem visits_ring {x : BuiltTransfer} {bus : U64} (hbus : x.descBus = bus)
    (hpos : 0 < x.descNum) (hle : x.descNum ≤ 2 ^ 31)
    (hnext : ∀ k < x.descNum, (x.descVirt k).nextAddr =
      bus + BitVec.ofNat 64 (descSize * ((k + 1) % x.descNum)))
    (hgo : ∀ k < x.descNum, ¬ (x.descVirt k).Has XDMA_DESC_STOPPED) (n : ℕ) :
    x.visits n = some ((List.range n).map (· % x.descNum)) := by
  have hmod (k : ℕ) : k % x.descNum < x.descNum := Nat.mod_lt _ hpos
  have hfetch (k : ℕ) : fetchDesc bus x.descNum
      (bus + BitVec.ofNat 64 (descSize * (k % x.descNum))) = some (k % x.descNum) :=
    fetchDesc_of_lt _ hle (hmod k)
  have hlink (k : ℕ) : (x.descVirt (k % x.descNum)).nextAddr =
      bus + BitVec.ofNat 64 (descSize * ((k + 1) % x.descNum)) := by
    rw [hnext _ (hmod k), Nat.mod_add_mod]
  have hstop (k : ℕ) : decide ((x.descVirt (k % x.descNum)).Has XDMA_DESC_STOPPED) = false :=
    decide_eq_false (hgo _ (hmod k))
  have hstart : bus = bus + BitVec.ofNat 64 (descSize * (0 % x.descNum)) := by
    rw [Nat.zero_mod]
    exact (BitVec.add_zero _).symm
  calc x.visits n
    _ = Chain.visits (fetchDesc bus x.descNum) (fun k => (x.descVirt k).nextAddr)
          (fun k => decide ((x.descVirt k).Has XDMA_DESC_STOPPED)) n
          (bus + BitVec.ofNat 64 (descSize * (0 % x.descNum))) := by
        rw [← hstart, BuiltTransfer.visits, hbus]
    _ = some ((List.range' 0 n).map (· % x.descNum)) :=
        Chain.visits_eq (fun k => bus + BitVec.ofNat 64 (descSize * (k % x.descNum)))
          (· % x.descNum) hfetch hlink hstop 0 n
    _ = some ((List.range n).map (· % x.descNum)) := by rw [List.range_eq_range']

/-- A flag of the control byte can be read off the control byte. -/
theorem has_iff_controlByte (d : XdmaDesc) {flag : U32} (h : LS_BYTE_MASK &&& flag = flag) :
    d.Has flag ↔ d.controlByte &&& flag ≠ 0 := by
  rw [XdmaDesc.Has, XdmaDesc.controlByte, BitVec.and_assoc, h]

/-- The three flags of the last descriptor. -/
def lastFlags : List U32 :=
  [XDMA_DESC_STOPPED, XDMA_DESC_EOP, XDMA_DESC_COMPLETED]

theorem IsLink.has_iff {bus epAddr : U64} {bs : List SgEntry} {k : ℕ} {d : XdmaDesc}
    (h : IsLink c bus epAddr bs k d) {flag : U32} (hflag : flag ∈ lastFlags) :
    d.Has flag ↔ k + 1 = bs.length := by
  have hflags : LS_BYTE_MASK &&& flag = flag ∧ lastControl &&& flag ≠ 0 := by
    simp only [lastFlags, List.mem_cons, List.not_mem_nil, or_false] at hflag
    rcases hflag with rfl | rfl | rfl <;> exact ⟨rfl, by decide⟩
  rw [has_iff_controlByte d hflags.1, h.control]
  by_cases hlast : k + 1 = bs.length
  · simpa only [hlast, if_pos, iff_true] using hflags.2
  · simp [hlast]

/-- The end point address advances by the bytes moved, unless a user asked for a fixed one. -/
theorem advances_eq (epAddr : U64) (bs : List SgEntry) :
    c.advances epAddr bs =
      if c.userspace ∧ c.nonIncrAddr then epAddr
      else epAddr + BitVec.ofNat 64 (bs.map fun b => b.len.toNat).sum := by
  induction bs generalizing epAddr with
  | nil => simp [BuildArgs.advances]
  | cons b bs ih =>
    rw [BuildArgs.advances, List.foldl_cons]
    refine (ih _).trans ?_
    rw [BuildArgs.advance, List.map_cons, List.sum_cons, BitVec.ofNat_add, BitVec.ofNat_toNat,
      ← BitVec.add_assoc]
    by_cases hu : c.userspace <;> by_cases hn : c.nonIncrAddr <;> simp [hu, hn]

namespace IsChain

variable {x : BuiltTransfer} {bus epAddr : U64} {bs : List SgEntry}

/-- The engine visits every descriptor once, in order, and stops at the last. -/
theorem walk_eq (h : IsChain c x bus epAddr bs) (hpos : 0 < bs.length) {n fuel : ℕ}
    (hn : n ≤ 2 ^ 31) (hle : bs.length ≤ n) (hfuel : bs.length ≤ fuel) :
    x.walk n fuel = some (List.range bs.length) := by
  have hfetch : ∀ k ≤ bs.length - 1,
      fetchDesc bus n (bus + BitVec.ofNat 64 (descSize * k)) = some k :=
    fun k hk => fetchDesc_of_lt bus hn (by omega)
  have hnext : ∀ k < bs.length - 1,
      (x.descVirt k).nextAddr = bus + BitVec.ofNat 64 (descSize * (k + 1)) := by
    intro k hk
    have := (h.link k (by omega)).next
    rwa [if_neg (by omega)] at this
  have hstops : ∀ k ≤ bs.length - 1,
      decide ((x.descVirt k).Has XDMA_DESC_STOPPED) = true ↔ k = bs.length - 1 := by
    intro k hk
    rw [decide_eq_true_iff, (h.link k (by omega)).has_iff List.mem_cons_self]
    omega
  have hlast : bs.length - 1 < fuel := by omega
  have hwalk := Chain.walk_eq hfetch hnext hstops hlast
  rw [BuiltTransfer.walk, h.descBus]
  simpa [Nat.sub_add_cancel hpos] using hwalk

/-- The descriptors move the bytes of the blocks. -/
theorem hostBytes_eq (h : IsChain c x bus epAddr bs) :
    (List.range bs.length).flatMap (x.hostBytes c.dirToDev) = bs.flatMap SgEntry.cover := by
  rw [List.flatMap_def, List.flatMap_def]
  congr 1
  refine List.ext_getElem (by simp) fun k hk _ => ?_
  have hlink := h.link k (by simpa using hk)
  simp [BuiltTransfer.hostBytes, SgEntry.cover, hlink.host, hlink.bytes]

/-- The bytes moved before descriptor `k` are those of the blocks before it. -/
theorem sum_bytes (h : IsChain c x bus epAddr bs) {k : ℕ} (hk : k ≤ bs.length) :
    ((bs.take k).map fun b => b.len.toNat).sum =
      ∑ i ∈ Finset.range k, (x.descVirt i).bytes.toNat := by
  induction k with
  | zero => simp
  | succ k ih =>
    rw [Finset.sum_range_succ, ← ih (by omega), List.take_succ_eq_append_getElem hk,
      List.map_append, List.sum_append, (h.link k hk).bytes, List.map_singleton,
      List.sum_singleton]

end IsChain

/-- A chain from a mapped scatterlist : the engine that starts at `desc_bus` visits exactly
the descriptors, in order, and stops at the last, which is the only one with the flags of a
last descriptor and has no next pointer; the host ranges of the descriptors are the ranges of
the scatterlist, in order; and each device address is behind the bytes moved before it, or
fixed for a user's non-incremental transfer. -/
theorem desc_chain (c : BuildArgs) (hpage : c.pageSize.toNat ≤ XDMA_DESC_MAX_BYTES.toNat)
    (mem : DescTable) (descBus epAddr : U64) (sgl : Sgl c.pageSize) :
    ∃ x, transferCreate c mem descBus epAddr sgl.entries = some x ∧ x.descBus = descBus ∧
      (∀ fuel ≥ x.descNum, x.walk sgl.entries.length fuel = some (List.range x.descNum)) ∧
      (∀ k < x.descNum, ∀ flag ∈ lastFlags, (x.descVirt k).Has flag ↔ k + 1 = x.descNum) ∧
      (x.descVirt (x.descNum - 1)).nextAddr = 0 ∧
      (List.range x.descNum).flatMap (x.hostBytes c.dirToDev) =
        sgl.entries.flatMap SgEntry.cover ∧
      ∀ k < x.descNum, (x.descVirt k).epAddr c.dirToDev =
        if c.userspace ∧ c.nonIncrAddr then epAddr
        else epAddr + BitVec.ofNat 64 (∑ i ∈ Finset.range k, (x.descVirt i).bytes.toNat) := by
  obtain ⟨entries, hne, hnents, hpos, hle⟩ := sgl
  obtain ⟨e, rest, rfl⟩ := List.exists_cons_of_ne_nil hne
  obtain ⟨x, hx, hchain⟩ := transferCreate_isChain (c := c) mem descBus epAddr e rest
  have hlen := length_merge (c := c) e.addr 0 e rest
  have hok : MergeOk c e.addr 0 e rest := ⟨hpage, by simp, by simpa using hpage, hpos, hle⟩
  have hcover : (merge c e.addr 0 e rest).flatMap SgEntry.cover =
      (e :: rest).flatMap SgEntry.cover := by
    simpa using cover_merge hok
  refine ⟨x, hx, hchain.descBus, ?_⟩
  rw [hchain.descNum]
  refine ⟨fun fuel hfuel => ?_, fun k hk flag hflag => ?_, ?_, ?_, fun k hk => ?_⟩
  · exact hchain.walk_eq hlen.1 hnents.le (by simpa using hlen.2) hfuel
  · exact (hchain.link k hk).has_iff hflag
  · rw [(hchain.link _ (by omega)).next, if_pos (by omega)]
  · rw [hchain.hostBytes_eq, hcover]
  · rw [(hchain.link k hk).device, advances_eq, hchain.sum_bytes hk.le]

/-- Two pages of 4096 bytes that do not adjoin. -/
def twoPages : Sgl 4096 where
  entries := [⟨0x10000000, 4096⟩, ⟨0x20000000, 4096⟩]
  ne_nil := by decide
  nents_lt := by decide
  len_pos := by decide
  len_le := by decide

theorem desc_chain_two_pages :
    ∃ x, transferCreate ⟨4096, true, false, false, true⟩ (fun _ => ⟨0, 0, 0, 0, 0, 0, 0, 0⟩)
      0x30000000 0 twoPages.entries = some x ∧
      (List.range x.descNum).flatMap (x.hostBytes true) =
        twoPages.entries.flatMap SgEntry.cover := by
  obtain ⟨x, hx, -, -, -, -, hhost, -⟩ := desc_chain ⟨4096, true, false, false, true⟩ (by decide)
    (fun _ => ⟨0, 0, 0, 0, 0, 0, 0, 0⟩) 0x30000000 0 twoPages
  exact ⟨x, hx, hhost⟩

end Wimi
