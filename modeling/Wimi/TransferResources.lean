import Wimi.UserPages
import Wimi.Lib.Ledger

/-!
# The resources of a transfer

What `transfer_create` acquires and `transfer_destroy` releases, with the mapper of
`sg_create_mapper` and the pages of `sgm_get_user_pages`. What fails behind the allocation of the
`xdma_transfer` is a `BUG_ON`, or a null pointer `transfer_build` writes to.
-/

open Resources

namespace Wimi

/-- What a transfer is made of. -/
inductive TransferPart
  /-- The `xdma_transfer`. -/
  | transfer
  /-- The `sg_mapping_t`. -/
  | mapper
  | pageArray
  | scatterlist
  /-- A pinned page. -/
  | page (i : ℕ)
  /-- The scatterlist is mapped for DMA. -/
  | dmaMap
  | descTable
  deriving DecidableEq

/-- A part of the transfer at a pointer. -/
abbrev TransferResource := Ptr × TransferPart

/-- The kernel a transfer is created in. -/
structure CreateEnv where
  transfer : Bool
  mapper : Bool
  pageArray : Bool
  scatterlist : Bool
  pages : PinnedPages
  dmaMapped : Bool
  descBus : Option U64
  mem : DescTable

/-- What `transfer_create` returns. -/
inductive Created
  | null
  /-- The kernel has stopped. -/
  | bug
  | transfer (mappedPages : ℕ) (x : BuiltTransfer)

/-! ## Creating and destroying -/

section Operations

variable (p : Ptr)

/-- `sg_create_mapper`, with what it allocates; none is a null pointer. There is no memory for an
array of a negative number of pages. -/
def sgCreateMapper (env : CreateEnv) (maxLen : U64) (l : Ledger TransferResource) :
    Ledger TransferResource × Option SgMapping :=
  if maxLen = 0 ∨ ¬ env.mapper then (l, none)
  else
    let l := l.acquire (p, .mapper)
    if maxPages maxLen < 0 ∨ ¬ env.pageArray then (l.release (p, .mapper), none)
    else
      let l := l.acquire (p, .pageArray)
      if ¬ env.scatterlist then ((l.release (p, .pageArray)).release (p, .mapper), none)
      else (l.acquire (p, .scatterlist), some ⟨maxPages maxLen, 0⟩)

/-- `sg_destroy_mapper`. -/
def sgDestroyMapper (l : Ledger TransferResource) : Ledger TransferResource :=
  ((l.release (p, .scatterlist)).release (p, .pageArray)).release (p, .mapper)

/-- `get_user_pages_fast` has pinned `n` pages. -/
def getUserPagesFast (n : ℕ) (l : Ledger TransferResource) : Ledger TransferResource :=
  (List.range n).foldl (fun l i => l.acquire (p, .page i)) l

/-- `sgm_put_user_pages`, of `n` mapped pages. -/
def sgmPutUserPages (n : ℕ) (l : Ledger TransferResource) : Ledger TransferResource :=
  (List.range n).foldl (fun l i => l.release (p, .page i)) l

/-- What `sgm_get_user_pages` leaves pinned. -/
def Pinning.hold (l : Ledger TransferResource) : Pinning → Ledger TransferResource
  | .nothing _ => l
  | .some n => sgmPutUserPages p n (getUserPagesFast p n l)
  | .more n => getUserPagesFast p n l
  | .all n => getUserPagesFast p n l

/-- `transfer_create`, once it has its scatterlist. -/
def describeTransfer (c : BuildArgs) (env : CreateEnv) (epAddr : U64) (mappedPages : ℕ)
    (sgl : List SgEntry) (l : Ledger TransferResource) : Ledger TransferResource × Created :=
  if ¬ env.dmaMapped then (l, .bug)
  else
    let l := l.acquire (p, .dmaMap)
    match env.descBus with
    | none => (l, .bug)
    | some descBus =>
      let l := l.acquire (p, .descTable)
      match transferCreate c env.mem descBus epAddr sgl with
      | none => (l, .bug)
      | some x => (l, .transfer mappedPages x)

/-- `transfer_create`, for `count` bytes of user memory at `start`. -/
def createTransfer (c : BuildArgs) (env : CreateEnv) (start count epAddr : U64)
    (l : Ledger TransferResource) : Ledger TransferResource × Created :=
  if ¬ env.transfer then (l, .null)
  else
    let (l, mapper) := sgCreateMapper p env count (l.acquire (p, .transfer))
    match mapper with
    | none => (l, .bug)
    | some m =>
      let l := (m.pinUserPages env.pages.rc start count).hold p l
      match m.sgmGetUserPages env.pages.rc id start count with
      | some (.ok (n, sgl)) =>
        describeTransfer p c env epAddr n.toNat (sgl.map (PageEntry.mapped env.pages.bus)) l
      | _ => (l, .bug)

/-- `transfer_destroy`, of a transfer with `n` mapped pages. -/
def destroyTransfer (n : ℕ) (l : Ledger TransferResource) : Ledger TransferResource :=
  let l := sgmPutUserPages p n (l.release (p, .dmaMap))
  ((sgDestroyMapper p l).release (p, .descTable)).release (p, .transfer)

end Operations

/-! ## What a transfer holds -/

section Held

variable {p : Ptr} {n : ℕ} {l l' : Ledger TransferResource}

/-- The pages of the transfer at `p`. -/
def pagesHeld (p : Ptr) (n : ℕ) : Multiset TransferResource :=
  ((List.range n).map fun i => {(p, TransferPart.page i)}).sum

/-- The ledger with the transfer at `p` besides. -/
def withTransfer (p : Ptr) (n : ℕ) (l : Ledger TransferResource) : Ledger TransferResource :=
  ((((((l.plus {(p, .transfer)}).plus {(p, .mapper)}).plus {(p, .pageArray)}).plus
    {(p, .scatterlist)}).plus (pagesHeld p n)).plus {(p, .dmaMap)}).plus {(p, .descTable)}

/-- The parts of the transfer at `p`. -/
def transferHeld (p : Ptr) (n : ℕ) : Multiset TransferResource :=
  (withTransfer p n .empty).held

theorem withTransfer_eq : withTransfer p n l = l.plus (transferHeld p n) := by
  simp only [transferHeld, withTransfer, Ledger.plus, Ledger.empty, add_zero, add_assoc]

theorem transfer_mem_transferHeld : (p, TransferPart.transfer) ∈ transferHeld p n := by
  simp [transferHeld, withTransfer, Ledger.plus, Ledger.empty]

theorem getUserPagesFast_eq : getUserPagesFast p n l = l.plus (pagesHeld p n) :=
  Ledger.foldl_acquire _ _ _

theorem sgmPutUserPages_plus : sgmPutUserPages p n (l.plus (pagesHeld p n)) = l :=
  Ledger.foldl_release (t := fun i => {(p, TransferPart.page i)})
    (f := fun l i => l.release (p, TransferPart.page i))
    (fun _ _ => Ledger.release_plus) _ _

/-- Destroying a transfer releases its parts. -/
theorem destroyTransfer_plus : destroyTransfer p n (l.plus (transferHeld p n)) = l := by
  rw [← withTransfer_eq, destroyTransfer, withTransfer, Ledger.release_plus_plus,
    Ledger.plus_comm, sgmPutUserPages_plus, sgDestroyMapper]
  simp only [Ledger.release_plus_plus, Ledger.release_plus]

/-- The mapper is that of `sg_create_mapper` without its allocations. -/
theorem sgCreateMapper_snd (env : CreateEnv) (maxLen : U64) : (sgCreateMapper p env maxLen l).2 =
    SgMapping.sgCreateMapper (env.mapper && env.pageArray && env.scatterlist) maxLen := by
  unfold sgCreateMapper SgMapping.sgCreateMapper
  by_cases hzero : maxLen = 0
  · rw [if_pos (.inl hzero), if_pos hzero]
  rw [if_neg hzero]
  simp only [hzero, false_or]
  by_cases hneg : maxPages maxLen < 0
  · cases env.mapper <;> simp [hneg]
  · cases env.mapper <;> cases env.pageArray <;> cases env.scatterlist <;> simp [hneg]

theorem sgCreateMapper_spec {env : CreateEnv} {maxLen : U64} {m : SgMapping}
    (h : sgCreateMapper p env maxLen l = (l', some m)) :
    l' = ((l.plus {(p, .mapper)}).plus {(p, .pageArray)}).plus {(p, .scatterlist)} := by
  unfold sgCreateMapper at h
  split at h
  · cases h
  dsimp only at h
  split at h
  · cases h
  split at h
  · cases h
  · exact (Prod.mk.inj h).1.symm

/-- A scatterlist has its pages pinned. -/
theorem hold_of_sgmGetUserPages {m : SgMapping} {rc : ℤ} {pages : ℕ → ℕ} {start count : U64} {k : ℤ}
    {sgl : List PageEntry} (h : m.sgmGetUserPages rc pages start count = some (.ok (k, sgl))) :
    (m.pinUserPages rc start count).hold p l = getUserPagesFast p k.toNat l := by
  unfold SgMapping.sgmGetUserPages at h
  split at h
  · cases h
  split at h
  · cases h
  · next hpin =>
    obtain ⟨rfl, -⟩ := Prod.mk.inj (Except.ok.inj (Option.some.inj h))
    rw [hpin]
    rfl
  · cases h
  · cases h
  · next hpin =>
    obtain ⟨es, -, h⟩ := Option.map_eq_some_iff.mp h
    obtain ⟨rfl, -⟩ := Prod.mk.inj (Except.ok.inj h)
    unfold SgMapping.pinUserPages at hpin ⊢
    split_ifs at hpin ⊢
    rfl

/-- `transfer_create` with its scatterlist stops the kernel, or maps it and gets a descriptor
table. -/
theorem describeTransfer_cases (p : Ptr) (c : BuildArgs) (env : CreateEnv) (epAddr : U64) (n : ℕ)
    (sgl : List SgEntry) (l : Ledger TransferResource) :
    (∃ l', describeTransfer p c env epAddr n sgl l = (l', .bug)) ∨
    ∃ x, describeTransfer p c env epAddr n sgl l =
      ((l.plus {(p, .dmaMap)}).plus {(p, .descTable)}, .transfer n x) := by
  unfold describeTransfer
  split
  · exact .inl ⟨_, rfl⟩
  dsimp only
  split
  · exact .inl ⟨_, rfl⟩
  split
  · exact .inl ⟨_, rfl⟩
  · exact .inr ⟨_, rfl⟩

/-- `transfer_create` finds no memory for the `xdma_transfer`, stops the kernel, or acquires all
parts of the transfer. -/
theorem createTransfer_cases (p : Ptr) (c : BuildArgs) (env : CreateEnv) (start count epAddr : U64)
    (l : Ledger TransferResource) :
    (env.transfer = false ∧ createTransfer p c env start count epAddr l = (l, .null)) ∨
    (∃ l', createTransfer p c env start count epAddr l = (l', .bug)) ∨
    ∃ n x, createTransfer p c env start count epAddr l =
      (l.plus (transferHeld p n), .transfer n x) := by
  unfold createTransfer
  split
  · next hnone => exact .inl ⟨Bool.eq_false_iff.mpr hnone, rfl⟩
  refine .inr ?_
  rcases hmapper : sgCreateMapper p env count (l.acquire (p, .transfer)) with ⟨l₁, _ | m⟩
  · exact .inl ⟨_, rfl⟩
  dsimp only
  split
  · next n sgl hget =>
    rw [hold_of_sgmGetUserPages hget]
    rcases describeTransfer_cases p c env epAddr n.toNat
      (sgl.map (PageEntry.mapped env.pages.bus)) (getUserPagesFast p n.toNat l₁) with
      ⟨l₂, heq⟩ | ⟨x, heq⟩
    · exact .inl ⟨l₂, heq⟩
    · refine .inr ⟨n.toNat, x, ?_⟩
      rw [heq, getUserPagesFast_eq, sgCreateMapper_spec hmapper, ← withTransfer_eq]
      rfl
  · exact .inl ⟨_, rfl⟩

/-- A transfer that is created holds its parts. -/
theorem createTransfer_transfer {c : BuildArgs} {env : CreateEnv} {start count epAddr : U64}
    {x : BuiltTransfer} (h : createTransfer p c env start count epAddr l = (l', .transfer n x)) :
    l' = l.plus (transferHeld p n) := by
  rcases createTransfer_cases p c env start count epAddr l with
    ⟨-, heq⟩ | ⟨l₁, heq⟩ | ⟨m, y, heq⟩ <;> rw [heq] at h <;> cases h
  rfl

/-- A null pointer says that there is no memory for the `xdma_transfer`, and nothing is
acquired. -/
theorem createTransfer_null {c : BuildArgs} {env : CreateEnv} {start count epAddr : U64}
    (h : createTransfer p c env start count epAddr l = (l', .null)) :
    env.transfer = false ∧ l' = l := by
  rcases createTransfer_cases p c env start count epAddr l with
    ⟨hnone, heq⟩ | ⟨l₁, heq⟩ | ⟨m, y, heq⟩ <;> rw [heq] at h <;> cases h
  exact ⟨hnone, rfl⟩

end Held

end Wimi
