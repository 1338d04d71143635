import Wimi.Lib.Residues
import Wimi.TransferBuild
import Wimi.TransferData

/-!
# Requests of user memory

`sg_create_mapper` makes a mapper, and `sgm_get_user_pages` pins the pages of a stretch of user
memory and lists them in its scatterlist, one entry a page. A `ReadWrite` is a call of
`transfer_data` with the address it has come to, from which `transfer_create` takes the transfer of
the next chunk.

Every page is mapped for DMA on its own.
-/

open Residues

namespace Wimi

/-! ## Pinning -/

def PAGE_MASK : U64 := ~~~(BitVec.ofNat 64 PAGE_SIZE - 1)

/-- `PAGE_SIZE`, as a length in bytes. -/
def pageBytes : U64 := BitVec.ofNat 64 PAGE_SIZE

/-- `offset_in_page`. -/
def offsetInPage (addr : U64) : U64 :=
  addr &&& ~~~PAGE_MASK

/-- `max_pages` of the mapper `sg_create_mapper` makes. -/
def maxPages (maxLen : U64) : ℤ :=
  ((maxLen / pageBytes + 2).setWidth 32).toInt

/-- `nr_pages` of `sgm_get_user_pages`. -/
def nrPages (start count : U64) : ℤ :=
  let first := (start &&& PAGE_MASK) >>> PAGE_SHIFT
  let last := ((start + count - 1) &&& PAGE_MASK) >>> PAGE_SHIFT
  ((last - first + 1).setWidth 32).toInt

/-- An `sg_mapping_t`, without its arrays. -/
structure SgMapping where
  maxPages : ℤ
  mappedPages : ℤ

/-- How far `sgm_get_user_pages` gets with pinning. -/
inductive Pinning
  /-- It pins nothing, and returns an error or that there is nothing to pin. -/
  | nothing (ret : Except Errno Unit)
  /-- It pins some of the pages, and puts them again. -/
  | some (n : ℕ)
  /-- It pins more pages than it asked for, which is a `BUG_ON`. -/
  | more (n : ℕ)
  | all (n : ℕ)

namespace SgMapping

/-- `sg_create_mapper`. There is no memory for an array of a negative number of pages. -/
def sgCreateMapper (memory : Bool) (maxLen : U64) : Option SgMapping :=
  if maxLen = 0 then none
  else if Wimi.maxPages maxLen < 0 ∨ ¬ memory then none
  else some ⟨Wimi.maxPages maxLen, 0⟩

variable (m : SgMapping)

/-- `sgm_get_user_pages`, up to the scatterlist. `rc` is what `get_user_pages_fast` returns. -/
def pinUserPages (rc : ℤ) (start count : U64) : Pinning :=
  if start + count < start then .nothing (.error .einval)
  else if nrPages start count > m.maxPages then .nothing (.error .einval)
  else if count = 0 then .nothing (.ok ())
  else if rc < nrPages start count then .some rc.toNat
  else if rc ≠ nrPages start count then .more rc.toNat
  else .all (nrPages start count).toNat

end SgMapping

/-! ## The scatterlist -/

/-- An entry of a scatterlist before it is mapped for DMA. -/
structure PageEntry where
  page : ℕ
  offset : U32
  length : U32
  deriving DecidableEq

/-- The entry of a place in the page array, with the page that is there. -/
def PageEntry.on (pages : ℕ → ℕ) (e : PageEntry) : PageEntry :=
  { e with page := pages e.page }

/-- The entry once its page is mapped, each page at an address of its own. -/
def PageEntry.mapped (bus : ℕ → U64) (e : PageEntry) : SgEntry :=
  ⟨bus e.page + e.offset.setWidth 64, e.length⟩

/-- The entries of the places from `i` on, when `left` of them are not the last. None is a
`BUG_ON`. -/
def laterEntries (count : U64) (i : ℕ) : ℕ → Option (List PageEntry)
  | 0 => if count > pageBytes then none else some [⟨i, 0, count.setWidth 32⟩]
  | left + 1 =>
    if count < pageBytes then none
    else (laterEntries (count - pageBytes) (i + 1) left).map (⟨i, 0, pageBytes.setWidth 32⟩ :: ·)

/-- "populate the scatter/gather list", in `sgm_get_user_pages` and `sgm_kernel_pages`, by the
places in the page array. -/
def populateSgl (start count : U64) (nrPages : ℤ) : Option (List PageEntry) :=
  let offset : U32 := (offsetInPage start).setWidth 32
  if nrPages > 1 then
    let length : U32 := (pageBytes - offset.setWidth 64).setWidth 32
    (laterEntries (count - length.setWidth 64) 1 (nrPages - 2).toNat).map (⟨0, offset, length⟩ :: ·)
  else some [⟨0, offset, count.setWidth 32⟩]

/-- What filling a mapper answers : an error, or the number of pages with the entries. None is a
`BUG_ON`. -/
abbrev PagesAnswer := Option (Except Errno (ℤ × List PageEntry))

/-- The entries `transfer_create` goes on with. An error is a `BUG_ON` there. -/
def PagesAnswer.entries : PagesAnswer → Option (List PageEntry)
  | some (.ok (_, sgl)) => some sgl
  | _ => none

/-- `sgm_get_user_pages`. `get_user_pages_fast` returns `rc` and puts `pages` in the page array. -/
def SgMapping.sgmGetUserPages (m : SgMapping) (rc : ℤ) (pages : ℕ → ℕ) (start count : U64) :
    PagesAnswer :=
  if m.mappedPages > 0 then none
  else
    match m.pinUserPages rc start count with
    | .nothing (.error e) => some (.error e)
    | .nothing (.ok _) => some (.ok (0, []))
    | .some _ => some (.error .enomem)
    | .more _ => none
    | .all _ =>
      (populateSgl start count (nrPages start count)).map fun sgl =>
        .ok (nrPages start count, sgl.map (.on pages))

/-- What pinning user pages answers, with the bus addresses they are mapped to. The pages are named
by their places in the page array. -/
structure PinnedPages where
  rc : ℤ
  bus : ℕ → U64
  aligned : ∀ i, PAGE_SIZE ∣ (bus i).toNat

theorem pageSize_dvd_same (_ : ℕ) : PAGE_SIZE ∣ (0x200000 : U64).toNat := by
  decide

/-- Pages at one bus address. -/
def PinnedPages.same (rc : ℤ) : PinnedPages :=
  ⟨rc, fun _ => 0x200000, pageSize_dvd_same⟩

/-- The scatterlist of a stretch in a mapper of its own, mapped. None are the errors of
`sg_create_mapper` and `sgm_get_user_pages`, which stop the kernel in `transfer_create`. -/
def mapUserPages (pages : PinnedPages) (start count : U64) : Option (List SgEntry) := do
  let m ← SgMapping.sgCreateMapper true count
  let sgl ← (m.sgmGetUserPages pages.rc id start count).entries
  some (sgl.map (PageEntry.mapped pages.bus))

/-! ## Pages of a stretch -/

theorem pageNumber_toNat (x : U64) :
    ((x &&& PAGE_MASK) >>> PAGE_SHIFT).toNat = x.toNat / PAGE_SIZE := by
  have hmask : (x &&& PAGE_MASK) >>> PAGE_SHIFT = x >>> PAGE_SHIFT := by
    have hones : PAGE_MASK >>> PAGE_SHIFT = BitVec.allOnes 64 >>> PAGE_SHIFT := by decide
    rw [BitVec.ushiftRight_and_distrib, hones, ← BitVec.ushiftRight_and_distrib,
      BitVec.and_allOnes]
  rw [hmask, BitVec.toNat_ushiftRight, Nat.shiftRight_eq_div_pow]
  rfl

theorem offsetInPage_toNat (addr : U64) : (offsetInPage addr).toNat = addr.toNat % PAGE_SIZE := by
  have hmask : ~~~PAGE_MASK = pageBytes - 1 := by decide
  have hpage : pageBytes.toNat = 2 ^ PAGE_SHIFT := rfl
  rw [offsetInPage, hmask, toNat_and_sub_one addr hpage]
  rfl

/-- What is left of the page an address is in. -/
theorem toNat_restOfPage (addr : U64) :
    (pageBytes - offsetInPage addr).toNat = PAGE_SIZE - addr.toNat % PAGE_SIZE := by
  have hoff := offsetInPage_toNat addr
  have hle : offsetInPage addr ≤ pageBytes := by
    rw [BitVec.le_def, hoff]
    exact (Nat.mod_lt _ (by decide)).le
  rw [BitVec.toNat_sub_of_le hle, hoff]
  rfl

/-- The end of a stretch that does not wrap. -/
theorem toNat_add_of_not_wraps {start count : U64} (hwrap : ¬ start + count < start) :
    (start + count).toNat = start.toNat + count.toNat := by
  rw [BitVec.lt_def, BitVec.toNat_add] at hwrap
  rw [BitVec.toNat_add]
  have := start.isLt
  have := count.isLt
  omega

/-- The page count of a stretch, and the room of its mapper, are numbers an `int` holds. -/
def FewPages (count : U64) : Prop :=
  count.toNat / PAGE_SIZE + 2 < 2 ^ 31

theorem fewPages_of_le {count : U64} (hmax : count.toNat ≤ 2 ^ 32) : FewPages count := by
  have hsmall : count.toNat / PAGE_SIZE ≤ 2 ^ 20 := Nat.div_le_of_le_mul (hmax.trans (by decide))
  rw [FewPages]
  omega

/-- The pages from the first of the stretch to its last. -/
theorem nrPages_eq {start count : U64} (hcount : count ≠ 0) (hfew : FewPages count)
    (hwrap : ¬ start + count < start) :
    nrPages start count =
      ((start.toNat + count.toNat - 1) / PAGE_SIZE - start.toNat / PAGE_SIZE + 1 : ℕ) := by
  have hpos : 0 < count.toNat := Nat.pos_of_ne_zero fun h => hcount (BitVec.eq_of_toNat_eq h)
  have hend := toNat_add_of_not_wraps hwrap
  have hsum : (start + count - 1).toNat = start.toNat + count.toNat - 1 := by
    have hone : (1 : U64) ≤ start + count := by
      rw [BitVec.le_def, hend]
      exact hpos.trans_le (Nat.le_add_left ..)
    rw [BitVec.toNat_sub_of_le hone, hend]
    rfl
  have hlast := pageNumber_toNat (start + count - 1)
  have hfirst := pageNumber_toNat start
  rw [hsum] at hlast
  -- the last page is not before the first, and few pages behind it
  have hle : start.toNat / PAGE_SIZE ≤ (start.toNat + count.toNat - 1) / PAGE_SIZE :=
    Nat.div_le_div_right (by omega)
  have hint : (start.toNat + count.toNat - 1) / PAGE_SIZE - start.toNat / PAGE_SIZE + 1 <
      2 ^ 31 := by
    have hpage : PAGE_SIZE = 4096 := rfl
    rw [FewPages, hpage] at hfew
    rw [hpage] at hle ⊢
    omega
  have hpages : (((start + count - 1) &&& PAGE_MASK) >>> PAGE_SHIFT -
      (start &&& PAGE_MASK) >>> PAGE_SHIFT + 1).toNat =
      (start.toNat + count.toNat - 1) / PAGE_SIZE - start.toNat / PAGE_SIZE + 1 := by
    have hsub : (start &&& PAGE_MASK) >>> PAGE_SHIFT ≤
        ((start + count - 1) &&& PAGE_MASK) >>> PAGE_SHIFT := by
      rw [BitVec.le_def, hlast, hfirst]
      exact hle
    rw [BitVec.toNat_add, BitVec.toNat_sub_of_le hsub, hlast, hfirst]
    exact Nat.mod_eq_of_lt (hint.trans (by decide))
  rw [nrPages, BitVec.toInt_eq_toNat_of_lt] <;> rw [BitVec.toNat_setWidth, hpages, Nat.mod_eq_of_lt]
  all_goals omega

theorem toNat_maxPages {count : U64} (h : count.toNat / PAGE_SIZE + 2 < 2 ^ 32) :
    ((count / pageBytes + 2).setWidth 32).toNat = count.toNat / PAGE_SIZE + 2 := by
  have hroom : (count / pageBytes + 2).toNat = count.toNat / PAGE_SIZE + 2 := by
    have hdiv : (count / pageBytes).toNat = count.toNat / PAGE_SIZE := by
      rw [BitVec.toNat_udiv]
      rfl
    rw [BitVec.toNat_add, hdiv]
    exact Nat.mod_eq_of_lt (h.trans (by decide))
  rw [BitVec.toNat_setWidth, hroom, Nat.mod_eq_of_lt h]

/-- The room of the mapper, in pages. -/
theorem maxPages_eq {count : U64} (hfew : FewPages count) :
    maxPages count = (count.toNat / PAGE_SIZE + 2 : ℕ) := by
  have hroom := toNat_maxPages (hfew.trans (by decide))
  rw [FewPages] at hfew
  rw [maxPages, BitVec.toInt_eq_toNat_of_lt (by omega), hroom]

/-- The mapper has room for every stretch of its length. -/
theorem nrPages_le_maxPages {start count : U64} (hcount : count ≠ 0) (hfew : FewPages count)
    (hwrap : ¬ start + count < start) : nrPages start count ≤ maxPages count := by
  have hpage : PAGE_SIZE = 4096 := rfl
  rw [nrPages_eq hcount hfew hwrap, maxPages_eq hfew, hpage]
  omega

/-! ## Calls -/

/-- A call of `transfer_data`, with the user address it has come to. -/
structure ReadWrite where
  call : Call
  transferAddr : U64

/-- What `transfer_data` builds its chains with. -/
def dataArgs (dirToDev nonIncrAddr : Bool) : BuildArgs where
  pageSize := pageBytes
  dirToDev := dirToDev
  nonIncrAddr := nonIncrAddr
  forceNewDesc := false
  userspace := true

namespace ReadWrite

/-- The transfer of the next chunk, with its descriptors allocated in `mem` at `descBus`. -/
def transfer (c : BuildArgs) (s : ReadWrite) (pages : PinnedPages) (mem : DescTable)
    (descBus : U64) : Option BuiltTransfer := do
  let sgl ← mapUserPages pages s.transferAddr (BitVec.ofInt 64 s.call.chunk)
  transferCreate c mem descBus (BitVec.ofInt 64 s.call.pos) sgl

/-- The transfer at `p` is queued for the next chunk. -/
def queued (s : ReadWrite) (p : Ptr) : ReadWrite :=
  { s with call := s.call.queued p }

/-- The end of the loop's body. -/
def settle (s : ReadWrite) (state : TransferState) (rc : ℤ) : ReadWrite :=
  let call := s.call.settle state rc
  ⟨call, s.transferAddr + BitVec.ofInt 64 call.transferLen⟩

end ReadWrite

end Wimi
