import Wimi.UserPages

/-!
# Buffers as lists of pages

The two functions that fill the mapper of `sg_create_mapper`, `sgm_get_user_pages` with pinned pages
and `sgm_kernel_pages` with pages of `vmalloc`. They differ in how they come by the pages, and list
them in the same way.

`maps_buffer` : as long as the number of pages fits the `int` it is kept in, both list exactly the
bytes of the buffer, in order, each page with the bytes that are on it.
-/

namespace Wimi

/-! ## The pages of the kernel -/

namespace SgMapping

variable (m : SgMapping)

/-- The page array `sgm_kernel_pages` fills from address `virt` on, or none at the first page
`vmalloc_to_page` does not find. -/
def kernelPages (vmallocToPage : U64 → Option ℕ) (virt : U64) : ℕ → Option (List ℕ)
  | 0 => some []
  | n + 1 => do
    let page ← vmallocToPage virt
    let pages ← kernelPages vmallocToPage (virt + pageBytes) n
    some (page :: pages)

/-- `sgm_kernel_pages`. -/
def sgmKernelPages (vmallocToPage : U64 → Option ℕ) (start count : U64) : PagesAnswer :=
  if m.mappedPages > 0 then none
  else if start + count < start then some (.error .einval)
  else if nrPages start count > m.maxPages then some (.error .einval)
  else if count = 0 then some (.ok (0, []))
  else
    match kernelPages vmallocToPage start (nrPages start count).toNat with
    | none => some (.error .enomem)
    | some pages =>
      (populateSgl start count (nrPages start count)).map fun sgl =>
        .ok (nrPages start count, sgl.map (PageEntry.on fun i => pages.getD i 0))

end SgMapping

/-! ## The pages of a buffer -/

/-- The number of pages a buffer touches. -/
def touchedPages (start count : U64) : ℕ :=
  (start.toNat + count.toNat - 1) / PAGE_SIZE - start.toNat / PAGE_SIZE + 1

/-- The addresses of the entry of a place in the page array, in a buffer that begins at `start`. -/
def PageEntry.bytes (start : U64) (e : PageEntry) : List U64 :=
  Chain.cover (start - offsetInPage start + BitVec.ofNat 64 (PAGE_SIZE * e.page) +
    e.offset.setWidth 64) e.length.toNat

/-- An entry has at least a byte, and lies on its page. -/
def PageEntry.OnPage (e : PageEntry) : Prop :=
  1 ≤ e.length.toNat ∧ e.offset.toNat + e.length.toNat ≤ PAGE_SIZE

/-- The entries list the places of the pages of the buffer one by one, and their bytes are its
bytes, in order. -/
structure IsPageList (start count : U64) (es : List PageEntry) : Prop where
  pages : es.map PageEntry.page = List.range (touchedPages start count)
  bytes : es.flatMap (PageEntry.bytes start) = Chain.cover start count.toNat
  offset : ∀ e ∈ es.tail, e.offset = 0
  onPage : ∀ e ∈ es, e.OnPage

/-- The buffer fits the mapper, and both functions list its pages, each page at its place, the one
when it gets as many as it asks for, the other when every page is found. -/
structure MapsBuffer (m : SgMapping) (start count : U64) : Prop where
  room : touchedPages start count ≤ m.maxPages
  lists : ∃ es, IsPageList start count es ∧
    (∀ pages : ℕ → ℕ, m.sgmGetUserPages (nrPages start count) pages start count =
      some (.ok (touchedPages start count, es.map (PageEntry.on pages)))) ∧
    ∀ (vmallocToPage : U64 → Option ℕ) (pages : ℕ → ℕ),
      (∀ i < touchedPages start count,
        vmallocToPage (start + BitVec.ofNat 64 (PAGE_SIZE * i)) = some (pages i)) →
      m.sgmKernelPages vmallocToPage start count =
        some (.ok (touchedPages start count, es.map (PageEntry.on pages)))

/-! ## Entries -/

section Entries

variable {start count : U64}

theorem page_onPage (i : ℕ) : (⟨i, 0, pageBytes.setWidth 32⟩ : PageEntry).OnPage :=
  ⟨show 1 ≤ PAGE_SIZE by decide, show 0 + PAGE_SIZE ≤ PAGE_SIZE by decide⟩

theorem bytes_whole (start : U64) (i : ℕ) (length : U32) :
    (⟨i, 0, length⟩ : PageEntry).bytes start =
      Chain.cover (start - offsetInPage start + BitVec.ofNat 64 (PAGE_SIZE * i)) length.toNat := by
  simp [PageEntry.bytes]

/-- The last page of a buffer holds what is left of it. -/
theorem toNat_lastLength (count : U64) (hcount : count.toNat ≤ PAGE_SIZE) :
    (count.setWidth 32).toNat = count.toNat := by
  rw [BitVec.toNat_setWidth]
  exact Nat.mod_eq_of_lt (Nat.lt_of_le_of_lt hcount (by decide))

/-- Pages behind the first : all full but the last, which holds the rest. -/
theorem laterEntries_spec (start count : U64) (i left : ℕ)
    (hlow : PAGE_SIZE * left < count.toNat) (hhigh : count.toNat ≤ PAGE_SIZE * (left + 1)) :
    ∃ es, laterEntries count i left = some es ∧
      es.map PageEntry.page = List.range' i (left + 1) ∧
      es.flatMap (PageEntry.bytes start) =
        Chain.cover (start - offsetInPage start + BitVec.ofNat 64 (PAGE_SIZE * i)) count.toNat ∧
      ∀ e ∈ es, e.offset = 0 ∧ e.OnPage := by
  have hpage : pageBytes.toNat = PAGE_SIZE := rfl
  induction left generalizing count i with
  | zero =>
    have hfits : ¬ count > pageBytes := by
      rw [gt_iff_lt, BitVec.lt_def, hpage]
      omega
    have hlen := toNat_lastLength count (by omega)
    refine ⟨[⟨i, 0, count.setWidth 32⟩], if_neg hfits, rfl, ?_, fun e he => ?_⟩
    · rw [List.flatMap_singleton, bytes_whole, hlen]
    · obtain rfl := List.mem_singleton.mp he
      refine ⟨rfl, ?_, ?_⟩
      · rw [hlen]
        omega
      · rw [hlen]
        simpa using hhigh
  | succ left ih =>
    have hfull : PAGE_SIZE ≤ count.toNat := (Nat.le_mul_of_pos_right _ left.succ_pos).trans hlow.le
    have hle : pageBytes ≤ count := by
      rw [BitVec.le_def, hpage]
      exact hfull
    have hrest : (count - pageBytes).toNat = count.toNat - PAGE_SIZE := by
      rw [BitVec.toNat_sub_of_le hle, hpage]
    rw [Nat.mul_succ] at hlow hhigh
    obtain ⟨es, hes, hpages, hbytes, hall⟩ := ih (count - pageBytes) (i + 1)
      (by rw [hrest]; omega) (by rw [hrest]; omega)
    refine ⟨⟨i, 0, pageBytes.setWidth 32⟩ :: es, ?_, ?_, ?_, fun e he => ?_⟩
    · rw [laterEntries, if_neg (BitVec.not_lt.mpr hle), hes]
      rfl
    · rw [List.map_cons, hpages]
      rfl
    · have hsplit : count.toNat = PAGE_SIZE + (count - pageBytes).toNat := by
        rw [hrest, Nat.add_sub_cancel' hfull]
      have hnext : BitVec.ofNat 64 (PAGE_SIZE * (i + 1)) =
          BitVec.ofNat 64 (PAGE_SIZE * i) + BitVec.ofNat 64 PAGE_SIZE := by
        rw [Nat.mul_succ, BitVec.ofNat_add]
      have hlen : (pageBytes.setWidth 32 : U32).toNat = PAGE_SIZE := rfl
      rw [List.flatMap_cons, hbytes, bytes_whole, hlen, hnext, ← BitVec.add_assoc, hsplit,
        Chain.cover_append]
    · rcases List.mem_cons.mp he with rfl | he
      · exact ⟨rfl, page_onPage i⟩
      · exact hall e he

/-- The offset into a page fits an entry. -/
theorem toNat_offset (start : U64) :
    ((offsetInPage start).setWidth 32).toNat = start.toNat % PAGE_SIZE := by
  rw [BitVec.toNat_setWidth, offsetInPage_toNat]
  exact Nat.mod_eq_of_lt ((Nat.mod_lt _ (by decide)).trans (by decide))

theorem offset_setWidth (start : U64) :
    ((offsetInPage start).setWidth 32).setWidth 64 = offsetInPage start := by
  refine BitVec.eq_of_toNat_eq ?_
  rw [BitVec.toNat_setWidth, toNat_offset, offsetInPage_toNat]
  exact Nat.mod_eq_of_lt ((Nat.mod_lt _ (by decide)).trans (by decide))

/-- So does what is left of the page. -/
theorem toNat_firstLength (start : U64) :
    ((pageBytes - offsetInPage start).setWidth 32).toNat =
      PAGE_SIZE - start.toNat % PAGE_SIZE := by
  rw [BitVec.toNat_setWidth, toNat_restOfPage]
  exact Nat.mod_eq_of_lt (Nat.lt_of_le_of_lt (Nat.sub_le ..) (by decide))

theorem firstLength_setWidth (start : U64) :
    ((pageBytes - offsetInPage start).setWidth 32).setWidth 64 =
      pageBytes - offsetInPage start := by
  refine BitVec.eq_of_toNat_eq ?_
  rw [BitVec.toNat_setWidth, toNat_firstLength, toNat_restOfPage]
  exact Nat.mod_eq_of_lt (Nat.lt_of_le_of_lt (Nat.sub_le ..) (by decide))

/-- The first entry begins where the buffer does. -/
theorem bytes_first (start : U64) (length : U32) :
    (⟨0, (offsetInPage start).setWidth 32, length⟩ : PageEntry).bytes start =
      Chain.cover start length.toNat := by
  simp [PageEntry.bytes, offset_setWidth]

/-- A buffer on a single page has one entry. -/
theorem populateSgl_single (hpos : 0 < count.toNat)
    (hsingle : start.toNat % PAGE_SIZE + count.toNat ≤ PAGE_SIZE) :
    ∃ es, populateSgl start count 1 = some es ∧ es.map PageEntry.page = List.range 1 ∧
      es.flatMap (PageEntry.bytes start) = Chain.cover start count.toNat ∧
      (∀ e ∈ es.tail, e.offset = 0) ∧ ∀ e ∈ es, e.OnPage := by
  have hlen := toNat_lastLength count (by omega)
  refine ⟨[⟨0, (offsetInPage start).setWidth 32, count.setWidth 32⟩], rfl, rfl, ?_,
    fun e he => absurd he List.not_mem_nil, fun e he => ?_⟩
  · rw [List.flatMap_singleton, bytes_first, hlen]
  · obtain rfl := List.mem_singleton.mp he
    rw [PageEntry.OnPage, hlen, toNat_offset]
    exact ⟨hpos, hsingle⟩

/-- A buffer that ends on page `left + 1` has an entry for what is left of its first page, and
those of the later ones. -/
theorem populateSgl_many {left : ℕ}
    (hlow : PAGE_SIZE * (left + 1) < start.toNat % PAGE_SIZE + count.toNat)
    (hhigh : start.toNat % PAGE_SIZE + count.toNat ≤ PAGE_SIZE * (left + 2)) :
    ∃ es, populateSgl start count (left + 2 : ℕ) = some es ∧
      es.map PageEntry.page = List.range (left + 2) ∧
      es.flatMap (PageEntry.bytes start) = Chain.cover start count.toNat ∧
      (∀ e ∈ es.tail, e.offset = 0) ∧ ∀ e ∈ es, e.OnPage := by
  have hlt : start.toNat % PAGE_SIZE < PAGE_SIZE := Nat.mod_lt _ (by decide)
  have hfirst := toNat_restOfPage start
  have hlen := toNat_firstLength start
  have hrest : (count - (pageBytes - offsetInPage start)).toNat =
      count.toNat - (PAGE_SIZE - start.toNat % PAGE_SIZE) := by
    rw [BitVec.toNat_sub_of_le, hfirst]
    rw [BitVec.le_def, hfirst]
    rw [Nat.mul_succ] at hlow
    omega
  rw [Nat.mul_succ] at hlow hhigh
  obtain ⟨es, hes, hpages, hbytes, hall⟩ := laterEntries_spec start
    (count - (pageBytes - offsetInPage start)) 1 left (by omega)
    (by omega)
  refine ⟨⟨0, (offsetInPage start).setWidth 32, (pageBytes - offsetInPage start).setWidth 32⟩ ::
    es, ?_, ?_, ?_, fun e he => (hall e he).1, fun e he => ?_⟩
  · have hmany : ((left + 2 : ℕ) : ℤ) > 1 := by omega
    have hleft : (((left + 2 : ℕ) : ℤ) - 2).toNat = left := by omega
    simp only [populateSgl, if_pos hmany, hleft, offset_setWidth, firstLength_setWidth, hes]
    rfl
  · rw [List.map_cons, hpages, List.range_eq_range']
    rfl
  · have hsplit : count.toNat = (pageBytes - offsetInPage start).toNat +
        (count - (pageBytes - offsetInPage start)).toNat := by
      omega
    have hnext : start - offsetInPage start + BitVec.ofNat 64 (PAGE_SIZE * 1) =
        start + BitVec.ofNat 64 (pageBytes - offsetInPage start).toNat := by
      rw [BitVec.ofNat_toNat, BitVec.setWidth_eq]
      change start - offsetInPage start + pageBytes = _
      ring
    rw [List.flatMap_cons, hbytes, bytes_first, hlen, ← hfirst, hnext, ← Chain.cover_append,
      ← hsplit]
  · rcases List.mem_cons.mp he with rfl | he
    · rw [PageEntry.OnPage, hlen, toNat_offset]
      omega
    · exact (hall e he).2

/-- The entries of a buffer, when the number of its pages is right. -/
theorem populateSgl_isPageList (start : U64) {count : U64} (hpos : 0 < count.toNat) :
    ∃ es, populateSgl start count (touchedPages start count) = some es ∧
      IsPageList start count es := by
  have hpage : PAGE_SIZE = 4096 := rfl
  have hn : touchedPages start count =
      (start.toNat + count.toNat - 1) / PAGE_SIZE - start.toNat / PAGE_SIZE + 1 := rfl
  suffices h : ∃ es, populateSgl start count (touchedPages start count) = some es ∧
      es.map PageEntry.page = List.range (touchedPages start count) ∧
      es.flatMap (PageEntry.bytes start) = Chain.cover start count.toNat ∧
      (∀ e ∈ es.tail, e.offset = 0) ∧ ∀ e ∈ es, e.OnPage by
    obtain ⟨es, hes, hpages, hbytes, hoffset, hon⟩ := h
    exact ⟨es, hes, hpages, hbytes, hoffset, hon⟩
  by_cases hsingle : start.toNat % PAGE_SIZE + count.toNat ≤ PAGE_SIZE
  · have hone : touchedPages start count = 1 := by
      rw [hpage] at hn hsingle
      omega
    rw [hone]
    exact populateSgl_single hpos hsingle
  · rw [hpage] at hn hsingle
    obtain ⟨left, hleft⟩ : ∃ left, touchedPages start count = left + 2 :=
      ⟨touchedPages start count - 2, by omega⟩
    rw [hleft]
    exact populateSgl_many (by rw [hpage]; omega) (by rw [hpage]; omega)

/-- Pages behind the first of a buffer that ends at a page boundary are all full. -/
theorem laterEntries_full {i left : ℕ} (h : count.toNat = PAGE_SIZE * (left + 1)) :
    laterEntries count i left =
      some ((List.range' i (left + 1)).map fun k => ⟨k, 0, pageBytes.setWidth 32⟩) := by
  have hpage : pageBytes.toNat = PAGE_SIZE := rfl
  induction left generalizing count i with
  | zero =>
    obtain rfl : count = pageBytes :=
      BitVec.eq_of_toNat_eq (by rw [h, hpage, Nat.zero_add, mul_one])
    rfl
  | succ left ih =>
    have hle : pageBytes ≤ count := by
      rw [BitVec.le_def, hpage, h]
      exact Nat.le_mul_of_pos_right _ (Nat.succ_pos _)
    have hrest : (count - pageBytes).toNat = PAGE_SIZE * (left + 1) := by
      rw [BitVec.toNat_sub_of_le hle, hpage, h, Nat.mul_succ, Nat.add_sub_cancel]
    rw [laterEntries, if_neg (BitVec.not_lt.mpr hle), ih hrest]
    rfl

/-- The entries of a buffer of whole pages. -/
theorem populateSgl_full (left : ℕ) (hstart : offsetInPage start = 0)
    (h : count.toNat = PAGE_SIZE * (left + 2)) :
    populateSgl start count (left + 2 : ℕ) =
      some ((List.range (left + 2)).map fun k => ⟨k, 0, pageBytes.setWidth 32⟩) := by
  have hmany : ((left + 2 : ℕ) : ℤ) > 1 := by omega
  have hleft : (((left + 2 : ℕ) : ℤ) - 2).toNat = left := by omega
  have hpage : pageBytes.toNat = PAGE_SIZE := rfl
  have hrest : (count - pageBytes).toNat = PAGE_SIZE * (left + 1) := by
    have hle : pageBytes ≤ count := by
      rw [BitVec.le_def, hpage, h]
      exact Nat.le_mul_of_pos_right _ (Nat.succ_pos _)
    rw [BitVec.toNat_sub_of_le hle, hpage, h, Nat.mul_succ, Nat.add_sub_cancel]
  have hoff : ((0 : U64).setWidth 32 : U32) = 0 := rfl
  have hback : (0 : U32).setWidth 64 = (0 : U64) := rfl
  have hfirst : ((pageBytes - 0).setWidth 32 : U32).setWidth 64 = pageBytes := rfl
  simp only [populateSgl, if_pos hmany, hleft, hstart, hoff, hback, hfirst, laterEntries_full hrest]
  rw [List.range_eq_range']
  rfl

/-- The page array of a buffer whose pages are all found. -/
theorem kernelPages_eq {vmallocToPage : U64 → Option ℕ} {pages : ℕ → ℕ} {virt : U64} {n : ℕ}
    (h : ∀ i < n, vmallocToPage (virt + BitVec.ofNat 64 (PAGE_SIZE * i)) = some (pages i)) :
    SgMapping.kernelPages vmallocToPage virt n = some ((List.range n).map pages) := by
  induction n generalizing virt pages with
  | zero => rfl
  | succ n ih =>
    have hfirst : vmallocToPage virt = some (pages 0) := by simpa using h 0 n.succ_pos
    have hrest := @ih (fun i => pages (i + 1)) (virt + pageBytes) fun i hi => by
      have := h (i + 1) (Nat.succ_lt_succ hi)
      rwa [Nat.mul_succ, Nat.add_comm, BitVec.ofNat_add, ← BitVec.add_assoc] at this
    rw [SgMapping.kernelPages, hfirst, Option.bind_eq_bind, Option.bind_some, hrest,
      Option.bind_eq_bind, Option.bind_some, List.range_succ_eq_map, List.map_cons, List.map_map]
    rfl

/-- The entries of a buffer get the pages of its page array. -/
theorem IsPageList.on_eq {es : List PageEntry} (h : IsPageList start count es)
    {pages pages' : ℕ → ℕ} (hsame : ∀ i < touchedPages start count, pages i = pages' i) :
    es.map (PageEntry.on pages) = es.map (PageEntry.on pages') := by
  refine List.map_congr_left fun e he => ?_
  have hmem : e.page ∈ es.map PageEntry.page := List.mem_map_of_mem he
  rw [h.pages, List.mem_range] at hmem
  rw [PageEntry.on, PageEntry.on, hsame _ hmem]

end Entries

/-! ## Mapping a buffer -/

variable {m : SgMapping} {memory : Bool} {start count : U64}

/-- The mapper `sg_create_mapper` makes, where the page count does not wrap. -/
theorem sgCreateMapper_eq (hm : SgMapping.sgCreateMapper memory count = some m)
    (hint : count.toNat / PAGE_SIZE + 2 < 2 ^ 32) :
    FewPages count ∧ m = ⟨maxPages count, 0⟩ := by
  obtain ⟨-, hm⟩ := Option.ite_none_left_eq_some.mp hm
  obtain ⟨hmade, hm⟩ := Option.ite_none_left_eq_some.mp hm
  refine ⟨?_, (Option.some.inj hm).symm⟩
  -- a count of 2^31 or more is a negative `int`
  have hroom := toNat_maxPages hint
  have hnonneg := not_lt.mp (not_or.mp hmade).1
  rw [maxPages, BitVec.toInt_eq_toNat_cond, hroom] at hnonneg
  rw [FewPages]
  split at hnonneg <;> omega

/-- `sgm_kernel_pages` of a buffer whose pages are all found. -/
theorem sgmKernelPages_of_found {vmallocToPage : U64 → Option ℕ} {pages : ℕ → ℕ}
    {es : List PageEntry} (hcount : count ≠ 0) (hfew : FewPages count)
    (hwrap : ¬ start + count < start)
    (hes : populateSgl start count (touchedPages start count) = some es)
    (hlist : IsPageList start count es)
    (hfound : ∀ i < touchedPages start count,
      vmallocToPage (start + BitVec.ofNat 64 (PAGE_SIZE * i)) = some (pages i)) :
    SgMapping.sgmKernelPages ⟨maxPages count, 0⟩ vmallocToPage start count =
      some (.ok (touchedPages start count, es.map (PageEntry.on pages))) := by
  have hpages : nrPages start count = touchedPages start count := nrPages_eq hcount hfew hwrap
  have hroom := nrPages_le_maxPages hcount hfew hwrap
  rw [hpages] at hroom
  have hsame :
      es.map (PageEntry.on fun i =>
        ((List.range (touchedPages start count)).map pages).getD i 0) =
        es.map (PageEntry.on pages) :=
    hlist.on_eq fun i hi => by rw [List.getD_eq_getElem _ _ (by simpa using hi)]; simp
  rw [SgMapping.sgmKernelPages, hpages, if_neg (lt_irrefl _), if_neg hwrap,
    if_neg (not_lt.mpr hroom), if_neg hcount, Int.toNat_natCast, kernelPages_eq hfound]
  simp only [hes, Option.map_some, hsame]

/-- All pages of a stretch are pinned in its mapper. -/
theorem pinUserPages_all (hcount : count ≠ 0) (hfew : FewPages count)
    (hwrap : ¬ start + count < start) :
    SgMapping.pinUserPages ⟨maxPages count, 0⟩ (nrPages start count) start count =
      .all (touchedPages start count) := by
  have hpages : nrPages start count = touchedPages start count := nrPages_eq hcount hfew hwrap
  have hroom := nrPages_le_maxPages hcount hfew hwrap
  rw [hpages] at hroom
  rw [SgMapping.pinUserPages, if_neg hwrap, hpages, if_neg (not_lt.mpr hroom), if_neg hcount,
    if_neg (lt_irrefl _), if_neg (not_not.mpr rfl), Int.toNat_natCast]

/-- `sgm_get_user_pages` of a buffer whose pages are all pinned. -/
theorem sgmGetUserPages_of_pinned {es : List PageEntry} (hcount : count ≠ 0)
    (hfew : FewPages count) (hwrap : ¬ start + count < start)
    (hes : populateSgl start count (touchedPages start count) = some es) (pages : ℕ → ℕ) :
    SgMapping.sgmGetUserPages ⟨maxPages count, 0⟩ (nrPages start count) pages start count =
      some (.ok (touchedPages start count, es.map (PageEntry.on pages))) := by
  have hpages : nrPages start count = touchedPages start count := nrPages_eq hcount hfew hwrap
  rw [SgMapping.sgmGetUserPages, if_neg (lt_irrefl _), pinUserPages_all hcount hfew hwrap]
  simp only [hpages, hes, Option.map_some]

/-- The pages of a stretch are all pinned. -/
def PinnedWhole (pages : PinnedPages) (start count : U64) : Prop :=
  ¬ start + count < start ∧ pages.rc = nrPages start count

/-- A mapper of few pages is created. -/
theorem sgCreateMapper_of_few (hcount : count ≠ 0) (hfew : FewPages count) :
    SgMapping.sgCreateMapper true count = some ⟨maxPages count, 0⟩ := by
  have hroom : ¬ maxPages count < 0 := by
    rw [maxPages_eq hfew]
    exact not_lt.mpr (Int.natCast_nonneg _)
  rw [SgMapping.sgCreateMapper, if_neg hcount, if_neg (by simp [hroom])]

/-- The scatterlist of a stretch whose pages are all pinned. -/
theorem mapUserPages_of_pinned {pages : PinnedPages} {es : List PageEntry} (hcount : count ≠ 0)
    (hfew : FewPages count) (h : PinnedWhole pages start count)
    (hes : populateSgl start count (touchedPages start count) = some es) :
    mapUserPages pages start count = some (es.map (PageEntry.mapped pages.bus)) := by
  have hid : es.map (PageEntry.on id) = es := List.map_id _
  rw [mapUserPages, sgCreateMapper_of_few hcount hfew, Option.bind_eq_bind, Option.bind_some, h.2,
    sgmGetUserPages_of_pinned hcount hfew h.1 hes, PagesAnswer.entries, Option.bind_eq_bind,
    Option.bind_some, hid]

/-- Pinning that gets all pages has got as many as it asked for. -/
theorem pinned_of_all {rc : ℤ} {n : ℕ} (h : m.pinUserPages rc start count = .all n) :
    ¬ start + count < start ∧ rc = nrPages start count := by
  unfold SgMapping.pinUserPages at h
  split_ifs at h with hwrap hroom hzero hfew hmore
  exact ⟨hwrap, not_not.mp hmore⟩

/-- A stretch that is not empty has something to pin. -/
theorem pinUserPages_ne_ok (hcount : count ≠ 0) (rc : ℤ) (u : Unit) :
    m.pinUserPages rc start count ≠ .nothing (.ok u) := by
  unfold SgMapping.pinUserPages
  split_ifs <;> simp

/-- The entries of a stretch are those of its pages, which are all pinned. -/
theorem sgmGetUserPages_entries {rc : ℤ} {pages : ℕ → ℕ} {sgl : List PageEntry}
    (hcount : count ≠ 0) (h : (m.sgmGetUserPages rc pages start count).entries = some sgl) :
    (¬ start + count < start ∧ rc = nrPages start count) ∧
      ∃ es, populateSgl start count (nrPages start count) = some es ∧
        sgl = es.map (PageEntry.on pages) := by
  unfold SgMapping.sgmGetUserPages at h
  split at h
  · cases h
  split at h
  · cases h
  · next hpin => exact absurd hpin (pinUserPages_ne_ok hcount _ _)
  · cases h
  · cases h
  · next hpin =>
    refine ⟨pinned_of_all hpin, ?_⟩
    rcases hes : populateSgl start count (nrPages start count) with _ | es
    · rw [hes] at h
      cases h
    · rw [hes] at h
      exact ⟨es, rfl, (Option.some.inj h).symm⟩

/-- The scatterlist of a stretch, which is not empty and has its pages all pinned. -/
theorem mapUserPages_spec {pages : PinnedPages} {sgl : List SgEntry}
    (h : mapUserPages pages start count = some sgl) : PinnedWhole pages start count ∧
      ∃ es, populateSgl start count (nrPages start count) = some es ∧
        sgl = es.map (PageEntry.mapped pages.bus) := by
  obtain ⟨m, hm, h⟩ := Option.bind_eq_some_iff.mp h
  obtain ⟨sgl', hget, h⟩ := Option.bind_eq_some_iff.mp h
  obtain rfl := Option.some.inj h
  have hcount := (Option.ite_none_left_eq_some.mp hm).1
  obtain ⟨hwhole, es, hes, rfl⟩ := sgmGetUserPages_entries hcount hget
  have hid : es.map (PageEntry.on id) = es := List.map_id _
  exact ⟨hwhole, es, hes, by rw [hid]⟩

/-- A stretch has a scatterlist when its pages are all pinned, and not otherwise. -/
theorem mapUserPages_isSome {pages : PinnedPages} (hcount : count ≠ 0)
    (hmax : count.toNat ≤ 2 ^ 32) :
    (mapUserPages pages start count).isSome ↔ PinnedWhole pages start count := by
  have hfew := fewPages_of_le hmax
  refine ⟨fun hsome => ?_, fun h => ?_⟩
  · obtain ⟨sgl, hsgl⟩ := Option.isSome_iff_exists.mp hsome
    exact (mapUserPages_spec hsgl).1
  · obtain ⟨es, hes, -⟩ := populateSgl_isPageList start
      (Nat.pos_of_ne_zero fun hzero => hcount (BitVec.eq_of_toNat_eq hzero))
    rw [mapUserPages_of_pinned hcount hfew h hes]
    rfl

/-- A buffer of a number of pages that an `int` holds is mapped whole. -/
theorem maps_buffer (memory : Bool) (m : SgMapping) (start count : U64) (hcount : 1 ≤ count.toNat)
    (hwrap : ¬ start + count < start) (hm : SgMapping.sgCreateMapper memory count = some m)
    (hint : count.toNat / PAGE_SIZE + 2 < 2 ^ 32) : MapsBuffer m start count := by
  obtain ⟨hfew, rfl⟩ := sgCreateMapper_eq hm hint
  have hne : count ≠ 0 := by
    rintro rfl
    exact absurd hcount (by decide)
  have hroom := nrPages_le_maxPages hne hfew hwrap
  rw [nrPages_eq hne hfew hwrap] at hroom
  obtain ⟨es, hes, hlist⟩ := populateSgl_isPageList start hcount
  exact ⟨hroom, es, hlist, sgmGetUserPages_of_pinned hne hfew hwrap hes,
    fun _ _ => sgmKernelPages_of_found hne hfew hwrap hes hlist⟩

/-- Six thousand bytes from the middle of a page on. -/
theorem maps_buffer_two_pages : MapsBuffer ⟨3, 0⟩ 0x7f0000000800 6000 :=
  maps_buffer true ⟨3, 0⟩ 0x7f0000000800 6000 (by decide) (by decide) rfl (by decide)

/-- A buffer of `2^32 + 2` pages is taken for one of two, and runs into a `BUG_ON`. No caller has
one : the requests of the driver are of 8 MiB at most, and `rx_buffer` is of 1 MiB. -/
theorem maps_buffer_overflow :
    ¬ ∀ (memory : Bool) (m : SgMapping) (start count : U64), 1 ≤ count.toNat →
      ¬ start + count < start → SgMapping.sgCreateMapper memory count = some m →
      MapsBuffer m start count := by
  intro h
  obtain ⟨-, es, -, huser, -⟩ := h true ⟨4, 0⟩ 0x1000 0x100000002000 (by decide) (by decide) rfl
  have hbug : SgMapping.sgmGetUserPages ⟨4, 0⟩ (nrPages 0x1000 0x100000002000) id 0x1000
      0x100000002000 = none := rfl
  exact absurd (hbug.symm.trans (huser id)) nofun

end Wimi
