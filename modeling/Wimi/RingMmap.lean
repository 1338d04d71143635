import Wimi.Control
import Wimi.Ring
import Wimi.UserPages

/-!
# Mapping the ring

`xdma_mmap` hands the pages of `rx_buffer` to a process, one by one. The length is compared with
the whole buffer; the page offset is put in a variable that is not looked at, and the buffer is not
asked whether it is there.

`ringMapped_iff` : exactly which calls map what they are asked for and stay in the buffer.
-/

namespace Wimi

/-! ## The call -/

/-- A call of `xdma_mmap` : where `rx_buffer` is, if it is, the range to map and what the `i`-th
`vm_insert_page` of the call returns. -/
structure MmapCall where
  rxBuffer : Option U64
  vma : Vma
  insertRc : ℕ → ℤ

/-- What a call comes to : what it returns, the addresses it gave to `vmalloc_to_page`, and the user
addresses it mapped, each with the address its page was resolved from. -/
structure MmapOutcome where
  ret : ℤ
  resolved : List U64
  mapped : List (U64 × U64)

/-- The loop of `xdma_mmap` from turn `i` on. The fuel bounds its turns. -/
def insertPages (insertRc : ℕ → ℤ) :
    ℕ → ℕ → U64 → U64 → U64 → Option MmapOutcome
  | 0, _, _, _, _ => none
  | fuel + 1, i, uaddr, kaddr, vsize =>
    if insertRc i ≠ 0 then some ⟨insertRc i, [kaddr], []⟩
    else if vsize - pageBytes > 0 then
      (insertPages insertRc fuel (i + 1) (uaddr + pageBytes) (kaddr + pageBytes)
        (vsize - pageBytes)).map fun out =>
          ⟨out.ret, kaddr :: out.resolved, (uaddr, kaddr) :: out.mapped⟩
    else some ⟨0, [kaddr], [(uaddr, kaddr)]⟩

/-- `xdma_mmap`. -/
def xdmaMmap (fuel : ℕ) (call : MmapCall) : Option MmapOutcome :=
  let vsize := call.vma.vsize
  let psize := BitVec.ofNat 64 RX_BUF_SIZE
  let kaddr := call.rxBuffer.getD 0
  if vsize > psize then some ⟨-Errno.einval.code, [], []⟩
  else insertPages call.insertRc fuel 0 call.vma.start kaddr vsize

/-! ## What it is asked for -/

namespace MmapCall

variable (call : MmapCall)

/-- The number of pages of the range. -/
def pages : ℕ := call.vma.vsize.toNat / PAGE_SIZE

/-- The call only resolves addresses in `rx_buffer`; and where it returns 0, user page `k` is the
page of `rx_buffer` as far behind the page offset, and there is such a page. -/
structure Maps (out : MmapOutcome) : Prop where
  inside : ∀ a ∈ out.resolved, ∃ buf, call.rxBuffer = some buf ∧ (a - buf).toNat < RX_BUF_SIZE
  pages : out.ret = 0 → ∃ buf, call.rxBuffer = some buf ∧
    ∀ k < call.pages, call.vma.pgoff.toNat + k < RX_BUF_PAGES ∧
      out.mapped[k]? = some (call.vma.start + BitVec.ofNat 64 (PAGE_SIZE * k),
        buf + BitVec.ofNat 64 (PAGE_SIZE * (call.vma.pgoff.toNat + k)))

/-- The call ends after at most as many turns as there are pages, and maps what it is asked for. -/
def RingMapped : Prop :=
  ∃ out, (∀ fuel ≥ call.pages, xdmaMmap fuel call = some out) ∧ call.Maps out

/-- The range is longer than the buffer, or the buffer is there and either no offset is asked for
or a page cannot be inserted. -/
def MmapOk : Prop :=
  RX_BUF_SIZE < call.vma.vsize.toNat ∨
    call.rxBuffer ≠ none ∧ (call.vma.pgoff = 0 ∨ ∃ k < call.pages, call.insertRc k ≠ 0)

end MmapCall

/-! ## The loop -/

/-- What the loop over a range of `n + 1` pages comes to from turn `i` on : it resolves addresses of
as many pages from `kaddr` on, and the first; when all are inserted it returns 0 and has mapped them
in order, and else it returns an error. -/
structure Inserts (insertRc : ℕ → ℤ) (n i : ℕ) (uaddr kaddr : U64) (out : MmapOutcome) : Prop where
  near : ∀ a ∈ out.resolved, ∃ k ≤ n, a = kaddr + BitVec.ofNat 64 (PAGE_SIZE * k)
  first : kaddr ∈ out.resolved
  whole : (∀ k ≤ n, insertRc (i + k) = 0) → out.ret = 0 ∧ ∀ k ≤ n,
    out.mapped[k]? = some (uaddr + BitVec.ofNat 64 (PAGE_SIZE * k),
      kaddr + BitVec.ofNat 64 (PAGE_SIZE * k))
  failed : (∃ k ≤ n, insertRc (i + k) ≠ 0) → out.ret ≠ 0

section Loop

variable {insertRc : ℕ → ℤ} {n i : ℕ} {uaddr kaddr vsize : U64}

theorem add_page_zero (a : U64) : a + BitVec.ofNat 64 (PAGE_SIZE * 0) = a :=
  BitVec.add_zero a

theorem add_page_succ (a : U64) (k : ℕ) : a + pageBytes + BitVec.ofNat 64 (PAGE_SIZE * k) =
    a + BitVec.ofNat 64 (PAGE_SIZE * (k + 1)) := by
  rw [BitVec.add_assoc, pageBytes, ← BitVec.ofNat_add, Nat.mul_succ, Nat.add_comm]

/-- A page that cannot be inserted ends the loop. -/
theorem inserts_of_failed (n : ℕ) (h : insertRc i ≠ 0) :
    Inserts insertRc n i uaddr kaddr ⟨insertRc i, [kaddr], []⟩ := by
  refine ⟨fun a ha => ?_, List.mem_singleton_self _, fun hall => absurd (hall 0 n.zero_le) h,
    fun _ => h⟩
  obtain rfl := List.mem_singleton.mp ha
  exact ⟨0, n.zero_le, (add_page_zero a).symm⟩

/-- A range of one page. -/
theorem inserts_one (h : insertRc i = 0) :
    Inserts insertRc 0 i uaddr kaddr ⟨0, [kaddr], [(uaddr, kaddr)]⟩ := by
  refine ⟨fun a ha => ?_, List.mem_singleton_self _, fun _ => ⟨rfl, fun k hk => ?_⟩, ?_⟩
  · obtain rfl := List.mem_singleton.mp ha
    exact ⟨0, le_refl _, (add_page_zero a).symm⟩
  · obtain rfl := Nat.le_zero.mp hk
    rw [add_page_zero, add_page_zero]
    rfl
  · rintro ⟨k, hk, hrc⟩
    obtain rfl := Nat.le_zero.mp hk
    exact absurd h hrc

/-- A page more in front of a range. -/
theorem Inserts.cons {out : MmapOutcome} (h : insertRc i = 0)
    (hrest : Inserts insertRc n (i + 1) (uaddr + pageBytes) (kaddr + pageBytes) out) :
    Inserts insertRc (n + 1) i uaddr kaddr
      ⟨out.ret, kaddr :: out.resolved, (uaddr, kaddr) :: out.mapped⟩ := by
  have hturn (k : ℕ) : i + 1 + k = i + (k + 1) := by omega
  refine ⟨fun a ha => ?_, List.mem_cons_self, fun hall => ?_, fun hany => hrest.failed ?_⟩
  · rcases List.mem_cons.mp ha with rfl | ha
    · exact ⟨0, Nat.zero_le _, (add_page_zero a).symm⟩
    · obtain ⟨k, hk, rfl⟩ := hrest.near a ha
      exact ⟨k + 1, Nat.succ_le_succ hk, add_page_succ kaddr k⟩
  · obtain ⟨hret, hmapped⟩ :=
      hrest.whole fun k hk => (hturn k).symm ▸ hall (k + 1) (Nat.succ_le_succ hk)
    refine ⟨hret, fun k hk => ?_⟩
    cases k with
    | zero =>
      rw [add_page_zero, add_page_zero]
      rfl
    | succ k =>
      rw [List.getElem?_cons_succ, hmapped k (Nat.le_of_succ_le_succ hk), add_page_succ,
        add_page_succ]
  · obtain ⟨k, hk, hrc⟩ := hany
    cases k with
    | zero => exact absurd h hrc
    | succ k => exact ⟨k, Nat.le_of_succ_le_succ hk, (hturn k).symm ▸ hrc⟩

variable (insertRc i uaddr kaddr) in
/-- The loop over a range of `n + 1` pages ends after as many turns. -/
theorem insertPages_spec (hvsize : vsize.toNat = PAGE_SIZE * (n + 1)) :
    ∃ out, (∀ fuel ≥ n + 1, insertPages insertRc fuel i uaddr kaddr vsize = some out) ∧
      Inserts insertRc n i uaddr kaddr out := by
  have hpage : pageBytes.toNat = PAGE_SIZE := rfl
  induction n generalizing i uaddr kaddr vsize with
  | zero =>
    obtain rfl : vsize = pageBytes := BitVec.eq_of_toNat_eq hvsize
    by_cases hrc : insertRc i = 0
    · refine ⟨_, fun fuel hfuel => ?_, inserts_one hrc⟩
      obtain ⟨fuel, rfl⟩ := Nat.exists_eq_add_one.mpr hfuel
      have hlast : ¬ pageBytes - pageBytes > 0 := by decide
      rw [insertPages, if_neg (not_not.mpr hrc), if_neg hlast]
    · refine ⟨_, fun fuel hfuel => ?_, inserts_of_failed 0 hrc⟩
      obtain ⟨fuel, rfl⟩ := Nat.exists_eq_add_one.mpr hfuel
      rw [insertPages, if_pos hrc]
  | succ n ih =>
    by_cases hrc : insertRc i = 0
    · have hrest : (vsize - pageBytes).toNat = PAGE_SIZE * (n + 1) := by
        have hle : pageBytes ≤ vsize := by
          rw [BitVec.le_def, hpage, hvsize]
          exact Nat.le_mul_of_pos_right _ (Nat.succ_pos _)
        rw [BitVec.toNat_sub_of_le hle, hpage, hvsize, Nat.mul_succ, Nat.add_sub_cancel]
      obtain ⟨out, hout, hinserts⟩ := ih (i + 1) (uaddr + pageBytes)
        (kaddr + pageBytes) hrest
      refine ⟨_, fun fuel hfuel => ?_, hinserts.cons hrc⟩
      obtain ⟨fuel, rfl⟩ : ∃ f, fuel = f + 1 := ⟨fuel - 1, by omega⟩
      have hmore : vsize - pageBytes > 0 := by
        rw [gt_iff_lt, BitVec.lt_def, hrest]
        exact Nat.mul_pos (by decide) (Nat.succ_pos _)
      rw [insertPages, if_neg (not_not.mpr hrc), if_pos hmore, hout fuel (by omega)]
      rfl
    · refine ⟨_, fun fuel hfuel => ?_, inserts_of_failed (n + 1) hrc⟩
      obtain ⟨fuel, rfl⟩ : ∃ f, fuel = f + 1 := ⟨fuel - 1, by omega⟩
      rw [insertPages, if_pos hrc]

end Loop

/-! ## Results -/

variable (call : MmapCall)

/-- A range has at least a page. -/
theorem MmapCall.vsize_eq : ∃ n, call.pages = n + 1 ∧
    call.vma.vsize.toNat = PAGE_SIZE * (n + 1) := by
  obtain ⟨m, hm⟩ := call.vma.pageSize_dvd_vsize
  have hpos := call.vma.vsize_pos
  have hpages : call.pages = m := by
    rw [MmapCall.pages, hm]
    exact Nat.mul_div_cancel_left m (by decide)
  obtain ⟨n, rfl⟩ : ∃ n, m = n + 1 := ⟨m - 1, by
    have : m ≠ 0 := fun h0 => by simp [hm, h0] at hpos
    omega⟩
  exact ⟨n, hpages, hm⟩

variable {call} {n : ℕ} {buf : U64} {out : MmapOutcome}

/-- The pages of a range no longer than the buffer lie in it. -/
theorem Inserts.inside (h : Inserts call.insertRc n 0 call.vma.start buf out)
    (hn : n < RX_BUF_PAGES) : ∀ a ∈ out.resolved, (a - buf).toNat < RX_BUF_SIZE := by
  have hsize : RX_BUF_SIZE = 4096 * 256 := rfl
  have hpage : PAGE_SIZE = 4096 := rfl
  have hmax : RX_BUF_PAGES = 256 := rfl
  intro a ha
  obtain ⟨k, hk, rfl⟩ := h.near a ha
  rw [BitVec.add_comm, BitVec.add_sub_cancel, BitVec.toNat_ofNat, hsize, hpage]
  omega

/-- Pages in order from the first on are those behind the page offset only where it is 0. -/
theorem Inserts.maps_iff (h : Inserts call.insertRc n 0 call.vma.start buf out)
    (hn : n < RX_BUF_PAGES) (hpages : call.pages = n + 1) (hbuf : call.rxBuffer = some buf) :
    call.Maps out ↔ call.vma.pgoff = 0 ∨ ∃ k < call.pages, call.insertRc k ≠ 0 := by
  have hinside (a : U64) (ha : a ∈ out.resolved) : ∃ buf, call.rxBuffer = some buf ∧
      (a - buf).toNat < RX_BUF_SIZE := ⟨buf, hbuf, h.inside hn a ha⟩
  by_cases hany : ∃ k < call.pages, call.insertRc k ≠ 0
  · obtain ⟨k, hk, hrc⟩ := hany
    have hret := h.failed ⟨k, by omega, by rwa [Nat.zero_add]⟩
    exact iff_of_true ⟨hinside, fun hzero => absurd hzero hret⟩ (.inr ⟨k, hk, hrc⟩)
  · obtain ⟨hret, hmapped⟩ := h.whole fun k hk => by
      rw [Nat.zero_add]
      by_contra hrc
      exact hany ⟨k, by omega, hrc⟩
    rw [or_iff_left hany]
    constructor
    · intro hmaps
      obtain ⟨b, hb, hk⟩ := hmaps.pages hret
      obtain rfl := Option.some.inj (hbuf.symm.trans hb)
      obtain ⟨hlt, hfirst⟩ := hk 0 (by omega)
      -- the first page is the first of the buffer, and the offset is below its page count
      rw [hmapped 0 n.zero_le, add_page_zero, add_page_zero, Nat.add_zero] at hfirst
      have hsame := (Prod.mk.inj (Option.some.inj hfirst)).2
      have hzero := congrArg BitVec.toNat (BitVec.self_eq_add_right.mp hsame)
      have hpage : PAGE_SIZE = 4096 := rfl
      have hmax : RX_BUF_PAGES = 256 := rfl
      rw [BitVec.toNat_ofNat, hpage] at hzero
      rw [hmax] at hlt
      refine BitVec.eq_of_toNat_eq ?_
      have hnum : (0 : U64).toNat = 0 := rfl
      have hnum' : (0#64).toNat = 0 := rfl
      omega
    · intro hoff
      have hnum : (0 : U64).toNat = 0 := rfl
      refine ⟨hinside, fun _ => ⟨buf, hbuf, fun k hk => ⟨?_, ?_⟩⟩⟩
      · rw [hoff, hnum]
        omega
      · rw [hoff, hnum, Nat.zero_add]
        exact hmapped k (by omega)

variable (call) in
/-- A call maps the pages it is asked for, and stays in the buffer, exactly when its range is longer
than the buffer, or the buffer is there and no offset is asked for or a page cannot be inserted. -/
theorem ringMapped_iff : call.RingMapped ↔ call.MmapOk := by
  obtain ⟨n, hpages, hvsize⟩ := call.vsize_eq
  by_cases hlong : RX_BUF_SIZE < call.vma.vsize.toNat
  · have hrefused (fuel : ℕ) :
        xdmaMmap fuel call = some ⟨-Errno.einval.code, [], []⟩ := if_pos hlong
    refine iff_of_true ⟨_, fun fuel _ => hrefused fuel, fun a ha => absurd ha List.not_mem_nil,
      fun hret => ?_⟩ (.inl hlong)
    exact absurd hret (Errno.neg_code_neg _).ne
  obtain ⟨out, hout, hinserts⟩ := insertPages_spec call.insertRc 0 call.vma.start
    (call.rxBuffer.getD 0) hvsize
  have hrun (fuel : ℕ) (hfuel : fuel ≥ call.pages) : xdmaMmap fuel call = some out :=
    (if_neg hlong).trans (hout fuel (hpages ▸ hfuel))
  have hmaps : call.RingMapped ↔ call.Maps out := by
    refine ⟨fun ⟨out', hout', h⟩ => ?_, fun h => ⟨out, hrun, h⟩⟩
    have hsame := (hrun call.pages (le_refl _)).symm.trans (hout' call.pages (le_refl _))
    exact Option.some.inj hsame ▸ h
  have hn : n < RX_BUF_PAGES := by
    have hsize : RX_BUF_SIZE = PAGE_SIZE * RX_BUF_PAGES := rfl
    rw [hvsize, hsize, not_lt] at hlong
    exact Nat.le_of_mul_le_mul_left hlong (by decide)
  rw [hmaps, MmapCall.MmapOk, or_iff_right hlong]
  cases hbuf : call.rxBuffer with
  | none =>
    rw [hbuf] at hinserts
    refine iff_of_false (fun h => ?_) fun h => h.1 rfl
    obtain ⟨buf, hsome, -⟩ := h.inside _ hinserts.first
    exact absurd (hbuf.symm.trans hsome) (by simp)
  | some buf =>
    rw [hbuf] at hinserts
    rw [hinserts.maps_iff hn hpages hbuf]
    exact (and_iff_right (by simp)).symm

/-- A page at offset 1 of a buffer that is there. -/
def mmapSecondPage : MmapCall where
  rxBuffer := some 0xffffc90000000000
  vma := ⟨0x7f0000000000, 0x7f0000001000, 1, by decide, by decide, by decide⟩
  insertRc _ := 0

/-- It gets the first page. -/
theorem not_ringMapped : ¬ ∀ call : MmapCall, call.RingMapped := by
  intro h
  obtain ⟨out, hout, hmaps⟩ := h mmapSecondPage
  have hrun : xdmaMmap 1 mmapSecondPage =
    some ⟨0, [0xffffc90000000000], [(0x7f0000000000, 0xffffc90000000000)]⟩ := rfl
  obtain rfl := Option.some.inj ((hout 1 (by decide)).symm.trans hrun)
  obtain ⟨buf, hbuf, hpages⟩ := hmaps.pages rfl
  obtain rfl := Option.some.inj hbuf
  exact absurd (hpages 0 (by decide)).2 (by decide)

end Wimi
