import Wimi.Kernel

/-!
# Control and bypass character devices

`char_ctrl_read` and `char_ctrl_write` move one 32-bit word between the user and the
register at the file position, through the mapping that `map_single_bar` made of the BAR;
`bridge_mmap` maps a page range of the BAR. The position of a control access is only checked
for alignment and `count` not at all, the mapping ends at `INT_MAX` bytes where the BAR is
longer, and the size left to `bridge_mmap` wraps when the page offset lies behind the BAR.

`isolation_iff` : the exact requests that stay inside the BAR of the device and inside the
user's count.
-/

namespace Wimi

/-- A PCI memory BAR, as `pci_resource_start` and `pci_resource_end` give it. It is
naturally aligned : on a page boundary, or smaller than a page. -/
structure Bar where
  start : U64
  last : U64
  le : start ≤ last
  aligned : PAGE_SIZE ∣ start.toNat ∨ last.toNat - start.toNat + 1 < PAGE_SIZE

/-- Number of bytes of the BAR. -/
def Bar.size (bar : Bar) : ℕ :=
  bar.last.toNat - bar.start.toNat + 1

/-- `map_len` of `map_single_bar` : the bytes of the BAR behind `lro->bar`. -/
def Bar.mapLen (bar : Bar) : ℕ :=
  min bar.size INT_MAX

/-- A `vm_area_struct` : a nonempty range of whole pages, and the page offset asked for. -/
structure Vma where
  start : U64
  last : U64
  pgoff : U64
  lt : start < last
  startAligned : PAGE_SIZE ∣ start.toNat
  lastAligned : PAGE_SIZE ∣ last.toNat

/-- `vma->vm_end - vma->vm_start`. -/
def Vma.vsize (vma : Vma) : U64 :=
  vma.last - vma.start

/-! ## Entry points -/

/-- A control access that went through : the register offset it reached from `lro->bar`,
the word moved, the bytes copied from or to the user, and the new position. -/
structure CtrlIo where
  reg : U64
  word : U32
  moved : ℕ
  pos : U64

/-- The body both control entry points share : only the alignment of the position is
checked. `word` is the word moved and `uncopied` the bytes the user copy left out, after
which the access continues. -/
def ctrlAccess (word : U32) (uncopied : ℕ) (pos : U64) : Except Errno CtrlIo :=
  if pos &&& 3 ≠ 0 then .error .eproto
  else .ok ⟨pos, word, 4 - uncopied, pos + 4⟩

/-- `char_ctrl_read`, of a device whose registers hold `regs`. -/
def charCtrlRead (regs : U64 → U32) (uncopied : ℕ) (_count pos : U64) : Except Errno CtrlIo :=
  ctrlAccess (regs pos) uncopied pos

/-- `char_ctrl_write`. `w` is the word `copy_from_user` leaves, whether or not it failed. -/
def charCtrlWrite (w : U32) (uncopied : ℕ) (_count pos : U64) : Except Errno CtrlIo :=
  ctrlAccess w uncopied pos

/-- A page range handed to `io_remap_pfn_range`. -/
structure Remap where
  pfn : U64
  size : U64

/-- `bridge_mmap`. `rc` is what `io_remap_pfn_range` returns; when it fails nothing is
mapped. -/
def bridgeMmap (bar : Bar) (vma : Vma) (rc : ℤ) : Except Errno Remap :=
  let off := vma.pgoff <<< PAGE_SHIFT
  let phys := bar.start + off
  let psize := bar.last - bar.start + 1 - off
  if vma.vsize > psize then .error .einval
  else if rc ≠ 0 then .error .eagain
  else .ok ⟨phys >>> PAGE_SHIFT, vma.vsize⟩

/-! ## Isolation -/

/-- What a served request reaches. -/
inductive Reach
  /-- `len` bytes from `reg` on of the mapping at `lro->bar`, and `moved` bytes of the user's
  buffer. -/
  | mapping (reg len moved : ℕ)
  /-- `len` physical bytes from `lo` on. -/
  | physical (lo len : ℕ)

/-- What is reached lies inside the BAR : inside the mapping that shows it, or between its
start and its end. -/
def Reach.Inside (bar : Bar) : Reach → Prop
  | .mapping reg len _ => reg + len ≤ bar.mapLen
  | .physical lo len => bar.start.toNat ≤ lo ∧ lo + len ≤ bar.start.toNat + bar.size

/-- Bytes of the user's buffer that were moved; a mapping moves none. -/
def Reach.moved : Reach → ℕ
  | .mapping _ _ moved => moved
  | .physical _ _ => 0

/-- A request to a device node, with what the kernel and the device answer it. -/
inductive CtrlRequest
  | read (regs : U64 → U32) (uncopied : ℕ) (count pos : U64)
  | write (w : U32) (uncopied : ℕ) (count pos : U64)
  | mmap (vma : Vma) (rc : ℤ)

/-- The `count` a request gives; a mapping moves nothing. -/
def CtrlRequest.count : CtrlRequest → ℕ
  | .read _ _ count _ => count.toNat
  | .write _ _ count _ => count.toNat
  | .mmap _ _ => 0

/-- The four register bytes behind a control access. -/
def ctrlReach (io : CtrlIo) : Reach :=
  .mapping io.reg.toNat 4 io.moved

/-- Serve a request on the character device of `bar`. -/
def serve (bar : Bar) : CtrlRequest → Except Errno Reach
  | .read regs uncopied count pos =>
    (charCtrlRead regs uncopied count pos).map ctrlReach
  | .write w uncopied count pos =>
    (charCtrlWrite w uncopied count pos).map ctrlReach
  | .mmap vma rc =>
    (bridgeMmap bar vma rc).map fun (m : Remap) =>
      .physical (m.pfn <<< PAGE_SHIFT).toNat m.size.toNat

/-- A request that is served reaches bytes of the BAR only and moves at most `count`
bytes; one that is refused reaches nothing. -/
def Isolated (bar : Bar) (q : CtrlRequest) : Prop :=
  ∀ r, serve bar q = .ok r → r.Inside bar ∧ r.moved ≤ q.count

/-- The requests whose range was checked, or happens to lie inside the BAR. A control
access is misaligned, or its register lies in what is mapped of the BAR and `count` covers the
bytes moved. A mapping starts inside the BAR, is too long even for the wrapped size, or fails. -/
def CtrlRequest.Within (bar : Bar) : CtrlRequest → Prop
  | .read _ uncopied count pos | .write _ uncopied count pos =>
    pos &&& 3 ≠ 0 ∨ (pos.toNat + 4 ≤ bar.mapLen ∧ 4 - uncopied ≤ count.toNat)
  | .mmap vma rc =>
    (vma.pgoff <<< PAGE_SHIFT).toNat ≤ bar.size ∨
      2 ^ 64 + bar.size < (vma.pgoff <<< PAGE_SHIFT).toNat + vma.vsize.toNat ∨ rc ≠ 0

theorem Bar.size_pos (bar : Bar) : 0 < bar.size :=
  Nat.succ_pos _

theorem Bar.start_add_size_le (bar : Bar) : bar.start.toNat + bar.size ≤ 2 ^ 64 := by
  have hle : bar.start.toNat ≤ bar.last.toNat := bar.le
  have := bar.last.isLt
  unfold Bar.size
  omega

theorem Vma.toNat_vsize (vma : Vma) : vma.vsize.toNat = vma.last.toNat - vma.start.toNat :=
  BitVec.toNat_sub_of_le (BitVec.le_of_lt vma.lt)

theorem Vma.pageSize_dvd_vsize (vma : Vma) : PAGE_SIZE ∣ vma.vsize.toNat := by
  rw [vma.toNat_vsize]
  exact Nat.dvd_sub vma.lastAligned vma.startAligned

theorem Vma.vsize_pos (vma : Vma) : 0 < vma.vsize.toNat := by
  have : vma.start.toNat < vma.last.toNat := vma.lt
  rw [vma.toNat_vsize]
  omega

/-- A mapping covers at least a page. -/
theorem Vma.pageSize_le_vsize (vma : Vma) : PAGE_SIZE ≤ vma.vsize.toNat :=
  Nat.le_of_dvd vma.vsize_pos vma.pageSize_dvd_vsize

/-- The size left behind a page offset, in unsigned arithmetic : it wraps when the offset
lies behind the BAR. -/
theorem Bar.toNat_psize (bar : Bar) (off : U64) :
    (bar.last - bar.start + 1 - off).toNat = (2 ^ 64 + bar.size - off.toNat) % 2 ^ 64 := by
  have hle : bar.start.toNat ≤ bar.last.toNat := bar.le
  have := bar.last.isLt
  have := off.isLt
  have h1 : (1 : U64).toNat = 1 := rfl
  rw [BitVec.toNat_sub, BitVec.toNat_add, BitVec.toNat_sub_of_le bar.le, h1, Bar.size]
  omega

/-- The first physical address of a mapping. -/
theorem Bar.toNat_phys (bar : Bar) (off : U64) :
    (((bar.start + off) >>> PAGE_SHIFT) <<< PAGE_SHIFT).toNat =
      (bar.start.toNat + off.toNat) % 2 ^ 64 / PAGE_SIZE * PAGE_SIZE := by
  have := (bar.start + off).isLt
  rw [BitVec.toNat_shiftLeft, BitVec.toNat_ushiftRight, BitVec.toNat_add, Nat.shiftRight_eq_div_pow,
    Nat.shiftLeft_eq, Nat.mod_eq_of_lt, PAGE_SIZE]
  have := Nat.div_mul_le_self ((bar.start.toNat + off.toNat) % 2 ^ 64) (2 ^ PAGE_SHIFT)
  have := Nat.mod_lt (bar.start.toNat + off.toNat) (show 0 < 2 ^ 64 by norm_num)
  omega

/-! ## Exactly the isolated requests -/

theorem bridgeMmap_of_le (bar : Bar) (vma : Vma) {rc : ℤ}
    (hsize : vma.vsize.toNat ≤ (2 ^ 64 + bar.size - (vma.pgoff <<< PAGE_SHIFT).toNat) % 2 ^ 64)
    (hrc : rc = 0) :
    bridgeMmap bar vma rc =
      .ok ⟨(bar.start + vma.pgoff <<< PAGE_SHIFT) >>> PAGE_SHIFT, vma.vsize⟩ := by
  rw [← bar.toNat_psize] at hsize
  rw [bridgeMmap, if_neg (by simpa [BitVec.lt_def] using hsize), if_neg (not_not.mpr hrc)]

theorem bridgeMmap_of_refused (bar : Bar) (vma : Vma) {r : ℤ}
    (h : (2 ^ 64 + bar.size - (vma.pgoff <<< PAGE_SHIFT).toNat) % 2 ^ 64 < vma.vsize.toNat ∨
      r ≠ 0) : ∃ e, bridgeMmap bar vma r = .error e := by
  rw [← bar.toNat_psize] at h
  unfold bridgeMmap
  by_cases hsize : vma.vsize > bar.last - bar.start + 1 - vma.pgoff <<< PAGE_SHIFT
  · exact ⟨.einval, if_pos hsize⟩
  · exact ⟨.eagain, (if_neg hsize).trans (if_pos (h.resolve_left hsize))⟩

/-- A control access is isolated exactly when its register lies in the mapping and `count`
covers what was moved. -/
theorem ctrlAccess_isolated_iff (bar : Bar) (word : U32) (uncopied : ℕ) (count pos : U64) :
    (∀ r, (ctrlAccess word uncopied pos).map ctrlReach = .ok r →
        r.Inside bar ∧ r.moved ≤ count.toNat) ↔
      pos &&& 3 ≠ 0 ∨ (pos.toNat + 4 ≤ bar.mapLen ∧ 4 - uncopied ≤ count.toNat) := by
  by_cases ha : pos &&& 3 ≠ 0
  · rw [ctrlAccess, if_pos ha]
    exact ⟨fun _ => Or.inl ha, fun _ _ hr => nomatch hr⟩
  · rw [ctrlAccess, if_neg ha, or_iff_right ha]
    simp only [Except.map, Except.ok.injEq, forall_eq', ctrlReach, Reach.Inside, Reach.moved]

/-- A page offset in bytes is a multiple of the page size, whatever it lost in the shift. -/
theorem pageSize_dvd_shiftLeft (pgoff : U64) : PAGE_SIZE ∣ (pgoff <<< PAGE_SHIFT).toNat := by
  rw [BitVec.toNat_shiftLeft, Nat.shiftLeft_eq]
  exact (Nat.dvd_mod_iff ⟨2 ^ 52, rfl⟩).mpr (Nat.dvd_mul_left _ _)

/-- A mapping that passes the size check lies inside the BAR exactly when its offset
does : behind the BAR the first page is outside, also when its address wraps. -/
theorem mmap_inside_iff (bar : Bar) (vma : Vma)
    (hsize : vma.vsize.toNat ≤
      (2 ^ 64 + bar.size - (vma.pgoff <<< PAGE_SHIFT).toNat) % 2 ^ 64) :
    (bar.start.toNat ≤
        (bar.start.toNat + (vma.pgoff <<< PAGE_SHIFT).toNat) % 2 ^ 64 / PAGE_SIZE * PAGE_SIZE ∧
      (bar.start.toNat + (vma.pgoff <<< PAGE_SHIFT).toNat) % 2 ^ 64 / PAGE_SIZE * PAGE_SIZE +
        vma.vsize.toNat ≤ bar.start.toNat + bar.size) ↔
      (vma.pgoff <<< PAGE_SHIFT).toNat ≤ bar.size := by
  have hpage := vma.pageSize_le_vsize
  have htop := bar.start_add_size_le
  have hpos := bar.size_pos
  have hstart := bar.start.isLt
  have hofflt := (vma.pgoff <<< PAGE_SHIFT).isLt
  have haligned : PAGE_SIZE ∣ bar.start.toNat ∨ bar.size < PAGE_SIZE := bar.aligned
  obtain ⟨k, hk⟩ := pageSize_dvd_shiftLeft vma.pgoff
  rw [show PAGE_SIZE = 4096 from rfl] at *
  generalize (vma.pgoff <<< PAGE_SHIFT).toNat = off at *
  generalize vma.vsize.toNat = vsize at *
  generalize bar.start.toNat = start at *
  generalize bar.size = size at *
  subst hk
  rcases haligned with ⟨j, rfl⟩ | hsmall
  · constructor <;> intro h <;> omega
  · constructor <;> intro h <;> omega

/-- A request is isolated exactly when it is one of those `Within` the BAR. -/
theorem isolation_iff (bar : Bar) (q : CtrlRequest) : Isolated bar q ↔ q.Within bar := by
  cases q with
  | read regs uncopied count pos => exact ctrlAccess_isolated_iff bar _ uncopied count pos
  | write w uncopied count pos => exact ctrlAccess_isolated_iff bar w uncopied count pos
  | mmap vma rc =>
    simp only [Isolated, serve, CtrlRequest.Within, CtrlRequest.count]
    have hvsize := vma.pageSize_le_vsize
    have hpage : PAGE_SIZE = 4096 := rfl
    by_cases hok : vma.vsize.toNat ≤
        (2 ^ 64 + bar.size - (vma.pgoff <<< PAGE_SHIFT).toNat) % 2 ^ 64 ∧ rc = 0
    · rw [bridgeMmap_of_le bar vma hok.1 hok.2]
      simp only [Except.map, Except.ok.injEq, forall_eq', Reach.Inside, Reach.moved,
        bar.toNat_phys, Nat.le_refl, and_true]
      rw [mmap_inside_iff bar vma hok.1]
      have := (vma.pgoff <<< PAGE_SHIFT).isLt
      have := hok.1
      omega
    · obtain ⟨e, he⟩ := bridgeMmap_of_refused bar vma (r := rc) (by omega)
      rw [he]
      refine iff_of_true (fun _ hr => nomatch hr) ?_
      by_contra hin
      have := bar.start_add_size_le
      have := (vma.pgoff <<< PAGE_SHIFT).isLt
      omega

/-- A BAR of 64 KiB at 0xf0000000. -/
def controlBar : Bar where
  start := 0xf0000000
  last := 0xf000ffff
  le := by decide
  aligned := Or.inl ⟨0xf0000, rfl⟩

/-- One page, asked for 256 MiB behind the start of the BAR. -/
def strayVma : Vma where
  start := 0x1000
  last := 0x2000
  pgoff := 0x10000
  lt := by decide
  startAligned := ⟨1, rfl⟩
  lastAligned := ⟨2, rfl⟩

/-- A BAR of 4 GiB behind the first 4 GiB. -/
def hugeBar : Bar where
  start := 0x100000000
  last := 0x1ffffffff
  le := by decide
  aligned := Or.inl ⟨0x100000, rfl⟩

/-- A page behind the BAR is mapped, since `psize` wraps; a read of one byte at the end of
the BAR moves four bytes from behind it; a read of a BAR of 4 GiB runs past what is mapped. -/
theorem isolation_fails :
    ¬ Isolated controlBar (.mmap strayVma 0) ∧
      ¬ Isolated controlBar (.read (fun _ => 0) 0 1 0x10000) ∧
      ¬ Isolated hugeBar (.read (fun _ => 0) 0 4 0x80000000) := by
  refine ⟨fun h => ?_, fun h => ?_, fun h => ?_⟩
  · exact absurd (h (.physical 0x100000000 4096) rfl).1.2 (by decide)
  · exact absurd (h (.mapping 0x10000 4 4) rfl).1 (show ¬ 0x10000 + 4 ≤ controlBar.mapLen by decide)
  · exact absurd (h (.mapping 0x80000000 4 4) rfl).1
      (show ¬ 0x80000000 + 4 ≤ hugeBar.mapLen by decide)

end Wimi
