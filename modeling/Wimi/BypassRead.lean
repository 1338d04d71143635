import Wimi.Lib.Buffer
import Wimi.TransferBuild

/-!
# Reading the descriptors of a queue

`char_bypass_read` hands out the descriptors of every transfer queued on an engine. The error of a
descriptor is overwritten by the next one, and that of a transfer by the next transfer; what is left
of a failure is that the buffer counts as full from then on.

`bypass_read` : of the reads whose length is not negative, exactly which hand out every descriptor;
the others return an error.
-/

namespace Wimi

/-! ## The read -/

/-- The words of a descriptor, in the order of `struct xdma_desc`. -/
def XdmaDesc.words (d : XdmaDesc) : List U32 :=
  [d.control, d.bytes, d.srcAddrLo, d.srcAddrHi, d.dstAddrLo, d.dstAddrHi, d.nextLo, d.nextHi]

/-- The bytes of a descriptor in memory. -/
def XdmaDesc.image (d : XdmaDesc) : List U8 :=
  d.words.flatMap wordBytes

/-- A read of the bypass device of an engine. `buf` is the memory from the user's pointer on, none
for a null pointer, and `left i` is what the `i`-th `copy_to_user` leaves. -/
structure BypassRead where
  bypassBarIdx : ℤ
  transferList : List BuiltTransfer
  buf : Option (ℕ → U8)
  count : U64
  left : ℕ → ℕ

/-- The locals of the read, with the user's memory and the number of copies made. -/
structure BypassState where
  buf : ℕ → U8
  bufOffset : U64
  rc : ℤ
  copies : ℕ

/-- One turn of the loop of `copy_desc_data`. -/
def copyDesc (left : ℕ → ℕ) (bufSize : U64) (s : BypassState) (d : XdmaDesc) : BypassState :=
  if s.bufOffset + BitVec.ofNat 64 descSize ≤ bufSize then
    let copyErr := left s.copies
    let s := { s with
      buf := Buffer.overwrite s.buf s.bufOffset.toNat (d.image.take (descSize - copyErr))
      copies := s.copies + 1 }
    if copyErr ≠ 0 then { s with bufOffset := bufSize, rc := -Errno.einval.code }
    else { s with bufOffset := s.bufOffset + BitVec.ofNat 64 descSize }
  else { s with rc := -Errno.enomem.code }

/-- The descriptors of a transfer. -/
def BuiltTransfer.descs (x : BuiltTransfer) : List XdmaDesc :=
  (List.range x.descNum).map x.descVirt

/-- `copy_desc_data`. -/
def copyDescData (left : ℕ → ℕ) (bufSize : U64) (s : BypassState) (transfer : BuiltTransfer) :
    BypassState :=
  transfer.descs.foldl (copyDesc left bufSize) { s with rc := 0 }

/-- `char_bypass_read` : what it returns, and the user's memory behind it. -/
def charBypassRead (c : BypassRead) : ℤ × Option (ℕ → U8) :=
  if c.count &&& 3 ≠ 0 then (-Errno.einval.code, c.buf)
  else
    match c.buf with
    | none => (-Errno.einval.code, none)
    | some buf =>
      if c.bypassBarIdx < 0 then (-Errno.enodev.code, some buf)
      else
        let s := c.transferList.foldl (copyDescData c.left c.count) ⟨buf, 0, 0, 0⟩
        (if s.rc < 0 then s.rc else s.bufOffset.toInt, some s.buf)

/-! ## What it is to hand out -/

namespace BypassRead

variable (c : BypassRead)

/-- The descriptors of the queue. -/
def descs : List XdmaDesc :=
  c.transferList.flatMap BuiltTransfer.descs

/-- The guards of the read let it through. -/
def Passes : Prop :=
  c.buf ≠ none ∧ 0 ≤ c.bypassBarIdx

/-- All descriptors fit in the buffer, and every copy of one is whole. -/
def Fits : Prop :=
  descSize * c.descs.length ≤ c.count.toNat ∧ ∀ k < c.descs.length, c.left k = 0

/-- The read returns the length of all descriptors, with their bytes in the buffer and nothing
else written. -/
def HandsOut : Prop :=
  ∃ buf, c.buf = some buf ∧ charBypassRead c =
    (((descSize * c.descs.length : ℕ) : ℤ),
      some (Buffer.overwrite buf 0 (c.descs.flatMap XdmaDesc.image)))

/-- The read leaves the memory behind the first `count` bytes as it was. -/
def StaysInside : Prop :=
  ∀ buf, c.buf = some buf → ∃ buf', (charBypassRead c).2 = some buf' ∧
    ∀ i ≥ c.count.toNat, buf' i = buf i

end BypassRead

@[simp] theorem length_image (d : XdmaDesc) : d.image.length = descSize :=
  rfl

theorem length_flatMap_image (ds : List XdmaDesc) :
    (ds.flatMap XdmaDesc.image).length = descSize * ds.length := by
  induction ds with
  | nil => rfl
  | cons d ds ih => rw [List.flatMap_cons, List.length_append, ih, length_image, List.length_cons,
      Nat.mul_succ, Nat.add_comm]

/-! ## The loops -/

section Loops

variable {c : BypassRead} {buf : ℕ → U8} {ds : List XdmaDesc} {s : BypassState}

/-- All descriptors so far have been copied. -/
structure Copied (c : BypassRead) (buf : ℕ → U8) (ds : List XdmaDesc) (s : BypassState) : Prop where
  fits : descSize * ds.length ≤ c.count.toNat
  whole : ∀ k < ds.length, c.left k = 0
  offset : s.bufOffset.toNat = descSize * ds.length
  copies : s.copies = ds.length
  bytes : s.buf = Buffer.overwrite buf 0 (ds.flatMap XdmaDesc.image)

/-- One of the descriptors so far has not been copied, and no more fit in the buffer. -/
structure Stuck (c : BypassRead) (buf : ℕ → U8) (ds : List XdmaDesc) (s : BypassState) : Prop where
  full : c.count.toNat < s.bufOffset.toNat + descSize
  le : s.bufOffset.toNat ≤ c.count.toNat
  missed : ¬ (descSize * ds.length ≤ c.count.toNat ∧ ∀ k < ds.length, c.left k = 0)
  outside : ∀ i ≥ c.count.toNat, s.buf i = buf i

/-- What a turn finds. -/
def Ready (c : BypassRead) (buf : ℕ → U8) (ds : List XdmaDesc) (s : BypassState) : Prop :=
  Copied c buf ds s ∧ s.rc = 0 ∨ Stuck c buf ds s

/-- What a turn leaves : an error is behind it exactly when a copy was missed. -/
def Ended (c : BypassRead) (buf : ℕ → U8) (ds : List XdmaDesc) (s : BypassState) : Prop :=
  Copied c buf ds s ∧ s.rc = 0 ∨ Stuck c buf ds s ∧ s.rc < 0

theorem Ended.ready (h : Ended c buf ds s) : Ready c buf ds s :=
  h.imp_right And.left

/-- The error is reset at the next transfer. -/
theorem Ready.reset (h : Ready c buf ds s) : Ready c buf ds { s with rc := 0 } := by
  rcases h with ⟨h, -⟩ | h
  · exact .inl ⟨⟨h.fits, h.whole, h.offset, h.copies, h.bytes⟩, rfl⟩
  · exact .inr ⟨h.full, h.le, h.missed, h.outside⟩

/-- The end of the next descriptor does not wrap. -/
theorem toNat_nextOffset (hcount : c.count.toNat < 2 ^ 63)
    (hle : s.bufOffset.toNat ≤ c.count.toNat) :
    (s.bufOffset + BitVec.ofNat 64 descSize).toNat = s.bufOffset.toNat + descSize := by
  have hsize : (BitVec.ofNat 64 descSize).toNat = 32 := rfl
  have hsize' : descSize = 32 := rfl
  rw [BitVec.toNat_add, hsize, hsize']
  omega

/-- A descriptor behind a missed one is missed. -/
theorem Stuck.copyDesc (h : Stuck c buf ds s) (hcount : c.count.toNat < 2 ^ 63) (d : XdmaDesc) :
    Stuck c buf (ds ++ [d]) (copyDesc c.left c.count s d) ∧
      (copyDesc c.left c.count s d).rc < 0 := by
  have hfull : ¬ s.bufOffset + BitVec.ofNat 64 descSize ≤ c.count := by
    rw [BitVec.le_def, toNat_nextOffset hcount h.le]
    exact not_le.mpr h.full
  rw [Wimi.copyDesc, if_neg hfull]
  refine ⟨⟨h.full, h.le, fun hall => h.missed ⟨?_, fun k hk => hall.2 k ?_⟩, h.outside⟩,
    Errno.neg_code_neg _⟩
  · have := hall.1
    rw [List.length_append, Nat.mul_add] at this
    omega
  · rw [List.length_append]
    omega

/-- What is copied of a descriptor that fits lies in the buffer. -/
theorem overwrite_inside {off : ℕ} {d : XdmaDesc} {n : ℕ} (hoff : off + descSize ≤ c.count.toNat)
    {b : ℕ → U8} {i : ℕ} (hi : c.count.toNat ≤ i) :
    Buffer.overwrite b off (d.image.take n) i = b i := by
  refine Buffer.overwrite_outside (Or.inr ?_)
  have := List.length_take_le' n d.image
  rw [length_image] at this
  omega

/-- The next descriptor is copied, unless it does not fit or its copy fails. -/
theorem Copied.copyDesc (h : Copied c buf ds s) (hrc : s.rc = 0) (hcount : c.count.toNat < 2 ^ 63)
    (d : XdmaDesc) : Ended c buf (ds ++ [d]) (copyDesc c.left c.count s d) := by
  have hle : s.bufOffset.toNat ≤ c.count.toNat := h.offset ▸ h.fits
  have hnext := toNat_nextOffset hcount hle
  have hlength : (ds ++ [d]).length = ds.length + 1 := List.length_append
  have hold (i : ℕ) (hi : c.count.toNat ≤ i) : s.buf i = buf i := by
    rw [h.bytes]
    refine Buffer.overwrite_outside (Or.inr ?_)
    rw [length_flatMap_image, Nat.zero_add]
    exact h.fits.trans hi
  by_cases hfits : s.bufOffset + BitVec.ofNat 64 descSize ≤ c.count
  · have hroom : s.bufOffset.toNat + descSize ≤ c.count.toNat := by
      rwa [BitVec.le_def, hnext] at hfits
    rw [Wimi.copyDesc, if_pos hfits]
    by_cases hleft : c.left s.copies = 0
    · simp only [hleft, ne_eq, not_true_eq_false, if_false, Nat.sub_zero]
      refine .inl ⟨⟨?_, fun k hk => ?_, ?_, ?_, ?_⟩, hrc⟩
      · rw [hlength, Nat.mul_succ, ← h.offset]
        exact hroom
      · rcases Nat.lt_succ_iff_lt_or_eq.mp (hlength ▸ hk) with hk | rfl
        · exact h.whole k hk
        · rwa [← h.copies]
      · rw [hlength, Nat.mul_succ, ← h.offset]
        exact hnext
      · rw [hlength, ← h.copies]
      · have htake : d.image.take descSize = d.image := List.take_of_length_le (length_image d).le
        have hoff : s.bufOffset.toNat = 0 + (ds.flatMap XdmaDesc.image).length := by
          rw [h.offset, length_flatMap_image, Nat.zero_add]
        rw [htake, h.bytes, hoff, Buffer.overwrite_append, List.flatMap_append,
          List.flatMap_singleton]
    · simp only [hleft, ne_eq, not_false_eq_true, if_true]
      refine .inr ⟨⟨?_, le_refl _, fun hall => ?_, fun i hi => ?_⟩, Errno.neg_code_neg _⟩
      · exact Nat.lt_add_of_pos_right (by decide)
      · refine hleft (hall.2 s.copies ?_)
        rw [h.copies, hlength]
        exact Nat.lt_succ_self _
      · exact (overwrite_inside hroom hi).trans (hold i hi)
  · have hfull : c.count.toNat < s.bufOffset.toNat + descSize := by
      rwa [BitVec.le_def, hnext, not_le] at hfits
    rw [Wimi.copyDesc, if_neg hfits]
    refine .inr ⟨⟨hfull, hle, fun hall => ?_, hold⟩, Errno.neg_code_neg _⟩
    have := hall.1
    rw [hlength, Nat.mul_succ, ← h.offset] at this
    omega

/-- A turn. -/
theorem Ready.copyDesc (h : Ready c buf ds s) (hcount : c.count.toNat < 2 ^ 63) (d : XdmaDesc) :
    Ended c buf (ds ++ [d]) (copyDesc c.left c.count s d) := by
  rcases h with ⟨h, hrc⟩ | h
  · exact h.copyDesc hrc hcount d
  · exact .inr (h.copyDesc hcount d)

/-- All turns of a loop over `more` descriptors. -/
theorem Ended.foldl (hcount : c.count.toNat < 2 ^ 63) (more : List XdmaDesc)
    (h : Ended c buf ds s) : Ended c buf (ds ++ more) (more.foldl (copyDesc c.left c.count) s) := by
  induction more generalizing ds s with
  | nil => rwa [List.append_nil]
  | cons d more ih =>
    rw [List.foldl_cons, List.append_cons]
    exact ih (h.ready.copyDesc hcount d)

/-- A transfer of at least one descriptor. -/
theorem Ready.copyDescData (h : Ready c buf ds s) (hcount : c.count.toNat < 2 ^ 63)
    {x : BuiltTransfer} (hx : 1 ≤ x.descNum) :
    Ended c buf (ds ++ x.descs) (copyDescData c.left c.count s x) := by
  have hne : x.descs ≠ [] := by
    rw [BuiltTransfer.descs, Ne, List.map_eq_nil_iff, List.range_eq_nil]
    omega
  obtain ⟨d, more, hdescs⟩ := List.exists_cons_of_ne_nil hne
  rw [Wimi.copyDescData, hdescs, List.foldl_cons, List.append_cons]
  exact (h.reset.copyDesc hcount d).foldl hcount more

/-- All transfers of a queue. -/
theorem Ended.queue (hcount : c.count.toNat < 2 ^ 63) (queue : List BuiltTransfer)
    (hqueue : ∀ x ∈ queue, 1 ≤ x.descNum) (h : Ended c buf ds s) :
    Ended c buf (ds ++ queue.flatMap BuiltTransfer.descs)
      (queue.foldl (copyDescData c.left c.count) s) := by
  induction queue generalizing ds s with
  | nil => rwa [List.flatMap_nil, List.append_nil]
  | cons x queue ih =>
    rw [List.foldl_cons, List.flatMap_cons, ← List.append_assoc]
    exact ih (fun y hy => hqueue y (List.mem_cons_of_mem _ hy))
      (h.ready.copyDescData hcount (hqueue x List.mem_cons_self))

end Loops

/-! ## Results -/

variable (c : BypassRead)

/-- A read the guards let through works on the whole queue. -/
theorem charBypassRead_of_passes {c : BypassRead} {buf : ℕ → U8} (haligned : c.count.toNat % 4 = 0)
    (hbuf : c.buf = some buf) (hbar : 0 ≤ c.bypassBarIdx) :
    charBypassRead c =
      let s := c.transferList.foldl (copyDescData c.left c.count) ⟨buf, 0, 0, 0⟩
      (if s.rc < 0 then s.rc else s.bufOffset.toInt, some s.buf) := by
  have hlow : ¬ c.count &&& 3 ≠ 0 := by
    have hand : (c.count &&& 3).toNat = c.count.toNat % 4 := by
      rw [BitVec.toNat_and]
      exact Nat.and_two_pow_sub_one_eq_mod _ 2
    exact not_not.mpr (BitVec.eq_of_toNat_eq (hand.trans haligned))
  rw [charBypassRead, if_neg hlow, hbuf]
  exact if_neg (not_lt.mpr hbar)

/-- A read that is refused writes nothing. -/
theorem charBypassRead_of_not_passes {c : BypassRead} (h : ¬ c.Passes) :
    (charBypassRead c).1 < 0 ∧ (charBypassRead c).2 = c.buf := by
  rw [charBypassRead]
  split
  · exact ⟨Errno.neg_code_neg _, rfl⟩
  split
  · next hbuf => exact ⟨Errno.neg_code_neg _, hbuf.symm⟩
  · next buf hbuf =>
    have hbar : c.bypassBarIdx < 0 := by
      by_contra hbar
      exact h ⟨by simp [hbuf], not_lt.mp hbar⟩
    rw [if_pos hbar]
    exact ⟨Errno.neg_code_neg _, hbuf.symm⟩

/-- What a read the guards let through comes to. -/
theorem charBypassRead_ended {c : BypassRead} (hcount : c.count.toNat < 2 ^ 63)
    (haligned : c.count.toNat % 4 = 0) (hnum : ∀ x ∈ c.transferList, 1 ≤ x.descNum)
    {buf : ℕ → U8} (hbuf : c.buf = some buf) (hbar : 0 ≤ c.bypassBarIdx) :
    c.Fits ∧ charBypassRead c = (((descSize * c.descs.length : ℕ) : ℤ),
        some (Buffer.overwrite buf 0 (c.descs.flatMap XdmaDesc.image))) ∨
      ¬ c.Fits ∧ (charBypassRead c).1 < 0 ∧ ∃ buf', (charBypassRead c).2 = some buf' ∧
        ∀ i ≥ c.count.toNat, buf' i = buf i := by
  have hstart : Ended c buf [] ⟨buf, 0, 0, 0⟩ :=
    .inl ⟨⟨Nat.zero_le _, fun k hk => absurd hk k.not_lt_zero, rfl, rfl, by simp⟩, rfl⟩
  have hended := hstart.queue hcount c.transferList hnum
  rw [List.nil_append] at hended
  rw [charBypassRead_of_passes haligned hbuf hbar]
  rcases hended with ⟨h, hrc⟩ | ⟨h, hrc⟩
  · refine .inl ⟨⟨h.fits, h.whole⟩, ?_⟩
    have hfits := h.fits
    have hret := BitVec.toInt_eq_toNat_of_lt (x := BypassState.bufOffset _) (by
      rw [h.offset]
      omega)
    simp only [hrc, lt_irrefl, if_false]
    rw [hret, h.offset, h.bytes]
    rfl
  · refine .inr ⟨h.missed, ?_, _, rfl, h.outside⟩
    simp only [hrc, if_true]

/-- A read of a length that is no negative number hands out every descriptor of the queue exactly
when it has a buffer and a bypass BAR, all descriptors fit in the buffer and no copy fails; every
other one returns an error; and none writes behind the length. -/
theorem bypass_read (c : BypassRead) (hcount : c.count.toNat < 2 ^ 63)
    (haligned : c.count.toNat % 4 = 0) (hnum : ∀ x ∈ c.transferList, 1 ≤ x.descNum) :
    (c.HandsOut ↔ c.Passes ∧ c.Fits) ∧ (¬ (c.Passes ∧ c.Fits) → (charBypassRead c).1 < 0) ∧
      c.StaysInside := by
  by_cases hpasses : c.Passes
  · obtain ⟨buf, hbuf⟩ := Option.ne_none_iff_exists'.mp hpasses.1
    rcases charBypassRead_ended hcount haligned hnum hbuf hpasses.2 with
      ⟨hfits, hread⟩ | ⟨hmissed, hret, buf', hbuf', houtside⟩
    · refine ⟨iff_of_true ⟨buf, hbuf, hread⟩ ⟨hpasses, hfits⟩, fun h => absurd ⟨hpasses, hfits⟩ h,
        fun b hb => ⟨_, by rw [hread], fun i hi => ?_⟩⟩
      obtain rfl := Option.some.inj (hbuf.symm.trans hb)
      refine Buffer.overwrite_outside (Or.inr ?_)
      rw [length_flatMap_image, Nat.zero_add]
      exact hfits.1.trans hi
    · refine ⟨iff_of_false ?_ fun h => hmissed h.2, fun _ => hret, fun b hb => ⟨buf', hbuf', ?_⟩⟩
      · rintro ⟨b, -, hread⟩
        rw [hread] at hret
        exact absurd hret (not_lt.mpr (Int.natCast_nonneg _))
      · obtain rfl := Option.some.inj (hbuf.symm.trans hb)
        exact houtside
  · obtain ⟨hret, hkept⟩ := charBypassRead_of_not_passes hpasses
    refine ⟨iff_of_false ?_ fun h => hpasses h.1, fun _ => hret,
      fun b hb => ⟨b, hkept.trans hb, fun i _ => rfl⟩⟩
    rintro ⟨b, -, hread⟩
    rw [hread] at hret
    exact absurd hret (not_lt.mpr (Int.natCast_nonneg _))

/-- A transfer of one descriptor. -/
def oneDesc : BuiltTransfer :=
  ⟨fun _ => ⟨DESC_MAGIC, 64, 0, 0, 0, 0, 0, 0⟩, 0x30000000, 1, 1⟩

/-- Two transfers of one descriptor each, read into 64 bytes. -/
def readTwo : BypassRead :=
  ⟨0, [oneDesc, oneDesc], some fun _ => 0, 64, fun _ => 0⟩

theorem bypass_read_two : readTwo.HandsOut ↔ readTwo.Passes ∧ readTwo.Fits :=
  (bypass_read readTwo (by decide) (by decide) fun x hx => by
    rcases List.mem_cons.mp hx with rfl | hx
    · exact le_refl _
    · exact List.mem_singleton.mp hx ▸ le_refl _).1

/-- Without a buffer nothing is handed out, also of an empty queue, and neither without a bypass
BAR. And where the length is so large that the end of a descriptor wraps, the second copy of two
overwrites the failure of the first. -/
theorem bypass_read_exceptions :
    (¬ ∀ c : BypassRead, 0 ≤ c.bypassBarIdx → c.count.toNat % 4 = 0 →
      (∀ x ∈ c.transferList, 1 ≤ x.descNum) → (c.HandsOut ↔ c.Fits)) ∧
    (¬ ∀ c : BypassRead, c.buf ≠ none → c.count.toNat % 4 = 0 →
      (∀ x ∈ c.transferList, 1 ≤ x.descNum) → (c.HandsOut ↔ c.Fits)) ∧
    ¬ ∀ c : BypassRead, c.Passes → c.count.toNat % 4 = 0 →
      (∀ x ∈ c.transferList, 1 ≤ x.descNum) → ¬ c.Fits → (charBypassRead c).1 < 0 := by
  refine ⟨fun h => ?_, fun h => ?_, fun h => ?_⟩
  · have hfits : (⟨0, [], none, 32, fun _ => 0⟩ : BypassRead).Fits :=
      ⟨Nat.zero_le _, fun _ _ => rfl⟩
    obtain ⟨buf, hbuf, -⟩ := (h _ le_rfl rfl fun x hx => absurd hx List.not_mem_nil).mpr hfits
    cases hbuf
  · have hfits : (⟨-1, [], some fun _ => 0, 32, fun _ => 0⟩ : BypassRead).Fits :=
      ⟨Nat.zero_le _, fun _ _ => rfl⟩
    obtain ⟨buf, -, hread⟩ :=
      (h _ (Option.some_ne_none _) rfl fun x hx => absurd hx List.not_mem_nil).mpr hfits
    exact absurd (show (-19 : ℤ) = 0 from congrArg Prod.fst hread) (by decide)
  · have hret := h ⟨0, [oneDesc, oneDesc], some fun _ => 0, 0xfffffffffffffffc,
      fun k => if k = 0 then 32 else 0⟩ ⟨by simp, le_refl _⟩ rfl (fun x hx => ?_) fun hfits => ?_
    · exact absurd hret (by decide)
    · rcases List.mem_cons.mp hx with rfl | hx
      · exact le_refl _
      · exact List.mem_singleton.mp hx ▸ le_refl _
    · exact absurd (hfits.2 0 (by decide)) (by decide)

end Wimi
