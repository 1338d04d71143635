import Wimi.BitHeader

/-!
# The bounds of the header parser

`bitstream_parse_header` is given a `Size` and never looks at it, writes through what `kmalloc`
returned without a look at that, and tests `name[Len - 1]` with an unsigned `Len`. A header that
runs out of its buffer, a string of length 0 and a failed allocation each take it out of bounds.

What it reads is laid out by the lengths it finds. `headerChecks` are the checks it makes, each
with how far it must have read; they end at the first that fails. `parser_safe_iff` : the parser is
safe exactly when this one lies within `Size` and every string up to it has a byte and got its
space (`HeaderChecked`).

The last two also stop the thread : `ends_stringsHeld` says when, for memory that is mapped behind
the buffer.
-/

open Scanner

namespace Wimi

/-! ## What is safe -/

/-- The bytes `Data[0]` to `Data[n - 1]` were read, with `Index` an `unsigned`. -/
def ReadsBelow (size : U32) (n : ℕ) : Prop :=
  ∀ i < n, BitVec.ofNat 32 i < size

/-- What a header that is accepted should be. -/
structure BitHeader.Fits (size : U32) (h : BitHeader) : Prop where
  headerLength : h.headerLength ≤ size
  magicLength : h.magicLength ≠ 0
  designName : h.designName ≠ []
  partName : h.partName ≠ []
  date : h.date ≠ []
  time : h.time ≠ []

/-- A header may be refused, and nothing may be accessed that is not the parser's. -/
def SafelyFails (size : U32) : HeaderError → ℕ → Prop
  | .invalid, n => ReadsBelow size n
  | .fault, _ => False

/-- `bitstream_parse_header` is safe on `size` bytes, whatever is in memory around its strings. -/
def ParserSafe (data : U32 → Byte) (kmalloc : HeaderString → Bool) (size : U32) : Prop :=
  ∀ stray, Ends (SafelyFails size) (fun h n => ReadsBelow size n ∧ h.Fits size)
    (bitstreamParseHeader ⟨⟨kmalloc, stray⟩, data⟩) 0

theorem readsBelow_iff {size : U32} {n : ℕ} : ReadsBelow size n ↔ n ≤ size.toNat := by
  have hsize := size.isLt
  simp only [ReadsBelow, BitVec.lt_def, BitVec.toNat_ofNat]
  constructor
  · intro h
    by_contra hn
    have := h size.toNat (by omega)
    omega
  · intro h i hi
    omega

/-! ## The checks -/

/-- The half word at index `m`. -/
def halfwordAt (data : U32 → Byte) (m : ℕ) : ℕ :=
  (byteAt data m).toNat * 256 + (byteAt data (m + 1)).toNat

/-- A check of the parser. -/
structure HeaderCheck where
  /-- The index behind what is read for it. -/
  reach : ℕ
  /-- What it relies on without a look. -/
  sound : Prop
  passes : Prop

/-- The checks end within `size` at the first that fails, or they all pass and `P` holds. All that
are made are sound. -/
def Checked (size : ℕ) : List HeaderCheck → Prop → Prop
  | [], P => P
  | c :: cs, P => c.sound ∧ (c.passes → Checked size cs P) ∧ (¬c.passes → c.reach ≤ size)

section Layout

variable (data : U32 → Byte) (kmalloc : HeaderString → Bool)

/-- The checks of `k` bytes of the magic from turn `I`, at index `m`. -/
def magicChecks : ℕ → ℕ → ℕ → List HeaderCheck
  | 0, _, _ => []
  | k + 1, I, m =>
    ⟨m + 1, True, byteAt data m = if I % 2 = 0 then XHI_EVEN_MAGIC_BYTE else XHI_ODD_MAGIC_BYTE⟩ ::
      magicChecks k (I + 1) (m + 1)

/-- The index behind a string whose tag is at `m`. -/
def stringEnd (m : ℕ) : ℕ :=
  m + 3 + halfwordAt data (m + 1)

/-- The checks of the tag and of the last byte of a string. -/
def stringChecks (tag : Byte) (s : HeaderString) (m : ℕ) : List HeaderCheck :=
  [⟨m + 1, True, byteAt data m = tag⟩,
    ⟨stringEnd data m, halfwordAt data (m + 1) ≠ 0 ∧ kmalloc s = true,
      byteAt data (stringEnd data m - 1) = 0⟩]

/-- The turns of the loop over the magic, with `MagicLength - 1` unsigned. -/
def magicTurns : ℕ :=
  (BitVec.ofNat 32 (halfwordAt data 0) - 1).toNat

/-- The index of the tag of the design name. -/
def stringsStart : ℕ :=
  2 + magicTurns data + 3

/-- The index of the tag of the bitstream length. -/
def stringsEnd : ℕ :=
  stringEnd data (stringEnd data (stringEnd data (stringEnd data (stringsStart data))))

/-- The checks of `bitstream_parse_header`, in order. -/
def headerChecks : List HeaderCheck :=
  let a := stringsStart data
  let b := stringEnd data a
  let c := stringEnd data b
  let d := stringEnd data c
  magicChecks data (magicTurns data) 0 2 ++
    ⟨a, True, halfwordAt data (2 + magicTurns data + 1) = 1⟩ ::
      (stringChecks data kmalloc 0x61 .designName a ++
        (stringChecks data kmalloc 0x62 .partName b ++
          (stringChecks data kmalloc 0x63 .date c ++
            (stringChecks data kmalloc 0x64 .time d ++
              [⟨stringsEnd data + 1, True, byteAt data (stringsEnd data) = 0x65⟩]))))

/-- The header is checked within `size`, and if it passes lies within. -/
def HeaderChecked (size : ℕ) : Prop :=
  Checked size (headerChecks data kmalloc) (stringsEnd data + 5 ≤ size)

end Layout

theorem checked_append {size : ℕ} {cs ds : List HeaderCheck} {P : Prop} :
    Checked size (cs ++ ds) P ↔ Checked size cs (Checked size ds P) := by
  induction cs with
  | nil => rfl
  | cons c cs ih => simp [Checked, ih]

theorem Checked.mono {size : ℕ} {cs : List HeaderCheck} {P P' : Prop} (h : Checked size cs P)
    (hP : P → P') : Checked size cs P' := by
  induction cs with
  | nil => exact hP h
  | cons c cs ih => exact ⟨h.1, fun hp => ih (h.2.1 hp), h.2.2⟩

/-! ## The parser makes the checks -/

theorem halfwordAt_lt (data : U32 → Byte) (m : ℕ) : halfwordAt data m < 2 ^ 16 := by
  have ha := (byteAt data m).isLt
  have hb := (byteAt data (m + 1)).isLt
  rw [halfwordAt]
  omega

theorem toNat_halfwordAt (data : U32 → Byte) (m : ℕ) :
    (BitVec.ofNat 32 (halfwordAt data m)).toNat = halfwordAt data m := by
  have := halfwordAt_lt data m
  rw [BitVec.toNat_ofNat, Nat.mod_eq_of_lt (by omega)]

namespace HeaderEnv

variable {e : HeaderEnv} {size : U32} {m : ℕ}

@[simp] theorem ends_next {E : HeaderError → ℕ → Prop} {Q : Byte → ℕ → Prop} :
    Ends E Q e.next m ↔ Q (byteAt e.data m) (m + 1) :=
  Iff.rfl

@[simp] theorem ends_halfword {E : HeaderError → ℕ → Prop} {Q : U32 → ℕ → Prop} :
    Ends E Q (e.bigEndian 2 0) m ↔ Q (BitVec.ofNat 32 (halfwordAt e.data m)) (m + 2) := by
  have hword : ((byteAt e.data m).setWidth 32 <<< 8 ||| (byteAt e.data (m + 1)).setWidth 32 : U32) =
      BitVec.ofNat 32 (halfwordAt e.data m) := by
    apply BitVec.eq_of_toNat_eq
    have ha : ((byteAt e.data m).setWidth 32 : U32).toNat = (byteAt e.data m).toNat :=
      BitVec.toNat_setWidth_of_le (by norm_num)
    rw [toNat_pushByte (by omega), ha, toNat_halfwordAt, halfwordAt]
  have hacc (w : U32) : (0 : U32) <<< 8 ||| w = w := by simp
  simp only [bigEndian, ends_bind, ends_next, ends_pure, hacc, hword]

/-- The loop over the magic. -/
theorem ends_magic {k I : ℕ} {Q : Unit → ℕ → Prop} :
    Ends (SafelyFails size) Q (e.magic k I) m ↔
      Checked size.toNat (magicChecks e.data k I m) (Q () (m + k)) := by
  induction k generalizing I m with
  | zero => exact Iff.rfl
  | succ k ih =>
    have hcomm : m + 1 + k = m + (k + 1) := by omega
    simp only [magic, ends_bind, ends_next, ends_require, ih, magicChecks, Checked, SafelyFails,
      readsBelow_iff, hcomm]
    rcases Nat.mod_two_eq_zero_or_one I with hI | hI <;> simp [hI, ite_prop_iff_and]

/-- The bytes of a string. -/
def stringBytes (e : HeaderEnv) (m : ℕ) : List Byte :=
  (List.range (halfwordAt e.data (m + 1))).map fun i => byteAt e.data (m + 3 + i)

theorem getLast?_stringBytes (h : halfwordAt e.data (m + 1) ≠ 0) :
    (e.stringBytes m).getLast? = some (byteAt e.data (stringEnd e.data m - 1)) := by
  obtain ⟨k, hk⟩ := Nat.exists_eq_succ_of_ne_zero h
  have hlast : m + 3 + (k + 1) - 1 = m + 3 + k := by omega
  simp [stringBytes, stringEnd, hk, List.range_succ, hlast]

theorem ends_fill {E : HeaderError → ℕ → Prop} {Q : List Byte → ℕ → Prop} {s : HeaderString}
    {len : ℕ} : Ends E Q (e.fill s len) m ↔
      if e.kmalloc s = true ∨ len = 0 then
        Q ((List.range len).map fun i => byteAt e.data (m + i)) (m + len)
      else E .fault m := by
  rw [fill]
  split_ifs
  · exact ends_take
  · exact ends_throw

/-- How a string ends : at its tag, or at what is found behind its last byte. -/
theorem ends_string {tag : Byte} {s : HeaderString} {Q : List Byte → ℕ → Prop} :
    Ends (SafelyFails size) Q (e.string tag s) m ↔
      if byteAt e.data m = tag then
        if halfwordAt e.data (m + 1) = 0 then
          match e.stray s with
          | none => False
          | some last => if last = 0 then Q [] (m + 3) else m + 3 ≤ size.toNat
        else if e.kmalloc s = true then
          if byteAt e.data (stringEnd e.data m - 1) = 0 then
            Q (e.stringBytes m) (stringEnd e.data m)
          else stringEnd e.data m ≤ size.toNat
        else False
      else m + 1 ≤ size.toNat := by
  have hzero : BitVec.ofNat 32 (halfwordAt e.data (m + 1)) = 0 ↔ halfwordAt e.data (m + 1) = 0 := by
    rw [← BitVec.toNat_inj, toNat_halfwordAt]
    rfl
  have hbytes : ((List.range (halfwordAt e.data (m + 1))).map fun i =>
      byteAt e.data (m + 3 + i)) = e.stringBytes m := rfl
  simp only [string, ends_bind, ends_next, ends_require, ends_halfword, ends_fill, toNat_halfwordAt,
    hzero, SafelyFails, readsBelow_iff, show m + 1 + 2 = m + 3 from rfl, hbytes]
  by_cases htag : byteAt e.data m = tag
  · by_cases hlen : halfwordAt e.data (m + 1) = 0
    · have hnone : e.stringBytes m = [] := by simp [stringBytes, hlen]
      simp only [htag, hlen, hnone, or_true, if_true, Nat.add_zero]
      cases e.stray s with
      | none => simp [SafelyFails]
      | some last =>
        simp only [ends_bind, ends_require, ends_pure, SafelyFails, readsBelow_iff]
    · simp only [htag, hlen, getLast?_stringBytes hlen, or_false, if_true, if_false, ends_bind,
        ends_require, ends_pure, SafelyFails, readsBelow_iff]
      rfl
  · simp only [htag, if_false]

/-- A string that is checked within bounds is read safely, whatever surrounds it, and the checks
behind it are made. -/
theorem ends_string_of_checked {tag : Byte} {s : HeaderString} {cs : List HeaderCheck} {P : Prop}
    {Q : List Byte → ℕ → Prop}
    (h : Checked size.toNat (stringChecks e.data e.kmalloc tag s m ++ cs) P)
    (hQ : e.stringBytes m ≠ [] → Checked size.toNat cs P →
      Q (e.stringBytes m) (stringEnd e.data m)) :
    Ends (SafelyFails size) Q (e.string tag s) m := by
  obtain ⟨-, htag, hno⟩ := checked_append.mp h
  rw [ends_string]
  split_ifs with ht hlen hk hlast
  · exact absurd hlen (htag ht).1.1
  · refine hQ (fun hnil => hlen ?_) ((htag ht).2.1 hlast)
    simpa [stringBytes] using hnil
  · exact (htag ht).2.2 hlast
  · exact absurd (htag ht).1.2 hk
  · exact hno ht

/-- With no memory in front of an empty string, a string that is read safely was checked within
bounds. -/
theorem checked_of_ends_string {tag : Byte} {s : HeaderString} {cs : List HeaderCheck} {P : Prop}
    {Q : List Byte → ℕ → Prop} (hs : e.stray s = none)
    (h : Ends (SafelyFails size) Q (e.string tag s) m)
    (hQ : Q (e.stringBytes m) (stringEnd e.data m) → Checked size.toNat cs P) :
    Checked size.toNat (stringChecks e.data e.kmalloc tag s m ++ cs) P := by
  rw [ends_string, hs] at h
  rw [checked_append]
  refine ⟨trivial, fun ht => ?_, fun ht => by rwa [if_neg (Not.intro ht)] at h⟩
  have ht : byteAt e.data m = tag := ht
  by_cases hlen : halfwordAt e.data (m + 1) = 0
  · simp [ht, hlen] at h
  · by_cases hk : e.kmalloc s = true
    · simp only [ht, hlen, hk, if_true, if_false] at h
      refine ⟨⟨hlen, hk⟩, fun hlast => hQ ?_, fun hlast => ?_⟩
      · rwa [if_pos hlast] at h
      · rwa [if_neg hlast] at h
    · simp [ht, hlen, hk] at h

/-- The bytes of a word are read whatever they are. -/
theorem exists_ends_bigEndian (e : HeaderEnv) (k m : ℕ) (acc : U32) :
    ∃ w, ∀ (E : HeaderError → ℕ → Prop) (Q : U32 → ℕ → Prop),
      Ends E Q (e.bigEndian k acc) m ↔ Q w (m + k) := by
  induction k generalizing m acc with
  | zero => exact ⟨acc, fun E Q => Iff.rfl⟩
  | succ k ih =>
    obtain ⟨w, hw⟩ := ih (m + 1) (acc <<< 8 ||| (byteAt e.data m).setWidth 32)
    refine ⟨w, fun E Q => ?_⟩
    rw [bigEndian, ends_bind, ends_next, hw, Nat.add_right_comm, Nat.add_assoc]

end HeaderEnv

theorem ofNat_halfwordAt_eq_one {data : U32 → Byte} {m : ℕ} :
    BitVec.ofNat 32 (halfwordAt data m) = 0x01 ↔ halfwordAt data m = 1 := by
  rw [← BitVec.toNat_inj, toNat_halfwordAt]
  rfl

/-- A header that is checked within `size` is parsed safely. -/
theorem parserSafe_of_checked {data : U32 → Byte} {kmalloc : HeaderString → Bool} {size : U32}
    (h : HeaderChecked data kmalloc size.toNat) : ParserSafe data kmalloc size := by
  intro stray
  refine Ends.mono (Q := fun h n => n ≤ size.toNat ∧ h.headerLength = BitVec.ofNat 32 n ∧
    h.designName ≠ [] ∧ h.partName ≠ [] ∧ h.date ≠ [] ∧ h.time ≠ []) ?_ fun h n hparse hQ => ?_
  · rw [HeaderChecked, headerChecks, checked_append] at h
    rw [bitstreamParseHeader, ends_bind, HeaderEnv.ends_halfword, ends_bind, HeaderEnv.ends_magic]
    refine h.mono fun h => ?_
    obtain ⟨-, hone, hno⟩ := h
    simp only [ends_bind, HeaderEnv.ends_next, HeaderEnv.ends_halfword, ends_require,
      ofNat_halfwordAt_eq_one]
    split_ifs with h1
    · refine HeaderEnv.ends_string_of_checked (hone h1) fun ha h => ?_
      refine HeaderEnv.ends_string_of_checked h fun hb h => ?_
      refine HeaderEnv.ends_string_of_checked h fun hc h => ?_
      refine HeaderEnv.ends_string_of_checked h fun hd h => ?_
      obtain ⟨-, he, hno⟩ := h
      split_ifs with h65
      · obtain ⟨w, hw⟩ := HeaderEnv.exists_ends_bigEndian _ 4 _ 0
        rw [hw]
        exact ⟨he h65, rfl, ha, hb, hc, hd⟩
      · exact readsBelow_iff.mpr (hno h65)
    · exact readsBelow_iff.mpr (hno h1)
  · obtain ⟨hn, hlen, ha, hb, hc, hd⟩ := hQ
    refine ⟨readsBelow_iff.mpr hn, ?_, magicLength_ne_zero_of_yields hparse, ha, hb, hc, hd⟩
    rw [hlen, BitVec.le_def, BitVec.toNat_ofNat]
    exact (Nat.mod_le _ _).trans hn

/-- A header that is parsed safely with no memory in front of its empty strings was checked within
`size`. -/
theorem checked_of_ends {data : U32 → Byte} {kmalloc : HeaderString → Bool} {size : U32}
    (h : Ends (SafelyFails size) (fun _ n => n ≤ size.toNat)
      (bitstreamParseHeader ⟨⟨kmalloc, fun _ => none⟩, data⟩) 0) :
    HeaderChecked data kmalloc size.toNat := by
  rw [HeaderChecked, headerChecks, checked_append]
  rw [bitstreamParseHeader, ends_bind, HeaderEnv.ends_halfword, ends_bind,
    HeaderEnv.ends_magic] at h
  refine h.mono fun h => ?_
  simp only [ends_bind, HeaderEnv.ends_next, HeaderEnv.ends_halfword, ends_require,
    ofNat_halfwordAt_eq_one] at h
  refine ⟨trivial, fun h1 => ?_, fun h1 => ?_⟩
  · have h := (ite_prop_iff_and.mp h).1 h1
    refine HeaderEnv.checked_of_ends_string rfl h fun h => ?_
    refine HeaderEnv.checked_of_ends_string rfl h fun h => ?_
    refine HeaderEnv.checked_of_ends_string rfl h fun h => ?_
    refine HeaderEnv.checked_of_ends_string rfl h fun h => ?_
    refine ⟨trivial, fun h65 => ?_, fun h65 => ?_⟩
    · obtain ⟨w, hw⟩ := HeaderEnv.exists_ends_bigEndian
        ⟨⟨kmalloc, fun _ => none⟩, data⟩ 4 (stringsEnd data + 1) 0
      exact (hw _ _).mp ((ite_prop_iff_and.mp h).1 h65)
    · exact readsBelow_iff.mp ((ite_prop_iff_and.mp h).2 h65)
  · exact readsBelow_iff.mp ((ite_prop_iff_and.mp h).2 h1)

/-- For every buffer, every `Size` and every outcome of the allocations : the parser reads below
`Size` only, accesses no memory but its strings, and accepts only a header that lies within `Size`
with a magic and four strings that are not empty, if and only if its checks lie within `Size` up to
the first that fails and every string up to there has a byte and got its space. -/
theorem parser_safe_iff (data : U32 → Byte) (kmalloc : HeaderString → Bool) (size : U32) :
    ParserSafe data kmalloc size ↔ HeaderChecked data kmalloc size.toNat :=
  ⟨fun h => checked_of_ends ((h fun _ => none).mono fun _ _ _ hQ => readsBelow_iff.mp hQ.1),
    parserSafe_of_checked⟩

/-- A header whose design name has length 0. -/
def emptyNameHeader (n : U32) : Byte :=
  [0x00, 0x01, 0x00, 0x00, 0x01, 0x61].getD n.toNat 0

/-- The parser goes on to `DesignName[2 ^ 32 - 1]`. -/
theorem not_parser_safe_on_empty_name :
    ¬∀ (data : U32 → Byte) (kmalloc : HeaderString → Bool) (size : U32),
      ParserSafe data kmalloc size := by
  intro h
  have hends := h emptyNameHeader (fun _ => true) 1024 fun _ => none
  have hrun : bitstreamParseHeader ⟨⟨fun _ => true, fun _ => none⟩, emptyNameHeader⟩ 0 =
      .error .fault 8 := rfl
  simp [Ends, hrun, SafelyFails] at hends

/-! ## What stops the thread -/

/-- The scan is not ended by a fault. -/
def NotFault (err : HeaderError) (_ : ℕ) : Prop :=
  err ≠ .fault

namespace HeaderEnv

/-- The string whose tag is at `m` got its space, or is empty with memory in front of it. -/
def Held (e : HeaderEnv) (s : HeaderString) (m : ℕ) : Prop :=
  if halfwordAt e.data (m + 1) = 0 then (e.stray s).isSome else e.kmalloc s = true

/-- What the parser looks at for the last byte of that string. -/
def lastByte (e : HeaderEnv) (s : HeaderString) (m : ℕ) : Byte :=
  if halfwordAt e.data (m + 1) = 0 then (e.stray s).getD 0
  else byteAt e.data (stringEnd e.data m - 1)

/-- The strings that are come to are held, the first of them with its tag at `m`. -/
def HeldFrom (e : HeaderEnv) : List (Byte × HeaderString) → ℕ → Prop
  | [], _ => True
  | (tag, s) :: strings, m => byteAt e.data m = tag →
      e.Held s m ∧ (e.lastByte s m = 0 → e.HeldFrom strings (stringEnd e.data m))

/-- Every string the parser comes to got its space, and is not empty unless there is memory in
front of it. -/
def StringsHeld (e : HeaderEnv) : Prop :=
  (∀ i < magicTurns e.data, byteAt e.data (2 + i) =
    if i % 2 = 0 then XHI_EVEN_MAGIC_BYTE else XHI_ODD_MAGIC_BYTE) →
  halfwordAt e.data (2 + magicTurns e.data + 1) = 1 →
  e.HeldFrom [(0x61, .designName), (0x62, .partName), (0x63, .date), (0x64, .time)]
    (stringsStart e.data)

variable {e : HeaderEnv} {m : ℕ}

/-- A check fails with an error that is returned. -/
theorem ite_notFault {c : Prop} [Decidable c] {P : Prop} {n : ℕ} :
    (if c then P else NotFault .invalid n) ↔ (c → P) := by
  by_cases hc : c <;> simp [hc, NotFault]

theorem ends_magic_notFault {k I : ℕ} {Q : ℕ → Prop} :
    Ends NotFault (fun _ n => Q n) (e.magic k I) m ↔
      ((∀ i < k, byteAt e.data (m + i) =
        if (I + i) % 2 = 0 then XHI_EVEN_MAGIC_BYTE else XHI_ODD_MAGIC_BYTE) → Q (m + k)) := by
  induction k generalizing I m with
  | zero => simp [magic]
  | succ k ih =>
    have hbyte : (¬(I % 2 = 0 ∧ byteAt e.data m ≠ XHI_EVEN_MAGIC_BYTE) ∧
        ¬(I % 2 = 1 ∧ byteAt e.data m ≠ XHI_ODD_MAGIC_BYTE)) ↔
        byteAt e.data m = if I % 2 = 0 then XHI_EVEN_MAGIC_BYTE else XHI_ODD_MAGIC_BYTE := by
      rcases Nat.mod_two_eq_zero_or_one I with hI | hI <;> simp [hI]
    rw [Nat.forall_lt_succ_left]
    simp only [magic, ends_bind, ends_next, ends_require, ih, ite_notFault, Nat.add_zero, ← hbyte,
      Nat.add_right_comm _ 1, ← Nat.add_assoc]
    tauto

/-- How a string ends, at a fault or behind its last byte. -/
theorem ends_string_notFault {tag : Byte} {s : HeaderString} {Q : ℕ → Prop} :
    Ends NotFault (fun _ n => Q n) (e.string tag s) m ↔ (byteAt e.data m = tag →
      e.Held s m ∧ (e.lastByte s m = 0 → Q (stringEnd e.data m))) := by
  have hzero : BitVec.ofNat 32 (halfwordAt e.data (m + 1)) = 0 ↔ halfwordAt e.data (m + 1) = 0 := by
    rw [← BitVec.toNat_inj, toNat_halfwordAt]
    rfl
  have hfault (n : ℕ) : ¬NotFault .fault n := fun h => h rfl
  simp only [string, ends_bind, ends_next, ends_require, ends_halfword, ends_fill, toNat_halfwordAt,
    hzero, ite_notFault, Held, lastByte]
  refine imp_congr_right fun _ => ?_
  by_cases hlen : halfwordAt e.data (m + 1) = 0
  · simp only [hlen, or_true, if_true]
    cases e.stray s with
    | none => simp [hfault]
    | some last =>
      simp only [ends_bind, ends_require, ends_pure, ite_notFault, stringEnd, hlen,
        Option.isSome_some, Option.getD_some, true_and]
  · simp only [hlen, or_false, if_false]
    by_cases hk : e.kmalloc s = true
    · have hlast := getLast?_stringBytes (e := e) hlen
      rw [stringBytes] at hlast
      simp only [hk, if_true, true_and, decide_true, show m + 1 + 2 = m + 3 from rfl, hlast,
        ends_bind, ends_require, ends_pure, ite_notFault]
      rfl
    · simp [hk, hfault]

/-- `bitstream_parse_header` faults unless every string it comes to is held. -/
theorem ends_stringsHeld :
    Ends NotFault (fun _ _ => True) (bitstreamParseHeader e) 0 ↔ e.StringsHeld := by
  have hword (Q : Prop) (k n : ℕ) (acc : U32) :
      Ends NotFault (fun _ _ => Q) (e.bigEndian k acc) n ↔ Q := by
    obtain ⟨w, hw⟩ := exists_ends_bigEndian e k n acc
    exact hw _ _
  have hindex (n : ℕ) : Ends NotFault (fun _ _ => True) (index : Scan HeaderError ℕ) n ↔ True :=
    Iff.rfl
  rw [bitstreamParseHeader, ends_bind, ends_halfword, ends_bind]
  simp only [ends_bind, ends_next, ends_require, ends_halfword, ends_pure, ite_notFault, hindex,
    hword, ends_string_notFault, ends_magic_notFault, ofNat_halfwordAt_eq_one]
  simp only [StringsHeld, HeldFrom, implies_true, Nat.zero_add]
  rfl

end HeaderEnv

end Wimi
