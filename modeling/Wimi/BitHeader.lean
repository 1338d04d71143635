import Wimi.Kernel
import Wimi.Lib.Scanner

/-!
# The header of a bitstream

`bitstream_parse_header`. Every byte of the header is read as `Data[Index++]`, so the scanner's
index is what the parser has read; `Index` itself is an `unsigned` and wraps. The parser does not
look at its `Size`.

Two kinds of accesses go to memory the parser does not own : a store through the `NULL` a failed
`kmalloc` returned, which stops the thread, and the read of `name[Len - 1]` of an empty string,
which is at index `2 ^ 32 - 1`. What is there is `stray`.

A header that is accepted is shorter than the wrap of `Index` (`yields_bitstreamParseHeader`).
-/

open Scanner

namespace Wimi

abbrev Byte := BitVec 8

def XHI_EVEN_MAGIC_BYTE : Byte := 0x0f
def XHI_ODD_MAGIC_BYTE : Byte := 0xf0

/-- How the parser ends early. -/
inductive HeaderError
  /-- It returns -1. -/
  | invalid
  /-- It accesses memory that is not mapped. -/
  | fault
  deriving DecidableEq

/-- The strings of a header. -/
inductive HeaderString
  | designName
  | partName
  | date
  | time
  deriving DecidableEq

/-- What the kernel answers the parser. -/
structure StringEnv where
  kmalloc : HeaderString → Bool
  /-- The byte at index `2 ^ 32 - 1` of an empty string, if any memory is mapped there. -/
  stray : HeaderString → Option Byte

/-- What the parser reads. -/
structure HeaderEnv extends StringEnv where
  data : U32 → Byte

/-- The byte at index `m`. -/
def byteAt (data : U32 → Byte) (m : ℕ) : Byte :=
  data (BitVec.ofNat 32 m)

/-- `XHwIcap_Bit_Header` of a header that was accepted. -/
structure BitHeader where
  headerLength : U32
  bitstreamLength : U32
  designName : List Byte
  partName : List Byte
  date : List Byte
  time : List Byte
  magicLength : U32
  deriving DecidableEq

namespace HeaderEnv

variable (e : HeaderEnv)

/-- `Data[Index++]`. -/
def next : Scan HeaderError Byte :=
  Scanner.next fun n => e.data (BitVec.ofNat 32 n)

/-- `k` bytes shifted into an `unsigned`, the first of them the most significant. -/
def bigEndian : ℕ → U32 → Scan HeaderError U32
  | 0, acc => pure acc
  | k + 1, acc => do
    let b ← e.next
    bigEndian k (acc <<< 8 ||| b.setWidth 32)

/-- The rest of the loop over the magic, from turn `I`. -/
def magic : ℕ → ℕ → Scan HeaderError Unit
  | 0, _ => pure ()
  | k + 1, I => do
    let tmp ← e.next
    require (¬(I % 2 = 0 ∧ tmp ≠ XHI_EVEN_MAGIC_BYTE)) .invalid
    require (¬(I % 2 = 1 ∧ tmp ≠ XHI_ODD_MAGIC_BYTE)) .invalid
    magic k (I + 1)

/-- Space for a string is allocated and filled. -/
def fill (s : HeaderString) (len : ℕ) : Scan HeaderError (List Byte) :=
  if e.kmalloc s ∨ len = 0 then Scanner.take (fun n => e.data (BitVec.ofNat 32 n)) len
  else throw .fault

/-- A string with its tag and its length. -/
def string (tag : Byte) (s : HeaderString) : Scan HeaderError (List Byte) := do
  let tmp ← e.next
  require (tmp = tag) .invalid
  let len ← e.bigEndian 2 0
  let name ← e.fill s len.toNat
  match if len = 0 then e.stray s else name.getLast? with
  | none => throw .fault
  | some last =>
    require (last = 0) .invalid
    return name

end HeaderEnv

/-- `bitstream_parse_header`. -/
def bitstreamParseHeader (e : HeaderEnv) : Scan HeaderError BitHeader := do
  let magicLength ← e.bigEndian 2 0
  -- `MagicLength - 1` is unsigned
  e.magic (magicLength - 1).toNat 0
  let _ ← e.next
  let tmp ← e.bigEndian 2 0
  require (tmp = 0x01) .invalid
  let designName ← e.string 0x61 .designName
  let partName ← e.string 0x62 .partName
  let date ← e.string 0x63 .date
  let time ← e.string 0x64 .time
  let tmp ← e.next
  require (tmp = 0x65) .invalid
  let bitstreamLength ← e.bigEndian 4 0
  let Index ← index
  return ⟨BitVec.ofNat 32 Index, bitstreamLength, designName, partName, date, time, magicLength⟩

/-! ## What an accepted header is -/

namespace HeaderEnv

variable {e : HeaderEnv} {m n k I : ℕ}

theorem yields_next {b : Byte} :
    Yields e.next m b n ↔ e.data (BitVec.ofNat 32 m) = b ∧ m + 1 = n :=
  Scanner.yields_next

theorem advances_next : Advances 1 e.next :=
  Advances.next _

theorem advances_bigEndian (acc : U32) : Advances k (e.bigEndian k acc) := by
  induction k generalizing acc with
  | zero => exact Advances.pure acc
  | succ k ih =>
    rw [bigEndian, Nat.add_comm]
    exact advances_next.bind fun b _ => ih _

/-- The two bytes of a half word. -/
theorem yields_halfword {w : U32} (h : Yields (e.bigEndian 2 0) m w n) :
    w = (e.data (BitVec.ofNat 32 m)).setWidth 32 <<< 8 |||
      (e.data (BitVec.ofNat 32 (m + 1))).setWidth 32 ∧ m + 2 = n := by
  simp only [bigEndian, ok_bind, yields_next, yields_pure] at h
  obtain ⟨_, _, ⟨rfl, rfl⟩, _, _, ⟨rfl, rfl⟩, rfl, rfl⟩ := h
  simp

theorem halfword_lt (a b : Byte) :
    (a.setWidth 32 <<< 8 ||| b.setWidth 32 : U32).toNat < 2 ^ 16 := by
  have ha := a.isLt
  have hb := b.isLt
  rw [BitVec.toNat_or, BitVec.toNat_shiftLeft, BitVec.toNat_setWidth, BitVec.toNat_setWidth]
  refine Nat.or_lt_two_pow ?_ ?_
  · rw [Nat.shiftLeft_eq]
    omega
  · omega

theorem toNat_halfword_lt {w : U32} (h : ∃ m n, Yields (e.bigEndian 2 0) m w n) :
    w.toNat < 2 ^ 16 := by
  obtain ⟨m, n, h⟩ := h
  rw [(yields_halfword h).1]
  exact halfword_lt _ _

/-- The magic that was read alternates between its two bytes. -/
theorem yields_magic {u : Unit} (h : Yields (e.magic k I) m u n) :
    m + k = n ∧ ∀ i < k, e.data (BitVec.ofNat 32 (m + i)) =
      if (I + i) % 2 = 0 then XHI_EVEN_MAGIC_BYTE else XHI_ODD_MAGIC_BYTE := by
  induction k generalizing m I with
  | zero =>
    obtain ⟨-, rfl⟩ := yields_pure.mp h
    exact ⟨rfl, nofun⟩
  | succ k ih =>
    simp only [magic, ok_bind, yields_next, yields_require] at h
    obtain ⟨b, _, ⟨rfl, rfl⟩, _, _, ⟨heven, rfl⟩, _, _, ⟨hodd, rfl⟩, hrest⟩ := h
    obtain ⟨rfl, hdata⟩ := ih hrest
    refine ⟨by omega, fun i hi => ?_⟩
    cases i with
    | zero =>
      rw [Nat.add_zero, Nat.add_zero]
      by_cases hI : I % 2 = 0
      · rw [if_pos hI]
        exact not_not.mp fun hne => heven ⟨hI, hne⟩
      · rw [if_neg hI]
        exact not_not.mp fun hne => hodd ⟨by omega, hne⟩
    | succ i =>
      have := hdata i (by omega)
      rwa [show m + 1 + i = m + (i + 1) by omega, show I + 1 + i = I + (i + 1) by omega] at this

theorem advances_fill (s : HeaderString) (len : ℕ) : Advances len (e.fill s len) :=
  Advances.ite (Advances.take _ _) ((Advances.throw _).mono (Nat.zero_le _))

theorem advances_string (tag : Byte) (s : HeaderString) :
    Advances (3 + 2 ^ 16) (e.string tag s) := by
  have hlast (len : U32) (name : List Byte) : Advances 0
      (match if len = 0 then e.stray s else name.getLast? with
        | none => throw HeaderError.fault
        | some last => (do require (last = 0) .invalid; return name : Scan HeaderError _)) := by
    split
    · exact Advances.throw _
    · exact (Advances.require _ _).bind fun _ _ => Advances.pure name
  rw [string, show 3 + 2 ^ 16 = 1 + (0 + (2 + (2 ^ 16 + 0))) by norm_num]
  refine advances_next.bind fun tmp _ => (Advances.require _ _).bind fun _ _ => ?_
  refine (advances_bigEndian 0).bind fun len hlen => ?_
  exact ((advances_fill s len.toNat).mono (toNat_halfword_lt hlen).le).bind fun name _ =>
    hlast len name

end HeaderEnv

/-- A byte shifted into an `unsigned` that has room for it. -/
theorem toNat_pushByte {acc : U32} (hacc : acc.toNat < 2 ^ 24) (b : Byte) :
    (acc <<< 8 ||| b.setWidth 32).toNat = acc.toNat * 256 + b.toNat := by
  have hb := b.isLt
  rw [BitVec.toNat_or, BitVec.toNat_shiftLeft, BitVec.toNat_setWidth,
    Nat.mod_eq_of_lt (b := 2 ^ 32) (by omega), Nat.shiftLeft_eq, Nat.mod_eq_of_lt (by omega),
    ← Nat.shiftLeft_eq, ← Nat.shiftLeft_add_eq_or_of_lt hb, Nat.shiftLeft_eq]

theorem halfword_eq_zero {a b : Byte}
    (h : (a.setWidth 32 <<< 8 ||| b.setWidth 32 : U32) = 0) : a = 0 := by
  apply BitVec.eq_of_getLsbD_eq
  intro i hi
  have hbit := congrArg (fun w : U32 => w.getLsbD (8 + i)) h
  simp only [BitVec.getLsbD_or, BitVec.getLsbD_shiftLeft, BitVec.getLsbD_setWidth,
    BitVec.ofNat_eq_ofNat, BitVec.getLsbD_zero, Bool.or_eq_false_iff] at hbit
  have := hbit.1
  simp only [show 8 + i < 32 by omega, show ¬8 + i < 8 by omega, show 8 + i - 8 = i by omega,
    show i < 32 by omega, decide_true, decide_false, Bool.not_false, Bool.true_and] at this
  rw [this, BitVec.ofNat_eq_ofNat, BitVec.getLsbD_zero]

/-- A magic length of 0 is rejected : the magic would wrap around to the length itself. -/
theorem magicLength_ne_zero {e : HeaderEnv} {w : U32} {u : Unit} {m n : ℕ}
    (hw : Yields (e.bigEndian 2 0) 0 w m) (hmagic : Yields (e.magic (w - 1).toNat 0) m u n) :
    w ≠ 0 := by
  rintro rfl
  obtain ⟨hzero, rfl⟩ := HeaderEnv.yields_halfword hw
  obtain ⟨-, hbytes⟩ := HeaderEnv.yields_magic hmagic
  -- turn `2 ^ 32 - 2` reads index 0
  have := hbytes (2 ^ 32 - 2) (by decide)
  rw [if_pos (by norm_num), show BitVec.ofNat 32 (0 + 2 + (2 ^ 32 - 2)) = BitVec.ofNat 32 0 by rfl,
    halfword_eq_zero hzero.symm] at this
  exact absurd this (by decide)

/-- The parser accepts no magic length of 0. -/
theorem magicLength_ne_zero_of_yields {e : HeaderEnv} {h : BitHeader} {n : ℕ}
    (hparse : Yields (bitstreamParseHeader e) 0 h n) : h.magicLength ≠ 0 := by
  rw [bitstreamParseHeader, ok_bind] at hparse
  obtain ⟨w, m, hw, hparse⟩ := hparse
  rw [ok_bind] at hparse
  obtain ⟨_, m', hmagic, hparse⟩ := hparse
  have hne := magicLength_ne_zero hw hmagic
  simp only [ok_bind, yields_pure] at hparse
  obtain ⟨_, _, -, _, _, -, _, _, -, _, _, -, _, _, -, _, _, -, _, _, -, _, _, -, _, _, -, _, _, -,
    _, _, -, rfl, -⟩ := hparse
  exact hne

/-- The parser has read the header it accepts and nothing else, and `Index` has not wrapped. -/
theorem yields_bitstreamParseHeader {e : HeaderEnv} {h : BitHeader} {n : ℕ}
    (hparse : Yields (bitstreamParseHeader e) 0 h n) : h.headerLength.toNat = n := by
  rw [bitstreamParseHeader, ok_bind] at hparse
  obtain ⟨w, m, hw, hparse⟩ := hparse
  rw [ok_bind] at hparse
  obtain ⟨_, m', hmagic, hparse⟩ := hparse
  have hne := magicLength_ne_zero hw hmagic
  have hlt := HeaderEnv.toNat_halfword_lt ⟨_, _, hw⟩
  have hmagicLength : (w - 1).toNat < 2 ^ 16 := by bv_omega
  obtain ⟨-, rfl⟩ := HeaderEnv.yields_halfword hw
  obtain ⟨rfl, -⟩ := HeaderEnv.yields_magic hmagic
  simp only [ok_bind, HeaderEnv.yields_next, yields_require, yields_index, yields_pure] at hparse
  obtain ⟨_, _, ⟨-, rfl⟩, _, k, hone, _, _, ⟨-, rfl⟩, _, ka, ha, _, kb, hb, _, kc, hc, _, kd, hd,
    _, _, ⟨-, rfl⟩, _, _, ⟨-, rfl⟩, _, k', hlen, _, _, ⟨rfl, rfl⟩, rfl, rfl⟩ := hparse
  obtain ⟨-, hone⟩ := HeaderEnv.advances_bigEndian 0 _ _ _ hone
  obtain ⟨-, ha⟩ := HeaderEnv.advances_string _ _ _ _ _ ha
  obtain ⟨-, hb⟩ := HeaderEnv.advances_string _ _ _ _ _ hb
  obtain ⟨-, hc⟩ := HeaderEnv.advances_string _ _ _ _ _ hc
  obtain ⟨-, hd⟩ := HeaderEnv.advances_string _ _ _ _ _ hd
  obtain ⟨-, hlen⟩ := HeaderEnv.advances_bigEndian 0 _ _ _ hlen
  rw [BitVec.toNat_ofNat, Nat.mod_eq_of_lt]
  omega

end Wimi
