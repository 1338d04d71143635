import Wimi.Adjacency
import Wimi.CyclicLayout
import Wimi.Lib.Fields
import Wimi.Lib.Run

/-!
# The control word of a descriptor

The control word is packed from four fields, and rewritten by five operations in whatever order the
builders call them. What each does to the fields is one update of the record of them
(`fields_xdmaDescLink`, `fields_xdmaDescAdjacent`, `fields_of_control`), whatever it masks and
merges.

`control_word` : from an allocated descriptor on, every sequence of operations keeps the magic and
the reserved bits, and each of the other fields is changed by its own operations only.
-/

open Fields Machine

namespace Wimi

/-! ## Fields -/

/-- The fields of a control word : bits 31:16, 15:12, 11:8 and 7:0. -/
structure ControlFields where
  magic : BitVec 16
  reserved : BitVec 4
  adjacent : BitVec 4
  byte : BitVec 8
  deriving DecidableEq

/-- The fields that are packed in `control`. -/
def fieldsOf (control : U32) : ControlFields where
  magic := control.extractLsb' 16 16
  reserved := control.extractLsb' 12 4
  adjacent := control.extractLsb' 8 4
  byte := control.extractLsb' 0 8

def XdmaDesc.fields (d : XdmaDesc) : ControlFields :=
  fieldsOf d.control

/-- The word of magic and a count, as it is allocated. -/
theorem fieldsOf_count {m : ℕ} (hm : m ≤ 15) :
    fieldsOf (DESC_MAGIC ||| (BitVec.ofNat 32 m <<< 8)) = ⟨0xAD4B, 0, BitVec.ofNat 4 m, 0⟩ := by
  interval_cases m <;> rfl

section Merge

variable {x y m : U32}

/-- What `xdma_desc_link` and `xdma_desc_adjacent` merge replaces magic and adjacency. -/
theorem fieldsOf_merge (hreserved : Clear 12 4 y) (hbyte : Clear 0 8 y) :
    fieldsOf ((x &&& 0x0000f0ff) ||| y) =
      { fieldsOf x with magic := (fieldsOf y).magic, adjacent := (fieldsOf y).adjacent } := by
  have hmagic : Clear 16 16 (x &&& 0x0000f0ff) := Clear.and (by decide)
  have hadjacent : Clear 8 4 (x &&& 0x0000f0ff) := Clear.and (by decide)
  have hkept₁ : Full 12 4 (0x0000f0ff : U32) := by decide
  have hkept₀ : Full 0 8 (0x0000f0ff : U32) := by decide
  simp only [fieldsOf, field_or_of_clear_left hmagic, field_or_of_clear_left hadjacent,
    field_or_of_clear hreserved, field_or_of_clear hbyte, field_and_of_full hkept₁,
    field_and_of_full hkept₀]

/-- Bits set in the control byte. -/
theorem fieldsOf_or (hm : Within m LS_BYTE_MASK) :
    fieldsOf (x ||| m) = { fieldsOf x with byte := (fieldsOf x).byte ||| (fieldsOf m).byte } := by
  have hmagic : Clear 16 16 m := hm.clear (by decide)
  have hreserved : Clear 12 4 m := hm.clear (by decide)
  have hadjacent : Clear 8 4 m := hm.clear (by decide)
  simp only [fieldsOf, field_or_of_clear hmagic, field_or_of_clear hreserved,
    field_or_of_clear hadjacent, BitVec.extractLsb'_or]

/-- Bits cleared in the control byte. -/
theorem fieldsOf_and_not (hm : Within m LS_BYTE_MASK) : fieldsOf (x &&& ~~~m) =
    { fieldsOf x with byte := (fieldsOf x).byte &&& (fieldsOf (~~~m)).byte } := by
  have hmagic : Full 16 16 (~~~m) := (hm.clear (by decide)).full_not le_rfl
  have hreserved : Full 12 4 (~~~m) := (hm.clear (by decide)).full_not (by decide)
  have hadjacent : Full 8 4 (~~~m) := (hm.clear (by decide)).full_not (by decide)
  simp only [fieldsOf, field_and_of_full hmagic, field_and_of_full hreserved,
    field_and_of_full hadjacent, BitVec.extractLsb'_and]

end Merge

/-! ## What the operations do -/

theorem fields_xdmaDescLink (d : XdmaDesc) (second : Option U64) :
    (xdmaDescLink d second).fields = { d.fields with magic := 0xAD4B, adjacent := 0 } := by
  have hmerge := fieldsOf_merge (x := d.control) (y := DESC_MAGIC) (by decide) (by decide)
  cases second <;> exact hmerge

/-- The number announced fits its field, whatever the arguments. -/
theorem exists_extraAdjacent (d : XdmaDesc) (n : ℤ) :
    ∃ m : ℕ, m ≤ 15 ∧ extraAdjacent d n = m := by
  by_cases hpos : n > 0
  · obtain ⟨m, hm, hmin⟩ : ∃ m : ℕ, m ≤ 15 ∧ min (n - 1) MAX_EXTRA_ADJ = (m : ℤ) := by
      rw [MAX_EXTRA_ADJ]
      exact ⟨(min (n - 1) 15).toNat, by omega, by omega⟩
    simp only [extraAdjacent]
    rw [if_pos hpos, hmin]
    generalize ((0x1000 - (d.nextLo &&& 0xFFF)) / 32 - 1 : U32) = maxAdj4k
    by_cases hlt : BitVec.ofInt 32 (m : ℤ) > maxAdj4k
    · -- the comparison is unsigned, so the bound is below 15
      have hsmall : maxAdj4k.toNat < m := by
        rw [gt_iff_lt, BitVec.lt_def, BitVec.ofInt_natCast, BitVec.toNat_ofNat] at hlt
        omega
      have hint : maxAdj4k.toInt = maxAdj4k.toNat := BitVec.toInt_eq_toNat_of_lt (by omega)
      rw [if_pos hlt, hint, if_neg (by omega)]
      exact ⟨maxAdj4k.toNat, by omega, rfl⟩
    · rw [if_neg hlt, if_neg (by omega)]
      exact ⟨m, hm, rfl⟩
  · exact ⟨0, Nat.zero_le _, if_neg hpos⟩

theorem fields_xdmaDescAdjacent (d : XdmaDesc) (n : ℤ) :
    (xdmaDescAdjacent d n).fields =
      { d.fields with magic := 0xAD4B, adjacent := BitVec.ofInt 4 (extraAdjacent d n) } := by
  obtain ⟨m, hm, hextra⟩ := exists_extraAdjacent d n
  have hcount := fieldsOf_count hm
  have hword : (xdmaDescAdjacent d n).control =
      (d.control &&& (0x0000f0ff : U32)) ||| (DESC_MAGIC ||| (BitVec.ofNat 32 m <<< 8)) := by
    simp only [xdmaDescAdjacent, hextra, BitVec.ofInt_natCast]
    rfl
  rw [XdmaDesc.fields, hword, hextra, BitVec.ofInt_natCast,
    fieldsOf_merge (congrArg ControlFields.reserved hcount) (congrArg ControlFields.byte hcount),
    hcount]
  rfl

section Control

variable {d d' : XdmaDesc} {field mask : U32}

theorem fields_xdmaDescControlSet (h : xdmaDescControlSet d mask = some d') :
    d'.fields = { d.fields with byte := d.fields.byte ||| (fieldsOf mask).byte } := by
  obtain ⟨hmask, h⟩ := Option.ite_none_left_eq_some.mp h
  obtain rfl := Option.some.inj h
  exact fieldsOf_or (not_not.mp hmask)

theorem fields_xdmaDescControlClear (h : xdmaDescControlClear d mask = some d') :
    d'.fields = { d.fields with byte := d.fields.byte &&& (fieldsOf (~~~mask)).byte } := by
  obtain ⟨hmask, h⟩ := Option.ite_none_left_eq_some.mp h
  obtain rfl := Option.some.inj h
  exact fieldsOf_and_not (not_not.mp hmask)

/-- The control byte is cleared and set. -/
theorem fields_xdmaDescControl (h : xdmaDescControl d field = some d') :
    d'.fields = { d.fields with byte := (fieldsOf field).byte } := by
  obtain ⟨hfield, h⟩ := Option.ite_none_left_eq_some.mp h
  obtain rfl := Option.some.inj h
  have hself : Within LS_BYTE_MASK LS_BYTE_MASK := BitVec.and_not_self _
  have hcleared : (fieldsOf (~~~LS_BYTE_MASK)).byte = 0 := by decide
  refine (fieldsOf_or (not_not.mp hfield)).trans ?_
  rw [fieldsOf_and_not hself, hcleared, XdmaDesc.fields]
  simp

end Control

/-! ## Sequences of operations -/

/-- A call that rewrites the control word. -/
inductive DescOp
  | link (second : Option U64)
  | adjacent (nextAdjacent : ℤ)
  | control (controlField : U32)
  | controlClear (clearMask : U32)
  | controlSet (setMask : U32)

namespace DescOp

/-- The call; none is its `BUG_ON`. -/
def run (d : XdmaDesc) : DescOp → Option XdmaDesc
  | link second => some (xdmaDescLink d second)
  | adjacent nextAdjacent => some (xdmaDescAdjacent d nextAdjacent)
  | control controlField => xdmaDescControl d controlField
  | controlClear clearMask => xdmaDescControlClear d clearMask
  | controlSet setMask => xdmaDescControlSet d setMask

/-- The call is for the adjacency. -/
def setsAdjacent : DescOp → Bool
  | link _ | adjacent _ => true
  | control _ | controlClear _ | controlSet _ => false

end DescOp

/-- What a call does to a descriptor that was allocated as `start` : the magic is there, the
reserved bits are those of the allocation, adjacency is changed by `xdma_desc_link` and
`xdma_desc_adjacent` only, and the control byte by the others. -/
structure ControlKept (start d : XdmaDesc) (op : DescOp) (d' : XdmaDesc) : Prop where
  magic : d'.fields.magic = 0xAD4B
  reserved : d'.fields.reserved = start.fields.reserved
  adjacent : d'.fields.adjacent ≠ d.fields.adjacent → op.setsAdjacent = true
  byte : d'.fields.byte ≠ d.fields.byte → op.setsAdjacent = false

/-- What holds between the calls. -/
structure ControlInv (start d : XdmaDesc) : Prop where
  magic : d.fields.magic = 0xAD4B
  reserved : d.fields.reserved = start.fields.reserved

theorem control_step {start d d' : XdmaDesc} {op : DescOp} (h : ControlInv start d)
    (hrun : op.run d = some d') : ControlInv start d' ∧ ControlKept start d op d' := by
  -- the calls for the adjacency, and those for the control byte
  have hadjacent (a : BitVec 4) (hop : op.setsAdjacent = true)
      (hd : d'.fields = { d.fields with magic := 0xAD4B, adjacent := a }) :
      ControlInv start d' ∧ ControlKept start d op d' := by
    have hmagic : d'.fields.magic = 0xAD4B := by rw [hd]
    have hreserved : d'.fields.reserved = start.fields.reserved := by rw [hd, h.reserved]
    exact ⟨⟨hmagic, hreserved⟩, hmagic, hreserved, fun _ => hop, fun hne => absurd (by rw [hd]) hne⟩
  have hbyte (b : BitVec 8) (hop : op.setsAdjacent = false)
      (hd : d'.fields = { d.fields with byte := b }) :
      ControlInv start d' ∧ ControlKept start d op d' := by
    have hmagic : d'.fields.magic = 0xAD4B := by rw [hd, h.magic]
    have hreserved : d'.fields.reserved = start.fields.reserved := by rw [hd, h.reserved]
    exact ⟨⟨hmagic, hreserved⟩, hmagic, hreserved, fun hne => absurd (by rw [hd]) hne, fun _ => hop⟩
  cases op with
  | link second =>
    obtain rfl := Option.some.inj hrun
    exact hadjacent _ rfl (fields_xdmaDescLink d second)
  | adjacent nextAdjacent =>
    obtain rfl := Option.some.inj hrun
    exact hadjacent _ rfl (fields_xdmaDescAdjacent d nextAdjacent)
  | control controlField => exact hbyte _ rfl (fields_xdmaDescControl hrun)
  | controlClear clearMask => exact hbyte _ rfl (fields_xdmaDescControlClear hrun)
  | controlSet setMask => exact hbyte _ rfl (fields_xdmaDescControlSet hrun)

/-- A descriptor is allocated with the magic. -/
theorem magic_xdmaDescAlloc {mem t : DescTable} {descBus : U64} {number k : ℕ}
    (ht : xdmaDescAlloc mem descBus number = some t) (hk : k < number) :
    (t k).fields.magic = 0xAD4B := by
  obtain ⟨m, hm, hcontrol⟩ := control_xdmaDescAlloc ht hk
  rw [XdmaDesc.fields, hcontrol, fieldsOf_count hm]

/-- For every descriptor of every table that is allocated, and every sequence of the five calls
with arguments they accept : the magic is there at first and behind each call, the reserved bits
stay as allocated, and each call changes only the field it is for. -/
theorem control_word {mem t : DescTable} {descBus : U64} {number k : ℕ}
    (ht : xdmaDescAlloc mem descBus number = some t) (hk : k < number) (ops : List DescOp) :
    (t k).fields.magic = 0xAD4B ∧ Along DescOp.run (ControlKept (t k)) (t k) ops := by
  have hmagic := magic_xdmaDescAlloc ht hk
  have hstart : ControlInv (t k) (t k) := ⟨hmagic, rfl⟩
  refine ⟨hmagic, along_of_step (C := fun _ _ _ => True) (fun d op d' h hrun _ => ?_) hstart
    (along_of_inputs fun _ _ _ _ => trivial)⟩
  exact control_step h hrun

/-- The second of two descriptors is linked, counted and given a control byte. -/
theorem control_word_last : ∃ t,
    xdmaDescAlloc (fun _ => ⟨0, 0, 0, 0, 0, 0, 0, 0⟩) 0x30000000 2 = some t ∧
      (t 1).fields.magic = 0xAD4B ∧
        Along DescOp.run (ControlKept (t 1)) (t 1) [.link none, .control 0x13, .adjacent 1,
          .controlClear 0x03, .controlSet 0x10, .link (some 0x30000020)] := by
  obtain ⟨t, ht, -⟩ := xdmaDescAlloc_spec (fun _ => ⟨0, 0, 0, 0, 0, 0, 0, 0⟩) 0x30000000
    (show 1 ≤ 2 by decide)
  exact ⟨t, ht, control_word ht (by decide) _⟩

end Wimi
