import Wimi.Kernel

/-!
# SG DMA descriptors

The eight words of an `xdma_desc`, the operations that fill them in, and the table
`xdma_desc_alloc` sets up. A table is a stretch of memory : indices past its end are the
memory behind it. Words are held in the CPU's byte order.

The control word is packed from the magic, the adjacency field and the control byte by
operations that each keep some of the bits; `controlByte_*` and `nextAddr_*` say what is
left of the control byte and the link after each of them.
-/

namespace Wimi

/-- Maximum size of a single DMA transfer descriptor. -/
def XDMA_DESC_MAX_BYTES : U64 := (1 <<< 18) - 1

def XDMA_DESC_STOPPED : U32 := 1
def XDMA_DESC_COMPLETED : U32 := 2
def XDMA_DESC_EOP : U32 := 16

def LS_BYTE_MASK : U32 := 0x000000FF
def DESC_MAGIC : U32 := 0xAD4B0000
def MAX_EXTRA_ADJ : ℤ := 15

/-- `sizeof(struct xdma_desc)`. -/
def descSize : ℕ := 32

/-- `PCI_DMA_L` : the low half of a bus address. -/
def pciDmaL (addr : U64) : U32 := (addr &&& 0xffffffff).setWidth 32

/-- `PCI_DMA_H` : the high half of a bus address. -/
def pciDmaH (addr : U64) : U32 := ((addr >>> 16) >>> 16).setWidth 32

/-- The two halves of an address make the address. -/
@[simp] theorem pciDma_append (addr : U64) : pciDmaH addr ++ pciDmaL addr = addr := by
  refine BitVec.eq_of_getLsbD_eq fun i hi => ?_
  simp only [pciDmaH, pciDmaL, BitVec.getLsbD_append, BitVec.getLsbD_setWidth,
    BitVec.getLsbD_ushiftRight, BitVec.getLsbD_and]
  by_cases hlow : i < 32
  · have hmask : (4294967295#64).getLsbD i = true := by
      interval_cases i <;> rfl
    simp [hlow, hmask]
  · have hi' : i - 32 < 32 := by omega
    simp [hlow, hi', show 16 + (16 + (i - 32)) = i by omega]

structure XdmaDesc where
  control : U32
  bytes : U32
  srcAddrLo : U32
  srcAddrHi : U32
  dstAddrLo : U32
  dstAddrHi : U32
  nextLo : U32
  nextHi : U32
deriving DecidableEq

/-- An array of descriptors, with the memory behind it. -/
abbrev DescTable := ℕ → XdmaDesc

namespace XdmaDesc

/-- The address of the next descriptor, as the engine reads it. -/
def nextAddr (d : XdmaDesc) : U64 := d.nextHi ++ d.nextLo

/-- The control byte, without magic, reserved bits and adjacency. -/
def controlByte (d : XdmaDesc) : U32 := d.control &&& LS_BYTE_MASK

/-- The address in root complex memory. -/
def hostAddr (dirToDev : Bool) (d : XdmaDesc) : U64 :=
  if dirToDev then d.srcAddrHi ++ d.srcAddrLo else d.dstAddrHi ++ d.dstAddrLo

/-- The address at the end point. -/
def epAddr (dirToDev : Bool) (d : XdmaDesc) : U64 :=
  if dirToDev then d.dstAddrHi ++ d.dstAddrLo else d.srcAddrHi ++ d.srcAddrLo

end XdmaDesc

/-! ## Operations on one descriptor -/

/-- `xdma_desc_set`. -/
def xdmaDescSet (desc : XdmaDesc) (rcBusAddr epAddr : U64) (len : U32) (dirToDev : Bool) :
    XdmaDesc :=
  if dirToDev then
    { desc with
      bytes := len
      srcAddrLo := pciDmaL rcBusAddr
      srcAddrHi := pciDmaH rcBusAddr
      dstAddrLo := pciDmaL epAddr
      dstAddrHi := pciDmaH epAddr }
  else
    { desc with
      bytes := len
      srcAddrLo := pciDmaL epAddr
      srcAddrHi := pciDmaH epAddr
      dstAddrLo := pciDmaL rcBusAddr
      dstAddrHi := pciDmaH rcBusAddr }

/-- `xdma_desc_link`. `second` is the bus address of the second descriptor, or none when the
first is to be the last. -/
def xdmaDescLink (first : XdmaDesc) (second : Option U64) : XdmaDesc :=
  let control := first.control &&& 0x0000f0ff
  match second with
  | some secondBus =>
    { first with
      nextLo := pciDmaL secondBus
      nextHi := pciDmaH secondBus
      control := control ||| DESC_MAGIC }
  | none => { first with nextLo := 0, nextHi := 0, control := control ||| DESC_MAGIC }

/-- `xdma_desc_control`. None is the `BUG_ON` for bits outside the control byte. -/
def xdmaDescControl (first : XdmaDesc) (controlField : U32) : Option XdmaDesc :=
  if controlField &&& ~~~LS_BYTE_MASK ≠ 0 then none
  else some { first with control := (first.control &&& ~~~LS_BYTE_MASK) ||| controlField }

/-- The adjacency `xdma_desc_adjacent` announces : at most `MAX_EXTRA_ADJ`, and not over the
next 4 KiB boundary. The two are compared as unsigned numbers. -/
def extraAdjacent (desc : XdmaDesc) (nextAdjacent : ℤ) : ℤ :=
  if nextAdjacent > 0 then
    let extraAdj := min (nextAdjacent - 1) MAX_EXTRA_ADJ
    let maxAdj4k : U32 := (0x1000 - (desc.nextLo &&& 0xFFF)) / 32 - 1
    let extraAdj := if BitVec.ofInt 32 extraAdj > maxAdj4k then maxAdj4k.toInt else extraAdj
    if extraAdj < 0 then 0 else extraAdj
  else 0

/-- `xdma_desc_adjacent`. -/
def xdmaDescAdjacent (desc : XdmaDesc) (nextAdjacent : ℤ) : XdmaDesc :=
  let control := desc.control &&& 0x0000f0ff
  let extraAdj := BitVec.ofInt 32 (extraAdjacent desc nextAdjacent)
  { desc with control := control ||| ((0xAD4B0000 : U32) ||| (extraAdj <<< 8)) }

/-! ## Allocation -/

/-- The locals of the loop of `xdma_desc_alloc`. -/
structure AllocState where
  descVirt : DescTable
  descBus : U64
  adj : ℤ

/-- One turn of the loop of `xdma_desc_alloc`, for descriptor `i`. -/
def allocStep (s : AllocState) (i : ℕ) : AllocState :=
  let descBus := s.descBus + BitVec.ofNat 64 descSize
  let extraAdj := if s.adj > 0 then min (s.adj - 1) MAX_EXTRA_ADJ else 0
  { descVirt := Function.update s.descVirt i
      { s.descVirt i with
        nextLo := pciDmaL descBus
        nextHi := pciDmaH descBus
        bytes := 0
        control := DESC_MAGIC ||| (BitVec.ofInt 32 extraAdj <<< 8) }
    descBus := descBus
    adj := if s.adj > 0 then s.adj - 1 else s.adj }

/-- The loop of `xdma_desc_alloc` after its first `i` turns. -/
def allocLoop (s : AllocState) : ℕ → AllocState
  | 0 => s
  | i + 1 => allocStep (allocLoop s i) i

/-- `xdma_desc_alloc` of `number` descriptors in the memory `mem` found at `descBus`. None is
the `BUG_ON` for an empty table. -/
def xdmaDescAlloc (mem : DescTable) (descBus : U64) (number : ℕ) : Option DescTable :=
  if number < 1 then none
  else
    let i := number - 1
    let s := allocLoop ⟨mem, descBus, number - 1⟩ i
    some (Function.update s.descVirt i
      { s.descVirt i with nextLo := 0, nextHi := 0, bytes := 0, control := DESC_MAGIC })

/-! ## What the operations keep -/

section Kept

variable (d : XdmaDesc) (rc ep bus : U64) (len field : U32) (dir : Bool) (n : ℤ)

@[simp] theorem hostAddr_xdmaDescSet : (xdmaDescSet d rc ep len dir).hostAddr dir = rc := by
  cases dir <;> simp [xdmaDescSet, XdmaDesc.hostAddr]

@[simp] theorem epAddr_xdmaDescSet : (xdmaDescSet d rc ep len dir).epAddr dir = ep := by
  cases dir <;> simp [xdmaDescSet, XdmaDesc.epAddr]

@[simp] theorem bytes_xdmaDescSet : (xdmaDescSet d rc ep len dir).bytes = len := by
  cases dir <;> rfl

@[simp] theorem nextAddr_xdmaDescSet : (xdmaDescSet d rc ep len dir).nextAddr = d.nextAddr := by
  cases dir <;> rfl

@[simp] theorem control_xdmaDescSet : (xdmaDescSet d rc ep len dir).control = d.control := by
  cases dir <;> rfl

@[simp] theorem hostAddr_xdmaDescLink (second : Option U64) :
    (xdmaDescLink d second).hostAddr dir = d.hostAddr dir := by
  cases second <;> rfl

@[simp] theorem epAddr_xdmaDescLink (second : Option U64) :
    (xdmaDescLink d second).epAddr dir = d.epAddr dir := by
  cases second <;> rfl

@[simp] theorem bytes_xdmaDescLink (second : Option U64) :
    (xdmaDescLink d second).bytes = d.bytes := by
  cases second <;> rfl

@[simp] theorem nextAddr_xdmaDescLink : (xdmaDescLink d (some bus)).nextAddr = bus :=
  pciDma_append bus

theorem xdmaDescControl_of_mask (h : field &&& ~~~LS_BYTE_MASK = 0) :
    xdmaDescControl d field =
      some { d with control := (d.control &&& ~~~LS_BYTE_MASK) ||| field } := by
  rw [xdmaDescControl, if_neg (not_not.mpr h)]

theorem nextAddr_zero : (0 : U32) ++ (0 : U32) = (0 : U64) := by
  decide

/-- A control byte set anew is all there is in it. -/
theorem control_set_and_mask (x : U32) (h : field &&& ~~~LS_BYTE_MASK = 0) :
    ((x &&& ~~~LS_BYTE_MASK) ||| field) &&& LS_BYTE_MASK = field := by
  refine BitVec.eq_of_getLsbD_eq fun i hi => ?_
  have hbit := congrArg (BitVec.getLsbD · i) h
  simp only [BitVec.getLsbD_and, BitVec.getLsbD_not, hi, decide_true, Bool.true_and] at hbit
  simp only [BitVec.getLsbD_and, BitVec.getLsbD_or, BitVec.getLsbD_not, hi, decide_true,
    Bool.true_and]
  generalize LS_BYTE_MASK.getLsbD i = mask at hbit ⊢
  cases mask <;> simp_all

/-- A descriptor with its control byte cleared and set anew. -/
def XdmaDesc.withControlByte (d : XdmaDesc) (control : U32) : XdmaDesc :=
  { d with control := (d.control &&& ~~~LS_BYTE_MASK) ||| control }

theorem controlByte_withControlByte (h : field &&& ~~~LS_BYTE_MASK = 0) :
    (d.withControlByte field).controlByte = field :=
  control_set_and_mask field d.control h

end Kept

/-- A control word of magic and adjacency has an empty control byte. -/
theorem magic_and_mask (x : U32) : (DESC_MAGIC ||| (x <<< 8)) &&& LS_BYTE_MASK = 0 := by
  refine BitVec.eq_of_getLsbD_eq fun i hi => ?_
  simp only [BitVec.getLsbD_and, BitVec.getLsbD_or, BitVec.getLsbD_shiftLeft]
  by_cases hlow : i < 8
  · have hmagic : DESC_MAGIC.getLsbD i = false := by interval_cases i <;> rfl
    simp [hmagic, hlow]
  · have hmask : LS_BYTE_MASK.getLsbD i = false := by interval_cases i <;> rfl
    simp [hmask]

/-- What is merged into the kept bits leaves the control byte alone if it lies outside. -/
theorem kept_and_mask (x : U32) {y : U32} (h : y &&& LS_BYTE_MASK = 0) :
    ((x &&& 0x0000f0ff) ||| y) &&& LS_BYTE_MASK = x &&& LS_BYTE_MASK := by
  have hkeep : (0x0000f0ff : U32) &&& LS_BYTE_MASK = LS_BYTE_MASK := by decide
  calc ((x &&& 0x0000f0ff) ||| y) &&& LS_BYTE_MASK
    _ = ((x &&& 0x0000f0ff) &&& LS_BYTE_MASK) ||| (y &&& LS_BYTE_MASK) :=
      BitVec.and_or_distrib_right
    _ = (x &&& LS_BYTE_MASK) ||| 0 := by rw [h, BitVec.and_assoc, hkeep]
    _ = x &&& LS_BYTE_MASK := BitVec.or_zero

/-- Adjacency and magic lie outside the control byte. -/
theorem controlByte_xdmaDescAdjacent (d : XdmaDesc) (n : ℤ) :
    (xdmaDescAdjacent d n).controlByte = d.controlByte :=
  kept_and_mask d.control (magic_and_mask _)

theorem controlByte_xdmaDescLink (d : XdmaDesc) (second : Option U64) :
    (xdmaDescLink d second).controlByte = d.controlByte := by
  have hmagic : DESC_MAGIC &&& LS_BYTE_MASK = 0 := by decide
  cases second <;> exact kept_and_mask d.control hmagic

/-! ## Loops over a table -/

/-- A loop that has rewritten the entries below `i` rewrites the next. -/
theorem update_below (t f : DescTable) (i : ℕ) :
    Function.update (fun k => if k < i then f k else t k) i (f i) =
      fun k => if k < i + 1 then f k else t k := by
  funext k
  rcases lt_trichotomy k i with h | rfl | h
  · rw [Function.update_of_ne h.ne, if_pos h, if_pos (h.trans i.lt_succ_self)]
  · rw [Function.update_self, if_pos k.lt_succ_self]
  · rw [Function.update_of_ne h.ne', if_neg (by omega), if_neg (by omega)]

/-! ## The allocated table -/

section Alloc

variable (s : AllocState)

theorem allocStep_of_ne {i k : ℕ} (h : k ≠ i) :
    (allocStep s i).descVirt k = s.descVirt k :=
  Function.update_of_ne h _ _

theorem allocStep_self (i : ℕ) :
    ((allocStep s i).descVirt i).nextAddr = s.descBus + BitVec.ofNat 64 descSize ∧
      ((allocStep s i).descVirt i).controlByte = 0 := by
  simp only [allocStep, Function.update_self]
  exact ⟨pciDma_append _, magic_and_mask _⟩

theorem allocLoop_descBus (i : ℕ) :
    (allocLoop s i).descBus = s.descBus + BitVec.ofNat 64 (descSize * i) := by
  induction i with
  | zero => simp [allocLoop]
  | succ i ih =>
    rw [allocLoop, allocStep, ih, Nat.mul_succ, BitVec.ofNat_add, BitVec.add_assoc]

/-- The loop only writes the entries it has passed. -/
theorem allocLoop_of_le {i k : ℕ} (h : i ≤ k) :
    (allocLoop s i).descVirt k = s.descVirt k := by
  induction i with
  | zero => rfl
  | succ i ih =>
    rw [allocLoop, allocStep_of_ne _ (by omega)]
    exact ih (by omega)

/-- An entry the loop has passed is as its turn has left it. -/
theorem allocLoop_eq_step {i k : ℕ} (h : k < i) :
    (allocLoop s i).descVirt k = (allocStep (allocLoop s k) k).descVirt k := by
  induction i with
  | zero => omega
  | succ i ih =>
    rw [allocLoop]
    rcases Nat.lt_succ_iff_lt_or_eq.mp h with hlt | rfl
    · rw [allocStep_of_ne _ (by omega)]
      exact ih hlt
    · rfl

/-- An entry the loop has passed points to the one behind it. -/
theorem allocLoop_of_lt {i k : ℕ} (h : k < i) :
    ((allocLoop s i).descVirt k).nextAddr = s.descBus + BitVec.ofNat 64 (descSize * (k + 1)) ∧
      ((allocLoop s i).descVirt k).controlByte = 0 := by
  rw [allocLoop_eq_step s h, (allocStep_self _ k).1, allocLoop_descBus, BitVec.add_assoc,
    ← BitVec.ofNat_add, Nat.mul_succ]
  exact ⟨rfl, (allocStep_self _ k).2⟩

end Alloc

/-- The table `xdma_desc_alloc` returns : empty control bytes, and every entry but the last
linked to the one behind it. -/
theorem xdmaDescAlloc_spec (mem : DescTable) (descBus : U64) {number : ℕ} (h : 1 ≤ number) :
    ∃ t, xdmaDescAlloc mem descBus number = some t ∧
      (∀ k < number, (t k).controlByte = 0) ∧
      (∀ k, k + 1 < number → (t k).nextAddr = descBus + BitVec.ofNat 64 (descSize * (k + 1))) ∧
      ∀ k, number ≤ k → t k = mem k := by
  refine ⟨_, if_neg (by omega), fun k hk => ?_, fun k hk => ?_, fun k hk => ?_⟩
  · rcases Nat.lt_or_ge k (number - 1) with hlt | hge
    · rw [Function.update_of_ne (by omega)]
      exact (allocLoop_of_lt _ hlt).2
    · obtain rfl : k = number - 1 := by omega
      rw [Function.update_self]
      exact magic_and_mask 0
  · rw [Function.update_of_ne (by omega)]
    exact (allocLoop_of_lt _ (by omega)).1
  · rw [Function.update_of_ne (by omega)]
    exact allocLoop_of_le _ (by omega)

end Wimi
