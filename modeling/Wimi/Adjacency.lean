import Wimi.Retire
import Wimi.TransferBuild

/-!
# Adjacent descriptors

Every descriptor announces how many more descriptors lie behind the one it points to, so that the
engine can fetch them at once; `first_desc_adjacent` announces the same of the first one. The count
is made at allocation, for the whole table, and made anew for the descriptors the merge has left.

`adjacency_safe` : an announced block ends within the transfer and on the page it begins on.
-/

namespace Wimi

variable {c : BuildArgs}

/-- The bits of the control word between the magic and the control byte. -/
def XdmaDesc.extraAdj (d : XdmaDesc) : ℕ :=
  ((d.control >>> 8) &&& 0xff).toNat

/-- The upper half of the control word. -/
def XdmaDesc.magic (d : XdmaDesc) : U32 :=
  d.control >>> 16

/-- The block of `1 + extra` descriptors at bus address `a`, which begins with descriptor `i`, is
of descriptors of the transfer and on one page of 4 KiB. -/
structure BlockOk (x : BuiltTransfer) (a : U64) (extra i : ℕ) : Prop where
  few : (extra : ℤ) ≤ MAX_EXTRA_ADJ
  first : a = x.descBus + BitVec.ofNat 64 (descSize * i)
  inside : i + extra < x.descNum
  page : a.toNat % 0x1000 + descSize * (1 + extra) ≤ 0x1000

/-! ## The number announced -/

/-- What `xdma_desc_adjacent` announces of `n` descriptors behind an aligned next pointer. -/
theorem extraAdjacent_eq (d : XdmaDesc) {n : ℕ} (hn : 0 < n) (halign : d.nextLo.toNat % 32 = 0) :
    extraAdjacent d n =
      (min (min (n - 1) 15) ((0x1000 - d.nextLo.toNat % 0x1000) / 32 - 1) : ℕ) := by
  have hoff : (d.nextLo &&& 0xFFF).toNat = d.nextLo.toNat % 0x1000 := by
    rw [BitVec.toNat_and]
    exact Nat.and_two_pow_sub_one_eq_mod _ 12
  have hle : d.nextLo &&& 0xFFF ≤ (0x1000 : U32) := by
    rw [BitVec.le_def, hoff]
    exact (Nat.mod_lt _ (by decide)).le
  have hmax : ((0x1000 - (d.nextLo &&& 0xFFF)) / 32 - 1 : U32).toNat =
      (0x1000 - d.nextLo.toNat % 0x1000) / 32 - 1 := by
    have hdiv : ((0x1000 - (d.nextLo &&& 0xFFF)) / 32 : U32).toNat =
        (0x1000 - d.nextLo.toNat % 0x1000) / 32 := by
      rw [BitVec.toNat_udiv, BitVec.toNat_sub_of_le hle, hoff]
      rfl
    have hone : (1 : U32) ≤ (0x1000 - (d.nextLo &&& 0xFFF)) / 32 := by
      rw [BitVec.le_def, hdiv]
      change 1 ≤ _
      omega
    rw [BitVec.toNat_sub_of_le hone, hdiv]
    rfl
  -- the bound by 15 is below 2^31, so the comparison is of the numbers themselves
  have hmin : min ((n : ℤ) - 1) MAX_EXTRA_ADJ = ((min (n - 1) 15 : ℕ) : ℤ) := by
    rw [MAX_EXTRA_ADJ]
    omega
  have hint : (BitVec.ofInt 32 ((min (n - 1) 15 : ℕ) : ℤ)).toNat = min (n - 1) 15 := by
    rw [BitVec.ofInt_natCast, BitVec.toNat_ofNat]
    omega
  have hsigned : ((0x1000 - (d.nextLo &&& 0xFFF)) / 32 - 1 : U32).toInt =
      (((0x1000 - d.nextLo.toNat % 0x1000) / 32 - 1 : ℕ) : ℤ) := by
    rw [BitVec.toInt_eq_toNat_of_lt (by rw [hmax]; omega), hmax]
  simp only [extraAdjacent]
  rw [if_pos (by omega), hmin, hsigned]
  simp only [gt_iff_lt, BitVec.lt_def, hmax, hint]
  split <;> split <;> omega

theorem extraAdjacent_zero (d : XdmaDesc) : extraAdjacent d 0 = 0 :=
  rfl

/-! ## The control word -/

/-- The bits `xdma_desc_adjacent` keeps. -/
def XdmaDesc.kept (d : XdmaDesc) : U32 :=
  d.control &&& 0x0000f0ff

/-- A control word with a small number in it keeps the number, the magic and the control byte
apart. -/
theorem adjacent_fields {d : XdmaDesc} {n : ℤ} {m : ℕ} (hm : m ≤ 15)
    (hextra : extraAdjacent d n = m) (hkept : d.kept = 0 ∨ d.kept = lastControl) :
    (xdmaDescAdjacent d n).extraAdj = m ∧ (xdmaDescAdjacent d n).magic = DESC_MAGIC >>> 16 ∧
      (xdmaDescAdjacent d n).controlByte = d.kept := by
  have hword : (xdmaDescAdjacent d n).control =
      d.kept ||| ((0xAD4B0000 : U32) ||| (BitVec.ofNat 32 m <<< 8)) := by
    simp only [xdmaDescAdjacent, hextra, BitVec.ofInt_natCast]
    rfl
  rw [XdmaDesc.extraAdj, XdmaDesc.magic, XdmaDesc.controlByte, hword]
  rcases hkept with h | h <;> rw [h] <;> interval_cases m <;> decide

/-- The control word of an entry the loop has passed. -/
theorem control_allocLoop (s : AllocState) {i k : ℕ} (h : k < i) : ∃ m ≤ 15,
    ((allocLoop s i).descVirt k).control = DESC_MAGIC ||| (BitVec.ofNat 32 m <<< 8) := by
  obtain ⟨m, hm, hadj⟩ : ∃ m : ℕ, m ≤ 15 ∧ (if (allocLoop s k).adj > 0
      then min ((allocLoop s k).adj - 1) MAX_EXTRA_ADJ else 0) = (m : ℤ) := by
    rw [MAX_EXTRA_ADJ]
    split
    · exact ⟨(min ((allocLoop s k).adj - 1) 15).toNat, by omega, by omega⟩
    · exact ⟨0, by omega, rfl⟩
  refine ⟨m, hm, ?_⟩
  rw [allocLoop_eq_step s h]
  simp only [allocStep, Function.update_self, hadj, BitVec.ofInt_natCast]

/-- A control word is allocated with the magic and a count. -/
theorem control_xdmaDescAlloc {mem t : DescTable} {descBus : U64} {number k : ℕ}
    (ht : xdmaDescAlloc mem descBus number = some t) (hk : k < number) :
    ∃ m ≤ 15, (t k).control = DESC_MAGIC ||| (BitVec.ofNat 32 m <<< 8) := by
  rw [xdmaDescAlloc, if_neg (by omega)] at ht
  obtain rfl := Option.some.inj ht
  by_cases hlast : k = number - 1
  · rw [hlast, Function.update_self]
    exact ⟨0, Nat.zero_le _, rfl⟩
  · rw [Function.update_of_ne hlast]
    exact control_allocLoop _ (by omega)

/-- The count made at allocation stays in its field as well. -/
theorem kept_xdmaDescAlloc {mem t : DescTable} {descBus : U64} {number k : ℕ}
    (ht : xdmaDescAlloc mem descBus number = some t) (hk : k < number) : (t k).kept = 0 := by
  obtain ⟨m, hm, hcontrol⟩ := control_xdmaDescAlloc ht hk
  rw [XdmaDesc.kept, hcontrol]
  interval_cases m <;> decide

theorem kept_terminated {d : XdmaDesc} (h : d.kept = 0) : (terminated d).kept = lastControl := by
  simp only [terminated, xdmaDescLink, XdmaDesc.kept] at h ⊢
  rw [h]
  decide

/-- Before the adjacent numbers are filled in, the control words of a chain have nothing but the
control byte. -/
theorem kept_finishedTable {t : DescTable} {epAddr : U64} {bs : List SgEntry} {k : ℕ}
    (ht : (t k).kept = 0) (hk : k < bs.length) :
    (finishedTable c t epAddr bs k).kept = if k + 1 = bs.length then lastControl else 0 := by
  have hget := finishedTable_get (c := c) t epAddr hk
  dsimp only at hget
  have hblock : (xdmaDescSet (t k) bs[k].addr (c.advances epAddr (bs.take k)) bs[k].len
      c.dirToDev).kept = 0 := by
    rw [XdmaDesc.kept, control_xdmaDescSet]
    exact ht
  rw [hget]
  split
  · exact kept_terminated hblock
  · exact hblock

/-! ## Announced blocks -/

theorem nextLo_eq (d : XdmaDesc) : d.nextLo = d.nextAddr.setWidth 32 := by
  rw [XdmaDesc.nextAddr, BitVec.setWidth_append]
  simp

/-- On an aligned table the place of a descriptor in its page is that of its index. -/
theorem descAddr_mod {bus : U64} (hbus : 0x1000 ∣ bus.toNat) (i : ℕ) :
    (bus + BitVec.ofNat 64 (descSize * i)).toNat % 0x1000 = descSize * i % 0x1000 := by
  rw [BitVec.toNat_add, BitVec.toNat_ofNat, descSize]
  omega

/-- A descriptor that points to descriptor `i + 1` of `num` announces a block of theirs. -/
theorem extraAdjacent_block {x : BuiltTransfer} (hbus : 0x1000 ∣ x.descBus.toNat) {d : XdmaDesc}
    {i : ℕ} (hnext : d.nextAddr = x.descBus + BitVec.ofNat 64 (descSize * (i + 1)))
    (hi : i + 1 < x.descNum) :
    ∃ m : ℕ, m ≤ 15 ∧ extraAdjacent d (x.descNum - i - 1) = m ∧ BlockOk x d.nextAddr m (i + 1) := by
  have hmod := descAddr_mod hbus (i + 1)
  have hlow : d.nextLo.toNat % 0x1000 = descSize * (i + 1) % 0x1000 := by
    rw [nextLo_eq, hnext, BitVec.toNat_setWidth, ← hmod]
    omega
  have hcount : (x.descNum : ℤ) - i - 1 = (x.descNum - i - 1 : ℕ) := by omega
  have heq := extraAdjacent_eq d (n := x.descNum - i - 1) (by omega) (by
    rw [descSize] at hlow
    omega)
  rw [hlow] at heq
  rw [descSize] at hmod heq
  refine ⟨_, ?_, hcount ▸ heq, ?_, hnext, ?_, ?_⟩
  · omega
  · rw [MAX_EXTRA_ADJ]
    omega
  · omega
  · rw [hnext, descSize, hmod]
    omega

/-- Every descriptor of a chain got its number last. -/
theorem transferCreate_adjacent {mem : DescTable} {descBus epAddr : U64} {first : SgEntry}
    {rest : List SgEntry} {x : BuiltTransfer}
    (hx : transferCreate c mem descBus epAddr (first :: rest) = some x) {i : ℕ}
    (hi : i < x.descNum) :
    ∃ d, x.descVirt i = xdmaDescAdjacent d (x.descNum - i - 1) ∧
      d.kept = if i + 1 = x.descNum then lastControl else 0 := by
  have hpos : 1 ≤ (first :: rest).length := Nat.succ_pos _
  obtain ⟨t, ht, -⟩ := xdmaDescAlloc_spec mem descBus hpos
  obtain rfl := Option.some.inj (hx.symm.trans (transferCreate_eq epAddr ht))
  have hlen := (length_merge (c := c) first.addr 0 first rest).2
  simp only at hi
  refine ⟨_, fillAdjacent_of_lt _ hi, kept_finishedTable (kept_xdmaDescAlloc ht ?_) hi⟩
  rw [List.length_cons]
  omega

theorem transferCreate_descAdjacent {mem : DescTable} {descBus epAddr : U64} {first : SgEntry}
    {rest : List SgEntry} {x : BuiltTransfer}
    (hx : transferCreate c mem descBus epAddr (first :: rest) = some x) :
    x.descAdjacent = x.descNum := by
  have hpos : 1 ≤ (first :: rest).length := Nat.succ_pos _
  obtain ⟨t, ht, -⟩ := xdmaDescAlloc_spec mem descBus hpos
  obtain rfl := Option.some.inj (hx.symm.trans (transferCreate_eq epAddr ht))
  rfl

/-- What `engine_start` tells the engine of the first transfer of its queue. -/
theorem engineStart_first {e : XdmaEngine} {p : Ptr} {queue : List Ptr} (hrun : e.running = false)
    (hqueue : e.transferList = p :: queue) :
    ∃ e', engineStart e = .ok e' ∧
      e'.regs.firstDescHi ++ e'.regs.firstDescLo = (e.transfers p).descBus ∧
      e'.regs.firstDescAdjacent = min ((e.transfers p).descAdjacent - 1) 15 := by
  obtain ⟨e', he'⟩ := engineStart_ok hrun (by simp [hqueue])
  refine ⟨e', he', ?_⟩
  simp only [engineStart, hrun, hqueue, Bool.false_eq_true, if_false] at he'
  obtain rfl := Except.ok.inj he'
  exact ⟨pciDma_append _, rfl⟩

/-- Every descriptor of a chain keeps its fields apart, and each but the last announces a block of
descriptors at its next pointer. -/
theorem transferCreate_block {mem : DescTable} {descBus epAddr : U64} {first : SgEntry}
    {rest : List SgEntry} {x : BuiltTransfer} (hbus : 0x1000 ∣ descBus.toNat)
    (hx : transferCreate c mem descBus epAddr (first :: rest) = some x) {i : ℕ}
    (hi : i < x.descNum) :
    (x.descVirt i).magic = DESC_MAGIC >>> 16 ∧ (x.descVirt i).extraAdj ≤ 15 ∧
      (x.descVirt i).controlByte = (if i + 1 = x.descNum then lastControl else 0) ∧
      (i + 1 < x.descNum → BlockOk x (x.descVirt i).nextAddr (x.descVirt i).extraAdj (i + 1)) := by
  obtain ⟨x', hx', hchain⟩ := transferCreate_isChain (c := c) mem descBus epAddr first rest
  obtain rfl := Option.some.inj (hx.symm.trans hx')
  have hnum := hchain.descNum
  rw [← hchain.descBus] at hbus
  obtain ⟨d, hd, hkept⟩ := transferCreate_adjacent hx hi
  have hkept' : d.kept = 0 ∨ d.kept = lastControl := by
    rw [hkept]
    split
    · exact .inr rfl
    · exact .inl rfl
  by_cases hlast : i + 1 = x.descNum
  · -- the last descriptor announces none
    have hzero : (x.descNum : ℤ) - i - 1 = 0 := by omega
    have hfields := adjacent_fields (Nat.zero_le 15) (extraAdjacent_zero d) hkept'
    rw [hd, hzero, hfields.1, hfields.2.1, hfields.2.2, hkept]
    exact ⟨rfl, Nat.zero_le _, rfl, fun h => absurd hlast h.ne⟩
  · have hnext := (hchain.link i (hnum ▸ hi)).next
    rw [if_neg (hnum ▸ hlast), hd, ← hchain.descBus] at hnext
    obtain ⟨m, hm, hextra, hblock⟩ := extraAdjacent_block (d := d) hbus hnext (by omega)
    have hfields := adjacent_fields hm hextra hkept'
    rw [hd, hfields.1, hfields.2.1, hfields.2.2, hkept]
    exact ⟨rfl, hm, rfl, fun _ => hblock⟩

/-- An engine started on the transfer is told a block of its descriptors. -/
theorem engineStart_block {e : XdmaEngine} {p : Ptr} {queue : List Ptr} {x : BuiltTransfer}
    (hbus : 0x1000 ∣ x.descBus.toNat) (hpos : 1 ≤ x.descNum) (hnum : x.descAdjacent = x.descNum)
    (hrun : e.running = false) (hqueue : e.transferList = p :: queue)
    (hdesc : (e.transfers p).descBus = x.descBus)
    (hadj : (e.transfers p).descAdjacent = x.descAdjacent) :
    ∃ e', engineStart e = .ok e' ∧
      BlockOk x (e'.regs.firstDescHi ++ e'.regs.firstDescLo) e'.regs.firstDescAdjacent 0 := by
  obtain ⟨e', he', haddr, hfirst⟩ := engineStart_first hrun hqueue
  rw [hdesc] at haddr
  rw [hadj, hnum] at hfirst
  refine ⟨e', he', ?_, ?_, ?_, ?_⟩
  · rw [hfirst, MAX_EXTRA_ADJ]
    omega
  · rw [haddr, Nat.mul_zero]
    exact (BitVec.add_zero _).symm
  · omega
  · rw [haddr, hfirst, descSize]
    omega

/-- After `transfer_create` in an aligned table, every descriptor keeps magic, number and control
byte apart, the block each but the last announces at its next pointer is of descriptors of the
transfer and on one page, and so is the block `engine_start` announces at `desc_bus`. -/
theorem adjacency_safe (c : BuildArgs) (mem : DescTable) (descBus epAddr : U64)
    (hbus : 0x1000 ∣ descBus.toNat) (sgl : List SgEntry) (hne : sgl ≠ []) :
    ∃ x, transferCreate c mem descBus epAddr sgl = some x ∧ 1 ≤ x.descNum ∧
      x.descNum ≤ sgl.length ∧
      (∀ i < x.descNum, (x.descVirt i).magic = DESC_MAGIC >>> 16 ∧
        (x.descVirt i).extraAdj ≤ 15 ∧
        (x.descVirt i).controlByte = (if i + 1 = x.descNum then lastControl else 0) ∧
        (i + 1 < x.descNum →
          BlockOk x (x.descVirt i).nextAddr (x.descVirt i).extraAdj (i + 1))) ∧
      ∀ e p queue, e.running = false → e.transferList = p :: queue →
        (e.transfers p).descBus = x.descBus → (e.transfers p).descAdjacent = x.descAdjacent →
        ∃ e', engineStart e = .ok e' ∧
          BlockOk x (e'.regs.firstDescHi ++ e'.regs.firstDescLo) e'.regs.firstDescAdjacent 0 := by
  obtain ⟨first, rest, rfl⟩ := List.exists_cons_of_ne_nil hne
  have hlen := length_merge (c := c) first.addr 0 first rest
  obtain ⟨x, hx, hchain⟩ := transferCreate_isChain (c := c) mem descBus epAddr first rest
  have hnum := hchain.descNum
  refine ⟨x, hx, by omega, by simpa [hnum] using hlen.2,
    fun i hi => transferCreate_block hbus hx hi, fun e p queue hrun hqueue hdesc hadj => ?_⟩
  exact engineStart_block (hchain.descBus.symm ▸ hbus) (by omega) (transferCreate_descAdjacent hx)
    hrun hqueue hdesc hadj

theorem adjacency_safe_two_pages :
    ∃ x, transferCreate ⟨4096, true, false, false, true⟩ (fun _ => ⟨0, 0, 0, 0, 0, 0, 0, 0⟩)
      0x30000000 0 twoPages.entries = some x ∧
      (1 < x.descNum → BlockOk x (x.descVirt 0).nextAddr (x.descVirt 0).extraAdj 1) := by
  obtain ⟨x, hx, hpos, -, hdesc, -⟩ := adjacency_safe ⟨4096, true, false, false, true⟩
    (fun _ => ⟨0, 0, 0, 0, 0, 0, 0, 0⟩) 0x30000000 0 (by decide) twoPages.entries (by decide)
  exact ⟨x, hx, (hdesc 0 hpos).2.2.2⟩

end Wimi
