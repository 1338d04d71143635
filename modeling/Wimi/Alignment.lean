import Wimi.Lib.Residues
import Wimi.Lib.Run
import Wimi.PageLists

/-!
# Alignment

The addresses an engine is given, from the buffer and the position `check_transfer_align` looks
at, over the chunks of `transfer_data`, the pages of `sgm_get_user_pages` and the blocks of
`transfer_build`.

`descs_aligned` : every descriptor of every chunk satisfies the constraint of the engine.
-/

open Machine Residues

namespace Wimi

/-! ## Reading and writing -/

/-- What `check_transfer_align` and `transfer_data` go by of an `xdma_engine`. -/
structure EngineAlignment where
  dirToDev : Bool
  streaming : Bool
  nonIncrAddr : Bool
  addrAlign : U32
  lenGranularity : U32

/-- `check_transfer_align`. -/
def checkTransferAlign (a : EngineAlignment) (buf count pos : U64) (sync : Bool) :
    Except Errno Unit :=
  let bufLsb := buf.setWidth 32 &&& (a.addrAlign - 1)
  let posLsb := pos.setWidth 32 &&& (a.addrAlign - 1)
  if a.streaming ∨ a.nonIncrAddr then
    let lenLsb := count &&& (a.lenGranularity.signExtend 64 - 1)
    if bufLsb ≠ 0 then .error .einval
    else if ¬ a.streaming ∧ posLsb ≠ 0 ∧ sync then .error .einval
    else if lenLsb ≠ 0 then .error .einval
    else .ok ()
  else if bufLsb ≠ posLsb then .error .einval
  else .ok ()

/-- `char_sgdma_read_write`, up to its call of `transfer_data`. -/
def charSgdmaReadWrite (a : EngineAlignment) (buf count pos : U64) (dirToDev : Bool) :
    Except Errno ReadWrite :=
  if dirToDev ≠ a.dirToDev then .error .einval
  else
    (checkTransferAlign a buf count pos true).map fun _ => ⟨.enter count.toInt pos.toInt, buf⟩

/-- One turn of the loop of `transfer_data` : the memory it finds, and what becomes of the
transfer. -/
structure ChunkTurn where
  pages : PinnedPages
  mem : DescTable
  descBus : U64
  state : TransferState
  rc : ℤ

/-- What `transfer_data` builds its chains with. -/
abbrev EngineAlignment.buildArgs (a : EngineAlignment) : BuildArgs :=
  dataArgs a.dirToDev a.nonIncrAddr

namespace ReadWrite

/-- The transfer of the next chunk. -/
def nextTransfer (a : EngineAlignment) (s : ReadWrite) (i : ChunkTurn) : Option BuiltTransfer :=
  s.transfer a.buildArgs i.pages i.mem i.descBus

/-- The locals after a turn of the loop, with the transfer at `p`. -/
def next (s : ReadWrite) (p : Ptr) (state : TransferState) (rc : ℤ) : ReadWrite :=
  (s.queued p).settle state rc

/-- One turn of the loop; none is its end, or a transfer that cannot be created. -/
def step (a : EngineAlignment) (s : ReadWrite) (i : ChunkTurn) : Option ReadWrite :=
  if s.call.Continues then (s.nextTransfer a i).map fun _ => s.next 0 i.state i.rc else none

end ReadWrite

/-! ## Pages -/

namespace SgEntry

/-- Where an entry begins. -/
def start (e : SgEntry) : ℕ := e.addr.toNat

/-- How long it is. -/
def size (e : SgEntry) : ℕ := e.len.toNat

end SgEntry

/-- Entries that continue each other up to `m`. -/
abbrev Continuous (m : ℕ) (es : List SgEntry) : Prop :=
  es.IsChain (Continues m SgEntry.start SgEntry.size)

theorem modEq_zero_of_dvd {m n : ℕ} (h : m ∣ n) : n ≡ 0 [MOD m] :=
  (Nat.modEq_zero_iff_dvd).mpr h

/-- An entry that ends with its page is continued by an entry that begins one. -/
theorem continues_page {e d : SgEntry} (he : PAGE_SIZE ∣ e.start + e.size)
    (hd : PAGE_SIZE ∣ d.start) : Continues PAGE_SIZE SgEntry.start SgEntry.size e d :=
  (modEq_zero_of_dvd he).trans (modEq_zero_of_dvd hd).symm

/-- The later pages begin at page boundaries, and all but the last are full. -/
theorem laterEntries_aligned {bus : ℕ → U64} (hbus : ∀ i, PAGE_SIZE ∣ (bus i).toNat) {count : U64}
    {i left : ℕ} {es : List PageEntry} (h : laterEntries count i left = some es) :
    Continuous PAGE_SIZE (es.map (PageEntry.mapped bus)) ∧
      ∀ e ∈ es.map (PageEntry.mapped bus), PAGE_SIZE ∣ e.start := by
  have hstart (i : ℕ) (length : U32) :
      PAGE_SIZE ∣ (PageEntry.mapped bus ⟨i, 0, length⟩).start := by
    rw [SgEntry.start, PageEntry.mapped]
    exact (BitVec.add_zero (bus i)).symm ▸ hbus i
  induction left generalizing count i es with
  | zero =>
    obtain ⟨-, h⟩ := Option.ite_none_left_eq_some.mp h
    obtain rfl := Option.some.inj h
    refine ⟨List.isChain_singleton _, fun e he => ?_⟩
    obtain rfl := List.mem_singleton.mp he
    exact hstart i _
  | succ left ih =>
    obtain ⟨-, h⟩ := Option.ite_none_left_eq_some.mp h
    obtain ⟨rest, hrest, rfl⟩ := Option.map_eq_some_iff.mp h
    obtain ⟨hchain, haligned⟩ := ih hrest
    refine ⟨List.isChain_cons.mpr ⟨fun d hd => ?_, hchain⟩, fun e he => ?_⟩
    · exact continues_page (Nat.dvd_add_self_right.mpr (hstart i _))
        (haligned d (List.mem_of_mem_head? hd))
    · rcases List.mem_cons.mp he with rfl | he
      · exact hstart i _
      · exact haligned e he

/-- The entries of a stretch of user memory : the first begins where the stretch does, up to a
page, and they continue each other. -/
theorem mapUserPages_aligned {pages : PinnedPages} {start count : U64} {sgl : List SgEntry}
    (h : mapUserPages pages start count = some sgl) :
    ∃ e rest, sgl = e :: rest ∧ e.start ≡ start.toNat [MOD PAGE_SIZE] ∧
      Continuous PAGE_SIZE (e :: rest) ∧ ∀ d ∈ rest, PAGE_SIZE ∣ d.start := by
  have hword : PAGE_SIZE ∣ 2 ^ 64 := by decide
  have hoff := offsetInPage_toNat start
  have hfirst (length : U32) :
      (PageEntry.mapped pages.bus ⟨0, (offsetInPage start).setWidth 32, length⟩).start ≡
        start.toNat [MOD PAGE_SIZE] := by
    rw [SgEntry.start, PageEntry.mapped, offset_setWidth]
    refine (toNat_add_modEq hword _ _).trans ?_
    rw [hoff]
    calc (pages.bus 0).toNat + start.toNat % PAGE_SIZE
      _ ≡ 0 + start.toNat [MOD PAGE_SIZE] :=
        (modEq_zero_of_dvd (pages.aligned 0)).add (Nat.mod_modEq _ _)
      _ = start.toNat := Nat.zero_add _
  obtain ⟨-, es, hes, rfl⟩ := mapUserPages_spec h
  unfold populateSgl at hes
  split at hes
  · obtain ⟨rest, hrest, rfl⟩ := Option.map_eq_some_iff.mp hes
    obtain ⟨hchain, haligned⟩ := laterEntries_aligned pages.aligned hrest
    refine ⟨_, _, rfl, hfirst _, List.isChain_cons.mpr ⟨fun d hd => ?_, hchain⟩, haligned⟩
    refine continues_page ?_ (haligned d (List.mem_of_mem_head? hd))
    have hlt : start.toNat % PAGE_SIZE < PAGE_SIZE := Nat.mod_lt _ (by decide)
    refine Nat.modEq_zero_iff_dvd.mp ?_
    calc (PageEntry.mapped pages.bus ⟨0, (offsetInPage start).setWidth 32, _⟩).start +
          ((pageBytes - ((offsetInPage start).setWidth 32).setWidth 64).setWidth 32 : U32).toNat
      _ ≡ start.toNat % PAGE_SIZE + (PAGE_SIZE - start.toNat % PAGE_SIZE) [MOD PAGE_SIZE] := by
        refine ((hfirst _).trans (Nat.mod_modEq _ _).symm).add ?_
        rw [offset_setWidth, toNat_firstLength]
      _ = PAGE_SIZE := Nat.add_sub_cancel' hlt.le
      _ ≡ 0 [MOD PAGE_SIZE] := modEq_zero_of_dvd (dvd_refl _)
  · obtain rfl := Option.some.inj hes
    exact ⟨_, [], rfl, hfirst _, List.isChain_singleton _, fun d hd => nomatch hd⟩

/-! ## Blocks -/

section Blocks

variable {m : ℕ} {c : BuildArgs}

/-- The blocks of continuous entries are continuous. -/
theorem continuous_merge (hm : m ∣ 2 ^ 32) {contAddr : U64} {contLen : U32} {e : SgEntry}
    {rest : List SgEntry} (hopen : contAddr.toNat + contLen.toNat ≡ e.start [MOD m])
    (h : Continuous m (e :: rest)) :
    ∃ len bs, merge c contAddr contLen e rest = ⟨contAddr, len⟩ :: bs ∧
      Continuous m (⟨contAddr, len⟩ :: bs) := by
  induction rest generalizing contAddr contLen e with
  | nil => exact ⟨_, [], rfl, List.isChain_singleton _⟩
  | cons next rest ih =>
    obtain ⟨hcont, hrest⟩ := List.isChain_cons_cons.mp h
    -- the open block, grown by `e`, ends where the next entry begins
    have hgrown : contAddr.toNat + (contLen + e.len).toNat ≡ next.start [MOD m] := by
      calc contAddr.toNat + (contLen + e.len).toNat
        _ ≡ contAddr.toNat + (contLen.toNat + e.size) [MOD m] :=
          (toNat_add_modEq hm _ _).add_left _
        _ = contAddr.toNat + contLen.toNat + e.size := (Nat.add_assoc ..).symm
        _ ≡ e.start + e.size [MOD m] := hopen.add_right _
        _ ≡ next.start [MOD m] := hcont
    rw [merge]
    split
    · have hzero : next.addr.toNat + (0 : U32).toNat ≡ next.start [MOD m] := Nat.ModEq.refl _
      obtain ⟨len, bs, hmerge, hbs⟩ := ih hzero hrest
      rw [hmerge]
      exact ⟨_, _, rfl, List.isChain_cons_cons.mpr ⟨hgrown, hbs⟩⟩
    · exact ih hgrown hrest

/-- A block begins where one of the entries does, or where the open block did. -/
theorem start_merge {p : ℕ → Prop} {contAddr : U64} {contLen : U32} {e : SgEntry}
    {rest : List SgEntry} (hopen : p contAddr.toNat) (h : ∀ d ∈ rest, p d.start) :
    ∀ b ∈ merge c contAddr contLen e rest, p b.start := by
  induction rest generalizing contAddr contLen e with
  | nil => exact fun b hb => List.mem_singleton.mp hb ▸ hopen
  | cons next rest ih =>
    have hrest : ∀ d ∈ rest, p d.start := fun d hd => h d (List.mem_cons_of_mem _ hd)
    rw [merge]
    split
    · intro b hb
      rcases List.mem_cons.mp hb with rfl | hb
      · exact hopen
      · exact ih (h next List.mem_cons_self) hrest b hb
    · exact ih hopen hrest

end Blocks

/-! ## The constraint of the engine -/

/-- What an engine asks of a host address and the device address it is moved to or from. -/
structure AddrsAligned (a : EngineAlignment) (host device : U64) : Prop where
  incremental : a.streaming = false → a.nonIncrAddr = false →
    host.toNat ≡ device.toNat [MOD a.addrAlign.toNat]
  host : a.streaming = true ∨ a.nonIncrAddr = true → a.addrAlign.toNat ∣ host.toNat
  device : a.streaming = false → a.nonIncrAddr = true → a.addrAlign.toNat ∣ device.toNat

/-- A descriptor satisfies the constraint of its engine. -/
def DescAligned (a : EngineAlignment) (d : XdmaDesc) : Prop :=
  AddrsAligned a (d.hostAddr a.dirToDev) (d.epAddr a.dirToDev)

section Aligned

variable {a : EngineAlignment} {host device : U64}

/-- Both addresses may be moved on by whole units. -/
theorem AddrsAligned.add (h : AddrsAligned a host device) (hword : a.addrAlign.toNat ∣ 2 ^ 64)
    {len : U64} (hlen : a.addrAlign.toNat ∣ len.toNat) :
    AddrsAligned a (host + len) (device + len) := by
  have hkept (x : U64) : (x + len).toNat ≡ x.toNat [MOD a.addrAlign.toNat] :=
    (toNat_add_modEq hword x len).trans ((modEq_zero_of_dvd hlen).add_left _)
  have hdvd (x : U64) (hx : a.addrAlign.toNat ∣ x.toNat) : a.addrAlign.toNat ∣ (x + len).toNat :=
    (Nat.modEq_zero_iff_dvd).mp ((hkept x).trans (modEq_zero_of_dvd hx))
  exact ⟨fun hs hn => (hkept _).trans ((h.incremental hs hn).trans (hkept _).symm),
    fun hsn => hdvd _ (h.host hsn), fun hs hn => hdvd _ (h.device hs hn)⟩

/-- The low bits `check_transfer_align` looks at are a residue. -/
theorem toNat_lsb {k : ℕ} (halign : a.addrAlign.toNat = 2 ^ k) (hk : k ≤ 32) (x : U64) :
    (x.setWidth 32 &&& (a.addrAlign - 1)).toNat = x.toNat % a.addrAlign.toNat := by
  rw [toNat_and_sub_one _ halign, halign]
  exact toNat_setWidth_modEq (pow_dvd_pow 2 hk) x

/-- What `check_transfer_align` accepts satisfies the constraint. -/
theorem checkTransferAlign_ok {buf count pos : U64} {k : ℕ} (halign : a.addrAlign.toNat = 2 ^ k)
    (hk : k ≤ 32) (h : checkTransferAlign a buf count pos true = .ok ()) :
    AddrsAligned a buf pos := by
  have hbuf := toNat_lsb halign hk buf
  have hpos := toNat_lsb halign hk pos
  have hdvd (x : U64) (hx : x.setWidth 32 &&& (a.addrAlign - 1) = 0) :
      a.addrAlign.toNat ∣ x.toNat := by
    have hlsb := toNat_lsb halign hk x
    rw [hx] at hlsb
    exact Nat.dvd_of_mod_eq_zero hlsb.symm
  simp only [checkTransferAlign] at h
  split at h
  · next hmode =>
    split at h
    · cases h
    next hbuf0 =>
    split at h
    · cases h
    next hpos0 =>
    have hnot (hs : a.streaming = false) (hn : a.nonIncrAddr = false) : False := by
      simp [hs, hn] at hmode
    refine ⟨fun hs hn => (hnot hs hn).elim, fun _ => hdvd _ (not_not.mp hbuf0), fun hs _ => ?_⟩
    refine hdvd _ (not_not.mp fun hne => hpos0 ⟨?_, hne, trivial⟩)
    rw [hs]
    exact Bool.false_ne_true
  · next hmode =>
    split at h
    · cases h
    next heq =>
    refine ⟨fun _ _ => ?_, fun hsn => absurd hsn hmode, fun _ hn => absurd (.inr hn) hmode⟩
    rw [Nat.ModEq, ← hbuf, ← hpos, not_not.mp heq]

end Aligned

/-! ## Chunks -/

section Chunks

variable {a : EngineAlignment} {s s' : ReadWrite} {i : ChunkTurn}

/-- The loop goes on behind a full chunk only. -/
theorem ReadWrite.next_of_continues {p : Ptr} {state : TransferState} {rc : ℤ}
    (h : (s.next p state rc).call.Continues) :
    (s.next p state rc).call.transferLen = XDMA_TRANSFER_MAX_BYTES := by
  obtain ⟨hres, hremaining⟩ := h
  have hres : Call.outcome state rc = 0 := hres
  simp only [next, settle, queued, Call.settle, Call.queued, hres, ne_eq, not_true_eq_false,
    if_false] at hremaining ⊢
  rw [Call.chunk] at hremaining ⊢
  split at hremaining
  · next hlarge => rw [if_pos hlarge]
  · omega

/-- A turn of the loop keeps the constraint as long as the loop goes on. -/
theorem ReadWrite.next_aligned (hpage : a.addrAlign.toNat ∣ PAGE_SIZE) {p : Ptr}
    {state : TransferState} {rc : ℤ}
    (h : AddrsAligned a s.transferAddr (BitVec.ofInt 64 s.call.pos))
    (hgo : (s.next p state rc).call.Continues) :
    AddrsAligned a (s.next p state rc).transferAddr
      (BitVec.ofInt 64 (s.next p state rc).call.pos) := by
  have hlen := next_of_continues hgo
  have haddr : (s.next p state rc).transferAddr =
      s.transferAddr + BitVec.ofInt 64 (s.next p state rc).call.transferLen := rfl
  have hpos : (s.next p state rc).call.pos =
      s.call.pos + (s.next p state rc).call.transferLen := rfl
  rw [haddr, hpos, BitVec.ofInt_add, hlen]
  exact h.add (hpage.trans (by decide)) (hpage.trans (by decide))

/-- The descriptors of a chunk satisfy the constraint when its addresses do. -/
theorem nextTransfer_aligned (hpage : a.addrAlign.toNat ∣ PAGE_SIZE)
    (h : AddrsAligned a s.transferAddr (BitVec.ofInt 64 s.call.pos)) {x : BuiltTransfer}
    (hx : s.nextTransfer a i = some x) : ∀ k < x.descNum, DescAligned a (x.descVirt k) := by
  obtain ⟨sgl, hsgl, hcreate⟩ := Option.bind_eq_some_iff.mp hx
  obtain ⟨e, rest, rfl, hstart, hcont, hrest⟩ := mapUserPages_aligned hsgl
  obtain ⟨x', hx', hchain⟩ := transferCreate_isChain (c := a.buildArgs) i.mem i.descBus
    (BitVec.ofInt 64 s.call.pos) e rest
  obtain rfl := Option.some.inj (hcreate.symm.trans hx')
  have hword : a.addrAlign.toNat ∣ 2 ^ 64 := hpage.trans (by decide)
  have hzero : e.addr.toNat + (0 : U32).toNat ≡ e.start [MOD PAGE_SIZE] := Nat.ModEq.refl _
  obtain ⟨len, bs, hmerge, hbs⟩ :=
    continuous_merge (c := a.buildArgs) (by decide) hzero hcont
  have hstart := hstart.of_dvd hpage
  have hstarts (he : a.addrAlign.toNat ∣ e.start) :
      ∀ b ∈ merge a.buildArgs e.addr 0 e rest, a.addrAlign.toNat ∣ b.start :=
    start_merge he fun d hd => hpage.trans (hrest d hd)
  rw [hmerge] at hchain hstarts
  intro k hk
  rw [hchain.descNum] at hk
  have hlink := hchain.link k hk
  have hhost : (x.descVirt k).hostAddr a.dirToDev = ((⟨e.addr, len⟩ : SgEntry) :: bs)[k].addr :=
    hlink.host
  have hdevice := hlink.device.trans (advances_eq _ _)
  refine ⟨fun hs hn => ?_, fun hsn => ?_, fun hs hn => ?_⟩
  · have hnot : ¬ (a.buildArgs.userspace = true ∧ a.buildArgs.nonIncrAddr = true) :=
      fun hfixed => Bool.false_ne_true (hn.symm.trans hfixed.2)
    have hmoved := hdevice.trans (if_neg hnot)
    change (x.descVirt k).epAddr a.dirToDev = _ at hmoved
    rw [hhost, hmoved]
    generalize hsum : (((⟨e.addr, len⟩ : SgEntry) :: bs).take k |>.map fun b => b.len.toNat).sum = n
    have hsize := (modEq_getElem hbs hk).of_dvd hpage
    change _ ≡ e.start + (((_ :: bs).take k).map fun b => b.len.toNat).sum [MOD _] at hsize
    rw [hsum] at hsize
    calc ((⟨e.addr, len⟩ : SgEntry) :: bs)[k].addr.toNat
      _ ≡ e.start + n [MOD a.addrAlign.toNat] := hsize
      _ ≡ (BitVec.ofInt 64 s.call.pos).toNat + n [MOD a.addrAlign.toNat] :=
        (hstart.trans (h.incremental hs hn)).add_right _
      _ ≡ (BitVec.ofInt 64 s.call.pos).toNat + (BitVec.ofNat 64 n).toNat
          [MOD a.addrAlign.toNat] := by
        rw [BitVec.toNat_ofNat]
        exact ((Nat.mod_modEq n _).of_dvd hword).symm.add_left _
      _ ≡ (BitVec.ofInt 64 s.call.pos + BitVec.ofNat 64 n).toNat [MOD a.addrAlign.toNat] :=
        (toNat_add_modEq hword _ _).symm
  · have hdvd : a.addrAlign.toNat ∣ e.start := (hstart.dvd_iff (dvd_refl _)).mpr (h.host hsn)
    rw [hhost]
    exact hstarts hdvd _ (List.getElem_mem hk)
  · have hfixed : (x.descVirt k).epAddr a.dirToDev = BitVec.ofInt 64 s.call.pos :=
      hdevice.trans (if_pos ⟨rfl, hn⟩)
    rw [hfixed]
    exact h.device hs hn

end Chunks

/-- Every descriptor of every chunk `transfer_data` builds satisfies the constraint of an engine
whose alignment divides the size of a page, when `check_transfer_align` has accepted the
request. -/
theorem descs_aligned (a : EngineAlignment) (hpage : a.addrAlign.toNat ∣ PAGE_SIZE)
    (buf count pos : U64) (dirToDev : Bool) (s : ReadWrite)
    (hs : charSgdmaReadWrite a buf count pos dirToDev = .ok s) (is : List ChunkTurn) :
    Along (ReadWrite.step a) (fun s i _ => ∀ x, s.nextTransfer a i = some x →
      ∀ k < x.descNum, DescAligned a (x.descVirt k)) s is := by
  obtain ⟨k, hk, halign⟩ := (Nat.dvd_prime_pow Nat.prime_two).mp hpage
  refine along_of_step (C := fun _ _ _ => True)
    (fun s i s' (h : s.call.Continues →
      AddrsAligned a s.transferAddr (BitVec.ofInt 64 s.call.pos)) hstep _ => ?_) ?_
    (along_of_inputs fun _ _ _ _ => trivial)
  · obtain ⟨hgo, hstep⟩ := Option.ite_none_right_eq_some.mp hstep
    obtain ⟨x, -, rfl⟩ := Option.map_eq_some_iff.mp hstep
    exact ⟨fun hnext => ReadWrite.next_aligned hpage (h hgo) hnext,
      fun x hx => nextTransfer_aligned hpage (h hgo) hx⟩
  · intro _
    unfold charSgdmaReadWrite at hs
    split at hs
    · cases hs
    obtain ⟨⟨⟩, hcheck, rfl⟩ := Except.map_eq_ok hs
    have hk32 : k ≤ 32 := hk.trans (by decide)
    have hentry := checkTransferAlign_ok halign hk32 hcheck
    rw [← BitVec.ofInt_toInt (x := pos)] at hentry
    exact hentry

/-- A memory-mapped engine that wants words of 8 bytes. -/
def alignedTo8 : EngineAlignment :=
  ⟨true, false, false, 8, 1⟩

/-- Two pages that do not adjoin, pinned. -/
def pinnedPair : PinnedPages where
  rc := 2
  bus i := if i = 0 then 0x200000 else 0x400000
  aligned i := by split <;> decide

/-- A page and a half, three bytes behind a word in the buffer and in the device alike. -/
theorem descs_aligned_pair : Along (ReadWrite.step alignedTo8)
    (fun s i _ => ∀ x, s.nextTransfer alignedTo8 i = some x →
      ∀ k < x.descNum, DescAligned alignedTo8 (x.descVirt k)) ⟨.enter 6144 11, 0x1003⟩
    [⟨pinnedPair, fun _ => ⟨0, 0, 0, 0, 0, 0, 0, 0⟩, 0x30000000, .completed, 0⟩] :=
  descs_aligned alignedTo8 (by decide) 0x1003 6144 11 true _ rfl _

end Wimi
