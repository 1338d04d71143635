import Wimi.ChunkedRequests

/-!
# Fixed device addresses

A memory-mapped engine with `non_incr_addr` set. `transfer_build` leaves the device address where
it is, but `transfer_data` moves `*pos` on and gives each chunk a new one.

`fixedAddress_iff` : every descriptor addresses the position the request came with exactly when
the request does not reach a second chunk.
-/

open Machine

namespace Wimi

section Chunks

variable {a : EngineAlignment} {s : ReadWrite} {i : ChunkTurn}

/-- A chunk has descriptors when its pages are all pinned. -/
theorem nextTransfer_isSome (h : s.call.Continues) : (s.nextTransfer a i).isSome ↔
    PinnedWhole i.pages s.transferAddr (BitVec.ofInt 64 s.call.chunk) := by
  obtain ⟨hcount, hmax⟩ := ReadWrite.chunk_bounds h
  rw [← mapUserPages_isSome hcount hmax, ReadWrite.nextTransfer, ReadWrite.transfer]
  rcases hsgl : mapUserPages i.pages s.transferAddr (BitVec.ofInt 64 s.call.chunk) with _ | sgl
  · rfl
  · obtain ⟨e, rest, rfl, -⟩ := mapUserPages_aligned hsgl
    obtain ⟨x, hx, -⟩ := transferCreate_isChain (c := a.buildArgs) i.mem i.descBus
      (BitVec.ofInt 64 s.call.pos) e rest
    simp [hx]

/-- Its descriptors all address the position it starts from. -/
theorem nextTransfer_epAddr (hfixed : a.nonIncrAddr = true) {x : BuiltTransfer}
    (hx : s.nextTransfer a i = some x) :
    0 < x.descNum ∧ ∀ k < x.descNum, (x.descVirt k).epAddr a.dirToDev = s.filePos := by
  obtain ⟨sgl, hsgl, hcreate⟩ := Option.bind_eq_some_iff.mp hx
  obtain ⟨e, rest, rfl, -⟩ := mapUserPages_aligned hsgl
  obtain ⟨x', hx', hchain⟩ := transferCreate_isChain (c := a.buildArgs) i.mem i.descBus
    (BitVec.ofInt 64 s.call.pos) e rest
  obtain rfl := Option.some.inj (hcreate.symm.trans hx')
  rw [hchain.descNum]
  refine ⟨(length_merge (c := a.buildArgs) e.addr 0 e rest).1, fun k hk => ?_⟩
  exact ((hchain.link k hk).device.trans (advances_eq _ _)).trans (if_pos ⟨rfl, hfixed⟩)

end Chunks

/-! ## Two chunks -/

section Second

/-- A request of `count` bytes at `buf` reaches a second chunk : it is larger than a chunk, the
first has its pages pinned and ends without an error, and the second has its pages pinned. -/
def ReachesSecond (buf count : U64) : List ChunkTurn → Prop
  | i :: j :: _ =>
    XDMA_TRANSFER_MAX_BYTES < count.toInt ∧
      PinnedWhole i.pages buf (BitVec.ofInt 64 XDMA_TRANSFER_MAX_BYTES) ∧
      (i.state = .completed ∨ i.state = .submitted ∧ i.rc = 0) ∧
      PinnedWhole j.pages (buf + BitVec.ofInt 64 XDMA_TRANSFER_MAX_BYTES)
        (BitVec.ofInt 64 (min XDMA_TRANSFER_MAX_BYTES (count.toInt - XDMA_TRANSFER_MAX_BYTES)))
  | _ => False

/-- Every descriptor built along the run addresses `pos`. -/
def AddressesOnly (a : EngineAlignment) (pos : U64) (s : ReadWrite) (is : List ChunkTurn) : Prop :=
  Along (ReadWrite.step a) (fun s i _ => ∀ x, s.nextTransfer a i = some x →
    ∀ k < x.descNum, (x.descVirt k).epAddr a.dirToDev = pos) s is

variable {a : EngineAlignment} {buf count pos : U64} {dirToDev : Bool} {s : ReadWrite}

/-- A turn of the loop, by the pages that are pinned for its chunk. -/
theorem step_iff {i : ChunkTurn} {s' : ReadWrite} : ReadWrite.step a s i = some s' ↔
    s.call.Continues ∧ PinnedWhole i.pages s.transferAddr (BitVec.ofInt 64 s.call.chunk) ∧
      s' = s.next 0 i.state i.rc := by
  rw [ReadWrite.step, Option.ite_none_right_eq_some]
  refine and_congr_right fun hgo => ?_
  rw [← nextTransfer_isSome (a := a) hgo, Option.map_eq_some_iff, Option.isSome_iff_exists]
  exact ⟨fun ⟨x, hx, h⟩ => ⟨⟨x, hx⟩, h.symm⟩, fun ⟨⟨x, hx⟩, h⟩ => ⟨x, hx, h.symm⟩⟩

/-- The loop goes on behind a chunk that ends without an error and is not the last. -/
theorem next_continues {i : ChunkTurn} : (s.next 0 i.state i.rc).call.Continues ↔
    Call.outcome i.state i.rc = 0 ∧ XDMA_TRANSFER_MAX_BYTES < s.call.remaining := by
  by_cases hres : Call.outcome i.state i.rc = 0
  · obtain ⟨hremaining, hzero, -⟩ := ReadWrite.next_completed (s := s)
    rw [ReadWrite.next_of_outcome hres, Call.Continues, hremaining, hzero, Call.chunk_eq_min]
    have hmax : 0 < XDMA_TRANSFER_MAX_BYTES := by decide
    simp only [hres, true_and, gt_iff_lt, sub_pos, min_lt_iff, lt_self_iff_false, or_false]
  · exact iff_of_false (fun hgo => hres hgo.1) fun h => hres h.1

variable (buf pos) in
/-- What the loop goes on with behind a first chunk that is not the last. -/
theorem past_first (hlarge : XDMA_TRANSFER_MAX_BYTES < count.toInt) :
    (Call.enter count.toInt pos.toInt).chunk = XDMA_TRANSFER_MAX_BYTES ∧
      ∀ state rc, Call.outcome state rc = 0 →
        let s := ReadWrite.next ⟨.enter count.toInt pos.toInt, buf⟩ 0 state rc
        s.transferAddr = buf + BitVec.ofInt 64 XDMA_TRANSFER_MAX_BYTES ∧
          s.call.chunk = min XDMA_TRANSFER_MAX_BYTES (count.toInt - XDMA_TRANSFER_MAX_BYTES) ∧
          s.filePos = pos + BitVec.ofInt 64 XDMA_TRANSFER_MAX_BYTES := by
  have hchunk : (Call.enter count.toInt pos.toInt).chunk = XDMA_TRANSFER_MAX_BYTES :=
    (Call.chunk_eq_min _).trans (min_eq_left hlarge.le)
  refine ⟨hchunk, fun state rc hres => ?_⟩
  obtain ⟨hremaining, -, -, hpos, haddr⟩ :=
    ReadWrite.next_completed (s := ⟨.enter count.toInt pos.toInt, buf⟩)
  rw [ReadWrite.next_of_outcome hres]
  refine ⟨haddr.trans ?_, (Call.chunk_eq_min _).trans ?_, (congrArg _ hpos).trans ?_⟩
  · rw [hchunk]
  · rw [hremaining, hchunk]
    rfl
  · rw [BitVec.ofInt_add, hchunk, ← BitVec.ofInt_toInt (x := pos)]
    simp only [Call.enter, BitVec.ofInt_toInt]

variable (a pos) in
/-- A chunk behind another is built just when the request reaches it. -/
theorem second_iff {i j : ChunkTurn} {is : List ChunkTurn} :
    ReachesSecond buf count (i :: j :: is) ↔
      ∃ s₁ s₂, ReadWrite.step a ⟨.enter count.toInt pos.toInt, buf⟩ i = some s₁ ∧
        ReadWrite.step a s₁ j = some s₂ := by
  have hmax : 0 < XDMA_TRANSFER_MAX_BYTES := by decide
  simp only [step_iff, ReachesSecond, ← Call.outcome_eq_zero]
  constructor
  · rintro ⟨hlarge, hfirst, hres, hsecond⟩
    obtain ⟨hchunk, hnext⟩ := past_first buf pos hlarge
    obtain ⟨haddr, hlen, -⟩ := hnext _ _ hres
    refine ⟨_, _, ⟨⟨rfl, hmax.trans hlarge⟩, ?_, rfl⟩, next_continues.mpr ⟨hres, hlarge⟩, ?_, rfl⟩
    · rw [hchunk]
      exact hfirst
    · rw [haddr, hlen]
      exact hsecond
  · rintro ⟨s₁, s₂, ⟨-, hfirst, rfl⟩, hgo, hsecond, -⟩
    obtain ⟨hres, hlarge⟩ := next_continues.mp hgo
    obtain ⟨hchunk, hnext⟩ := past_first buf pos hlarge
    obtain ⟨haddr, hlen, -⟩ := hnext _ _ hres
    rw [hchunk] at hfirst
    rw [haddr, hlen] at hsecond
    exact ⟨hlarge, hfirst, hres, hsecond⟩

/-- The second chunk is at another device address. -/
theorem not_addressesOnly_of_second (hfixed : a.nonIncrAddr = true) {is : List ChunkTurn}
    (h : ReachesSecond buf count is) :
    ¬ AddressesOnly a pos ⟨.enter count.toInt pos.toInt, buf⟩ is := by
  intro honly
  match is, h with
  | i :: j :: is, h =>
    obtain ⟨s₁, s₂, hfirst, hsecond⟩ := (second_iff a pos).mp h
    obtain ⟨hx, -⟩ := (honly s₁ hfirst).2 s₂ hsecond
    obtain ⟨-, -, rfl⟩ := step_iff.mp hfirst
    obtain ⟨x, hbuilt, -⟩ := Option.map_eq_some_iff.mp
      (Option.ite_none_right_eq_some.mp hsecond).2
    obtain ⟨hone, haddr⟩ := nextTransfer_epAddr hfixed hbuilt
    obtain ⟨hlarge, -, hres, -⟩ := h
    obtain ⟨-, -, hpos⟩ :=
      (past_first buf pos hlarge).2 _ _ (Call.outcome_eq_zero.mpr hres)
    have hmoved : pos + BitVec.ofInt 64 XDMA_TRANSFER_MAX_BYTES = pos :=
      hpos.symm.trans ((haddr 0 hone).symm.trans (hx x hbuilt 0 hone))
    exact absurd (BitVec.self_eq_add_right.mp hmoved.symm) (by decide)

/-- Before a second chunk every descriptor addresses the position of the request. -/
theorem addressesOnly_of_not_second (hfixed : a.nonIncrAddr = true) {is : List ChunkTurn}
    (h : ¬ ReachesSecond buf count is) :
    AddressesOnly a pos ⟨.enter count.toInt pos.toInt, buf⟩ is := by
  cases is with
  | nil => trivial
  | cons i is =>
    intro s₁ hfirst
    refine ⟨fun x hx k hk => ?_, ?_⟩
    · exact ((nextTransfer_epAddr hfixed hx).2 k hk).trans (BitVec.ofInt_toInt)
    · cases is with
      | nil => trivial
      | cons j is =>
        exact fun s₂ hsecond => absurd ((second_iff a pos).mpr ⟨s₁, s₂, hfirst, hsecond⟩) h

end Second

/-- On an engine with `non_incr_addr` set, every descriptor of every chunk addresses the position
the request came with exactly when the request does not reach a second chunk. -/
theorem fixedAddress_iff (a : EngineAlignment) (hfixed : a.nonIncrAddr = true)
    (buf count pos : U64) (dirToDev : Bool) (s : ReadWrite)
    (hs : charSgdmaReadWrite a buf count pos dirToDev = .ok s) (is : List ChunkTurn) :
    AddressesOnly a pos s is ↔ ¬ ReachesSecond buf count is := by
  rw [charSgdmaReadWrite_ok hs]
  exact ⟨fun honly h => not_addressesOnly_of_second hfixed h honly,
    addressesOnly_of_not_second hfixed⟩

/-- A memory-mapped engine in non-incremental mode. -/
def fixedEngine : EngineAlignment :=
  ⟨true, false, true, 1, 1⟩

/-- A turn with `n` pages pinned, whose transfer completes. -/
def completedTurn (n : ℤ) : ChunkTurn where
  pages := .same n
  mem _ := ⟨0, 0, 0, 0, 0, 0, 0, 0⟩
  descBus := 0x30000000
  state := .completed
  rc := 0

theorem fixedAddress_iff_page : AddressesOnly fixedEngine 64 ⟨.enter 4096 64, 0x1000⟩
    [completedTurn 1] ↔ ¬ ReachesSecond 0x1000 4096 [completedTurn 1] :=
  fixedAddress_iff fixedEngine rfl 0x1000 4096 64 true _ rfl _

/-- A page more than a chunk. -/
theorem not_fixedAddress : ¬ ∀ a : EngineAlignment, a.streaming = false → a.nonIncrAddr = true →
    ∀ buf count pos dirToDev s, charSgdmaReadWrite a buf count pos dirToDev = .ok s →
      ∀ is, AddressesOnly a pos s is := by
  intro h
  have hsecond : ReachesSecond 0x1000 0x801000 [completedTurn 2048, completedTurn 1] := by
    refine ⟨by decide, ⟨by decide, by decide⟩, .inl rfl, ⟨by decide, by decide⟩⟩
  exact not_addressesOnly_of_second rfl hsecond
    (h fixedEngine rfl rfl 0x1000 0x801000 64 true _ rfl _)

end Wimi
