import Wimi.TransferBuild

/-!
# Bounds of a chain

The turns of the loop of `transfer_build`, each with the state in which it adds its entry to the
open block. The test that closes a block comes behind the addition and only where the next entry
adjoins it, so what a turn relies on is `MergeOk` : the open block leaves room for another page.

`desc_bounds` : no addition wraps, every descriptor is of a length the engine can move, and nothing
is written behind the table.
-/

namespace Wimi

variable {c : BuildArgs}

/-! ## Turns -/

/-- The turns of `transfer_build` from entry `e` on : the state before each, and its entry. -/
def turnsFrom (c : BuildArgs) (s : BuildState) (e : SgEntry) :
    List SgEntry → List (BuildState × SgEntry)
  | [] => [(s, e)]
  | next :: rest => (s, e) :: turnsFrom c (buildStep c s e next) next rest

/-- The turns of `transfer_build`. -/
def turns (c : BuildArgs) (descVirt : DescTable) (epAddr : U64) :
    List SgEntry → List (BuildState × SgEntry)
  | [] => []
  | e :: rest => turnsFrom c ⟨descVirt, 0, epAddr, e.addr, 0⟩ e rest

/-- A turn opens a block or goes on with the one it has. -/
theorem buildStep_cases (s : BuildState) (e next : SgEntry) :
    c.newDesc (s.contLen + e.len) e next = true ∧ (buildStep c s e next).j = s.j + 1 ∧
        (buildStep c s e next).contAddr = next.addr ∧ (buildStep c s e next).contLen = 0 ∨
      c.newDesc (s.contLen + e.len) e next = false ∧ (buildStep c s e next).j = s.j ∧
        (buildStep c s e next).contAddr = s.contAddr ∧
        (buildStep c s e next).contLen = s.contLen + e.len := by
  rw [buildStep]
  split
  · next hnew => exact .inl ⟨hnew, rfl, rfl, rfl⟩
  · next hnew => exact .inr ⟨by simpa using hnew, rfl, rfl, rfl⟩

/-- The next turn finds its block as this one did. -/
theorem MergeOk.buildStep {s : BuildState} {e next : SgEntry} {rest : List SgEntry}
    (h : MergeOk c s.contAddr s.contLen e (next :: rest)) :
    MergeOk c (buildStep c s e next).contAddr (buildStep c s e next).contLen next rest := by
  rcases buildStep_cases (c := c) s e next with ⟨-, -, haddr, hlen⟩ | ⟨hold, -, haddr, hlen⟩
  · rw [haddr, hlen]
    exact h.of_new
  · rw [haddr, hlen]
    exact h.of_not_new hold

/-! ## Bounds -/

/-- The length of the open block does not wrap. -/
theorem MergeOk.not_wraps {contAddr : U64} {contLen : U32} {e : SgEntry} {rest : List SgEntry}
    (h : MergeOk c contAddr contLen e rest) : contLen.toNat + e.len.toNat < 2 ^ 32 := by
  rw [← h.toNat_add.1]
  exact (contLen + e.len).isLt

/-- No turn wraps the length of its block. -/
theorem turnsFrom_contLen {s : BuildState} {e : SgEntry} {rest : List SgEntry}
    (h : MergeOk c s.contAddr s.contLen e rest) :
    ∀ turn ∈ turnsFrom c s e rest, turn.1.contLen.toNat + turn.2.len.toNat < 2 ^ 32 := by
  induction rest generalizing s e with
  | nil => simpa [turnsFrom] using h.not_wraps
  | cons next rest ih =>
    intro turn hturn
    rcases List.mem_cons.mp hturn with rfl | hturn
    · exact h.not_wraps
    · exact ih h.buildStep turn hturn

/-- A turn writes no descriptor behind that of its entry. -/
theorem turnsFrom_index (s : BuildState) (e : SgEntry) (rest : List SgEntry) :
    ∀ turn ∈ turnsFrom c s e rest, turn.1.j ≤ s.j + rest.length := by
  induction rest generalizing s e with
  | nil => simp [turnsFrom]
  | cons next rest ih =>
    intro turn hturn
    rw [List.length_cons]
    rcases List.mem_cons.mp hturn with rfl | hturn
    · exact Nat.le_add_right _ _
    · have := ih (buildStep c s e next) next turn hturn
      have := buildStep_cases (c := c) s e next
      omega

/-- A chain from a mapped scatterlist : no turn wraps the length of its block or writes behind the
table of one descriptor an entry; the loop does not run into its `BUG_ON`; and every descriptor it
fills is of at least a byte and at most what one descriptor can move. -/
theorem desc_bounds (c : BuildArgs) (hpage : c.pageSize.toNat ≤ XDMA_DESC_MAX_BYTES.toNat)
    (t : DescTable) (epAddr : U64) (sgl : Sgl c.pageSize) :
    (∀ turn ∈ turns c t epAddr sgl.entries,
      turn.1.contLen.toNat + turn.2.len.toNat < 2 ^ 32 ∧ turn.1.j < sgl.entries.length) ∧
    ∃ t' last, transferBuild c t epAddr sgl.entries = some (t', last) ∧
      last < sgl.entries.length ∧
      (∀ k ≤ last, 1 ≤ (t' k).bytes.toNat ∧ (t' k).bytes.toNat ≤ XDMA_DESC_MAX_BYTES.toNat) ∧
      ∀ k > last, t' k = t k := by
  obtain ⟨entries, hne, -, hpos, hle⟩ := sgl
  obtain ⟨e, rest, rfl⟩ := List.exists_cons_of_ne_nil hne
  have hok : MergeOk c e.addr 0 e rest := ⟨hpage, by simp, by simpa using hpage, hpos, hle⟩
  have hlen := length_merge (c := c) e.addr 0 e rest
  refine ⟨fun turn hturn => ⟨turnsFrom_contLen hok turn hturn, ?_⟩, _, _,
    transferBuild_eq t epAddr e rest, ?_, fun k hk => ?_, fun k hk => ?_⟩
  · have := turnsFrom_index _ e rest turn hturn
    simp only [List.length_cons, Nat.zero_add] at this ⊢
    omega
  · simp only [List.length_cons]
    omega
  · have hblock : k < (merge c e.addr 0 e rest).length := by omega
    have hget := writeBlocks_get (c := c) t 0 epAddr (merge c e.addr 0 e rest) hblock
    rw [Nat.zero_add] at hget
    rw [hget, bytes_xdmaDescSet]
    exact len_merge hok _ (List.getElem_mem hblock)
  · exact writeBlocks_outside t 0 epAddr _ (Or.inr (by omega))

theorem desc_bounds_two_pages :
    ∃ t' last, transferBuild ⟨4096, true, false, false, true⟩ (fun _ => ⟨0, 0, 0, 0, 0, 0, 0, 0⟩)
      0 twoPages.entries = some (t', last) ∧ last < 2 ∧
      ∀ k ≤ last, 1 ≤ (t' k).bytes.toNat ∧ (t' k).bytes.toNat ≤ XDMA_DESC_MAX_BYTES.toNat := by
  obtain ⟨-, t', last, hbuild, hlast, hbytes, -⟩ := desc_bounds ⟨4096, true, false, false, true⟩
    (by decide) (fun _ => ⟨0, 0, 0, 0, 0, 0, 0, 0⟩) 0 twoPages
  exact ⟨t', last, hbuild, hlast, hbytes⟩

end Wimi
