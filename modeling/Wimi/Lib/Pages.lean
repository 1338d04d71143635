import Wimi.Lib.Moves
import Wimi.Lib.Stream

/-!
# Pages that are written in turn

A memory with `n` pages of `len` cells, of which no two are the same, and blocks that are put on one
page after the other, round and round. Cell `i` of page `p` is at `addr p i`.

`Shows.put` : every block put on a page less than a round ago is still there.
-/

namespace Pages

open Moves Circular

variable {β γ : Type*} {n len : ℕ} {addr : ℕ → ℕ → β}

/-- No cell is on a page twice, or on two pages. -/
def Apart (n len : ℕ) (addr : ℕ → ℕ → β) : Prop :=
  ∀ p < n, ∀ q < n, ∀ i < len, ∀ j < len, addr p i = addr q j → p = q ∧ i = j

/-- The cells of a page, in order. -/
def cells (len : ℕ) (addr : ℕ → ℕ → β) (p : ℕ) : List β :=
  (List.range len).map (addr p)

theorem Apart.nodup_cells (h : Apart n len addr) {p : ℕ} (hp : p < n) :
    (cells len addr p).Nodup := by
  refine (List.nodup_map_iff_inj_on List.nodup_range).mpr fun i hi j hj heq => ?_
  exact (h p hp p hp i (List.mem_range.mp hi) j (List.mem_range.mp hj) heq).2

/-- The memory has every block that was put on a page less than a round ago, and is as at the start
on the pages that are not used yet. -/
structure Shows (n len : ℕ) (addr : ℕ → ℕ → β) (start mem : β → γ) (blocks : List (List γ)) :
    Prop where
  fits : ∀ block ∈ blocks, block.length ≤ len
  block : ∀ b block, blocks[b]? = some block → blocks.length ≤ b + n →
    ∀ i w, block[i]? = some w → mem (addr (b % n) i) = w
  unused : ∀ p < n, blocks.length ≤ p → ∀ i < len, mem (addr p i) = start (addr p i)

theorem shows_nil (mem : β → γ) : Shows n len addr mem mem [] where
  fits _ h := absurd h List.not_mem_nil
  block _ _ h := by cases h
  unused _ _ _ _ _ := rfl

/-- What is written off the pages is of no account. -/
theorem Shows.congr {start mem mem' : β → γ} {blocks : List (List γ)}
    (h : Shows n len addr start mem blocks)
    (hsame : ∀ p < n, ∀ i < len, mem' (addr p i) = mem (addr p i)) :
    Shows n len addr start mem' blocks where
  fits := h.fits
  block b block hb hround i w hw := by
    have hfits := h.fits block (List.mem_of_getElem? hb)
    have hi := (List.getElem?_eq_some_iff.mp hw).1.trans_le hfits
    rcases Nat.eq_zero_or_pos n with rfl | hn
    · -- without pages no block is less than a round old
      have := (List.getElem?_eq_some_iff.mp hb).1
      omega
    · exact (hsame _ (Nat.mod_lt b hn) i hi).trans (h.block b block hb hround i w hw)
  unused p hp hle i hi := (hsame p hp i hi).trans (h.unused p hp hle i hi)

variable [DecidableEq β]

/-- The memory behind a block that is put on page `p`. -/
def put (len : ℕ) (addr : ℕ → ℕ → β) (p : ℕ) (block : List γ) (mem : β → γ) : β → γ :=
  move id (block.zip (cells len addr p)) mem

variable {p : ℕ} {block : List γ} {mem : β → γ}

/-- What is not on the page stays. -/
theorem put_of_ne {a : β} (h : ∀ i < len, addr p i ≠ a) : put len addr p block mem a = mem a := by
  refine move_zip_of_not_mem fun hmem => ?_
  obtain ⟨i, hi, rfl⟩ := List.mem_map.mp hmem
  exact h i (List.mem_range.mp hi) rfl

/-- The page holds the block from its first cell on. -/
theorem put_cell (h : Apart n len addr) (hp : p < n) (hlen : block.length ≤ len) {i : ℕ} {w : γ}
    (hw : block[i]? = some w) : put len addr p block mem (addr p i) = w := by
  obtain ⟨hi, rfl⟩ := List.getElem?_eq_some_iff.mp hw
  have hmin : min block.length (cells len addr p).length = block.length := by
    rw [cells, List.length_map, List.length_range, min_eq_left hlen]
  have hfirst : i < ((cells len addr p).take block.length).length := by
    rw [List.length_take, hmin]
    exact hi
  have hcell : ((cells len addr p).take block.length)[i] = addr p i := by simp [cells]
  have hnodup := (h.nodup_cells hp).sublist (List.take_sublist block.length _)
  rw [Pages.put, List.zip_eq_zip_take_min, hmin, List.take_length, ← hcell]
  exact move_zip id mem hnodup (by rw [List.length_take, hmin]) hi hfirst

/-- A block more, on the next page. -/
theorem Shows.put {start : β → γ} {blocks : List (List γ)}
    (h : Shows n len addr start mem blocks) (hapart : Apart n len addr) (hn : 0 < n)
    (hlen : block.length ≤ len) :
    Shows n len addr start (Pages.put len addr (blocks.length % n) block mem)
      (blocks ++ [block]) := by
  have hpage (b : ℕ) : b % n < n := Nat.mod_lt b hn
  refine ⟨fun c hc => ?_, fun b c hb hround i w hw => ?_, fun p hp hle i hi => ?_⟩
  · rcases List.mem_append.mp hc with hc | hc
    · exact h.fits c hc
    · exact List.mem_singleton.mp hc ▸ hlen
  · rw [List.length_append, List.length_singleton] at hround
    rcases Nat.lt_trichotomy b blocks.length with hold | rfl | hnew
    · rw [List.getElem?_append_left hold] at hb
      have hi : i < len := (List.getElem?_eq_some_iff.mp hw).1.trans_le
        (h.fits c (List.mem_of_getElem? hb))
      refine (put_of_ne fun j hj heq => ?_).trans (h.block b c hb (by omega) i w hw)
      -- less than a round behind, the block is on a page of its own
      exact mod_ne hold (by omega) (hapart _ (hpage _) _ (hpage _) j hj i hi heq).1
    · rw [List.getElem?_concat_length] at hb
      obtain rfl := Option.some.inj hb
      exact put_cell hapart (hpage _) hlen hw
    · rw [List.getElem?_eq_none (by simpa using hnew)] at hb
      cases hb
  · rw [List.length_append, List.length_singleton] at hle
    refine (put_of_ne fun j hj heq => ?_).trans (h.unused p hp (by omega) i hi)
    have hsame := (hapart _ (hpage _) p hp j hj i hi heq).1
    rw [Nat.mod_eq_of_lt (by omega)] at hsame
    omega

end Pages
