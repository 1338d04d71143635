import Mathlib

/-!
# Ideal FIFO between two ports of different width

`Fifo α` counts in words of the narrower port : the words written since the last reset,
oldest first, and how many of them have been read; a read never passes a write. The wider
port moves several words at once.

`pairs` groups a sequence of narrow words two by two, as the wide port of a 1:2 FIFO
reads them. Pairs of a prefix are a prefix of the pairs, and an even prefix followed by
the next two words is one more pair (`pairs_append_pair`).
-/

/-- The words written, and the number of them read. -/
@[ext]
structure Fifo (α : Type*) where
  /-- Words written since reset, oldest first. -/
  written : List α
  /-- Words read since reset. -/
  taken : ℕ
  le : taken ≤ written.length

namespace Fifo

variable {α β : Type*}

/-- The FIFO after reset. -/
def empty : Fifo α :=
  ⟨[], 0, Nat.le_refl 0⟩

/-- The words written and not yet read, oldest first. -/
def stored (f : Fifo α) : List α :=
  f.written.drop f.taken

/-- At least `k` words are there to be read. -/
abbrev Holds (f : Fifo α) (k : ℕ) : Prop :=
  f.taken + k ≤ f.written.length

/-- Write `ws` behind what is stored. -/
def push (f : Fifo α) (ws : List α) : Fifo α where
  written := f.written ++ ws
  taken := f.taken
  le := by simpa using Nat.le_add_right_of_le f.le

/-- Read the next `k` words. -/
def pop (f : Fifo α) (k : ℕ) (h : f.Holds k) : Fifo α where
  written := f.written
  taken := f.taken + k
  le := h

@[simp] theorem written_push (f : Fifo α) (ws : List α) :
    (f.push ws).written = f.written ++ ws :=
  rfl

@[simp] theorem taken_pop (f : Fifo α) (k : ℕ) (h : f.Holds k) :
    (f.pop k h).taken = f.taken + k :=
  rfl

@[simp] theorem stored_push (f : Fifo α) (ws : List α) : (f.push ws).stored = f.stored ++ ws :=
  List.drop_append_of_le_length f.le

theorem Holds.push {f : Fifo α} {k : ℕ} (h : f.Holds k) (ws : List α) : (f.push ws).Holds k := by
  simp only [Holds, written_push, List.length_append]
  exact Nat.le_add_right_of_le h

theorem Holds.le_length {f : Fifo α} {k : ℕ} (h : f.Holds k) : k ≤ f.stored.length := by
  rw [stored, List.length_drop]
  exact Nat.le_sub_of_add_le' h

/-- A prefix of the words to send stays one when the next word is sent. -/
theorem sent_prefix {sent ws : List α} {w : α} (h : sent <+: ws)
    (hw : ws[sent.length]? = some w) : sent ++ [w] <+: ws := by
  obtain ⟨rest, rfl⟩ := h
  cases rest with
  | nil => simp at hw
  | cons a rest =>
    obtain rfl : a = w := by simpa using hw
    exact ⟨rest, by simp⟩

/-- Consecutive words two by two; a last odd word is left out. -/
def pairs : List α → List (α × α)
  | a :: b :: l => (a, b) :: pairs l
  | _ => []

@[simp] theorem pairs_nil : pairs ([] : List α) = [] :=
  rfl

/-- Two words behind an even number of words are one more pair. -/
theorem pairs_append_pair (a b : α) :
    ∀ l : List α, l.length % 2 = 0 → pairs (l ++ [a, b]) = pairs l ++ [(a, b)]
  | [], _ => rfl
  | [_], h => by simp at h
  | _ :: _ :: l, h => by
    have hl : l.length % 2 = 0 := by simp only [List.length_cons] at h; omega
    simp only [List.cons_append, pairs, pairs_append_pair a b l hl]

theorem pairs_prefix : ∀ {l m : List α}, l <+: m → pairs l <+: pairs m
  | [], _, _ => List.nil_prefix
  | [_], _, _ => List.nil_prefix
  | a :: b :: l, m, h => by
    obtain ⟨r, rfl⟩ := h
    simp only [List.cons_append, pairs, List.prefix_cons_inj]
    exact pairs_prefix (List.prefix_append l r)

theorem pairs_map (f : α → β) : ∀ l : List α, pairs (l.map f) = (pairs l).map (Prod.map f f)
  | [] => rfl
  | [_] => rfl
  | _ :: _ :: l => by simp only [List.map_cons, pairs, pairs_map f l, Prod.map]

end Fifo
