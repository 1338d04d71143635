import Mathlib

/-!
# Scanners with a running index

A scanner reads its input item by item, each at the running index, which it moves on, and can
fail. Since every read is at the running index, the index at the end says what was read : a scan
from `m` that ends at `n` has read the indices from `m` to `n`.

`ok_bind` takes a scan apart that succeeds. `Advances k` says that a scanner that succeeds has
read at most `k` items, and none backwards. `Ends E Q` is its weakest precondition, for failures
that end with `E` and a success that ends with `Q`. `Shows data m as` says that the items `as`
stand at `m`, which is what a scan that returns them has read (`yields_take`).
-/

namespace Scanner

variable {ω α β ι : Type}

/-- The failures are `ω`, the state is the running index. -/
abbrev Scan (ω α : Type) := EStateM ω ℕ α

/-- Read the next item. -/
def next (data : ℕ → ι) : Scan ω ι :=
  fun n => .ok (data n) (n + 1)

/-- Read the next `k` items. -/
def take (data : ℕ → ι) : ℕ → Scan ω (List ι)
  | 0 => pure []
  | k + 1 => do
    let a ← next data
    let as ← take data k
    return a :: as

/-- The running index. -/
def index : Scan ω ℕ :=
  fun n => .ok n n

/-- Fail with `e` unless `c` holds. -/
def require (c : Prop) [Decidable c] (e : ω) : Scan ω Unit :=
  if c then pure () else throw e

/-- The scanner has succeeded at `n` with `a`, having started at `m`. -/
def Yields (x : Scan ω α) (m : ℕ) (a : α) (n : ℕ) : Prop :=
  x m = .ok a n

/-- What a scan from the start yields, if it succeeds. -/
def result (x : Scan ω α) : Option (α × ℕ) :=
  match x 0 with
  | .ok a n => some (a, n)
  | .error _ _ => none

theorem result_eq_some {x : Scan ω α} {a : α} {n : ℕ} :
    result x = some (a, n) ↔ Yields x 0 a n := by
  rw [result, Yields]
  cases x 0 with
  | ok b m => simp
  | error e m => simp

@[simp] theorem yields_pure {a b : α} {m n : ℕ} :
    Yields (pure a : Scan ω α) m b n ↔ a = b ∧ m = n := by
  simp [Yields, pure, EStateM.pure]

/-- A scan that succeeds has succeeded at each of its parts. -/
theorem ok_bind {x : Scan ω α} {f : α → Scan ω β} {m n : ℕ} {b : β} :
    Yields (x >>= f) m b n ↔ ∃ a k, Yields x m a k ∧ Yields (f a) k b n := by
  simp only [Yields, bind, EStateM.bind]
  cases x m with
  | ok a k => simp
  | error e k => simp

@[simp] theorem yields_next {data : ℕ → ι} {m n : ℕ} {a : ι} :
    Yields (next data : Scan ω ι) m a n ↔ data m = a ∧ m + 1 = n := by
  simp [Yields, next]

@[simp] theorem yields_index {m n k : ℕ} : Yields (index : Scan ω ℕ) m k n ↔ m = k ∧ m = n := by
  simp [Yields, index]

@[simp] theorem yields_throw {e : ω} {m n : ℕ} {a : α} :
    ¬Yields (throw e : Scan ω α) m a n := by
  simp [Yields, throw, throwThe, MonadExceptOf.throw, EStateM.throw]

@[simp] theorem yields_require {c : Prop} [Decidable c] {e : ω} {m n : ℕ} {u : Unit} :
    Yields (require c e) m u n ↔ c ∧ m = n := by
  by_cases h : c <;> simp [require, h]

/-! ## How far a scan gets -/

/-- A scan that succeeds reads at most `k` items. -/
def Advances (k : ℕ) (x : Scan ω α) : Prop :=
  ∀ m a n, Yields x m a n → m ≤ n ∧ n ≤ m + k

theorem Advances.mono {x : Scan ω α} {k l : ℕ} (h : Advances k x) (hkl : k ≤ l) :
    Advances l x := by
  intro m a n hx
  obtain ⟨hle, hn⟩ := h m a n hx
  exact ⟨hle, by omega⟩

theorem Advances.pure (a : α) : Advances 0 (pure a : Scan ω α) := by
  intro m b n h
  obtain ⟨-, rfl⟩ := yields_pure.mp h
  exact ⟨le_rfl, le_rfl⟩

/-- What the first part yields may bound how far the second gets. -/
theorem Advances.bind {x : Scan ω α} {f : α → Scan ω β} {k l : ℕ} (hx : Advances k x)
    (hf : ∀ a, (∃ m n, Yields x m a n) → Advances l (f a)) : Advances (k + l) (x >>= f) := by
  intro m b n h
  obtain ⟨a, i, ha, hb⟩ := ok_bind.mp h
  obtain ⟨_, _⟩ := hx m a i ha
  obtain ⟨_, _⟩ := hf a ⟨m, i, ha⟩ i b n hb
  omega

theorem Advances.next (data : ℕ → ι) : Advances 1 (next data : Scan ω ι) := by
  intro m a n h
  obtain ⟨-, rfl⟩ := yields_next.mp h
  omega

theorem Advances.index : Advances 0 (index : Scan ω ℕ) := by
  intro m k n h
  obtain ⟨-, rfl⟩ := yields_index.mp h
  omega

theorem Advances.require (c : Prop) [Decidable c] (e : ω) : Advances 0 (require c e) := by
  intro m a n h
  obtain ⟨-, rfl⟩ := yields_require.mp h
  omega

theorem Advances.throw (e : ω) : Advances 0 (throw e : Scan ω α) :=
  fun _ _ _ h => (yields_throw h).elim

theorem Advances.take (data : ℕ → ι) (k : ℕ) : Advances k (take data k : Scan ω (List ι)) := by
  induction k with
  | zero => exact Advances.pure []
  | succ k ih =>
    rw [Scanner.take, Nat.add_comm]
    exact Advances.bind (Advances.next data) fun a _ =>
      Advances.bind (l := 0) ih fun as _ => Advances.pure (a :: as)

theorem Advances.ite {c : Prop} [Decidable c] {x y : Scan ω α} {k : ℕ} (hx : Advances k x)
    (hy : Advances k y) : Advances k (if c then x else y) := by
  split
  · exact hx
  · exact hy

/-! ## How a scan ends -/

/-- The scan from `m` succeeds with `Q` or fails with `E`. -/
def Ends (E : ω → ℕ → Prop) (Q : α → ℕ → Prop) (x : Scan ω α) (m : ℕ) : Prop :=
  match x m with
  | .ok a n => Q a n
  | .error e n => E e n

variable {E : ω → ℕ → Prop} {Q R : α → ℕ → Prop} {m : ℕ}

@[simp] theorem ends_pure {a : α} : Ends E Q (pure a) m ↔ Q a m :=
  Iff.rfl

@[simp] theorem ends_bind {x : Scan ω β} {f : β → Scan ω α} :
    Ends E Q (x >>= f) m ↔ Ends E (fun b n => Ends E Q (f b) n) x m := by
  simp only [Ends, bind, EStateM.bind]
  cases x m <;> rfl

@[simp] theorem ends_next {data : ℕ → ι} {Q : ι → ℕ → Prop} :
    Ends E Q (next data) m ↔ Q (data m) (m + 1) :=
  Iff.rfl

@[simp] theorem ends_throw {e : ω} : Ends E Q (throw e) m ↔ E e m :=
  Iff.rfl

@[simp] theorem ends_require {c : Prop} [Decidable c] {e : ω} {Q : Unit → ℕ → Prop} :
    Ends E Q (require c e) m ↔ if c then Q () m else E e m := by
  by_cases h : c <;> simp [require, h]

/-- What holds where the scan succeeds may be strengthened by what it yields there. -/
theorem Ends.mono {x : Scan ω α} (h : Ends E Q x m)
    (hQ : ∀ a n, Yields x m a n → Q a n → R a n) : Ends E R x m := by
  simp only [Ends, Yields] at h hQ ⊢
  cases hx : x m with
  | ok a n =>
    rw [hx] at h
    exact hQ a n hx h
  | error e n =>
    rw [hx] at h
    exact h

/-! ## What a scan reads -/

/-- The items from index `m` on are `as`. -/
def Shows (data : ℕ → ι) : ℕ → List ι → Prop
  | _, [] => True
  | m, a :: as => data m = a ∧ Shows data (m + 1) as

instance Shows.decidable [DecidableEq ι] (data : ℕ → ι) :
    ∀ (m : ℕ) (as : List ι), Decidable (Shows data m as)
  | _, [] => inferInstanceAs (Decidable True)
  | m, a :: as =>
    have := Shows.decidable data (m + 1) as
    inferInstanceAs (Decidable (data m = a ∧ Shows data (m + 1) as))

variable {data : ℕ → ι} {as bs : List ι}

@[simp] theorem shows_nil : Shows data m [] :=
  trivial

@[simp] theorem shows_cons {a : ι} : Shows data m (a :: as) ↔ data m = a ∧ Shows data (m + 1) as :=
  Iff.rfl

theorem shows_append :
    Shows data m (as ++ bs) ↔ Shows data m as ∧ Shows data (m + as.length) bs := by
  induction as generalizing m with
  | nil => simp
  | cons a as ih => simp [ih, and_assoc, Nat.add_right_comm, ← Nat.add_assoc]

/-- The items that are taken are those that stand at the running index. -/
theorem yields_take {k n : ℕ} :
    Yields (take data k : Scan ω (List ι)) m as n ↔
      as.length = k ∧ Shows data m as ∧ m + k = n := by
  induction k generalizing m as n with
  | zero => cases as <;> simp [take, eq_comm]
  | succ k ih =>
    simp only [take, ok_bind, yields_next, ih, yields_pure]
    constructor
    · rintro ⟨_, _, ⟨rfl, rfl⟩, as, _, ⟨hlen, hshows, rfl⟩, rfl, rfl⟩
      exact ⟨by simp [hlen], ⟨rfl, hshows⟩, by omega⟩
    · rintro ⟨hlen, hshows, rfl⟩
      cases as with
      | nil => simp at hlen
      | cons a as =>
        exact ⟨a, _, ⟨hshows.1, rfl⟩, as, _, ⟨by simpa using hlen, hshows.2, rfl⟩, rfl, by omega⟩

/-- A take ends with the items that stand there. -/
theorem ends_take {k : ℕ} {Q : List ι → ℕ → Prop} :
    Ends E Q (take data k) m ↔ Q ((List.range k).map fun i => data (m + i)) (m + k) := by
  induction k generalizing m Q with
  | zero => simp [take]
  | succ k ih =>
    simp only [take, ends_bind, ends_next, ih, ends_pure, List.range_succ_eq_map, List.map_cons,
      List.map_map, Function.comp_def, Nat.add_zero, Nat.succ_eq_add_one, Nat.add_assoc,
      Nat.add_comm 1]

end Scanner
