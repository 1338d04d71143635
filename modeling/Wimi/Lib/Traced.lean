import Mathlib

/-!
# Computations that leave a trace

A computation over a world that answers it, with the answers given in advance : the events it
emits, in order, and what it returns, if it does.

The rules follow a computation through `>>=`. `bind_eq_some` takes a run apart that returns, and
`Emits.bind` finds a property of every event from that of the parts. A loop over a list that a
turn can leave is `untilLeft`, with the rule for a loop that is not left (`untilLeft_eq_none`),
for one that is (`untilLeft_eq_some`), and for the events of either (`Emits.untilLeft`).
-/

/-- The events a computation emits, and what it returns. -/
@[ext] structure Traced (ε α : Type) where
  events : List ε
  returned : Option α

namespace Traced

variable {ε α β κ : Type}

instance : Monad (Traced ε) where
  pure a := ⟨[], some a⟩
  bind x f := ⟨x.events ++ x.returned.elim [] fun a => (f a).events,
    x.returned.bind fun a => (f a).returned⟩

/-- One event. -/
def emit (e : ε) : Traced ε Unit :=
  ⟨[e], some ()⟩

def emitAll (es : List ε) : Traced ε Unit :=
  ⟨es, some ()⟩

/-- The computation ends here and does not return. -/
def stop : Traced ε α :=
  ⟨[], none⟩

@[simp] theorem events_pure (a : α) : (pure a : Traced ε α).events = [] :=
  rfl

@[simp] theorem returned_pure (a : α) : (pure a : Traced ε α).returned = some a :=
  rfl

@[simp] theorem events_emit (e : ε) : (emit e).events = [e] :=
  rfl

@[simp] theorem returned_emit (e : ε) : (emit e).returned = some () :=
  rfl

@[simp] theorem events_emitAll (es : List ε) : (emitAll es).events = es :=
  rfl

@[simp] theorem returned_emitAll (es : List ε) : (emitAll es).returned = some () :=
  rfl

@[simp] theorem events_stop : (stop : Traced ε α).events = [] :=
  rfl

@[simp] theorem returned_stop : (stop : Traced ε α).returned = none :=
  rfl

theorem events_bind (x : Traced ε α) (f : α → Traced ε β) :
    (x >>= f).events = x.events ++ x.returned.elim [] fun a => (f a).events :=
  rfl

theorem returned_bind (x : Traced ε α) (f : α → Traced ε β) :
    (x >>= f).returned = x.returned.bind fun a => (f a).returned :=
  rfl

/-- A computation goes on where the part before it returns. -/
theorem bind_of_returned {x : Traced ε α} {a : α} (h : x.returned = some a)
    (f : α → Traced ε β) : x >>= f = ⟨x.events ++ (f a).events, (f a).returned⟩ := by
  ext1
  · rw [events_bind, h, Option.elim_some]
  · rw [returned_bind, h, Option.bind_some]

theorem bind_of_stopped {x : Traced ε α} (h : x.returned = none) (f : α → Traced ε β) :
    x >>= f = ⟨x.events, none⟩ := by
  ext1
  · rw [events_bind, h, Option.elim_none, List.append_nil]
  · rw [returned_bind, h, Option.bind_none]

@[simp] theorem pure_bind (a : α) (f : α → Traced ε β) : (pure a : Traced ε α) >>= f = f a :=
  rfl

@[simp] theorem emit_bind (e : ε) (f : Unit → Traced ε β) :
    emit e >>= f = ⟨e :: (f ()).events, (f ()).returned⟩ :=
  rfl

@[simp] theorem emitAll_bind (es : List ε) (f : Unit → Traced ε β) :
    emitAll es >>= f = ⟨es ++ (f ()).events, (f ()).returned⟩ :=
  rfl

theorem mem_events_bind {x : Traced ε α} {f : α → Traced ε β} {e : ε} :
    e ∈ (x >>= f).events ↔ e ∈ x.events ∨ ∃ a, x.returned = some a ∧ e ∈ (f a).events := by
  rw [events_bind, List.mem_append]
  cases x.returned with
  | none => simp
  | some a => simp

theorem bind_assoc (x : Traced ε α) (f : α → Traced ε β) (g : β → Traced ε κ) :
    x >>= f >>= g = x >>= fun a => f a >>= g := by
  cases ha : x.returned with
  | none => rw [bind_of_stopped ha, bind_of_stopped ha, bind_of_stopped rfl]
  | some a =>
    rw [bind_of_returned ha, bind_of_returned ha]
    ext1 <;> simp only [events_bind, returned_bind, List.append_assoc]

/-- What a computation goes on with counts only for what it returns. -/
theorem bind_congr {x : Traced ε α} {f g : α → Traced ε β}
    (h : ∀ a, x.returned = some a → f a = g a) : x >>= f = x >>= g := by
  cases ha : x.returned with
  | none => rw [bind_of_stopped ha, bind_of_stopped ha]
  | some a => rw [bind_of_returned ha, bind_of_returned ha, h a ha]

/-- A computation that returns has returned at each of its parts. -/
theorem bind_eq_some {x : Traced ε α} {f : α → Traced ε β} {b : β} :
    (x >>= f).returned = some b ↔ ∃ a, x.returned = some a ∧ (f a).returned = some b :=
  Option.bind_eq_some_iff

theorem bind_ne_none {x : Traced ε α} {f : α → Traced ε β} (hx : x.returned ≠ none)
    (hf : ∀ a, (f a).returned ≠ none) : (x >>= f).returned ≠ none := by
  obtain ⟨a, ha⟩ := Option.ne_none_iff_exists'.mp hx
  rw [bind_of_returned ha]
  exact hf a

/-- A computation ends at the first of its parts that does not return. -/
theorem bind_eq_none {x : Traced ε α} {f : α → Traced ε β} :
    (x >>= f).returned = none ↔
      x.returned = none ∨ ∃ a, x.returned = some a ∧ (f a).returned = none := by
  cases ha : x.returned with
  | none => simp [bind_of_stopped ha]
  | some a => simp [bind_of_returned ha]

/-! ## What the events satisfy -/

/-- Every event of `x` satisfies `P`. -/
def Emits (P : ε → Prop) (x : Traced ε α) : Prop :=
  ∀ e ∈ x.events, P e

variable {P : ε → Prop}

theorem Emits.mono {Q : ε → Prop} {x : Traced ε α} (hx : Emits P x) (h : ∀ e, P e → Q e) :
    Emits Q x :=
  fun e he => h e (hx e he)

theorem Emits.pure (a : α) : Emits P (pure a : Traced ε α) := by
  simp [Emits]

theorem Emits.stop : Emits P (stop : Traced ε α) := by
  simp [Emits]

theorem Emits.emit {e : ε} (h : P e) : Emits P (emit e) := by
  simpa [Emits] using h

theorem Emits.bind {x : Traced ε α} {f : α → Traced ε β} (hx : Emits P x)
    (hf : ∀ a, x.returned = some a → Emits P (f a)) : Emits P (x >>= f) := by
  intro e he
  rcases mem_events_bind.mp he with he | ⟨a, ha, he⟩
  · exact hx e he
  · exact hf a ha e he

theorem Emits.ite {c : Prop} [Decidable c] {x y : Traced ε α} (hx : c → Emits P x)
    (hy : ¬c → Emits P y) : Emits P (if c then x else y) := by
  split
  · exact hx ‹_›
  · exact hy ‹_›

/-! ## Loops -/

/-- A loop over a list, until a turn leaves it with a value. -/
def untilLeft (body : κ → Traced ε (Option α)) : List κ → Traced ε (Option α)
  | [] => pure none
  | k :: ks => do
    match ← body k with
    | some a => pure (some a)
    | none => untilLeft body ks

variable {body : κ → Traced ε (Option α)} {ks : List κ}

theorem untilLeft_cons_of_left {k : κ} {a : α} (h : (body k).returned = some (some a)) :
    untilLeft body (k :: ks) = body k := by
  rw [untilLeft, bind_of_returned h]
  ext1
  · simp
  · simp [h]

theorem untilLeft_cons_of_not_left {k : κ} (h : (body k).returned = some none) :
    untilLeft body (k :: ks) =
      ⟨(body k).events ++ (untilLeft body ks).events, (untilLeft body ks).returned⟩ :=
  bind_of_returned h _

/-- A loop that is not left has made all its turns. -/
theorem untilLeft_eq_none (hbody : ∀ k ∈ ks, (body k).returned ≠ none) :
    (untilLeft body ks).returned = some none ↔ ∀ k ∈ ks, (body k).returned = some none := by
  induction ks with
  | nil => simp [untilLeft]
  | cons k ks ih =>
    rw [List.forall_mem_cons] at hbody ⊢
    cases hk : (body k).returned with
    | none => exact absurd hk hbody.1
    | some o =>
      cases o with
      | none =>
        rw [untilLeft_cons_of_not_left hk, ← ih hbody.2]
        simp
      | some a =>
        rw [untilLeft_cons_of_left hk, hk]
        simp

/-- The events of a loop that is not left. -/
theorem events_untilLeft (h : ∀ k ∈ ks, (body k).returned = some none) :
    (untilLeft body ks).events = ks.flatMap fun k => (body k).events := by
  induction ks with
  | nil => rfl
  | cons k ks ih =>
    obtain ⟨hk, hks⟩ := List.forall_mem_cons.mp h
    rw [untilLeft_cons_of_not_left hk, List.flatMap_cons, ih hks]

/-- A loop is left at the first turn that leaves it. -/
theorem untilLeft_eq_some [Preorder κ] (hsorted : ks.Pairwise (· < ·)) {a : α} :
    (untilLeft body ks).returned = some (some a) ↔
      ∃ k ∈ ks, (body k).returned = some (some a) ∧
        ∀ k' ∈ ks, k' < k → (body k').returned = some none := by
  induction ks with
  | nil => simp [untilLeft]
  | cons k ks ih =>
    obtain ⟨hlt, hsorted⟩ := List.pairwise_cons.mp hsorted
    have hfirst : ∀ l ∈ ks, ∀ P : Prop, (∀ k' ∈ k :: ks, k' < l → (body k').returned = some none) →
        (body k).returned ≠ some none → P :=
      fun l hl P hbefore hne => absurd (hbefore k List.mem_cons_self (hlt l hl)) hne
    have hmin : ∀ k' ∈ k :: ks, ¬k' < k := by
      intro k' hk' hlt'
      rcases List.mem_cons.mp hk' with rfl | hk'
      · exact lt_irrefl _ hlt'
      · exact lt_irrefl _ (hlt'.trans (hlt k' hk'))
    rcases hk : (body k).returned with _ | _ | b
    · have hnone : (untilLeft body (k :: ks)).returned = none := by
        rw [untilLeft, bind_of_stopped hk]
      rw [hnone]
      refine ⟨nofun, fun ⟨l, hl, hleft, hbefore⟩ => ?_⟩
      rcases List.mem_cons.mp hl with rfl | hl
      · rw [hk] at hleft
        cases hleft
      · exact hfirst l hl _ hbefore (by simp [hk])
    · rw [untilLeft_cons_of_not_left hk, ih hsorted]
      constructor
      · rintro ⟨l, hl, hleft, hbefore⟩
        refine ⟨l, List.mem_cons_of_mem k hl, hleft, fun k' hk' hlt' => ?_⟩
        rcases List.mem_cons.mp hk' with rfl | hk'
        · exact hk
        · exact hbefore k' hk' hlt'
      · rintro ⟨l, hl, hleft, hbefore⟩
        rcases List.mem_cons.mp hl with rfl | hl
        · rw [hk] at hleft
          cases hleft
        · exact ⟨l, hl, hleft, fun k' hk' => hbefore k' (List.mem_cons_of_mem k hk')⟩
    · rw [untilLeft_cons_of_left hk, hk]
      constructor
      · intro h
        exact ⟨k, List.mem_cons_self, hk.trans h, fun k' hk' hlt' => absurd hlt' (hmin k' hk')⟩
      · rintro ⟨l, hl, hleft, hbefore⟩
        rcases List.mem_cons.mp hl with rfl | hl
        · exact hk.symm.trans hleft
        · exact hfirst l hl _ hbefore (by simp [hk])

theorem returned_untilLeft_ne_none (hbody : ∀ k ∈ ks, (body k).returned ≠ none) :
    (untilLeft body ks).returned ≠ none := by
  induction ks with
  | nil => simp [untilLeft]
  | cons k ks ih =>
    obtain ⟨hk, hks⟩ := List.forall_mem_cons.mp hbody
    cases ho : (body k).returned with
    | none => exact absurd ho hk
    | some o =>
      cases o with
      | none =>
        rw [untilLeft_cons_of_not_left ho]
        exact ih hks
      | some a =>
        rw [untilLeft_cons_of_left ho]
        exact hk

theorem Emits.untilLeft (h : ∀ k ∈ ks, Emits P (body k)) : Emits P (untilLeft body ks) := by
  induction ks with
  | nil => exact Emits.pure none
  | cons k ks ih =>
    obtain ⟨hk, hks⟩ := List.forall_mem_cons.mp h
    refine Emits.bind hk fun o _ => ?_
    cases o with
    | none => exact ih hks
    | some a => exact Emits.pure _

end Traced
