import Wimi.Lib.Traced

/-!
# A register in a trace

`use` says which events read or write a register, and with what value. A computation `Restores`
the value `v` if, whenever each of its reads answers what was last written, `v` at first, and it
returns, then what it has written last is `v` again. That composes along `>>=`. It holds of what
does not write, and of a computation that reads the register before it writes it and writes at
its end what it has read (`restores_of_bracket`).
-/

namespace Register

open Traced

/-- What an event does with the register. -/
inductive Use (V : Type)
  | read (v : V)
  | write (v : V)

/-- The value that is written. -/
def Use.written {V : Type} : Use V → Option V
  | .read _ => none
  | .write v => some v

variable {ε V α β : Type} (use : ε → Option (Use V))

/-- What the events write last. -/
def lastWritten : List ε → Option V
  | [] => none
  | e :: es => (lastWritten es).or ((use e).bind Use.written)

/-- Every read answers what was last written, `v` at first. -/
def ReadsBack : V → List ε → Prop
  | _, [] => True
  | v, e :: es =>
    (∀ w, use e = some (.read w) → w = v) ∧ ReadsBack (((use e).bind Use.written).getD v) es

variable {use} {v : V} {es fs : List ε}

theorem lastWritten_append :
    lastWritten use (es ++ fs) = (lastWritten use fs).or (lastWritten use es) := by
  induction es with
  | nil => simp [lastWritten]
  | cons e es ih => rw [List.cons_append, lastWritten, ih, lastWritten, Option.or_assoc]

theorem readsBack_append : ReadsBack use v (es ++ fs) ↔
    ReadsBack use v es ∧ ReadsBack use ((lastWritten use es).getD v) fs := by
  induction es generalizing v with
  | nil => simp [ReadsBack, lastWritten]
  | cons e es ih =>
    rw [List.cons_append, ReadsBack, ih, ReadsBack, lastWritten, and_assoc]
    cases lastWritten use es <;> simp

/-- What no event writes is not written last. -/
theorem lastWritten_eq_none (h : ∀ e ∈ es, (use e).bind Use.written = none) :
    lastWritten use es = none := by
  induction es with
  | nil => rfl
  | cons e es ih =>
    rw [List.forall_mem_cons] at h
    rw [lastWritten, ih h.2, h.1, Option.or_none]

variable (use) (v)

/-- A computation that returns has left the register as it was. -/
def Restores (x : Traced ε α) : Prop :=
  ReadsBack use v x.events → x.returned ≠ none → ∀ w ∈ lastWritten use x.events, w = v

variable {use} {v} {x : Traced ε α} {f : α → Traced ε β}

theorem Restores.getD (hx : Restores use v x) (hread : ReadsBack use v x.events)
    (hreturned : x.returned ≠ none) : (lastWritten use x.events).getD v = v := by
  cases hlast : lastWritten use x.events with
  | none => rfl
  | some w => exact hx hread hreturned w hlast

theorem Restores.bind (hx : Restores use v x)
    (hf : ∀ a, x.returned = some a → Restores use v (f a)) : Restores use v (x >>= f) := by
  intro hread hreturned w hw
  cases ha : x.returned with
  | none =>
    rw [bind_of_stopped ha] at hreturned
    exact absurd rfl hreturned
  | some a =>
    rw [bind_of_returned ha] at hread hreturned hw
    obtain ⟨hbefore, hafter⟩ := readsBack_append.mp hread
    have hx' := hx hbefore (by simp [ha])
    rw [hx.getD hbefore (by simp [ha])] at hafter
    rw [lastWritten_append, Option.mem_def, Option.or_eq_some_iff] at hw
    rcases hw with hw | ⟨-, hw⟩
    · exact hf a ha hafter hreturned w hw
    · exact hx' w hw

theorem restores_of_unused (h : Emits (fun e => use e = none) x) : Restores use v x := by
  intro _ _ w hw
  rw [lastWritten_eq_none fun e he => by rw [h e he]; rfl] at hw
  cases hw

theorem Restores.ite {c : Prop} [Decidable c] {x y : Traced ε α} (hx : c → Restores use v x)
    (hy : ¬c → Restores use v y) : Restores use v (if c then x else y) := by
  split
  · exact hx ‹_›
  · exact hy ‹_›

/-- A computation that first reads the register and last writes what it has read. -/
theorem restores_of_bracket {e : ε} {c : V} (hread : use e = some (.read c))
    (hx : x.events = e :: es) (hlast : x.returned ≠ none → lastWritten use es = some c) :
    Restores use v x := by
  intro hback hreturned w hw
  rw [hx] at hback hw
  rw [lastWritten, hlast hreturned, Option.some_or] at hw
  exact (Option.some.inj hw).symm.trans (hback.1 c hread)

end Register
