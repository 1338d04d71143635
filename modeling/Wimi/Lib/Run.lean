import Mathlib

/-!
# Runs of a partial step function

A machine is a step function `σ → ι → Option σ`, one input a step and `none` where the
input is not enabled. `Along step P s is` says that every transition the inputs `is` drive from
`s` satisfies `P`, which may speak of the state before, the input and the state after; the run
ends at the first input that is not enabled.

`along_of_step` is the induction rule : a step lemma that keeps an invariant and gives `P`
under a condition `C` gives `P` along every run whose transitions all meet `C`. If `P` also
forces `C` under the invariant, the two hold along the same runs (`along_iff`); if a failure of `C`
shows only at the step behind it, `C` is needed of all steps but the last (`along_iff_dropLast`). A
machine that can halt needs the invariant only while it has not (`along_of_live`). `Comes next P s`
is that a machine whose steps are determined comes to `P` by itself.
-/

namespace Machine

variable {σ ι : Type*}

/-- Every transition of the run of `is` from `s` satisfies `P`. -/
def Along (step : σ → ι → Option σ) (P : σ → ι → σ → Prop) : σ → List ι → Prop
  | _, [] => True
  | s, i :: is => ∀ s', step s i = some s' → P s i s' ∧ Along step P s' is

variable {step : σ → ι → Option σ} {P C : σ → ι → σ → Prop} {Inv : σ → Prop}

/-- A run of one input more, at its front. -/
theorem Along.cons {s s' : σ} {i : ι} {is : List ι} (h : step s i = some s') (hp : P s i s')
    (hrest : Along step P s' is) : Along step P s (i :: is) := by
  intro s'' h'
  obtain rfl := Option.some.inj (h.symm.trans h')
  exact ⟨hp, hrest⟩

/-- The induction rule for runs. -/
theorem along_of_step
    (hstep : ∀ s i s', Inv s → step s i = some s' → C s i s' → Inv s' ∧ P s i s')
    {s : σ} (hs : Inv s) {is : List ι} (hC : Along step C s is) : Along step P s is := by
  induction is generalizing s with
  | nil => trivial
  | cons i is ih =>
    intro s' h
    obtain ⟨hc, hrest⟩ := hC s' h
    obtain ⟨hs', hp⟩ := hstep s i s' hs h hc
    exact ⟨hp, ih hs' hrest⟩

/-- The induction rule for a machine that takes no step once it has halted. -/
theorem along_of_live {halted : σ → Bool} (hhalt : ∀ s i, halted s = true → step s i = none)
    (hstep : ∀ s i s', Inv s → step s i = some s' → C s i s' →
      (halted s' = false → Inv s') ∧ P s i s')
    {s : σ} (hs : Inv s) {is : List ι} (hC : Along step C s is) : Along step P s is := by
  refine along_of_step (fun s i s' (hs : halted s = false → Inv s) h hc => ?_) (fun _ => hs) hC
  refine hstep s i s' (hs (Bool.eq_false_iff.mpr fun hh => ?_)) h hc
  rw [hhalt s i hh] at h
  cases h

/-- What the inputs alone grant holds along the run. -/
theorem along_of_inputs {s : σ} {is : List ι} (h : ∀ i ∈ is, ∀ s s', P s i s') :
    Along step P s is := by
  induction is generalizing s with
  | nil => trivial
  | cons i is ih =>
    exact fun s' _ => ⟨h i List.mem_cons_self s s', ih fun j hj => h j (List.mem_cons_of_mem _ hj)⟩

/-- A condition that gives `P` at each step, and that `P` forces, holds along the same
runs as `P`. -/
theorem along_iff
    (hstep : ∀ s i s', Inv s → step s i = some s' → C s i s' → Inv s' ∧ P s i s')
    (hforce : ∀ s i s', Inv s → step s i = some s' → P s i s' → C s i s')
    {s : σ} (hs : Inv s) {is : List ι} : Along step P s is ↔ Along step C s is := by
  refine ⟨fun hP => ?_, along_of_step hstep hs⟩
  refine along_of_step (C := P) (fun s i s' hs h hp => ?_) hs hP
  have hc := hforce s i s' hs h hp
  exact ⟨(hstep s i s' hs h hc).1, hc⟩

/-- A condition whose failure does no harm at its own step, and spoils every step behind it, holds
of all steps but the last. -/
theorem along_iff_dropLast {Bad : σ → Prop}
    (hgood : ∀ s i s', Inv s → step s i = some s' → P s i s')
    (hkept : ∀ s i s', Inv s → step s i = some s' → C s i s' → Inv s')
    (hspoil : ∀ s i s', Inv s → step s i = some s' → ¬ C s i s' → Bad s')
    (hbad : ∀ s i, Bad s → ∃ s', step s i = some s' ∧ ¬ P s i s')
    {s : σ} (hs : Inv s) {is : List ι} : Along step P s is ↔ Along step C s is.dropLast := by
  induction is generalizing s with
  | nil => exact Iff.rfl
  | cons i is ih =>
    cases is with
    | nil => exact iff_of_true (fun s' h => ⟨hgood s i s' hs h, trivial⟩) trivial
    | cons j js =>
      rw [List.dropLast_cons_cons]
      refine forall₂_congr fun s' h => ?_
      by_cases hc : C s i s'
      · rw [and_iff_right (hgood s i s' hs h), and_iff_right hc]
        exact ih (hkept s i s' hs h hc)
      · obtain ⟨s'', hnext, hnot⟩ := hbad s' j (hspoil s i s' hs h hc)
        exact iff_of_false (fun hall => hnot (hall.2 s'' hnext).1) fun hall => hc hall.1

/-! ## The state behind a run -/

/-- The state behind the inputs `is`, if all of them are enabled. -/
def exec (step : σ → ι → Option σ) : σ → List ι → Option σ
  | s, [] => some s
  | s, i :: is => (step s i).bind fun s' => exec step s' is

/-- What steps keep holds of the state behind a run. -/
theorem exec_kept (hkept : ∀ s i s', Inv s → step s i = some s' → Inv s') {s s' : σ}
    {is : List ι} (hs : Inv s) (h : exec step s is = some s') : Inv s' := by
  induction is generalizing s with
  | nil => exact Option.some.inj h ▸ hs
  | cons i is ih =>
    obtain ⟨s₁, hstep, hrest⟩ := Option.bind_eq_some_iff.mp h
    exact ih (hkept s i s₁ hs hstep) hrest

/-- What steps that meet a condition keep holds of the state behind a run that meets it. -/
theorem exec_kept_along (hkept : ∀ s i s', Inv s → step s i = some s' → C s i s' → Inv s')
    {s s' : σ} {is : List ι} (hs : Inv s) (hC : Along step C s is)
    (h : exec step s is = some s') : Inv s' := by
  induction is generalizing s with
  | nil => exact Option.some.inj h ▸ hs
  | cons i is ih =>
    obtain ⟨s₁, hstep, hrest⟩ := Option.bind_eq_some_iff.mp h
    obtain ⟨hc, hCrest⟩ := hC s₁ hstep
    exact ih (hkept s i s₁ hs hstep hc) hCrest hrest

/-- A condition whose first failure makes a good state bad for ever, in runs that meet `D`, can be
read off the state behind such a run. -/
theorem along_exec {Good Bad : σ → Prop} {D : σ → ι → σ → Prop}
    (hgood : ∀ s i s', Good s → step s i = some s' → D s i s' → C s i s' → Good s')
    (hspoil : ∀ s i s', Good s → step s i = some s' → D s i s' → ¬ C s i s' → Bad s')
    (hbad : ∀ s i s', Bad s → step s i = some s' → D s i s' → Bad s') {s s' : σ} {is : List ι}
    (hs : Good s) (hD : Along step D s is) (h : exec step s is = some s') :
    (Along step C s is ∧ Good s') ∨ (¬ Along step C s is ∧ Bad s') := by
  induction is generalizing s with
  | nil => exact .inl ⟨trivial, Option.some.inj h ▸ hs⟩
  | cons i is ih =>
    obtain ⟨s₁, hstep, hrest⟩ := Option.bind_eq_some_iff.mp h
    obtain ⟨hd, hDrest⟩ := hD s₁ hstep
    by_cases hc : C s i s₁
    · rcases ih (hgood s i s₁ hs hstep hd hc) hDrest hrest with ⟨halong, hgood'⟩ | ⟨halong, hbad'⟩
      · exact .inl ⟨.cons hstep hc halong, hgood'⟩
      · exact .inr ⟨fun hall => halong (hall s₁ hstep).2, hbad'⟩
    · exact .inr ⟨fun hall => hc (hall s₁ hstep).1,
        exec_kept_along hbad (hspoil s i s₁ hs hstep hd hc) hDrest hrest⟩

/-! ## What a run puts out -/

section Outputs

variable {ω : Type*} (step) (out : σ → ι → σ → List ω)

/-- What the steps of a run put out, in order. -/
def outputs : σ → List ι → List ω
  | _, [] => []
  | s, i :: is =>
    match step s i with
    | none => []
    | some s' => out s i s' ++ outputs s' is

variable {step out}

/-- The induction rule for what a run has put out so far and the state it has come to. -/
theorem outputs_kept {Inv : σ → List ω → Prop}
    (hkept : ∀ s i s' os, Inv s os → step s i = some s' → C s i s' → Inv s' (os ++ out s i s'))
    {s s' : σ} {is : List ι} {os : List ω} (hs : Inv s os) (hC : Along step C s is)
    (h : exec step s is = some s') : Inv s' (os ++ outputs step out s is) := by
  induction is generalizing s os with
  | nil =>
    obtain rfl := Option.some.inj h
    rwa [outputs, List.append_nil]
  | cons i is ih =>
    obtain ⟨s₁, hstep, hrest⟩ := Option.bind_eq_some_iff.mp h
    obtain ⟨hc, hCrest⟩ := hC s₁ hstep
    simp only [outputs, hstep]
    rw [← List.append_assoc]
    exact ih (hkept s i s₁ os hs hstep hc) hCrest hrest

end Outputs

/-! ## A machine left to itself -/

/-- Left to `next`, the machine comes to a state with `P`. -/
inductive Comes (next : σ → Option σ) (P : σ → Prop) : σ → Prop
  | here {s : σ} (h : P s) : Comes next P s
  | step {s s' : σ} (h : next s = some s') (hcomes : Comes next P s') : Comes next P s

variable {next : σ → Option σ} {P Q : σ → Prop}

theorem Comes.trans {s : σ} (h : Comes next P s) (hnext : ∀ t, P t → Comes next Q t) :
    Comes next Q s := by
  induction h with
  | here h => exact hnext _ h
  | step h _ ih => exact .step h ih

/-- What `next` keeps holds of all it comes to. -/
theorem Comes.exists_kept (hkept : ∀ s s', Inv s → next s = some s' → Inv s') {s : σ}
    (h : Comes next P s) (hs : Inv s) : ∃ t, Inv t ∧ P t := by
  induction h with
  | here h => exact ⟨_, hs, h⟩
  | step h _ ih => exact ih (hkept _ _ hs h)

end Machine
