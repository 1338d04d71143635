import Wimi.Ring

/-!
# Setting the ring up

`cyclic_transfer_setup` line by line, with every allocation that can fail in it. The indices are
reset before the first check, two errors are returned under the lock, and the test behind
`transfer_create` is of the buffer that was tested before it.

`setup_atomic_iff` : of the steps that can fail only the allocation of the result buffer is
undone, and what was there before the call is back only if the engine was as after its probe.
-/

namespace Wimi

/-! ## The call -/

/-- What `cyclic_transfer_setup` changes of an `xdma_engine`. The buffers and the transfer stand
for their addresses, none for a null pointer. -/
structure RxChannel where
  rxTail : ℕ
  rxHead : ℕ
  rxOverrun : Bool
  eopFound : Bool
  rxBuffer : Option ℕ
  rxTransferCyclic : Option ℕ
  rxResultBufferVirt : Option ℕ
  deriving DecidableEq

/-- What `transfer_create` comes to. -/
inductive CreateAnswer
  | null
  /-- It stops the kernel at an assertion. -/
  | bug
  | created (p : ℕ)
  deriving DecidableEq

/-- The memory there is during the call. -/
structure SetupEnv where
  rxBuffer : Option ℕ
  transfer : CreateAnswer
  resultBuffer : Option ℕ

inductive SetupOutcome
  /-- The kernel has stopped. -/
  | stopped
  /-- The call returned `rc`, and `locked` is whether it still holds `engine->lock`. -/
  | returned (rc : ℤ) (locked : Bool) (s : RxChannel)
  deriving DecidableEq

/-- From the label `fail_transfer` on. -/
def failTransfer (s : RxChannel) (rc : ℤ) : SetupOutcome :=
  .returned rc false { s with rxBuffer := none }

/-- From the label `fail_result_buffer` on. `transfer_destroy` follows the pointer it is given. -/
def failResultBuffer (s : RxChannel) (rc : ℤ) : SetupOutcome :=
  match s.rxTransferCyclic with
  | none => .stopped
  | some _ => failTransfer { s with rxTransferCyclic := none } rc

/-- `cyclic_transfer_setup`, behind `transfer_create`. -/
def setupResults (s : RxChannel) (resultBuffer : Option ℕ) : SetupOutcome :=
  if s.rxBuffer = none then failTransfer s (-Errno.einval.code)
  else
    let s := { s with rxResultBufferVirt := resultBuffer }
    if s.rxResultBufferVirt = none then failResultBuffer s (-Errno.enomem.code)
    else
      -- `transfer_set_result_addresses` writes to the descriptors of the transfer
      match s.rxTransferCyclic with
      | none => .stopped
      | some _ => .returned 0 false s

/-- `cyclic_transfer_setup`. -/
def cyclicTransferSetup (s : RxChannel) (env : SetupEnv) : SetupOutcome :=
  let s := { s with rxTail := 0, rxHead := 0, rxOverrun := false, eopFound := false }
  if s.rxBuffer.isSome then .returned (-Errno.ebusy.code) true s
  else
    let s := { s with rxBuffer := env.rxBuffer }
    if s.rxBuffer = none then .returned (-Errno.enomem.code) true s
    else
      match env.transfer with
      | .bug => .stopped
      | .null => setupResults { s with rxTransferCyclic := none } env.resultBuffer
      | .created p => setupResults { s with rxTransferCyclic := some p } env.resultBuffer

/-! ## Failing steps -/

/-- A step of the call fails. -/
def SetupFails (s : RxChannel) (env : SetupEnv) : Prop :=
  s.rxBuffer.isSome ∨ env.rxBuffer = none ∨ (∀ p, env.transfer ≠ .created p) ∨
    env.resultBuffer = none

/-- The call returns an error, with the lock released and the channel as it was before. -/
def FailsAtomically (s : RxChannel) (out : SetupOutcome) : Prop :=
  ∃ rc < 0, out = .returned rc false s

/-- The channel of an engine that was never set up, or was reset since. -/
def RxChannel.Fresh (s : RxChannel) : Prop :=
  s = ⟨0, 0, false, false, none, none, none⟩

/-- Only the result buffer has no memory. -/
def OnlyResultsFail (env : SetupEnv) : Prop :=
  env.rxBuffer ≠ none ∧ ∃ p, env.transfer = .created p

variable {s : RxChannel} {env : SetupEnv}

/-- An open channel is refused with the lock held. -/
theorem setup_of_open (h : s.rxBuffer.isSome) :
    cyclicTransferSetup s env = .returned (-Errno.ebusy.code) true
      { s with rxTail := 0, rxHead := 0, rxOverrun := false, eopFound := false } :=
  if_pos h

/-- Without memory for the ring the lock is held as well. -/
theorem setup_of_no_buffer (h : s.rxBuffer = none) (hbuffer : env.rxBuffer = none) :
    ∃ s', cyclicTransferSetup s env = .returned (-Errno.enomem.code) true s' := by
  refine ⟨_, (if_neg ?_).trans (if_pos hbuffer)⟩
  rw [h]
  exact Bool.false_ne_true

/-- A transfer that cannot be created stops the kernel, whether there is memory for the result
buffer or not. -/
theorem setup_of_no_transfer (h : s.rxBuffer = none) (hbuffer : env.rxBuffer ≠ none)
    (htransfer : ∀ p, env.transfer ≠ .created p) : cyclicTransferSetup s env = .stopped := by
  have hidle : ¬ s.rxBuffer.isSome := by simp [h]
  refine (if_neg hidle).trans ((if_neg hbuffer).trans ?_)
  cases htransfer' : env.transfer with
  | bug => rfl
  | created p => exact absurd htransfer' (htransfer p)
  | null =>
    refine (if_neg hbuffer).trans ?_
    cases env.resultBuffer <;> rfl

/-- Without memory for the result buffer the call unwinds, to an engine that has just been reset. -/
theorem setup_of_no_results (h : s.rxBuffer = none) (henv : OnlyResultsFail env)
    (hresults : env.resultBuffer = none) : cyclicTransferSetup s env =
      .returned (-Errno.enomem.code) false ⟨0, 0, false, false, none, none, none⟩ := by
  obtain ⟨hbuffer, p, htransfer⟩ := henv
  have hidle : ¬ s.rxBuffer.isSome := by simp [h]
  refine (if_neg hidle).trans ((if_neg hbuffer).trans ?_)
  simp only [htransfer]
  refine (if_neg hbuffer).trans ((if_pos hresults).trans ?_)
  rw [failResultBuffer, hresults]
  rfl

/-- A failing step leaves the lock released and the channel as it was exactly when it is the
allocation of the result buffer and the channel was fresh. -/
theorem setup_atomic_iff (s : RxChannel) (env : SetupEnv) (hfails : SetupFails s env) :
    FailsAtomically s (cyclicTransferSetup s env) ↔ s.Fresh ∧ OnlyResultsFail env := by
  by_cases hopen : s.rxBuffer.isSome
  · rw [setup_of_open hopen]
    refine iff_of_false ?_ ?_
    · rintro ⟨rc, -, h⟩
      exact Bool.false_ne_true (SetupOutcome.returned.inj h).2.1.symm
    · rintro ⟨rfl, -⟩
      exact Bool.false_ne_true hopen
  have hnone : s.rxBuffer = none := Option.not_isSome_iff_eq_none.mp hopen
  by_cases hbuffer : env.rxBuffer = none
  · obtain ⟨s', h'⟩ := setup_of_no_buffer hnone hbuffer
    rw [h']
    refine iff_of_false ?_ fun h => h.2.1 hbuffer
    rintro ⟨rc, -, h⟩
    exact Bool.false_ne_true (SetupOutcome.returned.inj h).2.1.symm
  by_cases htransfer : ∃ p, env.transfer = .created p
  · have henv : OnlyResultsFail env := ⟨hbuffer, htransfer⟩
    have hresults : env.resultBuffer = none := by
      obtain ⟨p, hp⟩ := htransfer
      rcases hfails with h | h | h | h
      · exact absurd h hopen
      · exact absurd h hbuffer
      · exact absurd hp (h p)
      · exact h
    rw [setup_of_no_results hnone henv hresults]
    constructor
    · rintro ⟨rc, -, h⟩
      exact ⟨(SetupOutcome.returned.inj h).2.2.symm, henv⟩
    · rintro ⟨hfresh, -⟩
      exact ⟨-Errno.enomem.code, by decide, by rw [← hfresh]⟩
  · rw [setup_of_no_transfer hnone hbuffer fun p hp => htransfer ⟨p, hp⟩]
    refine iff_of_false ?_ fun h => htransfer h.2.2
    rintro ⟨rc, -, h⟩
    cases h

/-- After the probe, without memory for the result buffer. -/
theorem setup_atomic_fresh :
    FailsAtomically ⟨0, 0, false, false, none, none, none⟩
        (cyclicTransferSetup ⟨0, 0, false, false, none, none, none⟩ ⟨some 1, .created 2, none⟩) ↔
      RxChannel.Fresh ⟨0, 0, false, false, none, none, none⟩ ∧
        OnlyResultsFail ⟨some 1, .created 2, none⟩ :=
  setup_atomic_iff _ _ (.inr (.inr (.inr rfl)))

/-- A channel that streams is opened a second time. -/
theorem setup_not_atomic :
    ¬ ∀ s env, SetupFails s env → FailsAtomically s (cyclicTransferSetup s env) := by
  intro h
  obtain ⟨rc, -, hout⟩ := h ⟨5, 3, false, true, some 1, some 2, some 3⟩
    ⟨some 4, .created 5, some 6⟩ (.inl rfl)
  rw [setup_of_open rfl] at hout
  exact Bool.false_ne_true (SetupOutcome.returned.inj hout).2.1.symm

end Wimi
