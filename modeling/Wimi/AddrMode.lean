import Wimi.EngineRuns

/-!
# The addressing mode in hardware

`IOCTL_XDMA_ADDRMODE_SET` between calls of `transfer_queue` and `engine_service`. It sets or clears
a bit of the control register, and every start and stop of the engine writes the whole of it.

`addrMode_iff` : the bit of a started engine is `non_incr_addr` in every state of a run exactly
when no call of the run starts the engine in poll mode with `non_incr_addr` set, where
`engine_start_mode_config` leaves the bit out.
-/

open Machine

namespace Wimi

open XdmaEngine

/-! ## Setting the mode -/

/-- `ioctl_do_addrmode_set`, up to `engine_alignments`, which reads the alignments anew. `rc` is
what `get_user` returns and `dst` what it reads. -/
def ioctlDoAddrmodeSet (e : XdmaEngine) (rc : ℤ) (dst : U64) : XdmaEngine × ℤ :=
  if rc = 0 then
    let e := { e with nonIncrAddr := decide (dst ≠ 0) }
    let control := e.regs.control
    -- the register is written through its set and clear aliases
    let control := if e.nonIncrAddr then control ||| XDMA_CTRL_NON_INCR_ADDR
      else control &&& ~~~XDMA_CTRL_NON_INCR_ADDR
    ({ e with regs := { e.regs with control := control } }, rc)
  else (e, rc)

/-- A call under the lock, or the ioctl. -/
inductive ModeCall
  | call (c : EngineCall)
  | addrmodeSet (rc : ℤ) (dst : U64)

/-- One call on the engine. -/
def EngineRun.modeStep (s : EngineRun) : ModeCall → Option EngineRun
  | .call c => s.step c
  | .addrmodeSet rc dst =>
    if s.stopped then none else some { s with engine := (ioctlDoAddrmodeSet s.engine rc dst).1 }

/-- The control register of an engine that has been started carries its addressing mode.
`engine_start` sets `RUN_STOP`, and `xdma_engine_stop` clears it. -/
def AddrModeKept (e : XdmaEngine) : Prop :=
  e.regs.control &&& XDMA_CTRL_RUN_STOP ≠ 0 →
    (e.regs.control &&& XDMA_CTRL_NON_INCR_ADDR ≠ 0 ↔ e.nonIncrAddr = true)

/-- The call does not start the engine in poll mode with `non_incr_addr` set. -/
def StartsIncremental (s : EngineRun) : ModeCall → Prop
  | .call c => (s.startEntry c).isSome → s.engine.pollMode = true → s.engine.nonIncrAddr = false
  | .addrmodeSet .. => True

/-! ## What calls leave of the control register -/

/-- The engine keeps its modes, and its control register unless it was stopped. -/
structure StopsAtMost (e e' : XdmaEngine) : Prop where
  pollMode : e'.pollMode = e.pollMode
  nonIncrAddr : e'.nonIncrAddr = e.nonIncrAddr
  control : e'.regs.control = e.regs.control ∨ e'.regs.control &&& XDMA_CTRL_RUN_STOP = 0

namespace StopsAtMost

variable {e e₁ e₂ : XdmaEngine}

theorem refl (e : XdmaEngine) : StopsAtMost e e :=
  ⟨rfl, rfl, .inl rfl⟩

theorem trans (h : StopsAtMost e e₁) (h' : StopsAtMost e₁ e₂) : StopsAtMost e e₂ where
  pollMode := h'.pollMode.trans h.pollMode
  nonIncrAddr := h'.nonIncrAddr.trans h.nonIncrAddr
  control := by
    rcases h'.control with hsame | hstopped
    · rw [hsame]
      exact h.control
    · exact .inr hstopped

/-- An engine stopped at most keeps its mode in hardware. -/
theorem addrMode (h : StopsAtMost e e₁) (hmode : AddrModeKept e) : AddrModeKept e₁ := by
  intro hrun
  rcases h.control with hsame | hstopped
  · rw [hsame] at hrun
    rw [hsame, h.nonIncrAddr]
    exact hmode hrun
  · exact absurd hstopped hrun

theorem stop (e : XdmaEngine) : StopsAtMost e (xdmaEngineStop e) := by
  refine ⟨rfl, rfl, .inr ?_⟩
  simp only [xdmaEngineStop, stopWord]
  split
  · decide
  · split <;> decide

theorem completion (e : XdmaEngine) (p : Ptr) : StopsAtMost e (engineTransferCompletion e p) := by
  unfold engineTransferCompletion
  dsimp only
  split <;> exact ⟨rfl, rfl, .inl rfl⟩

theorem retire (e : XdmaEngine) (p : Ptr) (s : TransferState) :
    StopsAtMost e (retireHead e p s) := by
  have hdequeued : StopsAtMost e (dequeueHead e p s) := ⟨rfl, rfl, .inl rfl⟩
  exact hdequeued.trans (completion _ p)

theorem fail (e : XdmaEngine) (p : Ptr) : StopsAtMost e (engineErrHandle e p) := by
  have hfailed : StopsAtMost e (e.setTransfer p { e.transfers p with state := .failed }) :=
    ⟨rfl, rfl, .inl rfl⟩
  exact hfailed.trans (stop _)

theorem entry (e : XdmaEngine) (hw : HwReads) (w : U32) : StopsAtMost e (serviceEntry e hw w) := by
  unfold serviceEntry
  dsimp only
  split
  · have hread : StopsAtMost e { e with status := serviceStatus e hw w } := ⟨rfl, rfl, .inl rfl⟩
    have hstop := stop { e with status := serviceStatus e hw w }
    exact hread.trans ⟨hstop.pollMode, hstop.nonIncrAddr, hstop.control⟩
  · exact ⟨rfl, rfl, .inl rfl⟩

theorem perf (e : XdmaEngine) (count : U32) : StopsAtMost e (engineServicePerf e count) := by
  unfold engineServicePerf
  split
  · exact refl e
  · dsimp only
    split <;> exact ⟨rfl, rfl, .inl rfl⟩

theorem clear (e : XdmaEngine) : StopsAtMost e (clearWriteback e) := by
  unfold clearWriteback
  split <;> exact ⟨rfl, rfl, .inl rfl⟩

/-- A service call stops the engine at most before it resumes, and also when it stops the
kernel. -/
theorem frame : ServiceFrame StopsAtMost where
  refl := refl
  trans := trans
  entry := entry
  perf := perf
  retire := retire
  fail := fail
  clear := clear

end StopsAtMost

/-! ## What a start and the ioctl write -/

section Writes

variable {e e' : XdmaEngine}

/-- The control word of a start carries the addressing mode in interrupt mode only. -/
theorem startWord_bits (e : XdmaEngine) : startWord e &&& XDMA_CTRL_RUN_STOP ≠ 0 ∧
    (startWord e &&& XDMA_CTRL_NON_INCR_ADDR ≠ 0 ↔ e.pollMode = false ∧ e.nonIncrAddr = true) := by
  unfold startWord
  dsimp only
  cases e.pollMode <;> cases e.nonIncrAddr <;> cases e.xdmaPerf.isSome <;>
    by_cases hstream : e.streaming ∧ ¬ e.dirToDev <;> simp only [hstream] <;> decide

/-- A started engine has its mode in hardware unless it was started in poll mode with
`non_incr_addr` set. -/
theorem addrMode_of_start (h : engineStart e = .ok e') :
    e'.pollMode = e.pollMode ∧
      (AddrModeKept e' ↔ (e.pollMode = true → e.nonIncrAddr = false)) := by
  unfold engineStart at h
  split at h
  · cases h
  split at h
  · cases h
  obtain rfl := Except.ok.inj h
  refine ⟨rfl, ?_⟩
  -- the start sets nothing the control word depends on
  have hword := startWord_bits e
  change (startWord e &&& _ ≠ 0 → (startWord e &&& _ ≠ 0 ↔ e.nonIncrAddr = true)) ↔ _
  rw [hword.2]
  have hrun : startWord e &&& XDMA_CTRL_RUN_STOP ≠ 0 := hword.1
  simp only [ne_eq, hrun, not_false_eq_true, true_imp_iff]
  cases e.pollMode <;> cases e.nonIncrAddr <;> decide

theorem and_or_self_right {w : ℕ} (x m : BitVec w) : (x ||| m) &&& m = m := by
  ext i
  simp only [BitVec.getElem_and, BitVec.getElem_or]
  cases x[i] <;> cases m[i] <;> rfl

theorem and_not_and_self {w : ℕ} (x m : BitVec w) : (x &&& ~~~m) &&& m = 0 := by
  ext i hi
  simp only [BitVec.getElem_and, BitVec.getElem_not]
  cases x[i] <;> cases m[i] <;> simp

/-- The ioctl leaves the bit as it sets the mode. -/
theorem ioctl_addrMode {rc : ℤ} {dst : U64} (hmode : AddrModeKept e) :
    AddrModeKept (ioctlDoAddrmodeSet e rc dst).1 := by
  unfold ioctlDoAddrmodeSet
  split
  · intro _
    by_cases hdst : dst = 0
    · simp only [hdst, ne_eq, not_true_eq_false, decide_false, Bool.false_eq_true, if_false,
        and_not_and_self]
    · simp only [hdst, ne_eq, not_false_eq_true, decide_true, if_true, and_or_self_right]
      decide
  · exact hmode

end Writes

/-! ## Runs -/

section Runs

variable {s s' : EngineRun}

/-- Where a call comes to `engine_start`, the engine has the modes it had before the call. -/
theorem startEntry_modes {c : EngineCall} {e : XdmaEngine} (h : s.startEntry c = some e) :
    e.pollMode = s.engine.pollMode ∧ e.nonIncrAddr = s.engine.nonIncrAddr := by
  cases c with
  | queue t =>
    rw [EngineRun.startEntry_queue] at h
    obtain ⟨-, he⟩ := Option.ite_none_right_eq_some.mp h
    obtain rfl := Option.some.inj he
    exact ⟨rfl, rfl⟩
  | service hw w =>
    have hkept := StopsAtMost.frame.service (.inl (EngineRun.retire_of_startEntry h).2)
    exact ⟨hkept.pollMode, hkept.nonIncrAddr⟩

/-- A resumption without a start changes no mode. -/
theorem resume_of_no_start {e : XdmaEngine} (h : ¬ (¬ e.running ∧
    e.shutdown &&& ENGINE_SHUTDOWN_REQUEST = 0 ∧ e.transferList ≠ [])) :
    ∃ e', engineServiceResume e = .ok e' ∧ StopsAtMost e e' := by
  unfold engineServiceResume
  split
  · next hrun =>
    split
    · exact ⟨_, rfl, rfl, rfl, .inl rfl⟩
    · next hreq =>
      rw [if_neg fun hlist => h ⟨hrun, not_not.mp hreq, hlist⟩]
      exact ⟨_, rfl, .refl e⟩
  · exact ⟨_, rfl, .refl e⟩

/-- A call that does not come to `engine_start` stops the engine at most. -/
theorem stopsAtMost_of_no_start {c : EngineCall} (hstep : s.step c = some s')
    (h : s.startEntry c = none) : StopsAtMost s.engine s'.engine := by
  unfold EngineRun.step at hstep
  replace hstep := (Option.ite_none_left_eq_some.mp hstep).2
  cases c with
  | queue t =>
    obtain ⟨hnum, hstep⟩ := Option.ite_none_left_eq_some.mp hstep
    obtain rfl := Option.some.inj hstep
    have hcreated : StopsAtMost s.engine (s.create t).engine := ⟨rfl, rfl, .inl rfl⟩
    unfold transferQueue
    split
    · exact hcreated
    split
    · exact hcreated
    next hreq =>
    split
    · exact ⟨rfl, rfl, .inl rfl⟩
    next hrun =>
      have hstart : s.startEntry (.queue t) = some (submit (s.create t).engine s.next) :=
        (s.startEntry_queue t).trans (if_pos ⟨hnum, not_not.mp hreq, hrun⟩)
      exact absurd (hstart.symm.trans h) (Option.some_ne_none _)
  | service hw w =>
    obtain rfl := Option.some.inj hstep
    rcases hrun : s.engine.running with _ | _
    · rw [engineService_idle hrun]
      change StopsAtMost s.engine (ite _ _ _)
      split <;> exact ⟨rfl, rfl, .inl rfl⟩
    rw [engineService_eq hrun]
    cases hretire : engineServiceRetire s.engine hw w with
    | error e => exact StopsAtMost.frame.service (.inr hretire)
    | ok e =>
      have hkept := StopsAtMost.frame.service (.inl hretire)
      have hstays : ¬ (¬ e.running ∧ e.shutdown &&& ENGINE_SHUTDOWN_REQUEST = 0 ∧
          e.transferList ≠ []) := by
        intro hidle
        rw [EngineRun.startEntry_service hrun hretire, if_pos hidle] at h
        cases h
      obtain ⟨e', hresume, hsame⟩ := resume_of_no_start hstays
      rw [Except.bind, hresume]
      exact hkept.trans hsame

/-- The step lemma, both ways. -/
theorem modeStep_iff {i : ModeCall} (hmode : AddrModeKept s.engine)
    (hstep : s.modeStep i = some s') : AddrModeKept s'.engine ↔ StartsIncremental s i := by
  cases i with
  | call c =>
    cases hentry : s.startEntry c with
    | none =>
      refine iff_of_true ((stopsAtMost_of_no_start hstep hentry).addrMode hmode) fun hsome => ?_
      rw [hentry] at hsome
      cases hsome
    | some e =>
      obtain ⟨-, -, hstart, -⟩ := EngineRun.entry_started hstep hentry
      obtain ⟨hpoll, hincr⟩ := startEntry_modes hentry
      rw [(addrMode_of_start hstart).2, StartsIncremental, hentry, hpoll, hincr]
      exact ⟨fun h _ => h, fun h => h rfl⟩
  | addrmodeSet rc dst =>
    obtain ⟨-, hstep⟩ := Option.ite_none_left_eq_some.mp hstep
    obtain rfl := Option.some.inj hstep
    exact iff_of_true (ioctl_addrMode hmode) trivial

theorem addrMode_engineCreate (pollMode streaming dirToDev nonIncrAddr : Bool)
    (memory : Ptr → XdmaTransfer) :
    AddrModeKept (engineCreate pollMode streaming dirToDev nonIncrAddr memory) :=
  fun hrun => absurd BitVec.zero_and hrun

end Runs

/-- In every run of ioctls, queueing and service calls from an idle engine, the mode of a started
engine is in its control register exactly when no call starts the engine in poll mode with
`non_incr_addr` set. -/
theorem addrMode_iff (pollMode streaming dirToDev nonIncrAddr : Bool)
    (memory : Ptr → XdmaTransfer) (next : Ptr) (is : List ModeCall) :
    Along EngineRun.modeStep (fun _ _ s' => AddrModeKept s'.engine)
        (.start pollMode streaming dirToDev nonIncrAddr memory next) is ↔
      Along EngineRun.modeStep (fun s i _ => StartsIncremental s i)
        (.start pollMode streaming dirToDev nonIncrAddr memory next) is :=
  along_iff
    (fun s _ _ (hmode : AddrModeKept s.engine) hstep hc =>
      have h := (modeStep_iff hmode hstep).mpr hc
      ⟨h, h⟩)
    (fun _ _ _ hmode hstep hp => (modeStep_iff hmode hstep).mp hp)
    (addrMode_engineCreate pollMode streaming dirToDev nonIncrAddr memory)

/-- In poll mode, the mode is set before a transfer is queued. -/
theorem addrMode_lost : ¬ ∀ (pollMode streaming dirToDev nonIncrAddr : Bool)
    (memory : Ptr → XdmaTransfer) (next : Ptr) (is : List ModeCall),
    Along EngineRun.modeStep (fun _ _ s' => AddrModeKept s'.engine)
      (.start pollMode streaming dirToDev nonIncrAddr memory next) is := by
  intro h
  have hrun := h true false true false
    (fun _ => NewTransfer.create ⟨0x1000, 1, 1, none, true, 4096⟩) 0
    [.addrmodeSet 0 1, .call (.queue ⟨0x1000, 1, 1, none, true, 4096⟩)]
  have hlost := ((hrun _ rfl).2 _ rfl).1 (by decide)
  exact absurd (hlost.mpr rfl) (by decide)

end Wimi
