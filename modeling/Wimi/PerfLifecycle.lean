import Wimi.Lib.Run
import Wimi.PerfRing

/-!
# The life of a measurement

Runs of the calls START, STOP and GET on one engine. Between two calls the engine may serve
interrupts and other transfers; nothing but the three calls sets or frees `xdma_perf`, and nothing
requests a shutdown.

`perf_lifecycle_iff` : `xdma_perf` tells whether a measurement runs exactly along the runs in which
no START copies another version into it, none stops in `xdma_performance_submit`, and no STOP fails
to copy it out (`PerfSound`). Each of them leaves `xdma_perf` set, and every later START is refused.
-/

namespace Wimi

open Machine

/-! ## Runs -/

inductive PerfCall
  | start (env : StartEnv)
  | stop (env : ReplyEnv)
  | get (env : ReplyEnv)
  /-- The engine between two calls, and what its measurement then holds. -/
  | between (e : XdmaEngine) (perf : PerformanceIoctl)

namespace PerfEngine

/-- How a call returns. START does not where it stops in `xdma_performance_submit`. -/
def call (s : PerfEngine) : PerfCall → Option PerfReturn
  | .start env => (ioctlDoPerfStart s env).toOption
  | .stop env => some (ioctlDoPerfStop s env)
  | .get env => some (ioctlDoPerfGet s env)
  | .between e perf =>
    if e.shutdown &&& ENGINE_SHUTDOWN_REQUEST = 0 then
      some ⟨{ s with engine := e, xdmaPerf := s.xdmaPerf.map fun _ => perf }, 0, none, none⟩
    else none

/-- One step of a run. A START that stops in `xdma_performance_submit` holds no lock there, and has
queued nothing (`xdmaPerformanceSubmit_error`) : its thread ends, and `xdma_perf` stays set. -/
def step (s : PerfEngine) : PerfCall → Option PerfEngine
  | .start env =>
    match ioctlDoPerfStart s env with
    | .ok r => some r.engine
    | .error _ => some (s.submitted env)
  | c => (s.call c).map PerfReturn.engine

end PerfEngine

/-- What a step of a good run does. `xdma_perf` is set while a measurement runs; a START that
returns an error leaves it as it was, and a STOP that halts the engine frees it; and -EBUSY means
that a measurement runs. -/
structure LifecycleKept (s : PerfEngine) (c : PerfCall) (s' : PerfEngine) : Prop where
  tracks : s'.xdmaPerf.isSome ↔ s'.measuring = true
  start_error : ∀ env, c = .start env → ∀ r, s.call c = some r → r.rc < 0 →
    s'.xdmaPerf = s.xdmaPerf
  stop_frees : ∀ env, c = .stop env → s.xdmaPerf.isSome → s.engine.transferList ≠ [] →
    s'.xdmaPerf = none
  start_busy : ∀ env, c = .start env → ∀ r, s.call c = some r → r.rc = -Errno.ebusy.code →
    s.measuring = true

/-- A START that gets memory for its measurement finds version 1 in what is copied there and can
build its ring, and a STOP of a measurement can copy it out. -/
structure PerfSound (s : PerfEngine) (c : PerfCall) : Prop where
  start : ∀ env, c = .start env → s.xdmaPerf = none → env.memory = true →
    env.copied.version = IOCTL_XDMA_PERF_V1 ∧ env.submit.Suffices env.copied.transferSize
  stop : ∀ env, c = .stop env → s.xdmaPerf.isSome → env.notCopied = 0

/-- What the steps of a good run preserve. -/
structure PerfInv (s : PerfEngine) : Prop where
  tracks : s.xdmaPerf.isSome ↔ s.measuring = true
  unrequested : s.engine.shutdown &&& ENGINE_SHUTDOWN_REQUEST = 0

theorem perfInv_create (pollMode streaming dirToDev nonIncrAddr : Bool)
    (transfers : Ptr → XdmaTransfer) :
    PerfInv (.create pollMode streaming dirToDev nonIncrAddr transfers) := by
  have hnone : ENGINE_SHUTDOWN_NONE &&& ENGINE_SHUTDOWN_REQUEST = 0 := by decide
  exact ⟨iff_of_false Bool.false_ne_true Bool.false_ne_true, hnone⟩

/-! ## One step -/

variable {s s' : PerfEngine}

theorem engineCyclicStop_shutdown (e : XdmaEngine) :
    (engineCyclicStop e).shutdown = e.shutdown := by
  unfold engineCyclicStop
  split <;> rfl

/-- START returns an error only where it is refused, and otherwise a measurement runs. -/
theorem perfStart_kept (h : PerfInv s) {env : StartEnv}
    {r : PerfReturn} (hversion : s.xdmaPerf = none → env.memory = true →
      env.copied.version = IOCTL_XDMA_PERF_V1) (hr : ioctlDoPerfStart s env = .ok r) :
    PerfInv r.engine ∧ (r.rc < 0 → r.engine = s) ∧
      (r.rc = -Errno.ebusy.code → s.measuring = true) := by
  cases hidle : s.xdmaPerf with
  | some perf =>
    have hbusy : s.xdmaPerf.isSome := by rw [hidle]; rfl
    obtain rfl := Except.ok.inj ((start_of_busy hbusy).symm.trans hr)
    exact ⟨h, fun _ => rfl, fun _ => h.tracks.mp hbusy⟩
  | none =>
    cases hmemory : env.memory with
    | false =>
      obtain rfl := Except.ok.inj ((start_of_no_memory hidle hmemory).symm.trans hr)
      have hne : -Errno.enomem.code ≠ -Errno.ebusy.code := by decide
      exact ⟨h, fun _ => rfl, fun hrc => absurd hrc hne⟩
    | true =>
      rw [start_of_submit hidle hmemory (hversion hidle hmemory)] at hr
      obtain ⟨⟨e, ring, rc⟩, hsubmit, rfl⟩ := Except.map_eq_ok hr
      obtain ⟨-, ⟨-, hshut⟩ | ⟨rfl, -, hq⟩⟩ := xdmaPerformanceSubmit_cases hsubmit
      · exact absurd h.unrequested hshut
      · have hne : (0 : ℤ) ≠ -Errno.ebusy.code := by decide
        exact ⟨⟨iff_of_true rfl rfl, hq.unrequested⟩, fun hneg => absurd hneg (lt_irrefl 0),
          fun hrc => absurd hrc hne⟩

/-- A STOP that copies the measurement out frees it. -/
theorem perfStop_kept (h : PerfInv s) {env : ReplyEnv} (hc : PerfSound s (.stop env)) :
    PerfInv (ioctlDoPerfStop s env).engine ∧ (ioctlDoPerfStop s env).engine.xdmaPerf = none := by
  cases hperf : s.xdmaPerf with
  | none =>
    rw [ioctlDoPerfStop, hperf]
    exact ⟨h, hperf⟩
  | some perf =>
    have hcopied : ¬ env.notCopied ≠ 0 := not_not.mpr (hc.stop env rfl (by rw [hperf]; rfl))
    rw [ioctlDoPerfStop, hperf]
    dsimp only
    rw [if_neg hcopied]
    refine ⟨⟨iff_of_false Bool.false_ne_true Bool.false_ne_true, ?_⟩, rfl⟩
    exact (congrArg (· &&& ENGINE_SHUTDOWN_REQUEST) (engineCyclicStop_shutdown _)).trans
      h.unrequested

/-- GET only reads the counters. -/
theorem perfGet_kept (h : PerfInv s) (env : ReplyEnv) : PerfInv (ioctlDoPerfGet s env).engine := by
  cases hperf : s.xdmaPerf with
  | none =>
    rw [ioctlDoPerfGet, hperf]
    exact h
  | some perf =>
    have hmeasuring : s.measuring = true := h.tracks.mp (by rw [hperf]; rfl)
    rw [ioctlDoPerfGet, hperf]
    dsimp only
    split <;> exact ⟨iff_of_true rfl hmeasuring, h.unrequested⟩

/-- A START with enough memory and a size within the limit returns. -/
theorem perfStart_returns {env : StartEnv} (hc : PerfSound s (.start env)) :
    ∃ r, ioctlDoPerfStart s env = .ok r := by
  cases hidle : s.xdmaPerf with
  | some perf => exact ⟨_, start_of_busy (by rw [hidle]; rfl)⟩
  | none =>
    cases hmemory : env.memory with
    | false => exact ⟨_, start_of_no_memory hidle hmemory⟩
    | true =>
      obtain ⟨hversion, hsuffices⟩ := hc.start env rfl hidle hmemory
      obtain ⟨r, hr⟩ := xdmaPerformanceSubmit_returns (s.submitted env).self hsuffices
      exact ⟨_, (start_of_submit hidle hmemory hversion).trans (congrArg (Except.map _) hr)⟩

theorem perfStep_kept {c : PerfCall} (h : PerfInv s) (hstep : s.step c = some s')
    (hc : PerfSound s c) : PerfInv s' ∧ LifecycleKept s c s' := by
  cases c with
  | start env =>
    obtain ⟨r, hr⟩ := perfStart_returns hc
    rw [PerfEngine.step, hr] at hstep
    obtain rfl := Option.some.inj hstep
    have hcall : s.call (.start env) = some r := congrArg Except.toOption hr
    obtain ⟨hinv, herror, hbusy⟩ :=
      perfStart_kept h (fun hidle hmemory => (hc.start env rfl hidle hmemory).1) hr
    refine ⟨hinv, hinv.tracks, fun _ _ r' hr' hneg => ?_, nofun, fun _ _ r' hr' hrc => ?_⟩
    · obtain rfl := Option.some.inj (hcall.symm.trans hr')
      rw [herror hneg]
    · obtain rfl := Option.some.inj (hcall.symm.trans hr')
      exact hbusy hrc
  | stop env =>
    obtain rfl := Option.some.inj hstep
    obtain ⟨hinv, hfreed⟩ := perfStop_kept h hc
    exact ⟨hinv, hinv.tracks, nofun, fun _ _ _ _ => hfreed, nofun⟩
  | get env =>
    obtain rfl := Option.some.inj hstep
    have hinv := perfGet_kept h env
    exact ⟨hinv, hinv.tracks, nofun, nofun, nofun⟩
  | between e perf =>
    obtain ⟨r, hr, rfl⟩ := Option.map_eq_some_iff.mp hstep
    obtain ⟨hshut, rfl⟩ := by simpa [PerfEngine.call] using hr
    have hinv : PerfInv { s with engine := e, xdmaPerf := s.xdmaPerf.map fun _ => perf } :=
      ⟨by simpa using h.tracks, hshut⟩
    exact ⟨hinv, hinv.tracks, nofun, nofun, nofun⟩

/-- A START as it should be finds the right version and builds its ring. -/
theorem perfStart_sound (h : PerfInv s) {env : StartEnv} (hstep : s.step (.start env) = some s')
    (hp : LifecycleKept s (.start env) s') (hidle : s.xdmaPerf = none)
    (hmemory : env.memory = true) :
    env.copied.version = IOCTL_XDMA_PERF_V1 ∧ env.submit.Suffices env.copied.transferSize := by
  have hidle' : ¬ s.xdmaPerf.isSome := by simp [hidle]
  cases hr : ioctlDoPerfStart s env with
  | error f =>
    -- `xdma_perf` is set behind it, and no measurement runs
    rw [PerfEngine.step, hr] at hstep
    obtain rfl := Option.some.inj hstep
    exact absurd (h.tracks.mpr (hp.tracks.mp rfl)) hidle'
  | ok r =>
    have hcall : s.call (.start env) = some r := congrArg Except.toOption hr
    rw [PerfEngine.step, hr] at hstep
    obtain rfl := Option.some.inj hstep
    by_cases hversion : env.copied.version = IOCTL_XDMA_PERF_V1
    · refine ⟨hversion, ?_⟩
      rw [start_of_submit hidle hmemory hversion] at hr
      obtain ⟨⟨e, ring, rc⟩, hsubmit, -⟩ := Except.map_eq_ok hr
      exact (xdmaPerformanceSubmit_cases hsubmit).1.suffices
    · obtain rfl := Except.ok.inj ((start_of_version hidle hmemory hversion).symm.trans hr)
      have hkept := hp.start_error env rfl _ hcall (Errno.neg_code_neg _)
      rw [hidle] at hkept
      cases hkept

/-- A STOP as it should be copies the measurement out. -/
theorem perfStop_sound {env : ReplyEnv} (hstep : s.step (.stop env) = some s')
    (hp : LifecycleKept s (.stop env) s') (hperf : s.xdmaPerf.isSome) : env.notCopied = 0 := by
  obtain rfl := Option.some.inj hstep
  obtain ⟨perf, hsome⟩ := Option.isSome_iff_exists.mp hperf
  by_contra hcopied
  have htracks := hp.tracks
  rw [ioctlDoPerfStop, hsome] at htracks
  dsimp only at htracks
  rw [if_pos hcopied] at htracks
  exact Bool.false_ne_true (htracks.mp rfl)

/-- A step as it should be is a sound one. -/
theorem perfSound_of_kept {c : PerfCall} (h : PerfInv s) (hstep : s.step c = some s')
    (hp : LifecycleKept s c s') : PerfSound s c where
  start env hc hidle hmemory := by
    subst hc
    exact perfStart_sound h hstep hp hidle hmemory
  stop env hc hperf := by
    subst hc
    exact perfStop_sound hstep hp hperf

end Wimi
