import Wimi.StreamIntegrity

/-!
# The readers and the scan

`engine_ring_process` scans the results of the ring, and `complete_cyclic` takes them from
`rx_head` on until it finds one unwritten; its test of `rx_head` against `rx_tail` is commented
out. Here the hardware may write any result at any time, and any number of threads read.

`reader_scanned_iff` : the readers stay in the scanned part of the ring exactly in the runs in
which `complete_cyclic` at `rx_tail` finds its result unwritten, unless the whole ring is unread,
and `rx_overrun` is not cleared with the whole ring unread.
-/

open Machine

namespace Wimi

/-- The step takes the engine lock, or goes on under it. -/
def RxStep.locks : RxStep → Bool
  | .serve | .poll | .complete => true
  | _ => false

def RxStep.locked : RxStep → Bool
  | .turn _ | .scan | .take => true
  | _ => false

/-- A streaming engine, with the number of results scanned. `readers` is where each thread is in
`char_sgdma_read_cyclic`, and `holder` the thread that last took the lock; the `reader` of `session`
is the thread that moved last. -/
structure ScannedSession where
  session : RxSession
  readers : ℕ → ReadPhase
  holder : ℕ
  scanned : ℕ

inductive ScannedStep
  /-- The hardware writes result `i`. -/
  | hardware (i : ℕ) (r : XdmaResult)
  | step (tid : ℕ) (i : RxStep)

/-- The results a step scans. -/
def RxSession.scans (s : RxSession) : RxStep → ℕ
  | .scan =>
    match s.lock with
    | .scan _ eopCount => if (engineRingTurn s.ring eopCount).isSome then 1 else 0
    | _ => 0
  | _ => 0

namespace ScannedSession

/-- The session as a thread finds it. -/
def view (s : ScannedSession) (tid : ℕ) : RxSession :=
  { s.session with reader := s.readers tid }

def step (s : ScannedSession) : ScannedStep → Option ScannedSession
  | .hardware i r =>
    some { s with session := { s.session with ring := s.session.ring.set i r } }
  | .step tid i =>
    if i.locked ∧ tid ≠ s.holder then none
    else
      ((s.view tid).step i).map fun session =>
        { session := session
          readers := Function.update s.readers tid session.reader
          holder := if i.locks then tid else s.holder
          scanned := s.scanned + s.session.scans i }

/-- A streaming engine that was just opened. -/
def start (pollMode : Bool) : ScannedSession :=
  ⟨.start pollMode, fun _ => .returned 0, 0, 0⟩

/-- The inversion lemma for the step of a thread. -/
theorem step_cases {s s' : ScannedSession} {tid : ℕ} {i : RxStep}
    (h : s.step (.step tid i) = some s') : ∃ t, (s.view tid).step i = some t ∧
      s'.session = t ∧ s'.scanned = s.scanned + s.session.scans i := by
  obtain ⟨-, h⟩ := Option.ite_none_left_eq_some.mp h
  obtain ⟨t, hmove, rfl⟩ := Option.map_eq_some_iff.mp h
  exact ⟨t, hmove, rfl, rfl⟩

end ScannedSession

/-! ## The scanned part of the ring -/

/-- The results from `rx_head` up to `rx_tail`. -/
def RxRing.distance (ring : RxRing) : ℕ :=
  (ring.rxTail + RX_BUF_PAGES - ring.rxHead) % RX_BUF_PAGES

/-- A result is taken only when one is scanned and not read, and the results from `rx_head` up to
`rx_tail` are those. -/
structure ReaderScanned (s s' : ScannedSession) : Prop where
  taken : s'.session.cleared ≠ s.session.cleared → s.session.cleared < s.scanned
  le : s'.session.cleared ≤ s'.scanned
  distance : s'.session.ring.rxOverrun = false →
    s'.session.ring.distance = s'.scanned - s'.session.cleared

/-- All results are scanned and none of them is read. -/
def ScannedSession.Full (s : ScannedSession) : Prop :=
  s.scanned = s.session.cleared + RX_BUF_PAGES

/-- A turn of `complete_cyclic` at `rx_tail` finds its result unwritten, unless the whole ring is
unread. `rx_overrun` is not cleared when it is. -/
structure StopsAtTail (s : ScannedSession) (i : RxStep) : Prop where
  take : i = .take → s.session.ring.rxHead = s.session.ring.rxTail → ¬ s.Full →
    (s.session.ring.result s.session.ring.rxHead).status = 0
  finish : i = .finish → ¬ s.Full

/-- The condition for the steps of the run. -/
def TailKept (s : ScannedSession) (i : ScannedStep) : Prop :=
  ∀ tid j, i = .step tid j → StopsAtTail s j

/-! ## Invariant -/

/-- `rx_head` and `rx_tail` count the results taken and scanned, less than a round apart unless
`rx_overrun` is set. -/
structure RingCounts (ring : RxRing) (cleared scanned : ℕ) : Prop where
  le : cleared ≤ scanned
  round : scanned ≤ cleared + RX_BUF_PAGES
  head : ring.rxHead = cleared % RX_BUF_PAGES
  tail : ring.rxTail = scanned % RX_BUF_PAGES
  clear : ring.rxOverrun = false → scanned < cleared + RX_BUF_PAGES

section Counts

variable {ring : RxRing} {cleared scanned : ℕ}

/-- The head is at the tail when all or none of the results scanned are read. -/
theorem RingCounts.head_eq_tail (h : RingCounts ring cleared scanned) :
    ring.rxHead = ring.rxTail ↔ scanned = cleared ∨ scanned = cleared + RX_BUF_PAGES := by
  obtain ⟨hle, hround, hhead, htail, -⟩ := h
  rw [hhead, htail]
  simp only [RX_BUF_PAGES] at *
  omega

theorem RingCounts.distance (h : RingCounts ring cleared scanned) :
    ring.distance = (scanned - cleared) % RX_BUF_PAGES := by
  obtain ⟨hle, hround, hhead, htail, -⟩ := h
  rw [RxRing.distance, hhead, htail]
  simp only [RX_BUF_PAGES] at *
  omega

/-- One result more is scanned. -/
theorem RingCounts.scan (h : RingCounts ring cleared scanned) {ring' : RxRing} {n n' : ℕ}
    (hturn : engineRingTurn ring n = some (ring', n')) :
    RingCounts ring' cleared (scanned + 1) := by
  obtain ⟨⟨-, hclear⟩, hturn⟩ := Option.ite_none_right_eq_some.mp hturn
  obtain ⟨rfl, -⟩ := Prod.mk.inj (Option.some.inj hturn)
  have hoverrun : ring.rxOverrun = false := Bool.eq_false_iff.mpr hclear
  have hlt := h.clear hoverrun
  obtain ⟨hle, hround, hhead, htail, -⟩ := h
  have hround' : (ring.rxTail + 1) % RX_BUF_PAGES = ring.rxHead ↔
      scanned + 1 = cleared + RX_BUF_PAGES := by
    rw [hhead, htail]
    simp only [RX_BUF_PAGES] at *
    omega
  refine ⟨by omega, by omega, hhead, ?_, fun hflag => ?_⟩
  · exact htail ▸ Nat.mod_add_mod _ _ _
  · by_cases hend : (ring.rxTail + 1) % RX_BUF_PAGES = ring.rxHead
    · rw [if_pos hend] at hflag
      cases hflag
    · exact lt_of_le_of_ne hlt fun heq => hend (hround'.mpr heq)

/-- One of the results scanned is read. -/
theorem RingCounts.take (h : RingCounts ring cleared scanned) (hlt : cleared < scanned) :
    RingCounts ring.clearHead (cleared + 1) scanned where
  le := hlt
  round := by have := h.round; omega
  head := by
    change (ring.rxHead + 1) % RX_BUF_PAGES = _
    rw [h.head, Nat.mod_add_mod]
  tail := h.tail
  clear hflag := by have := h.clear hflag; omega

end Counts

/-! ## Steps -/

section Steps

variable {s s' : RxSession} {scanned : ℕ}

/-- A turn of the scan. -/
theorem RingCounts.scanStep (h : RingCounts s.ring s.cleared scanned) (hstep : s.scan = some s') :
    RingCounts s'.ring s'.cleared (scanned + s.scans .scan) ∧ s'.cleared = s.cleared := by
  obtain ⟨caller, n, hlock, hcases⟩ := RxSession.scan_cases hstep
  have hscans : s.scans .scan = if (engineRingTurn s.ring n).isSome then 1 else 0 := by
    rw [RxSession.scans, hlock]
  rw [hscans]
  obtain ⟨ring, n', hturn, rfl⟩ | ⟨hturn, -, rfl⟩ | ⟨hturn, -, rfl⟩ := hcases
  all_goals rw [hturn]
  · exact ⟨h.scan hturn, rfl⟩
  · split <;> exact ⟨h, rfl⟩
  · exact ⟨{ h with }, rfl⟩

/-- A turn of `complete_cyclic` takes a result, unless it finds it unwritten. -/
theorem RingCounts.takeStep (h : RingCounts s.ring s.cleared scanned) (hstep : s.take = some s') :
    (s'.cleared = s.cleared ∧ s'.ring = s.ring ∧ (s.ring.result s.ring.rxHead).status = 0) ∨
      s'.cleared = s.cleared + 1 ∧ (s.ring.result s.ring.rxHead).status ≠ 0 ∧
        (s.cleared < scanned → RingCounts s'.ring s'.cleared scanned) := by
  obtain ⟨c, -, ⟨hzero, rfl⟩ | ⟨hwritten, rfl⟩⟩ := RxSession.take_cases hstep
  · exact .inl ⟨rfl, rfl, hzero⟩
  · refine .inr ?_
    split <;> exact ⟨rfl, hwritten, h.take⟩

/-- A step that does not scan, take or clear the flag. -/
def RxStep.Plain : RxStep → Prop
  | .scan | .take | .finish => False
  | _ => True

theorem RingCounts.plainStep {i : RxStep} (h : RingCounts s.ring s.cleared scanned)
    (hstep : s.step i = some s') (hi : i.Plain) :
    RingCounts s'.ring s'.cleared (scanned + s.scans i) ∧ s'.cleared = s.cleared := by
  cases i with
  | scan => exact hi.elim
  | take => exact hi.elim
  | finish => exact hi.elim
  | write r =>
    obtain ⟨-, -, rfl⟩ := RxSession.write_cases hstep
    exact ⟨{ h with }, rfl⟩
  | serve =>
    obtain ⟨-, rfl⟩ := RxSession.serve_cases hstep
    exact ⟨h, rfl⟩
  | turn err =>
    obtain ⟨caller, -, rfl⟩ := RxSession.turn_cases hstep
    split <;> exact ⟨h, rfl⟩
  | enter =>
    obtain ⟨ret, -, rfl⟩ := RxSession.enter_cases hstep
    exact ⟨h, rfl⟩
  | wait signal =>
    obtain ⟨-, -, rfl | rfl⟩ := RxSession.wait_cases hstep
    · exact ⟨h, rfl⟩
    · exact ⟨h, rfl⟩
  | poll =>
    obtain ⟨-, -, -, rfl⟩ := RxSession.poll_cases hstep
    exact ⟨h, rfl⟩
  | test =>
    obtain ⟨-, rfl⟩ := RxSession.test_cases hstep
    exact ⟨h, rfl⟩
  | complete =>
    obtain ⟨-, -, rfl⟩ := RxSession.complete_cases hstep
    exact ⟨h, rfl⟩

end Steps

/-! ## Runs -/

/-- What holds between any two steps. -/
def ScanInv (s : ScannedSession) : Prop :=
  RingCounts s.session.ring s.session.cleared s.scanned

theorem scanInv_start (pollMode : Bool) : ScanInv (.start pollMode) :=
  ⟨le_rfl, Nat.zero_le _, rfl, rfl, fun _ => (by decide : 0 < 0 + RX_BUF_PAGES)⟩

section Runs

variable {s s' : ScannedSession}

/-- Between steps the distance is right. -/
theorem ScanInv.readerScanned (h : ScanInv s')
    (htaken : s'.session.cleared ≠ s.session.cleared → s.session.cleared < s.scanned) :
    ReaderScanned s s' where
  taken := htaken
  le := h.le
  distance hflag := by
    have hlt := h.clear hflag
    have hle := h.le
    rw [RingCounts.distance h]
    exact Nat.mod_eq_of_lt (by omega)

/-- A turn of `complete_cyclic` takes a result that is scanned exactly when it stops at the
tail. -/
theorem ScanInv.take (h : ScanInv s) {tid : ℕ} (hstep : s.step (.step tid .take) = some s') :
    (StopsAtTail s .take ↔ ReaderScanned s s') ∧ (StopsAtTail s .take → ScanInv s') := by
  obtain ⟨t, hmove, rfl, hscanned⟩ := ScannedSession.step_cases hstep
  replace hscanned : s'.scanned = s.scanned := hscanned
  have hle : s.session.cleared ≤ s.scanned := h.le
  -- a result at the tail is there to be taken when the whole ring is unread
  have hread : ¬ s.session.cleared < s.scanned ↔
      s.session.ring.rxHead = s.session.ring.rxTail ∧ ¬ s.Full := by
    have hpages : RX_BUF_PAGES = 256 := rfl
    rw [RingCounts.head_eq_tail h, ScannedSession.Full]
    omega
  have hmoved := RingCounts.takeStep (s := s.view tid) h hmove
  rcases hmoved with ⟨hcleared, hring, hzero⟩ | ⟨hcleared, hwritten, hcounts⟩
  · have hinv : ScanInv s' := by
      rw [ScanInv, hcleared, hring, hscanned]
      exact h
    exact ⟨iff_of_true ⟨fun _ _ _ => hzero, nofun⟩
      (hinv.readerScanned fun hne => absurd hcleared hne), fun _ => hinv⟩
  · have hmust (hstop : StopsAtTail s .take) : s.session.cleared < s.scanned := by
      by_contra hnot
      obtain ⟨hhead, hnone⟩ := hread.mp hnot
      exact hwritten (hstop.take rfl hhead hnone)
    have hinv (hlt : s.session.cleared < s.scanned) : ScanInv s' := by
      rw [ScanInv, hscanned]
      exact hcounts hlt
    refine ⟨⟨fun hstop => (hinv (hmust hstop)).readerScanned fun _ => hmust hstop,
      fun hscan => ⟨fun _ hhead hnone => ?_, nofun⟩⟩, fun hstop => hinv (hmust hstop)⟩
    have hlt := hscan.taken (by rw [hcleared]; exact (Nat.lt_succ_self _).ne')
    exact absurd hlt (hread.mpr ⟨hhead, hnone⟩)

/-- The flag is cleared with less than the ring unread exactly when the distance is right then. -/
theorem ScanInv.finish (h : ScanInv s) {tid : ℕ} (hstep : s.step (.step tid .finish) = some s') :
    (StopsAtTail s .finish ↔ ReaderScanned s s') ∧ (StopsAtTail s .finish → ScanInv s') := by
  obtain ⟨t, hmove, rfl, hscanned⟩ := ScannedSession.step_cases hstep
  replace hscanned : s'.scanned = s.scanned := hscanned
  obtain ⟨rc, -, hmoved⟩ := RxSession.finish_cases hmove
  have hstops : StopsAtTail s .finish ↔ ¬ s.Full :=
    ⟨fun hstop => hstop.finish rfl, fun hnone => ⟨nofun, fun _ => hnone⟩⟩
  have hinv (hnone : ¬ s.Full) : ScanInv s' := by
    rw [ScanInv, hmoved, hscanned]
    exact { h with clear := fun _ => lt_of_le_of_ne h.round hnone }
  have hcleared : s'.session.cleared = s.session.cleared := by
    rw [hmoved]
    rfl
  rw [hstops]
  refine ⟨⟨fun hnone => (hinv hnone).readerScanned fun hne => absurd hcleared hne,
    fun hscan hfull => ?_⟩, hinv⟩
  -- the whole ring is unread, and the indices are the same
  have hdistance := hscan.distance (by rw [hmoved])
  have hsame : s'.session.ring.distance = s.session.ring.distance := by
    rw [hmoved]
    rfl
  rw [hsame, RingCounts.distance h, hcleared, hscanned, hfull, Nat.add_sub_cancel_left,
    Nat.mod_self] at hdistance
  exact absurd hdistance (by decide)

/-- The step lemma. -/
theorem ScanInv.step {i : ScannedStep} (h : ScanInv s) (hstep : s.step i = some s') :
    (TailKept s i ↔ ReaderScanned s s') ∧ (TailKept s i → ScanInv s') := by
  -- a step that takes nothing and is free of the condition
  have hfree : ScanInv s' → s'.session.cleared = s.session.cleared → TailKept s i →
      (TailKept s i ↔ ReaderScanned s s') ∧ (TailKept s i → ScanInv s') :=
    fun h' heq hkept =>
      ⟨iff_of_true hkept (h'.readerScanned fun hne => absurd heq hne), fun _ => h'⟩
  cases i with
  | hardware i r =>
    obtain rfl := Option.some.inj hstep
    exact hfree { h with } rfl nofun
  | step tid i =>
    have hkept : TailKept s (.step tid i) ↔ StopsAtTail s i := by
      refine ⟨fun hall => hall tid i rfl, fun hstop tid' j hj => ?_⟩
      obtain ⟨-, rfl⟩ := ScannedStep.step.inj hj
      exact hstop
    rw [hkept]
    rw [hkept] at hfree
    by_cases hi : i.Plain
    · obtain ⟨t, hmove, rfl, hscanned⟩ := ScannedSession.step_cases hstep
      obtain ⟨h', heq⟩ := RingCounts.plainStep (s := s.view tid) h hmove hi
      refine hfree ?_ heq ⟨?_, ?_⟩
      · rw [ScanInv, hscanned]
        exact h'
      · rintro rfl
        exact hi.elim
      · rintro rfl
        exact hi.elim
    cases i with
    | scan =>
      obtain ⟨t, hmove, rfl, hscanned⟩ := ScannedSession.step_cases hstep
      obtain ⟨h', heq⟩ := RingCounts.scanStep (s := s.view tid) h hmove
      refine hfree ?_ heq ⟨nofun, nofun⟩
      rw [ScanInv, hscanned]
      exact h'
    | take => exact h.take hstep
    | finish => exact h.finish hstep
    | _ => exact absurd trivial hi

end Runs

/-- In every run from an opened engine, in interrupt and in poll mode, every step keeps the readers
in the scanned part of the ring if and only if every turn of `complete_cyclic` at the tail
finds its result unwritten, unless the whole ring is unread, and `rx_overrun` is never cleared with
the whole ring unread. -/
theorem reader_scanned_iff (pollMode : Bool) (is : List ScannedStep) :
    Along ScannedSession.step (fun s _ s' => ReaderScanned s s') (.start pollMode) is ↔
      Along ScannedSession.step (fun s i _ => TailKept s i) (.start pollMode) is :=
  along_iff (fun _ _ _ h hstep hc => ⟨(ScanInv.step h hstep).2 hc, (ScanInv.step h hstep).1.mp hc⟩)
    (fun _ _ _ h hstep hp => (ScanInv.step h hstep).1.mpr hp) (scanInv_start pollMode)

/-- A packet is scanned and read; the read of the next one does not wait, as `eop_found` is still
set, and takes a result that was not scanned. -/
theorem reader_passes_scan :
    ¬ ∀ is : List ScannedStep,
      Along ScannedSession.step (fun s _ s' => ReaderScanned s s') (.start false) is := by
  intro h
  have hrun := h ([.write ⟨0x52B40001, 64⟩, .serve, .scan, .scan, .enter, .wait false, .test,
    .complete, .take, .finish, .write ⟨0x52B40001, 64⟩, .enter, .wait false, .test, .complete,
    .take].map (.step 0))
  have hlast := ((((((((((((((((hrun _ rfl).2 _ rfl).2 _ rfl).2 _ rfl).2 _ rfl).2 _ rfl).2
    _ rfl).2 _ rfl).2 _ rfl).2 _ rfl).2 _ rfl).2 _ rfl).2 _ rfl).2 _ rfl).2 _ rfl).2 _ rfl).1
  exact absurd (hlast.taken (by decide)) (by decide)

end Wimi
