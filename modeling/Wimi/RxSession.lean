import Wimi.Ring
import Wimi.Lib.Run

/-!
# Reading off the ring

Runs of the hardware writing results, of the deferred work servicing a streaming engine, and
of one reader in `char_sgdma_read_cyclic`, in interrupt and in poll mode. What runs under the
engine lock is taken turn by turn, and the hardware may write between any two.
-/

namespace Wimi

/-- Who services the engine : the deferred work, or the reader when it polls. -/
inductive Caller
  | worker
  | reader

/-- What runs under the engine lock. -/
inductive RingLock
  | free
  /-- At the head of the loop of `engine_service_cyclic_polled`. -/
  | turn (caller : Caller)
  /-- In `engine_ring_process`. -/
  | scan (caller : Caller) (eopCount : ℕ)
  /-- In the loop of `complete_cyclic`. -/
  | complete (c : Completion)

/-- Where `char_sgdma_read_cyclic` is. -/
inductive ReadPhase
  /-- No read, or one that has returned `ret`. -/
  | returned (ret : ℤ)
  /-- At the head of the loop of `transfer_monitor_cyclic`. -/
  | wait
  /-- At the end of its body. -/
  | test
  /-- In `complete_cyclic`, before it takes the lock. -/
  | ready
  /-- Back from it. -/
  | completed (rc : ℤ)

/-- A streaming engine and its reader. `written` are the results the hardware has written,
`cleared` of which were cleared, and `delivered` is what was passed to `copy_cyclic_to_user`. -/
structure RxSession where
  pollMode : Bool
  ring : RxRing
  lock : RingLock
  reader : ReadPhase
  written : List XdmaResult
  cleared : ℕ
  delivered : List (ℕ × ℤ)

inductive RxStep
  /-- The hardware writes its next result. -/
  | write (r : XdmaResult)
  /-- The deferred work takes the lock. -/
  | serve
  /-- The loop of `engine_service_cyclic_polled` looks for an error in the writeback word. -/
  | turn (err : Bool)
  /-- One turn of the loop of `engine_ring_process`. -/
  | scan
  /-- A read begins. -/
  | enter
  /-- The reader waits for `eop_found`. -/
  | wait (signal : Bool)
  /-- The reader polls, and takes the lock. -/
  | poll
  /-- The reader looks at the result at the head of the ring. -/
  | test
  /-- The reader takes the lock in `complete_cyclic`. -/
  | complete
  /-- One turn of the loop of `complete_cyclic`. -/
  | take
  /-- The read returns. -/
  | finish

/-- A result as the hardware writes it. -/
def XdmaResult.Valid (r : XdmaResult) : Prop :=
  r.status >>> 16 = C2H_WB ∧ 1 ≤ r.length ∧ r.length ≤ RX_BUF_BLOCK

instance (r : XdmaResult) : Decidable r.Valid :=
  inferInstanceAs (Decidable (_ ∧ _ ∧ _))

namespace RxSession

/-- The hardware writes to consecutive results, and never to one that is not cleared. -/
def write (s : RxSession) (r : XdmaResult) : Option RxSession :=
  let i := s.written.length % RX_BUF_PAGES
  if r.Valid ∧ (s.ring.result i).status = 0 then
    some { s with ring := s.ring.set i r, written := s.written ++ [r] }
  else none

/-- `engine_service_cyclic` returns `rc` and the lock is released. -/
def serviced (s : RxSession) (caller : Caller) (rc : ℤ) : RxSession :=
  { s with
    lock := .free
    reader :=
      match caller with
      | .worker => s.reader
      | .reader => if rc ≠ 0 then .returned (-Errno.erestartsys.code) else .test }

def serve (s : RxSession) : Option RxSession :=
  match s.lock with
  | .free => some { s with lock := if s.pollMode then .turn .worker else .scan .worker 0 }
  | _ => none

def turn (s : RxSession) (err : Bool) : Option RxSession :=
  match s.lock with
  | .turn caller => some (if err then s.serviced caller (-1) else { s with lock := .scan caller 0 })
  | _ => none

/-- At the end of the scan, the polled variant goes on until it has seen the end of a packet,
and the interrupt variant wakes the reader when it has. -/
def scan (s : RxSession) : Option RxSession :=
  match s.lock with
  | .scan caller eopCount =>
    match engineRingTurn s.ring eopCount with
    | some (ring, eopCount) => some { s with ring := ring, lock := .scan caller eopCount }
    | none =>
      if s.pollMode then
        some (if eopCount = 0 then { s with lock := .turn caller } else s.serviced caller 0)
      else
        let eopFound := if eopCount > 0 then true else s.ring.eopFound
        some ({ s with ring := { s.ring with eopFound := eopFound } }.serviced caller 0)
  | _ => none

def enter (s : RxSession) : Option RxSession :=
  match s.reader with
  | .returned _ => some { s with reader := .wait }
  | _ => none

def wait (s : RxSession) (signal : Bool) : Option RxSession :=
  match s.reader with
  | .wait =>
    if s.pollMode then none
    else if s.ring.eopFound then some { s with reader := .test }
    else if signal then some { s with reader := .returned (-Errno.erestartsys.code) }
    else none
  | _ => none

def poll (s : RxSession) : Option RxSession :=
  match s.reader, s.lock with
  | .wait, .free => if s.pollMode then some { s with lock := .turn .reader } else none
  | _, _ => none

def test (s : RxSession) : Option RxSession :=
  match s.reader with
  | .test =>
    some { s with
      reader := if (s.ring.result s.ring.rxHead).status = 0 then .wait else .ready }
  | _ => none

def complete (s : RxSession) : Option RxSession :=
  match s.reader, s.lock with
  | .ready, .free => some { s with lock := .complete (.start s.ring) }
  | _, _ => none

/-- `complete_cyclic` leaves its loop, releases the lock and hands the packet out. -/
def leave (s : RxSession) (c : Completion) : RxSession :=
  { s with
    lock := .free
    reader := .completed c.rc
    delivered := s.delivered ++ c.copied.toList }

def take (s : RxSession) : Option RxSession :=
  match s.lock with
  | .complete c =>
    match completeTurn s.ring c with
    | none => some (s.leave c)
    | some (ring, c) =>
      let s := { s with ring := ring, cleared := s.cleared + 1 }
      some (if c.Stops then s.leave c else { s with lock := .complete c })
  | _ => none

def finish (s : RxSession) : Option RxSession :=
  match s.reader with
  | .completed rc =>
    some { s with ring := { s.ring with rxOverrun := false }, reader := .returned rc }
  | _ => none

/-- One step; none is a step that is not enabled. -/
def step (s : RxSession) : RxStep → Option RxSession
  | .write r => s.write r
  | .serve => s.serve
  | .turn err => s.turn err
  | .scan => s.scan
  | .enter => s.enter
  | .wait signal => s.wait signal
  | .poll => s.poll
  | .test => s.test
  | .complete => s.complete
  | .take => s.take
  | .finish => s.finish

/-- A streaming engine that was just opened. -/
def start (pollMode : Bool) : RxSession :=
  ⟨pollMode, RxRing.setup, .free, .returned 0, [], 0, []⟩

/-! ## What each step can do -/

section Steps

variable {s s' : RxSession}

theorem write_cases {r : XdmaResult} (h : s.write r = some s') :
    r.Valid ∧ (s.ring.result (s.written.length % RX_BUF_PAGES)).status = 0 ∧
      s' = { s with
        ring := s.ring.set (s.written.length % RX_BUF_PAGES) r
        written := s.written ++ [r] } := by
  obtain ⟨⟨hvalid, hempty⟩, h⟩ := Option.ite_none_right_eq_some.mp h
  exact ⟨hvalid, hempty, (Option.some.inj h).symm⟩

theorem serve_cases (h : s.serve = some s') : s.lock = .free ∧
    s' = { s with lock := if s.pollMode then .turn .worker else .scan .worker 0 } := by
  unfold serve at h
  split at h
  · next hlock => exact ⟨hlock, (Option.some.inj h).symm⟩
  · cases h

theorem turn_cases {err : Bool} (h : s.turn err = some s') : ∃ caller, s.lock = .turn caller ∧
    s' = if err then s.serviced caller (-1) else { s with lock := .scan caller 0 } := by
  unfold turn at h
  split at h
  · next caller hlock => exact ⟨caller, hlock, (Option.some.inj h).symm⟩
  · cases h

/-- A turn of the scan goes over a result; at its end the lock is released, but for the polled
variant that has seen no packet. -/
theorem scan_cases (h : s.scan = some s') : ∃ caller n, s.lock = .scan caller n ∧
    ((∃ ring n', engineRingTurn s.ring n = some (ring, n') ∧
        s' = { s with ring := ring, lock := .scan caller n' }) ∨
      engineRingTurn s.ring n = none ∧ s.pollMode = true ∧
        s' = (if n = 0 then { s with lock := .turn caller } else s.serviced caller 0) ∨
      engineRingTurn s.ring n = none ∧ s.pollMode = false ∧
        s' = { s with ring := { s.ring with
          eopFound := if n > 0 then true else s.ring.eopFound } }.serviced caller 0) := by
  unfold scan at h
  split at h
  case h_2 => cases h
  next caller n hlock =>
  refine ⟨caller, n, hlock, ?_⟩
  split at h
  · next ring n' hturn => exact .inl ⟨ring, n', hturn, (Option.some.inj h).symm⟩
  next hturn =>
  refine .inr ?_
  split at h
  · next hmode => exact .inl ⟨hturn, hmode, (Option.some.inj h).symm⟩
  · next hmode => exact .inr ⟨hturn, Bool.eq_false_iff.mpr hmode, (Option.some.inj h).symm⟩

theorem enter_cases (h : s.enter = some s') :
    ∃ ret, s.reader = .returned ret ∧ s' = { s with reader := .wait } := by
  unfold enter at h
  split at h
  · next ret hreader => exact ⟨ret, hreader, (Option.some.inj h).symm⟩
  · cases h

theorem wait_cases {signal : Bool} (h : s.wait signal = some s') :
    s.reader = .wait ∧ s.pollMode = false ∧ (s' = { s with reader := .test } ∨
      s' = { s with reader := .returned (-Errno.erestartsys.code) }) := by
  unfold wait at h
  split at h
  case h_2 => cases h
  next hreader =>
  obtain ⟨hmode, h⟩ := Option.ite_none_left_eq_some.mp h
  refine ⟨hreader, Bool.eq_false_iff.mpr hmode, ?_⟩
  split at h
  · exact .inl (Option.some.inj h).symm
  · obtain ⟨-, h⟩ := Option.ite_none_right_eq_some.mp h
    exact .inr (Option.some.inj h).symm

theorem poll_cases (h : s.poll = some s') : s.reader = .wait ∧ s.lock = .free ∧
    s.pollMode = true ∧ s' = { s with lock := .turn .reader } := by
  unfold poll at h
  split at h
  · next hreader hlock =>
    obtain ⟨hmode, h⟩ := Option.ite_none_right_eq_some.mp h
    exact ⟨hreader, hlock, hmode, (Option.some.inj h).symm⟩
  · cases h

theorem test_cases (h : s.test = some s') : s.reader = .test ∧ s' = { s with
    reader := if (s.ring.result s.ring.rxHead).status = 0 then .wait else .ready } := by
  unfold test at h
  split at h
  · next hreader => exact ⟨hreader, (Option.some.inj h).symm⟩
  · cases h

theorem complete_cases (h : s.complete = some s') : s.reader = .ready ∧ s.lock = .free ∧
    s' = { s with lock := .complete (.start s.ring) } := by
  unfold complete at h
  split at h
  · next hreader hlock => exact ⟨hreader, hlock, (Option.some.inj h).symm⟩
  · cases h

theorem finish_cases (h : s.finish = some s') : ∃ rc, s.reader = .completed rc ∧
    s' = { s with ring := { s.ring with rxOverrun := false }, reader := .returned rc } := by
  unfold finish at h
  split at h
  · next rc hreader => exact ⟨rc, hreader, (Option.some.inj h).symm⟩
  · cases h

end Steps

end RxSession

end Wimi
