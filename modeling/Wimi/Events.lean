import Wimi.Kernel
import Wimi.Lib.Run

/-!
# User interrupt events

Runs of `user_irq_service` and any number of `char_events_read` calls on one events device. A
read waits for `events_irq` without the lock, takes and clears it under the lock, and returns,
in three steps any others may come between.

`events_kept_iff` : every read that returns 4 hands out an event, there are no more of them than
interrupts, and no interrupt is forgotten, exactly when no read takes the events that another
has taken since its wait, and every copy to the user succeeds. The flag is not looked at again
under the lock, so that two reads can be woken by one event.
-/

open Machine

namespace Wimi

/-! ## Events -/

/-- `user_irq_service`, on the flag `events_irq`. -/
def userIrqService (eventsIrq : U32) : U32 :=
  if eventsIrq = 0 then 1 else eventsIrq

/-- Where a call of `char_events_read` is. -/
inductive EventsRead
  /-- No call, or one that has returned `ret`. -/
  | returned (ret : ℤ)
  /-- It waits for `events_irq`. -/
  | waiting
  /-- Its wait is over. `stale` says that another read has taken the events since, and that no
  interrupt came after that. -/
  | woken (stale : Bool)
  /-- It has taken `events`. -/
  | taken (events : U32)
  deriving DecidableEq

/-- A read past its wait is told whether its events were taken. -/
def EventsRead.setStale (stale : Bool) : EventsRead → EventsRead
  | .woken _ => .woken stale
  | r => r

/-- An `xdma_irq` with its readers. `interrupts` counts those delivered, `unread` says that one
came after the events were last taken, and `handed` is what the reads that returned 4 have handed
to their callers, where a copy that failed hands over nothing. -/
structure EventsSession where
  eventsIrq : U32
  reads : ℕ → EventsRead
  interrupts : ℕ
  unread : Bool
  handed : List (Option U32)

inductive EventsStep
  /-- A user interrupt is delivered. -/
  | interrupt
  /-- A read of `count` bytes at `pos` begins. -/
  | enter (tid : ℕ) (count : U64) (pos : U64)
  /-- The read looks at `events_irq`. -/
  | wait (tid : ℕ) (signal : Bool)
  /-- The read takes and clears the events under the lock. -/
  | take (tid : ℕ)
  /-- The read copies them to the user, all but `uncopied` bytes, and returns. -/
  | finish (tid : ℕ) (uncopied : ℕ)

namespace EventsSession

/-- The session with the read of a thread replaced. -/
def setRead (s : EventsSession) (tid : ℕ) (r : EventsRead) : EventsSession :=
  { s with reads := Function.update s.reads tid r }

def interrupt (s : EventsSession) : EventsSession :=
  { s with
    eventsIrq := userIrqService s.eventsIrq
    reads := fun tid => (s.reads tid).setStale false
    interrupts := s.interrupts + 1
    unread := true }

def enter (s : EventsSession) (tid : ℕ) (count pos : U64) : Option EventsSession :=
  match s.reads tid with
  | .returned _ =>
    some (s.setRead tid
      (if count ≠ 4 ∨ pos &&& 3 ≠ 0 then .returned (-Errno.eproto.code) else .waiting))
  | _ => none

/-- `wait_event_interruptible` ends when the flag is set, and with an error when a signal comes
before that. -/
def wait (s : EventsSession) (tid : ℕ) (signal : Bool) : Option EventsSession :=
  match s.reads tid with
  | .waiting =>
    if s.eventsIrq ≠ 0 then some (s.setRead tid (.woken false))
    else if signal then some (s.setRead tid (.returned (-Errno.erestartsys.code)))
    else none
  | _ => none

def take (s : EventsSession) (tid : ℕ) : Option EventsSession :=
  match s.reads tid with
  | .woken _ =>
    some { s with
      eventsIrq := 0
      reads := Function.update (fun t => (s.reads t).setStale true) tid (.taken s.eventsIrq)
      unread := false }
  | _ => none

def finish (s : EventsSession) (tid uncopied : ℕ) : Option EventsSession :=
  match s.reads tid with
  | .taken events =>
    some { s.setRead tid (.returned 4) with
      handed := (if uncopied = 0 then some events else none) :: s.handed }
  | _ => none

/-- One step; none is a step that is not enabled. -/
def step (s : EventsSession) : EventsStep → Option EventsSession
  | .interrupt => some s.interrupt
  | .enter tid count pos => s.enter tid count pos
  | .wait tid signal => s.wait tid signal
  | .take tid => s.take tid
  | .finish tid uncopied => s.finish tid uncopied

/-- No event yet, and no read. -/
def start : EventsSession :=
  ⟨0, fun _ => .returned 0, 0, false, []⟩

end EventsSession

/-! ## Honest reads -/

/-- Every read that returned 4 has handed an event to its caller, there were no more of them
than interrupts, and an interrupt that came after the events were last taken is to be seen. -/
structure EventsHonest (s : EventsSession) : Prop where
  handed : ∀ v ∈ s.handed, ∃ events, v = some events ∧ events ≠ 0
  count : s.handed.length ≤ s.interrupts
  unread : s.unread = true → s.eventsIrq = 1

/-- Reads are honest, and those about to return have taken an event. -/
structure EventsKept (s : EventsSession) : Prop extends EventsHonest s where
  taken : ∀ tid events, s.reads tid = .taken events → events ≠ 0

/-- No read takes events that were taken since its wait, and every copy to the user succeeds. -/
structure TakesFresh (s : EventsSession) (i : EventsStep) : Prop where
  fresh : ∀ tid, i = .take tid → s.reads tid ≠ .woken true
  copied : ∀ tid uncopied, i = .finish tid uncopied → uncopied = 0

/-- What holds between the steps of a run whose reads take fresh events. The flag is 0 or 1, and
a read past its wait has lost its events exactly when the flag is clear. Each interrupt is paid
out once : to a read that has returned, to one of `l`, or to the flag. -/
structure EventsInv (s : EventsSession) : Prop extends EventsKept s where
  flag : s.eventsIrq = 0 ∨ s.eventsIrq = 1
  stale : ∀ tid stale, s.reads tid = .woken stale → (stale = true ↔ s.eventsIrq = 0)
  paid : ∃ l : Finset ℕ, (∀ tid events, s.reads tid = .taken events → tid ∈ l) ∧
    s.handed.length + l.card + s.eventsIrq.toNat ≤ s.interrupts

section Steps

variable {s s' : EventsSession} {tid : ℕ} {r : EventsRead}

theorem EventsRead.setStale_eq_taken {b : Bool} {events : U32} :
    r.setStale b = .taken events ↔ r = .taken events := by
  cases r <;> simp [EventsRead.setStale]

theorem EventsRead.eq_of_setStale_eq_woken {b stale : Bool} (h : r.setStale b = .woken stale) :
    stale = b := by
  cases r <;> simp_all [EventsRead.setStale]

/-- A read that moves to where it holds no events, fresh ones if it is woken, changes nothing
the others rely on. -/
theorem EventsInv.setRead (h : EventsInv s) (htaken : ∀ events, r ≠ .taken events)
    (hwoken : ∀ stale, r = .woken stale → (stale = true ↔ s.eventsIrq = 0)) :
    EventsInv (s.setRead tid r) := by
  have hreads {t : ℕ} {r' : EventsRead} (ht : (s.setRead tid r).reads t = r') :
      r = r' ∨ s.reads t = r' := by
    rcases eq_or_ne t tid with rfl | hne
    · exact .inl (by simpa [EventsSession.setRead] using ht)
    · exact .inr (by simpa [EventsSession.setRead, hne] using ht)
  obtain ⟨l, hl, hpaid⟩ := h.paid
  exact
    { handed := h.handed
      count := h.count
      unread := h.unread
      taken := fun t events ht => h.taken t events ((hreads ht).resolve_left (htaken events))
      flag := h.flag
      stale := fun t stale ht => (hreads ht).elim (hwoken stale) (h.stale t stale)
      paid := ⟨l, fun t events ht => hl t events ((hreads ht).resolve_left (htaken events)),
        hpaid⟩ }

/-- An interrupt is there to be read, and makes every read past its wait a fresh one. -/
theorem EventsInv.interrupt (h : EventsInv s) : EventsInv s.interrupt := by
  have hset : s.interrupt.eventsIrq = 1 := by
    rcases h.flag with h0 | h1
    · simp [EventsSession.interrupt, userIrqService, h0]
    · simp [EventsSession.interrupt, userIrqService, h1]
  obtain ⟨l, hl, hpaid⟩ := h.paid
  exact
    { handed := h.handed
      count := Nat.le_succ_of_le h.count
      unread := fun _ => hset
      taken := fun t events ht => h.taken t events (EventsRead.setStale_eq_taken.mp ht)
      flag := .inr hset
      stale := fun t stale ht => by
        rw [EventsRead.eq_of_setStale_eq_woken ht, hset]
        decide
      paid := by
        refine ⟨l, fun t events ht => hl t events (EventsRead.setStale_eq_taken.mp ht), ?_⟩
        have : s.interrupt.eventsIrq.toNat = 1 := by rw [hset]; rfl
        change s.handed.length + l.card + s.interrupt.eventsIrq.toNat ≤ s.interrupts + 1
        omega }

/-- A fresh read takes the event the flag stands for. -/
theorem EventsInv.take (h : EventsInv s) (hread : s.reads tid = .woken false)
    (hstep : s.take tid = some s') : EventsInv s' := by
  have hflag : s.eventsIrq = 1 :=
    h.flag.resolve_left fun h0 => absurd ((h.stale tid false hread).mpr h0) (by decide)
  simp only [EventsSession.take, hread, Option.some.injEq] at hstep
  subst hstep
  obtain ⟨l, hl, hpaid⟩ := h.paid
  have htaken {t : ℕ} {events : U32}
      (ht : Function.update (fun t => (s.reads t).setStale true) tid (.taken s.eventsIrq) t =
        .taken events) : (t = tid ∧ events = 1) ∨ s.reads t = .taken events := by
    rcases eq_or_ne t tid with rfl | hne
    · rw [Function.update_self, hflag] at ht
      cases ht
      exact .inl ⟨rfl, rfl⟩
    · rw [Function.update_of_ne hne, EventsRead.setStale_eq_taken] at ht
      exact .inr ht
  exact
    { handed := h.handed
      count := h.count
      unread := nofun
      taken := fun t events ht => by
        rcases htaken ht with ⟨-, rfl⟩ | ht
        · decide
        · exact h.taken t events ht
      flag := .inl rfl
      stale := fun t stale ht => by
        rcases eq_or_ne t tid with rfl | hne
        · simp at ht
        · simp only [Function.update_of_ne hne] at ht
          exact iff_of_true (EventsRead.eq_of_setStale_eq_woken ht) rfl
      paid := by
        refine ⟨insert tid l, fun t events ht => ?_, ?_⟩
        · rcases htaken ht with ⟨rfl, -⟩ | ht
          · exact Finset.mem_insert_self t l
          · exact Finset.mem_insert_of_mem (hl t events ht)
        · have hcard := Finset.card_insert_le tid l
          have : s.eventsIrq.toNat = 1 := by rw [hflag]; rfl
          change s.handed.length + (insert tid l).card + 0 ≤ s.interrupts
          omega }

/-- A read hands over the event it took. -/
theorem EventsInv.finish (h : EventsInv s) (hstep : s.finish tid 0 = some s') :
    EventsInv s' := by
  unfold EventsSession.finish at hstep
  split at hstep
  case h_2 => cases hstep
  rename_i events hread
  simp only [↓reduceIte, Option.some.injEq] at hstep
  subst hstep
  obtain ⟨l, hl, hpaid⟩ := h.paid
  have hcard : (l.erase tid).card + 1 = l.card :=
    Finset.card_erase_add_one (hl tid events hread)
  have hr : EventsInv (s.setRead tid (.returned 4)) := h.setRead nofun nofun
  exact
    { hr with
      handed := List.forall_mem_cons.mpr ⟨⟨events, rfl, h.taken tid events hread⟩, h.handed⟩
      count := by
        change s.handed.length + 1 ≤ s.interrupts
        omega
      paid := by
        refine ⟨l.erase tid, fun t v ht => ?_, ?_⟩
        · have hne : t ≠ tid := by
            rintro rfl
            simp [EventsSession.setRead] at ht
          refine Finset.mem_erase.mpr ⟨hne, hl t v ?_⟩
          simpa [EventsSession.setRead, hne] using ht
        · change s.handed.length + 1 + (l.erase tid).card + s.eventsIrq.toNat ≤ s.interrupts
          omega }

/-- A step whose read takes fresh events, or copies all it took, keeps the invariant. -/
theorem EventsInv.step {i : EventsStep} (h : EventsInv s) (hstep : s.step i = some s')
    (hfresh : TakesFresh s i) : EventsInv s' := by
  cases i with
  | interrupt =>
    cases hstep
    exact h.interrupt
  | enter tid count pos =>
    simp only [EventsSession.step, EventsSession.enter] at hstep
    split at hstep
    · cases hstep
      split_ifs
      · exact h.setRead nofun nofun
      · exact h.setRead nofun nofun
    · cases hstep
  | wait tid signal =>
    simp only [EventsSession.step, EventsSession.wait] at hstep
    split at hstep
    · split_ifs at hstep with hset
      · cases hstep
        exact h.setRead nofun fun stale hw => by cases hw; simpa using hset
      · cases hstep
        exact h.setRead nofun nofun
    · cases hstep
  | take tid =>
    have hread : s.reads tid = .woken false := by
      have hne := hfresh.fresh tid rfl
      simp only [EventsSession.step, EventsSession.take] at hstep
      split at hstep
      case h_2 => cases hstep
      rename_i stale hread
      cases stale with
      | false => exact hread
      | true => exact absurd hread hne
    exact h.take hread hstep
  | finish tid uncopied =>
    obtain rfl := hfresh.copied tid uncopied rfl
    exact h.finish hstep

/-- A read that takes nothing, or hands over nothing, is seen at once. -/
theorem EventsInv.fresh {i : EventsStep} (h : EventsInv s) (hstep : s.step i = some s')
    (hkept : EventsKept s') : TakesFresh s i := by
  constructor
  · rintro tid rfl hread
    have h0 : s.eventsIrq = 0 := (h.stale tid true hread).mp rfl
    simp only [EventsSession.step, EventsSession.take, hread, Option.some.injEq] at hstep
    subst hstep
    exact hkept.taken tid s.eventsIrq (by simp) h0
  · rintro tid uncopied rfl
    by_contra hne
    simp only [EventsSession.step, EventsSession.finish, hne, ↓reduceIte] at hstep
    split at hstep
    · cases hstep
      obtain ⟨events, hnone, -⟩ := hkept.handed none List.mem_cons_self
      cases hnone
    · cases hstep

end Steps

theorem EventsInv.start : EventsInv EventsSession.start where
  handed := nofun
  count := le_rfl
  unread := nofun
  taken := nofun
  flag := .inl rfl
  stale := nofun
  paid := ⟨∅, nofun, le_rfl⟩

/-- Reads are honest after every step of a run, if and only if no read takes the events another
has taken since its wait and every copy to the user succeeds. -/
theorem events_kept_iff (is : List EventsStep) :
    Along EventsSession.step (fun _ _ s' => EventsKept s') .start is ↔
      Along EventsSession.step (fun s i _ => TakesFresh s i) .start is :=
  along_iff
    (fun _ _ _ (h : EventsInv _) hstep hc => ⟨h.step hstep hc, (h.step hstep hc).toEventsKept⟩)
    (fun _ _ _ h hstep hp => h.fresh hstep hp) EventsInv.start

/-- Two reads are woken by one interrupt, and both return 4. -/
theorem not_events_honest :
    ¬ ∀ is, Along EventsSession.step (fun _ _ s' => EventsHonest s') .start is := by
  intro h
  have h := h [.enter 0 4 0, .enter 1 4 0, .interrupt, .wait 0 false, .wait 1 false,
    .take 0, .take 1, .finish 0 0, .finish 1 0]
  obtain ⟨-, h⟩ := h _ rfl
  obtain ⟨-, h⟩ := h _ rfl
  obtain ⟨-, h⟩ := h _ rfl
  obtain ⟨-, h⟩ := h _ rfl
  obtain ⟨-, h⟩ := h _ rfl
  obtain ⟨-, h⟩ := h _ rfl
  obtain ⟨-, h⟩ := h _ rfl
  obtain ⟨-, h⟩ := h _ rfl
  obtain ⟨h, -⟩ := h _ rfl
  exact absurd h.count (by decide)

end Wimi
