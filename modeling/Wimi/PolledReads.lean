import Wimi.ScannedRing

/-!
# Polled reads

In poll mode a read services the ring itself. `engine_service_cyclic_polled` goes round its loop,
with the engine lock held, until a scan from `rx_tail` on meets the end of a packet, even if
complete packets that an earlier scan went over are still unread.

`polledRead_returns_iff` : with a complete packet in the ring and no more writes of the hardware,
a read returns, and its loop ends, exactly when the writeback word has its error flag set or the
results not scanned yet hold the end of a packet.
-/

open Machine

namespace Wimi

/-! ## What the ring holds -/

/-- Of the `n` results from `i` on, one ends a packet and those up to it are written. -/
def RxRing.holdsPacket (ring : RxRing) (i : ℕ) : ℕ → Bool
  | 0 => false
  | n + 1 =>
    (ring.result i).status ≠ 0 &&
      ((ring.result i).eop || ring.holdsPacket ((i + 1) % RX_BUF_PAGES) n)

/-- How many results `engine_ring_process` may go over. -/
def RxRing.unscanned (ring : RxRing) : ℕ :=
  if ring.rxOverrun then 0 else RX_BUF_PAGES - ring.distance

/-- The indices are within the ring. -/
structure RxRing.Bounded (ring : RxRing) : Prop where
  head : ring.rxHead < RX_BUF_PAGES
  tail : ring.rxTail < RX_BUF_PAGES

/-! ## A read by itself -/

namespace RxSession

/-- The next step of a read that polls, with the error flag of the writeback word `err`. -/
def readStep (err : Bool) (s : RxSession) : Option RxSession :=
  match s.lock, s.reader with
  | .turn .reader, _ => s.turn err
  | .scan .reader _, _ => s.scan
  | .complete _, _ => s.take
  | _, .wait => s.poll
  | _, .test => s.test
  | _, .ready => s.complete
  | _, .completed _ => s.finish
  | _, .returned _ => none

/-- A read that begins here comes to `P`, with nothing written by the hardware. -/
def ReadComes (err : Bool) (P : RxSession → Prop) (s : RxSession) : Prop :=
  ∃ t, s.enter = some t ∧ Comes (readStep err) P t

/-- The read returns. -/
def ReadReturns (err : Bool) : RxSession → Prop :=
  ReadComes err fun t => ∃ ret, t.reader = .returned ret

/-- Its call of `engine_service_cyclic_polled` returns. -/
def PollReturns (err : Bool) : RxSession → Prop :=
  ReadComes err fun t => t.lock = .free ∧ t.reader ≠ .wait

end RxSession

/-! ## Scans -/

section Scans

variable {ring ring' : RxRing} {n n' : ℕ}

theorem RxRing.holdsPacket_succ (i n : ℕ) :
    ring.holdsPacket i (n + 1) = true ↔ (ring.result i).status ≠ 0 ∧
      ((ring.result i).eop = true ∨ ring.holdsPacket ((i + 1) % RX_BUF_PAGES) n = true) := by
  rw [holdsPacket, Bool.and_eq_true, decide_eq_true_iff, Bool.or_eq_true]

theorem RxRing.holdsPacket_congr (h : ring'.result = ring.result) (i n : ℕ) :
    ring'.holdsPacket i n = ring.holdsPacket i n := by
  induction n generalizing i with
  | zero => rfl
  | succ n ih => rw [holdsPacket, holdsPacket, h, ih]

/-- The scan is over when it finds nothing it may go over. -/
theorem engineRingTurn_none (h : engineRingTurn ring n = none) :
    ¬ ring.holdsPacket ring.rxTail ring.unscanned = true := by
  rcases hflag : ring.rxOverrun with _ | _
  · have hzero : (ring.result ring.rxTail).status = 0 := by
      by_contra hne
      rw [engineRingTurn, if_pos ⟨hne, Bool.eq_false_iff.mp hflag⟩] at h
      cases h
    rcases ring.unscanned with _ | n
    · exact Bool.false_ne_true
    · exact fun hpacket => ((RxRing.holdsPacket_succ _ _).mp hpacket).1 hzero
  · rw [RxRing.unscanned, if_pos hflag]
    exact Bool.false_ne_true

/-- One turn goes over one result, which ends a packet or not. -/
theorem engineRingTurn_some (hbound : ring.Bounded) (h : engineRingTurn ring n = some (ring', n')) :
    ring'.Bounded ∧ ring.unscanned = ring'.unscanned + 1 ∧ n ≤ n' ∧
      (ring.holdsPacket ring.rxTail ring.unscanned = true ↔
        n < n' ∨ ring'.holdsPacket ring'.rxTail ring'.unscanned = true) := by
  obtain ⟨⟨hwritten, hclear⟩, h⟩ := Option.ite_none_right_eq_some.mp h
  obtain ⟨hring, hn⟩ := Prod.mk.inj (Option.some.inj h)
  have hflag : ring.rxOverrun = false := Bool.eq_false_iff.mpr hclear
  obtain ⟨hhead, htail⟩ := hbound
  have htail' : ring'.rxTail = (ring.rxTail + 1) % RX_BUF_PAGES := by rw [← hring]
  have hresult : ring'.result = ring.result := by rw [← hring]
  have hunscanned : ring.unscanned = ring'.unscanned + 1 := by
    rw [RxRing.unscanned, RxRing.unscanned, ← hring, if_neg (Bool.eq_false_iff.mp hflag), hflag]
    by_cases hend : (ring.rxTail + 1) % RX_BUF_PAGES = ring.rxHead
    · rw [if_pos hend, if_pos rfl]
      simp only [RxRing.distance, RX_BUF_PAGES] at hhead htail hend ⊢
      omega
    · rw [if_neg hend, if_neg Bool.false_ne_true]
      simp only [RxRing.distance, RX_BUF_PAGES] at hhead htail hend ⊢
      omega
  refine ⟨⟨?_, ?_⟩, hunscanned, ?_, ?_⟩
  · rw [← hring]
    exact hhead
  · rw [htail']
    exact Nat.mod_lt _ (by decide)
  · rw [← hn]
    split <;> omega
  · have heop : n < n' ↔ (ring.result ring.rxTail).eop = true := by
      rw [← hn]
      split
      · next h => exact iff_of_true (Nat.lt_succ_self n) h
      · next h => exact iff_of_false (lt_irrefl n) h
    rw [hunscanned, RxRing.holdsPacket_succ, heop, htail', RxRing.holdsPacket_congr hresult]
    exact and_iff_right hwritten

end Scans

/-! ## The loop of `engine_service_cyclic_polled` -/

section Loop

variable {s : RxSession}

/-- The service of a reader that polls is over. -/
theorem scan_of_end {n : ℕ} (hlock : s.lock = .scan .reader n) (hmode : s.pollMode = true)
    (hturn : engineRingTurn s.ring n = none) :
    s.scan = some (if n = 0 then { s with lock := .turn .reader } else s.serviced .reader 0) := by
  simp only [RxSession.scan, hlock, hturn, hmode, if_true]

theorem scan_of_turn {n n' : ℕ} {ring : RxRing} (hlock : s.lock = .scan .reader n)
    (hturn : engineRingTurn s.ring n = some (ring, n')) :
    s.scan = some { s with ring := ring, lock := .scan .reader n' } := by
  simp only [RxSession.scan, hlock, hturn]

theorem readStep_scan {n : ℕ} (hlock : s.lock = .scan .reader n) (err : Bool) :
    s.readStep err = s.scan := by
  simp only [RxSession.readStep, hlock]

/-- A scan that has seen the end of a packet, or that comes to one, hands back to the reader. -/
theorem comes_of_scan {n m : ℕ} (hlock : s.lock = .scan .reader n) (hmode : s.pollMode = true)
    (hbound : s.ring.Bounded) (hm : s.ring.unscanned < m)
    (hpacket : 0 < n ∨ s.ring.holdsPacket s.ring.rxTail s.ring.unscanned = true) (err : Bool) :
    Comes (RxSession.readStep err) (fun t => t.lock = .free ∧ t.reader = .test ∧
      t.ring.Bounded ∧ t.ring.result = s.ring.result ∧ t.ring.rxHead = s.ring.rxHead) s := by
  -- each turn goes over one of the results that may be scanned
  induction m generalizing s n with
  | zero => exact absurd hm (Nat.not_lt_zero _)
  | succ m ih =>
    rcases hturn : engineRingTurn s.ring n with _ | ⟨ring, n'⟩
    · have hn : n ≠ 0 := (hpacket.resolve_right (engineRingTurn_none hturn)).ne'
      refine .step ((readStep_scan hlock err).trans (scan_of_end hlock hmode hturn)) ?_
      rw [if_neg hn]
      exact .here ⟨rfl, rfl, hbound, rfl, rfl⟩
    · obtain ⟨hbound', hless, hle, hiff⟩ := engineRingTurn_some hbound hturn
      obtain ⟨hresult, hhead⟩ := engineRingTurn_frame hturn
      refine .step ((readStep_scan hlock err).trans (scan_of_turn hlock hturn)) ?_
      have hpacket' : 0 < n' ∨ ring.holdsPacket ring.rxTail ring.unscanned = true := by
        rcases hpacket with hn | hpacket
        · exact .inl (hn.trans_le hle)
        · exact (hiff.mp hpacket).imp_left fun hlt => (Nat.zero_le n).trans_lt hlt
      have hmore := ih (s := { s with ring := ring, lock := .scan .reader n' }) rfl hmode hbound'
        (by change ring.unscanned < m; omega) hpacket'
      refine hmore.trans ?_
      rintro t ⟨hfree, htest, hbound'', hresult', hhead'⟩
      exact .here ⟨hfree, htest, hbound'', hresult'.trans hresult, hhead'.trans hhead⟩

/-- At the head of the loop or in a scan that has seen nothing, with no packet to come. -/
structure Spinning (s : RxSession) : Prop where
  pollMode : s.pollMode = true
  bounded : s.ring.Bounded
  lock : s.lock = .turn .reader ∨ s.lock = .scan .reader 0
  reader : s.reader = .wait
  noPacket : ¬ s.ring.holdsPacket s.ring.rxTail s.ring.unscanned = true

/-- The loop goes on for ever. -/
theorem Spinning.readStep {s' : RxSession} (h : Spinning s) (hstep : s.readStep false = some s') :
    Spinning s' := by
  obtain ⟨hmode, hbound, hlock | hlock, hreader, hnone⟩ := h
  · have hturn : s.readStep false = some { s with lock := .scan .reader 0 } := by
      simp only [RxSession.readStep, RxSession.turn, hlock]
      rfl
    obtain rfl := Option.some.inj (hturn.symm.trans hstep)
    exact ⟨hmode, hbound, .inr rfl, hreader, hnone⟩
  rw [readStep_scan hlock] at hstep
  rcases hturn : engineRingTurn s.ring 0 with _ | ⟨ring, n⟩
  · obtain rfl := Option.some.inj ((scan_of_end hlock hmode hturn).symm.trans hstep)
    exact ⟨hmode, hbound, .inl rfl, hreader, hnone⟩
  · obtain ⟨hbound', -, -, hiff⟩ := engineRingTurn_some hbound hturn
    obtain rfl := Option.some.inj ((scan_of_turn hlock hturn).symm.trans hstep)
    obtain ⟨hn, hnone'⟩ := not_or.mp (mt hiff.mpr hnone)
    obtain rfl : n = 0 := by omega
    exact ⟨hmode, hbound', .inr rfl, hreader, hnone'⟩

end Loop

/-! ## The packet at the head -/

section Packet

variable {s : RxSession}

/-- Results that are cleared behind the packet do not matter. -/
theorem RxRing.holdsPacket_set (ring : RxRing) {h k n : ℕ} (hk : 0 < k)
    (hround : k + n ≤ RX_BUF_PAGES) (r : XdmaResult) :
    (ring.set h r).holdsPacket ((h + k) % RX_BUF_PAGES) n =
      ring.holdsPacket ((h + k) % RX_BUF_PAGES) n := by
  induction n generalizing k with
  | zero => rfl
  | succ n ih =>
    have hne : (h + k) % RX_BUF_PAGES ≠ h := by
      simp only [RX_BUF_PAGES] at *
      omega
    have hsame : (ring.set h r).result ((h + k) % RX_BUF_PAGES) =
      ring.result ((h + k) % RX_BUF_PAGES) := Function.update_of_ne hne _ _
    rw [holdsPacket, holdsPacket, hsame, Nat.mod_add_mod, Nat.add_assoc,
      ih (Nat.succ_pos k) (by omega)]

theorem readStep_take {c : Completion} (hlock : s.lock = .complete c) (err : Bool) :
    s.readStep err = s.take := by
  simp only [RxSession.readStep, hlock]

/-- The loop of `complete_cyclic` is left at the end of a packet. -/
theorem add_stops_of_eop (c : Completion) {r : XdmaResult} (h : r.eop = true) :
    (c.add r).Stops := by
  unfold Completion.add
  split_ifs
  · exact .inl rfl
  · exact .inl rfl
  · exact .inl rfl
  · refine .inr ?_
    rw [h]
    rfl

/-- A call of `complete_cyclic` with a packet at the head of the ring returns. -/
theorem comes_of_complete {n : ℕ} {c : Completion} (hlock : s.lock = .complete c)
    (hn : n ≤ RX_BUF_PAGES)
    (hpacket : s.ring.holdsPacket s.ring.rxHead n = true) (err : Bool) :
    Comes (RxSession.readStep err)
      (fun t => t.lock = .free ∧ ∃ rc, t.reader = .completed rc) s := by
  induction n generalizing s c with
  | zero => cases hpacket
  | succ n ih =>
    obtain ⟨hwritten, hrest⟩ := (RxRing.holdsPacket_succ _ _).mp hpacket
    have hstep := (readStep_take hlock err).trans (take_of_written hlock hwritten)
    by_cases hstops : (c.add (s.ring.result s.ring.rxHead)).Stops
    · rw [if_pos hstops] at hstep
      exact .step hstep (.here ⟨rfl, _, rfl⟩)
    · rw [if_neg hstops] at hstep
      refine .step hstep (ih rfl (by omega) ?_)
      -- the block did not end the packet
      have hmore := hrest.resolve_left fun heop => hstops (add_stops_of_eop c heop)
      have hset := s.ring.holdsPacket_set (h := s.ring.rxHead) (n := n) Nat.one_pos (by omega)
        ⟨0, 0⟩
      have hclear : s.ring.clearHead.holdsPacket s.ring.clearHead.rxHead n =
          (s.ring.set s.ring.rxHead ⟨0, 0⟩).holdsPacket ((s.ring.rxHead + 1) % RX_BUF_PAGES) n :=
        RxRing.holdsPacket_congr
          (show s.ring.clearHead.result = (s.ring.set s.ring.rxHead ⟨0, 0⟩).result from rfl) _ _
      exact hclear.trans (hset.trans hmore)

/-- Behind its service, a read with a packet at the head of the ring returns. -/
theorem comes_of_test (hlock : s.lock = .free) (hreader : s.reader = .test)
    (hpacket : s.ring.holdsPacket s.ring.rxHead RX_BUF_PAGES = true) (err : Bool) :
    Comes (RxSession.readStep err) (fun t => ∃ ret, t.reader = .returned ret) s := by
  have hwritten : (s.ring.result s.ring.rxHead).status ≠ 0 :=
    ((RxRing.holdsPacket_succ _ 255).mp hpacket).1
  have htest : s.readStep err = some { s with reader := .ready } := by
    simp only [RxSession.readStep, hlock, hreader, RxSession.test, if_neg hwritten]
  have hcomplete : RxSession.readStep err { s with reader := .ready } =
      some { s with reader := .ready, lock := .complete (.start s.ring) } := by
    simp only [RxSession.readStep, hlock, RxSession.complete]
  have hleft := comes_of_complete
    (s := { s with reader := .ready, lock := .complete (.start s.ring) }) rfl le_rfl hpacket err
  refine .step htest (.step hcomplete (hleft.trans ?_))
  rintro t ⟨hfree, rc, hcompleted⟩
  have hfinish : t.readStep err = some { t with
      ring := { t.ring with rxOverrun := false }, reader := .returned rc } := by
    simp only [RxSession.readStep, hfree, hcompleted, RxSession.finish]
  exact .step hfinish (.here ⟨rc, rfl⟩)

end Packet

/-! ## States of a run -/

section Reached

variable {s s' : RxSession}

/-- A step keeps the mode, and the indices within the ring. -/
theorem RxSession.step_bounded {i : RxStep} (hbound : s.ring.Bounded) (hstep : s.step i = some s') :
    s'.pollMode = s.pollMode ∧ s'.ring.Bounded := by
  cases i with
  | write r =>
    obtain ⟨-, -, rfl⟩ := write_cases hstep
    exact ⟨rfl, hbound.head, hbound.tail⟩
  | serve =>
    obtain ⟨-, rfl⟩ := serve_cases hstep
    exact ⟨rfl, hbound⟩
  | turn err =>
    obtain ⟨caller, -, rfl⟩ := turn_cases hstep
    split <;> exact ⟨rfl, hbound⟩
  | scan =>
    obtain ⟨caller, n, -, ⟨ring, n', hturn, rfl⟩ | ⟨-, -, rfl⟩ | ⟨-, -, rfl⟩⟩ := scan_cases hstep
    · exact ⟨rfl, (engineRingTurn_some hbound hturn).1⟩
    · split <;> exact ⟨rfl, hbound⟩
    · exact ⟨rfl, hbound.head, hbound.tail⟩
  | enter =>
    obtain ⟨ret, -, rfl⟩ := enter_cases hstep
    exact ⟨rfl, hbound⟩
  | wait signal =>
    obtain ⟨-, -, rfl | rfl⟩ := wait_cases hstep
    · exact ⟨rfl, hbound⟩
    · exact ⟨rfl, hbound⟩
  | poll =>
    obtain ⟨-, -, -, rfl⟩ := poll_cases hstep
    exact ⟨rfl, hbound⟩
  | test =>
    obtain ⟨-, rfl⟩ := test_cases hstep
    exact ⟨rfl, hbound⟩
  | complete =>
    obtain ⟨-, -, rfl⟩ := complete_cases hstep
    exact ⟨rfl, hbound⟩
  | take =>
    have hclear : s.ring.clearHead.Bounded := ⟨Nat.mod_lt _ (by decide), hbound.tail⟩
    obtain ⟨c, -, ⟨-, rfl⟩ | ⟨-, rfl⟩⟩ := take_cases hstep
    · exact ⟨rfl, hbound⟩
    · split <;> exact ⟨rfl, hclear⟩
  | finish =>
    obtain ⟨rc, -, rfl⟩ := finish_cases hstep
    exact ⟨rfl, hbound.head, hbound.tail⟩

/-- In a run from an opened engine in poll mode. -/
theorem reached_bounded {is : List ScannedStep} {s : ScannedSession}
    (h : exec ScannedSession.step (.start true) is = some s) :
    s.session.pollMode = true ∧ s.session.ring.Bounded := by
  suffices hkept : ∀ (s : ScannedSession) (i : ScannedStep) (s' : ScannedSession),
      s.session.pollMode = true ∧ s.session.ring.Bounded → s.step i = some s' →
      s'.session.pollMode = true ∧ s'.session.ring.Bounded from
    exec_kept hkept ⟨rfl, by decide, by decide⟩ h
  rintro s i s' ⟨hmode, hbound⟩ hstep
  cases i with
  | hardware i r =>
    obtain rfl := Option.some.inj hstep
    exact ⟨hmode, hbound.head, hbound.tail⟩
  | step tid i =>
    obtain ⟨t, hmove, rfl, -⟩ := ScannedSession.step_cases hstep
    obtain ⟨hmode', hbound'⟩ := RxSession.step_bounded (s := s.view tid) hbound hmove
    exact ⟨hmode'.trans hmode, hbound'⟩

end Reached

/-! ## Returning -/

section Reads

variable {s : RxSession}

/-- The reader has the lock at the head of the loop. -/
theorem readStep_poll (hlock : s.lock = .free) (hmode : s.pollMode = true) (err : Bool) :
    RxSession.readStep err { s with reader := .wait } =
      some { s with reader := .wait, lock := .turn .reader } := by
  simp only [RxSession.readStep, hlock, RxSession.poll, hmode, if_true]

/-- What a read finds for which its service returns. -/
def RxSession.Served (err : Bool) (s : RxSession) : Prop :=
  err = true ∨ s.ring.holdsPacket s.ring.rxTail s.ring.unscanned = true

/-- Then the service hands back to a read that goes on, or returns at an error. -/
theorem comes_of_served {err : Bool} (hlock : s.lock = .free) (hmode : s.pollMode = true)
    (hbound : s.ring.Bounded) (hserved : s.Served err) :
    Comes (RxSession.readStep err) (fun t => t.lock = .free ∧
      ((∃ ret, t.reader = .returned ret) ∨ t.reader = .test ∧
        t.ring.result = s.ring.result ∧ t.ring.rxHead = s.ring.rxHead))
      { s with reader := .wait } := by
  refine .step (readStep_poll hlock hmode err) ?_
  cases err with
  | true =>
    have hturn : RxSession.readStep true { s with reader := .wait, lock := .turn .reader } =
        some (RxSession.serviced { s with reader := .wait, lock := .turn .reader } .reader (-1)) :=
      rfl
    exact .step hturn (.here ⟨rfl, .inl ⟨_, rfl⟩⟩)
  | false =>
    have hturn : RxSession.readStep false { s with reader := .wait, lock := .turn .reader } =
      some { s with reader := .wait, lock := .scan .reader 0 } := rfl
    have hpacket := hserved.resolve_left Bool.false_ne_true
    have hscan := comes_of_scan (s := { s with reader := .wait, lock := .scan .reader 0 }) rfl hmode
      hbound (Nat.lt_succ_self _) (.inr hpacket) false
    refine .step hturn (hscan.trans ?_)
    rintro t ⟨hfree, htest, -, hresult, hhead⟩
    exact .here ⟨hfree, .inr ⟨htest, hresult, hhead⟩⟩

/-- Otherwise the service spins, and the read is not over in any state it comes to. -/
theorem spinning_of_not_served {err : Bool} {P : RxSession → Prop} (hlock : s.lock = .free)
    (hmode : s.pollMode = true) (hbound : s.ring.Bounded) (hserved : ¬ s.Served err)
    (hp : ∀ t, t.reader = .wait → ¬ P t)
    (h : Comes (RxSession.readStep err) P { s with reader := .wait }) : False := by
  obtain ⟨herr, hnone⟩ := not_or.mp hserved
  obtain rfl : err = false := Bool.eq_false_iff.mpr herr
  have hspin : Spinning { s with reader := .wait, lock := .turn .reader } :=
    ⟨hmode, hbound, .inl rfl, rfl, hnone⟩
  cases h with
  | here h => exact hp _ rfl h
  | step hstep h =>
    obtain rfl := Option.some.inj ((readStep_poll hlock hmode false).symm.trans hstep)
    obtain ⟨t, hspin', ht⟩ := h.exists_kept (fun _ _ h hstep => h.readStep hstep) hspin
    exact hp t hspin'.reader ht

end Reads

/-- In every state that a run in poll mode leaves with the lock free, with any writes of the
hardware and other threads anywhere in their reads, and with a complete packet at the head of the
ring : a read returns without another write, and its call of `engine_service_cyclic_polled` does, if
and only if the error flag of the writeback word is set or the results the scan may go over hold the
end of a packet. -/
theorem polledRead_returns_iff {is : List ScannedStep} {s : ScannedSession}
    (hreached : exec ScannedSession.step (.start true) is = some s)
    (hlock : s.session.lock = .free) {tid : ℕ} (hreader : ∃ ret, s.readers tid = .returned ret)
    (hpacket : s.session.ring.holdsPacket s.session.ring.rxHead RX_BUF_PAGES = true) (err : Bool) :
    ((s.view tid).ReadReturns err ↔ s.session.Served err) ∧
      ((s.view tid).PollReturns err ↔ s.session.Served err) := by
  obtain ⟨hmode, hbound⟩ := reached_bounded hreached
  have hcomes : ∀ P, (s.view tid).ReadComes err P ↔
      Comes (RxSession.readStep err) P { s.view tid with reader := .wait } := by
    obtain ⟨ret, hret⟩ := hreader
    have hview : (s.view tid).reader = .returned ret := hret
    have henter : (s.view tid).enter = some { s.view tid with reader := .wait } := by
      rw [RxSession.enter, hview]
    exact fun P => ⟨fun ⟨t, ht, h⟩ => Option.some.inj (henter.symm.trans ht) ▸ h,
      fun h => ⟨_, henter, h⟩⟩
  have hspins : ∀ P : RxSession → Prop, (∀ t, t.reader = .wait → ¬ P t) →
      Comes (RxSession.readStep err) P { s.view tid with reader := .wait } →
      s.session.Served err := by
    intro P hp h
    by_contra hserved
    exact spinning_of_not_served (s := s.view tid) hlock hmode hbound hserved hp h
  rw [RxSession.ReadReturns, RxSession.PollReturns, hcomes, hcomes]
  refine ⟨⟨hspins _ ?_, fun h => ?_⟩, ⟨hspins _ fun t hwait h => h.2 hwait, fun h => ?_⟩⟩
  · rintro t hwait ⟨ret, hret⟩
    exact absurd (hwait.symm.trans hret) nofun
  · refine (comes_of_served (s := s.view tid) hlock hmode hbound h).trans ?_
    rintro t ⟨hfree, hret | ⟨htest, hresult, hhead⟩⟩
    · exact .here hret
    · refine comes_of_test hfree htest ?_ err
      rw [RxRing.holdsPacket_congr hresult, hhead]
      exact hpacket
  · refine (comes_of_served (s := s.view tid) hlock hmode hbound h).trans ?_
    rintro t ⟨hfree, ⟨ret, hret⟩ | ⟨htest, -⟩⟩
    · exact .here ⟨hfree, by rw [hret]; nofun⟩
    · exact .here ⟨hfree, by rw [htest]; nofun⟩

/-- A packet of one block is in the ring, and no scan has gone over it. -/
theorem polledRead_returns_iff_one_packet :
    ∃ s : ScannedSession, exec ScannedSession.step (.start true)
        [.step 0 (.write ⟨0x52B40001, 64⟩)] = some s ∧
      ((s.view 0).ReadReturns false ↔ s.session.Served false) :=
  ⟨_, rfl, (@polledRead_returns_iff [.step 0 (.write ⟨0x52B40001, 64⟩)] _ rfl rfl 0 ⟨0, rfl⟩
    (by decide) false).1⟩

/-- Two packets are in the ring. The first read scans both and returns one; the next read, with the
other at the head of the ring, never returns. -/
theorem polledRead_spins :
    ¬ ∀ (is : List ScannedStep) (s : ScannedSession),
      exec ScannedSession.step (.start true) is = some s →
      s.session.lock = .free → ∀ tid, (∃ ret, s.readers tid = .returned ret) →
      s.session.ring.holdsPacket s.session.ring.rxHead RX_BUF_PAGES = true →
      (s.view tid).ReadReturns false := by
  intro h
  obtain ⟨t, henter, hcomes⟩ := h ([.write ⟨0x52B40001, 64⟩, .write ⟨0x52B40001, 128⟩, .enter,
    .poll, .turn false, .scan, .scan, .scan, .test, .complete, .take, .finish].map (.step 0)) _ rfl
    rfl 0 ⟨_, rfl⟩ (by decide)
  obtain rfl := Option.some.inj henter
  refine spinning_of_not_served rfl rfl ⟨by decide, by decide⟩ ?_ ?_ hcomes
  · exact not_or.mpr ⟨Bool.false_ne_true, by decide⟩
  · rintro t hwait ⟨ret, hret⟩
    exact absurd (hwait.symm.trans hret) nofun

end Wimi
