import Wimi.Lib.Loop
import Wimi.PolledReads

/-!
# A scan of the ring

`engine_ring_process` with nothing written by the hardware meanwhile. It goes over the results from
`rx_tail` on, at most once round the ring, and stops at the first that is not written, or behind the
one before `rx_head`, where it sets `rx_overrun`. In a ring whose indices are equal the latter is a
whole round away.

`ring_scan` : how the scan ends, and what it counts, for all contents of the ring.
-/

open Loop

namespace Wimi

/-- A turn of `engine_ring_process`, on the ring and `eop_count`. -/
def ringTurn (s : RxRing × ℕ) : Option (RxRing × ℕ) :=
  engineRingTurn s.1 s.2

/-- `engine_ring_process`, whose loop makes at most `RX_BUF_PAGES` turns. -/
def engineRingProcess (ring : RxRing) : RxRing × ℕ :=
  run ringTurn RX_BUF_PAGES (ring, 0)

/-! ## How a scan ends -/

section Scan

variable (ring : RxRing)

/-- The `j`-th result from `rx_tail` on. -/
def RxRing.fromTail (j : ℕ) : XdmaResult :=
  ring.result ((ring.rxTail + j) % RX_BUF_PAGES)

/-- Of the first `n` results from `rx_tail` on, those that end a packet. -/
def RxRing.eopCount (n : ℕ) : ℕ :=
  (List.range n).countP fun j => (ring.fromTail j).eop

/-- `rx_tail` comes to `rx_head` with step `j`. -/
def RxRing.MeetsHead (j : ℕ) : Prop :=
  0 < j ∧ (ring.rxTail + j) % RX_BUF_PAGES = ring.rxHead

/-- The scan stops behind `n` results at the first that is not written, before it has come to
`rx_head`. -/
structure RxRing.StopsUnwritten (n : ℕ) (ring' : RxRing) : Prop where
  rxOverrun : ring'.rxOverrun = false
  unwritten : (ring.fromTail n).status = 0
  written : ∀ j < n, (ring.fromTail j).status ≠ 0
  before : ∀ j ≤ n, ¬ ring.MeetsHead j

/-- The scan stops behind `n` results, all of them written, where it comes to `rx_head`. -/
structure RxRing.StopsAtHead (n : ℕ) (ring' : RxRing) : Prop where
  rxOverrun : ring'.rxOverrun = true
  meets : ring.MeetsHead n
  written : ∀ j < n, (ring.fromTail j).status ≠ 0
  before : ∀ j < n, ¬ ring.MeetsHead j

/-- A scan of `n` results of `ring` leaves `ring'` and returns `count`. -/
structure RxRing.Scanned (n : ℕ) (ring' : RxRing) (count : ℕ) : Prop where
  result : ring'.result = ring.result
  rxHead : ring'.rxHead = ring.rxHead
  eopFound : ring'.eopFound = ring.eopFound
  rxTail : ring'.rxTail = (ring.rxTail + n) % RX_BUF_PAGES
  eopCount : count = ring.eopCount n
  overrun : ring.rxOverrun = true → ring' = ring ∧ count = 0
  stops : ring.rxOverrun = false → ring.StopsUnwritten n ring' ∨ ring.StopsAtHead n ring'

/-! ## The loop -/

/-- What holds after `k` turns. The flag is set with the last turn there can be. -/
structure RxRing.ScannedTo (k : ℕ) (s : RxRing × ℕ) : Prop where
  le : k ≤ ring.unscanned
  state : s.1 = { ring with
    rxTail := (ring.rxTail + k) % RX_BUF_PAGES
    rxOverrun := decide (k = ring.unscanned) }
  count : s.2 = ring.eopCount k
  written : ∀ j < k, (ring.fromTail j).status ≠ 0

variable {ring}

theorem RxRing.unscanned_le : ring.unscanned ≤ RX_BUF_PAGES := by
  rw [unscanned]
  split
  · exact Nat.zero_le _
  · exact Nat.sub_le _ _

theorem RxRing.unscanned_eq_zero_iff : ring.unscanned = 0 ↔ ring.rxOverrun = true := by
  rw [unscanned]
  split
  · next h => exact iff_of_true rfl h
  · next h =>
    have hlt : ring.distance < RX_BUF_PAGES := Nat.mod_lt _ (by decide)
    exact iff_of_false (by omega) h

/-- `rx_tail` comes to `rx_head` with the last turn there can be. -/
theorem RxRing.Bounded.meetsHead_iff (h : ring.Bounded) (hflag : ring.rxOverrun = false) {j : ℕ}
    (hj : j ≤ ring.unscanned) : ring.MeetsHead j ↔ j = ring.unscanned := by
  obtain ⟨hhead, htail⟩ := h
  have hpos : ring.unscanned ≠ 0 := fun h0 =>
    Bool.false_ne_true (hflag.symm.trans (unscanned_eq_zero_iff.mp h0))
  rw [unscanned, if_neg (Bool.eq_false_iff.mp hflag), distance] at hj hpos ⊢
  simp only [MeetsHead, RX_BUF_PAGES] at hj hpos hhead htail ⊢
  omega

theorem RxRing.eopCount_succ (n : ℕ) : ring.eopCount (n + 1) =
    if (ring.fromTail n).eop then ring.eopCount n + 1 else ring.eopCount n := by
  rw [eopCount, List.range_succ, List.countP_append, List.countP_singleton]
  split <;> rfl

theorem RxRing.Bounded.scannedTo_zero (h : ring.Bounded) : ring.ScannedTo 0 (ring, 0) where
  le := Nat.zero_le _
  state := by
    have hflag : decide (0 = ring.unscanned) = ring.rxOverrun := by
      rw [Bool.eq_iff_iff, decide_eq_true_iff, eq_comm, unscanned_eq_zero_iff]
    rw [Nat.add_zero, Nat.mod_eq_of_lt h.tail, hflag]
  count := rfl
  written _ hj := absurd hj (Nat.not_lt_zero _)

/-- One more turn. -/
theorem RxRing.ScannedTo.turn (hbound : ring.Bounded) {k : ℕ} {s s' : RxRing × ℕ}
    (h : ring.ScannedTo k s) (hturn : ringTurn s = some s') : ring.ScannedTo (k + 1) s' := by
  obtain ⟨s, n⟩ := s
  obtain ⟨hle, rfl, rfl, hwritten⟩ := h
  obtain ⟨⟨hstatus, hclear⟩, hs'⟩ := Option.ite_none_right_eq_some.mp hturn
  obtain rfl := Option.some.inj hs'
  have hlt : k < ring.unscanned := lt_of_le_of_ne hle (by simpa using hclear)
  have hflag : ring.rxOverrun = false := by
    rw [← Bool.not_eq_true, ← unscanned_eq_zero_iff]
    omega
  have htail : ((ring.rxTail + k) % RX_BUF_PAGES + 1) % RX_BUF_PAGES =
      (ring.rxTail + (k + 1)) % RX_BUF_PAGES := by
    rw [Nat.mod_add_mod, Nat.add_assoc]
  have hmeets := hbound.meetsHead_iff hflag hlt
  rw [MeetsHead, and_iff_right (Nat.succ_pos k)] at hmeets
  refine ⟨hlt, ?_, (eopCount_succ k).symm, fun j hj => ?_⟩
  · dsimp only
    rw [htail, decide_eq_false hlt.ne]
    by_cases hend : k + 1 = ring.unscanned
    · rw [if_pos (hmeets.mpr hend), decide_eq_true hend]
    · rw [if_neg (mt hmeets.mp hend), decide_eq_false hend]
  · rcases Nat.lt_succ_iff_lt_or_eq.mp hj with hj | rfl
    · exact hwritten j hj
    · exact hstatus

/-- The loop is left at an unwritten result, or with its last turn. -/
theorem RxRing.ScannedTo.scanned (hbound : ring.Bounded) {n : ℕ} {s : RxRing × ℕ}
    (h : ring.ScannedTo n s) (hover : ringTurn s = none) : ring.Scanned n s.1 s.2 := by
  obtain ⟨s, count⟩ := s
  obtain ⟨hle, rfl, rfl, hwritten⟩ := h
  refine ⟨rfl, rfl, rfl, rfl, rfl, fun hflag => ?_, fun hflag => ?_⟩
  · have hzero := unscanned_eq_zero_iff.mpr hflag
    obtain rfl : n = 0 := by omega
    exact ⟨hbound.scannedTo_zero.state.symm, rfl⟩
  · have hbefore : ∀ j < ring.unscanned, ¬ ring.MeetsHead j := fun j hj hmeets =>
      hj.ne ((hbound.meetsHead_iff hflag hj.le).mp hmeets)
    rcases hle.lt_or_eq with hlt | rfl
    · have hstatus : (ring.fromTail n).status = 0 := by
        by_contra hne
        rw [ringTurn, engineRingTurn, if_pos ⟨hne, by simpa using hlt.ne⟩] at hover
        cases hover
      exact .inl ⟨decide_eq_false hlt.ne, hstatus, hwritten,
        fun j hj => hbefore j (hj.trans_lt hlt)⟩
    · exact .inr ⟨decide_eq_true rfl, (hbound.meetsHead_iff hflag le_rfl).mpr rfl, hwritten,
        hbefore⟩

end Scan

/-- For all contents of the ring, all indices within it and either value of `rx_overrun` : the scan
is over after at most `RX_BUF_PAGES` turns, keeps the results, `rx_head` and the range of
`rx_tail`, and counts the packets that end among the results it goes over. With `rx_overrun` set
nothing happens; else it ends at the first unwritten result, or at `rx_head` with `rx_overrun` set,
whichever it comes to first. -/
theorem ring_scan (ring : RxRing) (hbound : ring.Bounded) :
    ∃ n ≤ RX_BUF_PAGES, Exits ringTurn n (ring, 0) (engineRingProcess ring) ∧
      ring.Scanned n (engineRingProcess ring).1 (engineRingProcess ring).2 ∧
        (engineRingProcess ring).1.Bounded := by
  have hloop : ∃ n s, Exits ringTurn n (ring, 0) s ∧ ring.ScannedTo n s :=
    exists_exits (fun _ _ h => h.le) (fun _ _ _ h hturn => h.turn hbound hturn)
      hbound.scannedTo_zero
  obtain ⟨n, s, hexits, hs⟩ := hloop
  have hn : n ≤ RX_BUF_PAGES := hs.le.trans RxRing.unscanned_le
  have hscanned := hs.scanned hbound hexits.over
  rw [engineRingProcess, hexits.run_eq hn]
  refine ⟨n, hn, hexits, hscanned, ?_, ?_⟩
  · rw [hscanned.rxHead]
    exact hbound.head
  · rw [hscanned.rxTail]
    exact Nat.mod_lt _ (by decide)

/-- A ring with two results written, the second of which ends a packet. -/
def twoScanned : RxRing :=
  { RxRing.setup with
    result := fun i => if i = 255 then ⟨0x52B40000, 4096⟩ else if i = 0 then ⟨0x52B40001, 64⟩
      else ⟨0, 0⟩
    rxHead := 255
    rxTail := 255 }

theorem ring_scan_two : engineRingProcess twoScanned = ({ twoScanned with rxTail := 1 }, 1) ∧
    ∃ n ≤ RX_BUF_PAGES, Exits ringTurn n (twoScanned, 0) (engineRingProcess twoScanned) ∧
      twoScanned.Scanned n (engineRingProcess twoScanned).1 (engineRingProcess twoScanned).2 ∧
        (engineRingProcess twoScanned).1.Bounded :=
  ⟨rfl, ring_scan twoScanned ⟨by decide, by decide⟩⟩

end Wimi
