import Wimi.RxSession
import Wimi.Lib.Stream

/-!
# Integrity of the stream

`stream_integrity_iff` : the reader hands out the packets of the hardware, each once, in order
and whole, and clears no block of a packet it does not hand out, if and only if the loop of
`complete_cyclic` never comes to an unwritten result with a part of a packet cleared, and never
to the end of a packet of 2^31 bytes. The first happens in interrupt mode : `eop_found` is never
reset, so that a later read does not wait for the end of its packet.
-/

open Machine Circular

namespace Wimi

/-! ## Integrity -/

/-- The packets the hardware has completed. -/
def packets (written : List XdmaResult) : List (List XdmaResult) :=
  Packets.closed XdmaResult.eop [] written

/-- The blocks of the packet that is not complete yet. -/
def openPacket (written : List XdmaResult) : List XdmaResult :=
  Packets.rest XdmaResult.eop [] written

/-- The bytes of a packet. -/
def packetLength (p : List XdmaResult) : ℤ :=
  (p.map fun r => (r.length.toNat : ℤ)).sum

/-- Where packets that follow each other from block `k` on begin in the ring, and their
lengths. -/
def deliveries (k : ℕ) : List (List XdmaResult) → List (ℕ × ℤ)
  | [] => []
  | p :: ps => (k % RX_BUF_PAGES, packetLength p) :: deliveries (k + p.length) ps

/-- The call of `complete_cyclic` that is running. -/
def RingLock.completion : RingLock → Option Completion
  | .complete c => some c
  | _ => none

/-- What was passed to the user is a prefix of the packets, and between calls of
`complete_cyclic` the blocks cleared are those of the packets passed. -/
structure StreamIntact (s : RxSession) : Prop where
  delivered : s.delivered <+: deliveries 0 (packets s.written)
  cleared : s.lock.completion = none →
    s.cleared = ((packets s.written).take s.delivered.length).flatten.length

/-- The blocks cleared since the last packet was passed on. -/
def RxSession.pending (s : RxSession) : List XdmaResult :=
  openPacket (s.written.take s.cleared)

/-- A turn of `complete_cyclic` that finds its result unwritten has no block of a packet
cleared, and one that finds the end of a packet has less than 2^31 bytes of it. -/
def PacketWritten (s : RxSession) (i : RxStep) : Prop :=
  i = .take →
    ((s.ring.result s.ring.rxHead).status = 0 → s.pending = []) ∧
      ((s.ring.result s.ring.rxHead).eop →
        packetLength (s.pending ++ [s.ring.result s.ring.rxHead]) < 2 ^ 31)

/-! ## Packets -/

section Deliveries

variable (k : ℕ) (ps qs : List (List XdmaResult))

theorem deliveries_append :
    deliveries k (ps ++ qs) = deliveries k ps ++ deliveries (k + ps.flatten.length) qs := by
  induction ps generalizing k with
  | nil => rfl
  | cons p ps ih =>
    simp only [List.cons_append, deliveries, ih, List.flatten_cons, List.length_append,
      Nat.add_assoc]

@[simp] theorem length_deliveries : (deliveries k ps).length = ps.length := by
  induction ps generalizing k with
  | nil => rfl
  | cons p ps ih => simp only [deliveries, List.length_cons, ih]

theorem deliveries_prefix {ps qs : List (List XdmaResult)} (h : ps <+: qs) :
    deliveries k ps <+: deliveries k qs := by
  obtain ⟨rs, rfl⟩ := h
  exact ⟨_, (deliveries_append k ps rs).symm⟩

end Deliveries

theorem packetLength_concat (p : List XdmaResult) (r : XdmaResult) :
    packetLength (p ++ [r]) = packetLength p + r.length.toNat := by
  simp [packetLength]

theorem packetLength_nonneg (p : List XdmaResult) : 0 ≤ packetLength p := by
  refine List.sum_nonneg fun x hx => ?_
  obtain ⟨r, -, rfl⟩ := List.mem_map.mp hx
  exact Int.natCast_nonneg _

/-- An `int` holds what fits it. -/
theorem toInt_ofInt_iff {x : ℤ} (h : 0 ≤ x) : (BitVec.ofInt 32 x).toInt = x ↔ x < 2 ^ 31 := by
  refine ⟨fun heq => ?_, fun hlt => ?_⟩
  · have := BitVec.toInt_lt (x := BitVec.ofInt 32 x)
    omega
  · rw [BitVec.toInt_ofInt]
    exact Int.bmod_eq_of_le (by omega) (by omega)

section Blocks

variable {r : XdmaResult} (bs : List XdmaResult)

theorem packets_concat (hr : r.eop = false) :
    packets (bs ++ [r]) = packets bs ∧ openPacket (bs ++ [r]) = openPacket bs ++ [r] :=
  Packets.closed_concat hr bs

theorem packets_concat_eop (hr : r.eop = true) :
    packets (bs ++ [r]) = packets bs ++ [openPacket bs ++ [r]] ∧ openPacket (bs ++ [r]) = [] :=
  Packets.closed_concat_last hr bs

/-- Complete packets and the open one are all blocks. -/
theorem length_packets_add :
    (packets bs).flatten.length + (openPacket bs).length = bs.length := by
  rw [← List.length_append, packets, openPacket, Packets.flatten_closed, List.nil_append]

/-- The locals of a `complete_cyclic` that has come to the end of the blocks. -/
def completionOf : Completion :=
  ⟨(packets bs).flatten.length % RX_BUF_PAGES, BitVec.ofInt 32 (packetLength (openPacket bs)),
    false, false⟩

/-- A valid result adds its length, and ends the packet or not. -/
theorem Completion.add_of_valid (hvalid : r.Valid) (c : Completion) :
    c.add r = { c with pktLength := c.pktLength + r.length, eop := r.eop || c.eop } := by
  obtain ⟨hmagic, hpos, hle⟩ := hvalid
  have hnonzero : r.length ≠ 0 := by
    intro hzero
    rw [hzero] at hpos
    exact absurd hpos (by decide)
  rw [Completion.add, if_neg (not_not.mpr hmagic), if_neg (BitVec.not_lt.mpr hle), if_neg hnonzero]

theorem completionOf_add (hvalid : r.Valid) :
    (completionOf bs).add r = { completionOf bs with
      pktLength := BitVec.ofInt 32 (packetLength (openPacket bs ++ [r]))
      eop := r.eop } := by
  rw [Completion.add_of_valid hvalid, packetLength_concat, BitVec.ofInt_add, BitVec.ofInt_natCast,
    BitVec.ofNat_toNat, BitVec.setWidth_eq]
  simp only [completionOf, Bool.or_false]

/-- Within a packet, `complete_cyclic` is one block further. -/
theorem completionOf_concat (hvalid : r.Valid) (hr : r.eop = false) :
    (completionOf bs).add r = completionOf (bs ++ [r]) := by
  obtain ⟨hclosed, hopen⟩ := packets_concat bs hr
  rw [completionOf_add bs hvalid, completionOf, completionOf, hclosed, hopen, hr]

theorem completionOf_stops (hvalid : r.Valid) :
    ((completionOf bs).add r).Stops ↔ r.eop = true := by
  rw [completionOf_add bs hvalid, Completion.Stops]
  exact or_iff_right nofun

/-- At the end of a packet, its head and its length as an `int` are passed to the user. -/
theorem completionOf_copied (hvalid : r.Valid) (hr : r.eop = true) :
    ((completionOf bs).add r).copied = some ((packets bs).flatten.length % RX_BUF_PAGES,
      (BitVec.ofInt 32 (packetLength (openPacket bs ++ [r]))).toInt) := by
  rw [completionOf_add bs hvalid, hr]
  rfl

theorem deliveries_concat_eop (hr : r.eop = true) :
    deliveries 0 (packets (bs ++ [r])) = deliveries 0 (packets bs) ++
      [((packets bs).flatten.length % RX_BUF_PAGES, packetLength (openPacket bs ++ [r]))] := by
  rw [(packets_concat_eop bs hr).1, deliveries_append, Nat.zero_add]
  rfl

end Blocks

/-! ## Invariant -/

/-- A valid result is written. -/
theorem XdmaResult.Valid.status_ne_zero {r : XdmaResult} (h : r.Valid) : r.status ≠ 0 := by
  intro hzero
  have hmagic := h.1
  rw [hzero] at hmagic
  exact absurd hmagic (by decide)

/-- The results the ring holds. -/
def RxRing.slot (ring : RxRing) (i : ℕ) : Option XdmaResult :=
  if (ring.result i).status = 0 then none else some (ring.result i)

theorem RxRing.slot_set (ring : RxRing) (i : ℕ) (r : XdmaResult) :
    (ring.set i r).slot = Function.update ring.slot i (if r.status = 0 then none else some r) := by
  funext j
  rcases eq_or_ne j i with rfl | hne
  · simp only [slot, set, Function.update_self]
  · simp only [slot, set, Function.update_of_ne hne]

/-- The results from the first one that is not cleared on are in the ring, the packets cleared
are delivered, and a running `complete_cyclic` is at the length of what it has cleared. -/
structure RingInv (s : RxSession) : Prop where
  holds : Holds RX_BUF_PAGES s.ring.slot s.written s.cleared
  valid : ∀ r ∈ s.written, r.Valid
  head : s.ring.rxHead = s.cleared % RX_BUF_PAGES
  delivered : s.delivered = deliveries 0 (packets (s.written.take s.cleared))
  idle : s.lock.completion = none → s.pending = []
  completing : ∀ c, s.lock.completion = some c → c = completionOf (s.written.take s.cleared)

theorem ringInv_start (pollMode : Bool) : RingInv (.start pollMode) where
  holds := holds_nil (fun _ _ => rfl) (by decide)
  valid r hr := nomatch hr
  head := rfl
  delivered := rfl
  idle _ := rfl
  completing c hc := nomatch hc

variable {s s' : RxSession}

/-- Closed packets and the pending blocks are what was cleared. -/
theorem RingInv.length_packets (h : RingInv s) :
    (packets (s.written.take s.cleared)).flatten.length + s.pending.length = s.cleared := by
  rw [RxSession.pending, length_packets_add, List.length_take, min_eq_left h.holds.le]

theorem RingInv.intact (h : RingInv s) : StreamIntact s := by
  have hprefix : packets (s.written.take s.cleared) <+: packets s.written :=
    Packets.closed_prefix (List.take_prefix _ _)
  refine ⟨?_, fun hidle => ?_⟩
  · rw [h.delivered]
    exact deliveries_prefix 0 hprefix
  · have hlength := h.length_packets
    rw [h.idle hidle, List.length_nil, Nat.add_zero] at hlength
    rw [h.delivered, length_deliveries, ← List.prefix_iff_eq_take.mp hprefix, hlength]

/-- What the invariant does not speak of may change. -/
theorem RingInv.congr (h : RingInv s) (hresult : s'.ring.result = s.ring.result)
    (hhead : s'.ring.rxHead = s.ring.rxHead) (hwritten : s'.written = s.written)
    (hcleared : s'.cleared = s.cleared) (hdelivered : s'.delivered = s.delivered)
    (hlock : s'.lock.completion = s.lock.completion) : RingInv s' := by
  have hslot : s'.ring.slot = s.ring.slot := by
    funext i
    rw [RxRing.slot, RxRing.slot, hresult]
  have hpending : s'.pending = s.pending := by
    rw [RxSession.pending, RxSession.pending, hwritten, hcleared]
  exact
    { holds := by
        rw [hslot, hwritten, hcleared]
        exact h.holds
      valid := hwritten ▸ h.valid
      head := by
        rw [hhead, hcleared]
        exact h.head
      delivered := by
        rw [hdelivered, hwritten, hcleared]
        exact h.delivered
      idle := by
        rw [hlock, hpending]
        exact h.idle
      completing := by
        rw [hlock, hwritten, hcleared]
        exact h.completing }

/-- The result at the head of the ring is the first one not cleared. -/
theorem RingInv.slot_head (h : RingInv s) : s.ring.slot s.ring.rxHead = s.written[s.cleared]? := by
  rw [h.head]
  exact h.holds.head (by decide)

theorem RingInv.write {r : XdmaResult} (h : RingInv s) (hstep : s.write r = some s') :
    RingInv s' := by
  obtain ⟨hvalid, hempty, rfl⟩ := RxSession.write_cases hstep
  have htake : (s.written ++ [r]).take s.cleared = s.written.take s.cleared :=
    List.take_append_of_le_length h.holds.le
  refine
    { holds := by
        rw [RxRing.slot_set, if_neg hvalid.status_ne_zero]
        exact h.holds.push (by decide) (if_pos hempty) r
      valid := fun r' hr' => ?_
      head := h.head
      delivered := by
        rw [htake]
        exact h.delivered
      idle := fun hidle => ?_
      completing := fun c hc => ?_ }
  · rcases List.mem_append.mp hr' with hr' | hr'
    · exact h.valid r' hr'
    · exact List.mem_singleton.mp hr' ▸ hvalid
  · rw [RxSession.pending, htake]
    exact h.idle hidle
  · rw [htake]
    exact h.completing c hc

theorem engineRingTurn_frame {ring ring' : RxRing} {n n' : ℕ}
    (h : engineRingTurn ring n = some (ring', n')) :
    ring'.result = ring.result ∧ ring'.rxHead = ring.rxHead := by
  obtain ⟨-, h⟩ := Option.ite_none_right_eq_some.mp h
  obtain ⟨rfl, -⟩ := Prod.mk.inj (Option.some.inj h)
  exact ⟨rfl, rfl⟩

theorem RingInv.scan (h : RingInv s) (hstep : s.scan = some s') : RingInv s' := by
  obtain ⟨caller, n, hlock, ⟨ring, n', hturn, rfl⟩ | ⟨-, -, rfl⟩ | ⟨-, -, rfl⟩⟩ :=
    RxSession.scan_cases hstep
  all_goals have hfree : s.lock.completion = none := by rw [hlock]; rfl
  · obtain ⟨hresult, hhead⟩ := engineRingTurn_frame hturn
    exact h.congr hresult hhead rfl rfl rfl hfree.symm
  · split
    · exact h.congr rfl rfl rfl rfl rfl hfree.symm
    · exact h.congr rfl rfl rfl rfl rfl hfree.symm
  · exact h.congr rfl rfl rfl rfl rfl hfree.symm

/-- `complete_cyclic` begins where the last packet ended. -/
theorem RingInv.complete (h : RingInv s) (hstep : s.complete = some s') : RingInv s' := by
  obtain ⟨-, hlock, rfl⟩ := RxSession.complete_cases hstep
  have hpending : s.pending = [] := h.idle (by rw [hlock]; rfl)
  refine { h with idle := nofun, completing := fun c hc => ?_ }
  obtain rfl := Option.some.inj hc
  have hlength := h.length_packets
  rw [hpending, List.length_nil, Nat.add_zero] at hlength
  change Completion.start s.ring = completionOf (s.written.take s.cleared)
  rw [RxSession.pending] at hpending
  rw [completionOf, hpending, hlength, Completion.start, h.head]
  rfl

/-! ## Turns of `complete_cyclic` -/

/-- A turn that finds nothing leaves the loop with nothing delivered. -/
theorem take_of_unwritten {c : Completion} (hlock : s.lock = .complete c)
    (hzero : (s.ring.result s.ring.rxHead).status = 0) : s.take = some (s.leave c) := by
  have hturn : completeTurn s.ring c = none := if_neg (not_not.mpr hzero)
  simp only [RxSession.take, hlock, hturn]

/-- The session after a turn that finds a result, with the packet at `c` behind it. -/
def RxSession.turned (s : RxSession) (c : Completion) : RxSession :=
  { s with ring := s.ring.clearHead, cleared := s.cleared + 1, lock := .complete c }

theorem take_of_written {c : Completion} (hlock : s.lock = .complete c)
    (hwritten : (s.ring.result s.ring.rxHead).status ≠ 0) :
    s.take = some (if (c.add (s.ring.result s.ring.rxHead)).Stops
      then (s.turned (c.add (s.ring.result s.ring.rxHead))).leave
        (c.add (s.ring.result s.ring.rxHead))
      else s.turned (c.add (s.ring.result s.ring.rxHead))) := by
  have hturn : completeTurn s.ring c =
    some (s.ring.clearHead, c.add (s.ring.result s.ring.rxHead)) := if_pos hwritten
  simp only [RxSession.take, hlock, hturn]
  rfl

/-- A turn of `complete_cyclic` leaves the loop at an unwritten result, and else goes over it. -/
theorem RxSession.take_cases (h : s.take = some s') : ∃ c, s.lock = .complete c ∧
    ((s.ring.result s.ring.rxHead).status = 0 ∧ s' = s.leave c ∨
      (s.ring.result s.ring.rxHead).status ≠ 0 ∧
        s' = (if (c.add (s.ring.result s.ring.rxHead)).Stops
          then (s.turned (c.add (s.ring.result s.ring.rxHead))).leave
            (c.add (s.ring.result s.ring.rxHead))
          else s.turned (c.add (s.ring.result s.ring.rxHead)))) := by
  obtain ⟨c, hlock⟩ : ∃ c, s.lock = .complete c := by
    unfold RxSession.take at h
    split at h
    · next c hlock => exact ⟨c, hlock⟩
    · cases h
  refine ⟨c, hlock, ?_⟩
  by_cases hwritten : (s.ring.result s.ring.rxHead).status = 0
  · exact .inl ⟨hwritten, Option.some.inj (h.symm.trans (take_of_unwritten hlock hwritten))⟩
  · exact .inr ⟨hwritten, Option.some.inj (h.symm.trans (take_of_written hlock hwritten))⟩

/-- The first result that is not cleared, if the ring has it. -/
theorem RingInv.next_of_written (h : RingInv s)
    (hwritten : (s.ring.result s.ring.rxHead).status ≠ 0) :
    ∃ hlt : s.cleared < s.written.length, s.ring.result s.ring.rxHead = s.written[s.cleared] := by
  have hslot := h.slot_head
  rw [RxRing.slot, if_neg hwritten] at hslot
  obtain ⟨hlt, hget⟩ := List.getElem?_eq_some_iff.mp hslot.symm
  exact ⟨hlt, hget.symm⟩

/-- A block more is cleared. -/
theorem RingInv.take_cleared (h : RingInv s)
    (hwritten : (s.ring.result s.ring.rxHead).status ≠ 0) :
    s.written.take (s.cleared + 1) =
      s.written.take s.cleared ++ [s.ring.result s.ring.rxHead] := by
  obtain ⟨hlt, hget⟩ := h.next_of_written hwritten
  rw [hget, List.take_concat_get' _ _ hlt]

theorem RingInv.holds_turned (h : RingInv s)
    (hwritten : (s.ring.result s.ring.rxHead).status ≠ 0) :
    Holds RX_BUF_PAGES s.ring.clearHead.slot s.written (s.cleared + 1) ∧
      s.ring.clearHead.rxHead = (s.cleared + 1) % RX_BUF_PAGES := by
  obtain ⟨hlt, -⟩ := h.next_of_written hwritten
  refine ⟨?_, ?_⟩
  · change Holds RX_BUF_PAGES (s.ring.set s.ring.rxHead ⟨0, 0⟩).slot _ _
    rw [RxRing.slot_set, if_pos rfl, h.head]
    exact h.holds.pop hlt
  · change (s.ring.rxHead + 1) % RX_BUF_PAGES = _
    rw [h.head, Nat.mod_add_mod]

/-- A turn finds `complete_cyclic` at the end of the blocks cleared. -/
theorem RingInv.lock_of_take (h : RingInv s) (hstep : s.take = some s') :
    s.lock = .complete (completionOf (s.written.take s.cleared)) := by
  obtain ⟨c, hlock, -⟩ := RxSession.take_cases hstep
  rw [hlock, ← h.completing c (by rw [hlock]; rfl)]

theorem RingInv.take (h : RingInv s) (hstep : s.take = some s') (hc : PacketWritten s .take) :
    RingInv s' := by
  obtain ⟨hempty, hshort⟩ := hc rfl
  have hlock := h.lock_of_take hstep
  by_cases hwritten : (s.ring.result s.ring.rxHead).status ≠ 0
  case neg =>
    -- nothing is cleared, and nothing delivered
    have hzero := not_not.mp hwritten
    obtain rfl := Option.some.inj ((take_of_unwritten hlock hzero).symm.trans hstep)
    refine { h with delivered := ?_, idle := fun _ => hempty hzero, completing := nofun }
    refine (List.append_nil _).trans h.delivered
  obtain ⟨hlt, hget⟩ := h.next_of_written hwritten
  have hvalid := h.valid _ (hget ▸ List.getElem_mem hlt)
  have htake := h.take_cleared hwritten
  obtain ⟨hholds, hhead⟩ := h.holds_turned hwritten
  have hstep' := (take_of_written hlock hwritten).symm.trans hstep
  rcases hr : (s.ring.result s.ring.rxHead).eop with _ | _
  · -- the packet goes on
    rw [if_neg (fun hstops => Bool.false_ne_true (hr.symm.trans
      ((completionOf_stops _ hvalid).mp hstops))), completionOf_concat _ hvalid hr] at hstep'
    obtain rfl := Option.some.inj hstep'
    obtain ⟨hclosed, -⟩ := packets_concat (s.written.take s.cleared) hr
    refine
      { holds := hholds
        valid := h.valid
        head := hhead
        delivered := ?_
        idle := nofun
        completing := fun c hc => ?_ }
    · change s.delivered = deliveries 0 (packets (s.written.take (s.cleared + 1)))
      rw [htake, hclosed, h.delivered]
    · obtain rfl := Option.some.inj hc
      exact congrArg completionOf htake.symm
  · -- the packet ends, and is delivered
    rw [if_pos ((completionOf_stops _ hvalid).mpr hr)] at hstep'
    obtain rfl := Option.some.inj hstep'
    refine
      { holds := hholds
        valid := h.valid
        head := hhead
        delivered := ?_
        idle := fun _ => ?_
        completing := nofun }
    · have hint := (toInt_ofInt_iff (packetLength_nonneg _)).mpr (hshort hr)
      change s.delivered ++ Option.toList _ =
        deliveries 0 (packets (s.written.take (s.cleared + 1)))
      rw [completionOf_copied _ hvalid hr, htake, deliveries_concat_eop _ hr, h.delivered]
      exact congrArg (fun n => _ ++ [(_, n)]) hint
    · change openPacket (s.written.take (s.cleared + 1)) = []
      rw [htake, (packets_concat_eop _ hr).2]

/-! ## Exactly the intact runs -/

/-- The step lemma. -/
theorem step_intact {i : RxStep} (h : RingInv s) (hstep : s.step i = some s')
    (hc : PacketWritten s i) : RingInv s' ∧ StreamIntact s' := by
  suffices hinv : RingInv s' from ⟨hinv, hinv.intact⟩
  cases i with
  | write r => exact h.write hstep
  | serve =>
    obtain ⟨hlock, rfl⟩ := RxSession.serve_cases hstep
    refine h.congr rfl rfl rfl rfl rfl ?_
    rw [hlock]
    rcases s.pollMode <;> rfl
  | turn err =>
    obtain ⟨caller, hlock, rfl⟩ := RxSession.turn_cases hstep
    rcases err <;> exact h.congr rfl rfl rfl rfl rfl (by rw [hlock]; rfl)
  | scan => exact h.scan hstep
  | enter =>
    obtain ⟨ret, -, rfl⟩ := RxSession.enter_cases hstep
    exact h.congr rfl rfl rfl rfl rfl rfl
  | wait signal =>
    obtain ⟨-, -, rfl | rfl⟩ := RxSession.wait_cases hstep
    · exact h.congr rfl rfl rfl rfl rfl rfl
    · exact h.congr rfl rfl rfl rfl rfl rfl
  | poll =>
    obtain ⟨-, hlock, -, rfl⟩ := RxSession.poll_cases hstep
    exact h.congr rfl rfl rfl rfl rfl (by rw [hlock]; rfl)
  | test =>
    obtain ⟨-, rfl⟩ := RxSession.test_cases hstep
    exact h.congr rfl rfl rfl rfl rfl rfl
  | complete => exact h.complete hstep
  | take => exact h.take hstep hc
  | finish =>
    obtain ⟨rc, -, rfl⟩ := RxSession.finish_cases hstep
    exact h.congr rfl rfl rfl rfl rfl rfl

/-- The end of a packet is a result that was written. -/
theorem XdmaResult.status_ne_zero_of_eop {r : XdmaResult} (h : r.eop = true) : r.status ≠ 0 := by
  intro hzero
  rw [eop, hzero] at h
  exact absurd h (by decide)

/-- A turn that clears a part of a packet and finds no more of it, or that ends a packet too
long for an `int`, is not intact. -/
theorem packetWritten_of_intact {i : RxStep} (h : RingInv s) (hstep : s.step i = some s')
    (hp : StreamIntact s') : PacketWritten s i := by
  rintro rfl
  replace hstep : s.take = some s' := hstep
  have hlock := h.lock_of_take hstep
  refine ⟨fun hzero => ?_, fun heop => ?_⟩
  · obtain rfl := Option.some.inj ((take_of_unwritten hlock hzero).symm.trans hstep)
    have hprefix : packets (s.written.take s.cleared) <+: packets s.written :=
      Packets.closed_prefix (List.take_prefix _ _)
    have hcleared : s.cleared =
        ((packets s.written).take (s.delivered ++ []).length).flatten.length := hp.cleared rfl
    rw [List.append_nil, h.delivered, length_deliveries,
      ← List.prefix_iff_eq_take.mp hprefix] at hcleared
    have hlength := h.length_packets
    exact List.eq_nil_of_length_eq_zero (by omega)
  · have hwritten := XdmaResult.status_ne_zero_of_eop heop
    obtain ⟨hlt, hget⟩ := h.next_of_written hwritten
    have hvalid := h.valid _ (hget ▸ List.getElem_mem hlt)
    have hstep' := (take_of_written hlock hwritten).symm.trans hstep
    rw [if_pos ((completionOf_stops _ hvalid).mpr heop)] at hstep'
    obtain rfl := Option.some.inj hstep'
    have hpassed : s.delivered ++ Option.toList _ <+: deliveries 0 (packets s.written) :=
      hp.delivered
    rw [completionOf_copied _ hvalid heop, h.delivered] at hpassed
    -- the packet as it was written, behind the same packets
    have hwhole : deliveries 0 (packets (s.written.take (s.cleared + 1))) <+:
        deliveries 0 (packets s.written) :=
      deliveries_prefix 0 (Packets.closed_prefix (List.take_prefix _ _))
    rw [h.take_cleared hwritten, deliveries_concat_eop _ heop] at hwhole
    have hsame := (List.prefix_of_prefix_length_le hpassed hwhole (by simp)).eq_of_length (by simp)
    have hlast := List.append_cancel_left hsame
    have hint := (Prod.mk.inj (List.cons.inj hlast).1).2
    exact (toInt_ofInt_iff (packetLength_nonneg _)).mp hint

/-- In every run from an opened engine, in interrupt and in poll mode, every step leaves the
stream intact if and only if every turn of `complete_cyclic` finds its packet written on, and
the packet shorter than 2^31 bytes when it ends. -/
theorem stream_integrity_iff (pollMode : Bool) (is : List RxStep) :
    Along RxSession.step (fun _ _ s' => StreamIntact s') (.start pollMode) is ↔
      Along RxSession.step (fun s i _ => PacketWritten s i) (.start pollMode) is :=
  along_iff (fun _ i _ h hstep hc => step_intact (i := i) h hstep hc)
    (fun _ i _ h hstep hp => packetWritten_of_intact (i := i) h hstep hp) (ringInv_start pollMode)

/-- A packet of one block is read; a second read does not wait for the end of the next packet,
clears its first block, and returns 0. -/
theorem stream_integrity_fails_on_partial_packet :
    ¬ ∀ is : List RxStep,
      Along RxSession.step (fun _ _ s' => StreamIntact s') (.start false) is := by
  intro h
  have hrun := h [.write ⟨0x52B40001, 64⟩, .serve, .scan, .scan, .enter, .wait false, .test,
    .complete, .take, .finish, .write ⟨0x52B40000, 4096⟩, .enter, .wait false, .test, .complete,
    .take, .take]
  have hlast := (((((((((((((((((hrun _ rfl).2 _ rfl).2 _ rfl).2 _ rfl).2 _ rfl).2 _ rfl).2
    _ rfl).2 _ rfl).2 _ rfl).2 _ rfl).2 _ rfl).2 _ rfl).2 _ rfl).2 _ rfl).2 _ rfl).2 _ rfl).2
    _ rfl).1
  exact absurd (hlast.cleared rfl) (by decide)

end Wimi
