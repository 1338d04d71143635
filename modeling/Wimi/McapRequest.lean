import Wimi.Mcap

/-!
# Clearing a request by configuration

`MCapClearRequestByConfigure` polls the request bit at most `MCAP_LOOP_COUNT + 1` times. Its loop
counter is decremented behind the test that ends the loop, so it is 0 if the bit is clear at the
very last poll, and -1 if it never was; the test behind the loop takes 0 for the failure.

`clear_request_iff` : the call reports what it has seen exactly when the bit is clear before the
last poll (`ClearsInTime`).
-/

open Traced

namespace Wimi

/-- `IsConfigureMCapReqSet`, of a value of the status register. -/
def isConfigureMCapReqSet (status : U32) : Prop :=
  status &&& MCAP_STS_CFG_MCAP_REQ_MASK ≠ 0

instance : DecidablePred isConfigureMCapReqSet :=
  fun _ => inferInstanceAs (Decidable (_ ≠ _))

/-- What the call should do : it returns, with an error exactly when the bit was set in all that it
read of the status register; behind an error the control register has its value from before; and
without one the bit was seen clear. -/
def ReportsRequest (e : ClearRequestEnv) : Prop :=
  ∃ r, (mcapClearRequestByConfigure e).returned = some r ∧
    (r ≠ 0 ↔ ∀ status, .read .MCAP_STATUS status ∈ (mcapClearRequestByConfigure e).events →
      isConfigureMCapReqSet status) ∧
    (r ≠ 0 → ∃ before,
      (mcapClearRequestByConfigure e).events = before ++ [.write .MCAP_CONTROL e.control]) ∧
    (r = 0 → ∃ status, .read .MCAP_STATUS status ∈ (mcapClearRequestByConfigure e).events ∧
      ¬isConfigureMCapReqSet status)

/-- The bit is clear at the initial check or at one of the first `MCAP_LOOP_COUNT` polls. -/
def ClearsInTime (e : ClearRequestEnv) : Prop :=
  ¬isConfigureMCapReqSet e.status ∨ ∃ k < MCAP_LOOP_COUNT, ¬isConfigureMCapReqSet (e.polls k)

/-- `n` reads of the status register, from poll `i`. -/
def statusReads (polls : ℕ → U32) (i n : ℕ) : List Access :=
  (List.range n).map fun j => .read .MCAP_STATUS (polls (i + j))

theorem statusReads_succ (polls : ℕ → U32) (i n : ℕ) :
    statusReads polls i (n + 1) = .read .MCAP_STATUS (polls i) :: statusReads polls (i + 1) n := by
  simp [statusReads, List.range_succ_eq_map, Function.comp_def, Nat.add_right_comm, Nat.add_assoc]

theorem reqSet_from {polls : ℕ → U32} {i k : ℕ} (h : isConfigureMCapReqSet (polls i))
    (hset : ∀ j < k, isConfigureMCapReqSet (polls (i + 1 + j))) :
    ∀ j < k + 1, isConfigureMCapReqSet (polls (i + j))
  | 0, _ => h
  | j + 1, hj => by
    rw [← Nat.add_assoc, Nat.add_right_comm]
    exact hset j (by omega)

/-- The loop ends at the first poll that finds the bit clear, or behind its last one. -/
theorem clearRequestLoop_cases (polls : ℕ → U32) (loop i : ℕ) :
    (∃ k ≤ loop, ¬isConfigureMCapReqSet (polls (i + k)) ∧
      (∀ j < k, isConfigureMCapReqSet (polls (i + j))) ∧
        clearRequestLoop polls loop i = ⟨statusReads polls i (k + 1), some (loop - k : ℤ)⟩) ∨
    (∀ j ≤ loop, isConfigureMCapReqSet (polls (i + j))) ∧
      clearRequestLoop polls loop i = ⟨statusReads polls i (loop + 1), some (-1)⟩ := by
  induction loop generalizing i with
  | zero =>
    by_cases h : polls i &&& MCAP_STS_CFG_MCAP_REQ_MASK = 0
    · refine .inl ⟨0, le_rfl, not_not.mpr h, nofun, ?_⟩
      simp [clearRequestLoop, h, statusReads]
    · refine .inr ⟨fun j hj => ?_, ?_⟩
      · rwa [Nat.le_zero.mp hj]
      · rw [clearRequestLoop, emit_bind, if_neg h]
        rfl
  | succ loop ih =>
    by_cases h : polls i &&& MCAP_STS_CFG_MCAP_REQ_MASK = 0
    · refine .inl ⟨0, Nat.zero_le _, not_not.mpr h, nofun, ?_⟩
      simp [clearRequestLoop, h, statusReads]
    · have hstep : clearRequestLoop polls (loop + 1) i =
          ⟨.read .MCAP_STATUS (polls i) :: (clearRequestLoop polls loop (i + 1)).events,
            (clearRequestLoop polls loop (i + 1)).returned⟩ := by
        rw [clearRequestLoop, emit_bind, if_neg h]
      rcases ih (i + 1) with ⟨k, hk, hclear, hset, heq⟩ | ⟨hset, heq⟩
      · refine .inl ⟨k + 1, by omega, by rwa [← Nat.add_assoc, Nat.add_right_comm],
          reqSet_from h hset, ?_⟩
        have hleft : (loop - k : ℤ) = (loop + 1 : ℕ) - (k + 1 : ℕ) := by omega
        rw [hstep, heq, statusReads_succ polls i, hleft]
      · have hfrom := reqSet_from h fun j hj => hset j (Nat.le_of_lt_succ hj)
        refine .inr ⟨fun j hj => hfrom j (Nat.lt_succ_of_le hj), ?_⟩
        rw [hstep, heq, statusReads_succ polls i]

theorem mem_statusReads {polls : ℕ → U32} {i n : ℕ} {status : U32} :
    .read .MCAP_STATUS status ∈ statusReads polls i n ↔ ∃ j < n, polls (i + j) = status := by
  simp [statusReads]

/-- Without a request nothing is written. -/
theorem mcapClearRequest_of_clear {e : ClearRequestEnv} (hs : ¬isConfigureMCapReqSet e.status) :
    mcapClearRequestByConfigure e =
      ⟨[.read .MCAP_CONTROL e.control, .read .MCAP_STATUS e.status], some 0⟩ := by
  have hclear : e.status &&& MCAP_STS_CFG_MCAP_REQ_MASK = 0 := not_not.mp hs
  simp [mcapClearRequestByConfigure, hclear]

/-- With a request the call goes by what the loop leaves `loop` with. -/
theorem mcapClearRequest_of_set {e : ClearRequestEnv} (hs : isConfigureMCapReqSet e.status)
    {reads : List Access} {left : ℤ}
    (hloop : clearRequestLoop e.polls MCAP_LOOP_COUNT 0 = ⟨reads, some left⟩) :
    mcapClearRequestByConfigure e =
      ⟨.read .MCAP_CONTROL e.control :: .read .MCAP_STATUS e.status ::
        .write .MCAP_CONTROL (e.control ||| (MCAP_CTRL_MODE_MASK ||| MCAP_CTRL_IN_USE_MASK)) ::
          (reads ++ if left = 0 then [.write .MCAP_CONTROL e.control] else []),
        some (if left = 0 then -Errno.eio.code else 0)⟩ := by
  rw [mcapClearRequestByConfigure, emit_bind, emit_bind, if_neg hs, emit_bind, hloop,
    bind_of_returned rfl]
  by_cases hl : left = 0 <;> simp [hl]

/-- The bit is clear at the initial check. -/
theorem reportsRequest_of_clear {e : ClearRequestEnv} (hs : ¬isConfigureMCapReqSet e.status) :
    ReportsRequest e := by
  rw [ReportsRequest, mcapClearRequest_of_clear hs]
  refine ⟨0, rfl, ?_, fun h => absurd rfl h, fun _ => ⟨e.status, by simp, hs⟩⟩
  exact iff_of_false (by simp) fun hall => hs (hall e.status (by simp))

/-- The bit is clear at a poll before the last. -/
theorem reportsRequest_of_poll {e : ClearRequestEnv} (hs : isConfigureMCapReqSet e.status) {k : ℕ}
    (hk : k < MCAP_LOOP_COUNT) (hclear : ¬isConfigureMCapReqSet (e.polls k))
    (hloop : clearRequestLoop e.polls MCAP_LOOP_COUNT 0 =
      ⟨statusReads e.polls 0 (k + 1), some (MCAP_LOOP_COUNT - k : ℤ)⟩) : ReportsRequest e := by
  have hleft : (MCAP_LOOP_COUNT - k : ℤ) ≠ 0 := by omega
  rw [ReportsRequest, mcapClearRequest_of_set hs hloop, if_neg hleft, if_neg hleft]
  have hread : Access.read .MCAP_STATUS (e.polls k) ∈ statusReads e.polls 0 (k + 1) :=
    mem_statusReads.mpr ⟨k, Nat.lt_succ_self k, by rw [Nat.zero_add]⟩
  refine ⟨0, rfl, ?_, fun h => absurd rfl h, fun _ => ⟨e.polls k, by simp [hread], hclear⟩⟩
  exact iff_of_false (by simp) fun hall => hclear (hall _ (by simp [hread]))

/-- The bit is clear at the last poll : the call fails. -/
theorem not_reportsRequest_of_last {e : ClearRequestEnv} (hs : isConfigureMCapReqSet e.status)
    (hclear : ¬isConfigureMCapReqSet (e.polls MCAP_LOOP_COUNT))
    (hloop : clearRequestLoop e.polls MCAP_LOOP_COUNT 0 =
      ⟨statusReads e.polls 0 (MCAP_LOOP_COUNT + 1), some 0⟩) : ¬ReportsRequest e := by
  rw [ReportsRequest, mcapClearRequest_of_set hs hloop, if_pos rfl, if_pos rfl]
  have hread : Access.read .MCAP_STATUS (e.polls MCAP_LOOP_COUNT) ∈
      statusReads e.polls 0 (MCAP_LOOP_COUNT + 1) :=
    mem_statusReads.mpr ⟨_, Nat.lt_succ_self _, by rw [Nat.zero_add]⟩
  rintro ⟨r, hr, herror, -, -⟩
  obtain rfl := Option.some.inj hr
  exact hclear (herror.mp (by decide) _ (by simp [hread]))

/-- The bit is never clear : the call succeeds. -/
theorem not_reportsRequest_of_set {e : ClearRequestEnv} (hs : isConfigureMCapReqSet e.status)
    (hset : ∀ j ≤ MCAP_LOOP_COUNT, isConfigureMCapReqSet (e.polls j))
    (hloop : clearRequestLoop e.polls MCAP_LOOP_COUNT 0 =
      ⟨statusReads e.polls 0 (MCAP_LOOP_COUNT + 1), some (-1)⟩) : ¬ReportsRequest e := by
  rw [ReportsRequest, mcapClearRequest_of_set hs hloop, if_neg (by decide), if_neg (by decide)]
  rintro ⟨r, hr, -, -, hseen⟩
  obtain rfl := Option.some.inj hr
  obtain ⟨status, hread, hclear⟩ := hseen rfl
  simp only [List.mem_cons, reduceCtorEq, Access.read.injEq, true_and, false_and, false_or,
    List.append_nil, mem_statusReads] at hread
  rcases hread with rfl | ⟨j, hj, rfl⟩
  · exact hclear hs
  · rw [Nat.zero_add] at hclear
    exact hclear (hset j (by omega))

/-- For all values the registers have when they are read : an error is returned exactly when the
bit was set in every read of the status register, with the control register restored, and 0 only
when it was seen clear, if and only if it is clear at the initial check or before the last poll. -/
theorem clear_request_iff (e : ClearRequestEnv) : ReportsRequest e ↔ ClearsInTime e := by
  by_cases hs : isConfigureMCapReqSet e.status
  · rcases clearRequestLoop_cases e.polls MCAP_LOOP_COUNT 0 with
      ⟨k, hk, hclear, hset, hloop⟩ | ⟨hset, hloop⟩
    · simp only [Nat.zero_add] at hclear hset
      rcases Nat.lt_or_eq_of_le hk with hlt | rfl
      · exact iff_of_true (reportsRequest_of_poll hs hlt hclear hloop) (.inr ⟨k, hlt, hclear⟩)
      · rw [sub_self] at hloop
        refine iff_of_false (not_reportsRequest_of_last hs hclear hloop) ?_
        rintro (h | ⟨j, hj, hj'⟩)
        · exact h hs
        · exact hj' (hset j hj)
    · simp only [Nat.zero_add] at hset
      refine iff_of_false (not_reportsRequest_of_set hs hset hloop) ?_
      rintro (h | ⟨j, hj, hj'⟩)
      · exact h hs
      · exact hj' (hset j hj.le)
  · exact iff_of_true (reportsRequest_of_clear hs) (.inl hs)

/-- The bit is set in every read, and the call returns 0. -/
theorem not_reportsRequest_stuck : ¬∀ e : ClearRequestEnv, ReportsRequest e := by
  intro h
  have hset : isConfigureMCapReqSet MCAP_STS_CFG_MCAP_REQ_MASK := by decide
  rcases clearRequestLoop_cases (fun _ => MCAP_STS_CFG_MCAP_REQ_MASK) MCAP_LOOP_COUNT 0 with
    ⟨k, -, hclear, -⟩ | ⟨-, hloop⟩
  · exact hclear hset
  · exact not_reportsRequest_of_set (e := ⟨0, MCAP_STS_CFG_MCAP_REQ_MASK, fun _ => _⟩) hset
      (fun _ _ => hset) hloop (h _)

end Wimi
