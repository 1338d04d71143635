import Wimi.Alignment

/-!
# The loop over the chunks

`transfer_data` as one loop : what becomes of a chunk is answered by the system around it, which
may stop the kernel. In interrupt mode a wait that returns leaves its transfer submitted only with
an error.

`transferData_progress` : in interrupt mode the chunks it submits are consecutive, and what it
returns and how far it moves the position are what the chunks that completed make up.
-/

namespace Wimi

/-! ## The loop -/

/-- How `transfer_monitor` returns, and the state it leaves the transfer in. -/
structure WaitEnd where
  state : TransferState
  rc : ℤ

/-- How it returns in interrupt mode. -/
structure Awaited extends WaitEnd where
  returns : state = .submitted → rc ≠ 0

/-- `wait_event_interruptible` returns so. -/
def Awaited.ofWait {e : XdmaEngine} {p : Ptr} {signal : Bool} {rc : ℤ}
    (h : waitTransfer e p signal = some rc) : Awaited where
  state := e.stateOf p
  rc := rc
  returns hsubmitted := by
    rw [waitTransfer, if_neg (not_not.mpr hsubmitted)] at h
    obtain ⟨-, h⟩ := Option.ite_none_right_eq_some.mp h
    rw [← Option.some.inj h]
    decide

/-- What becomes of a chunk. -/
inductive ChunkOutcome
  /-- `transfer_create` returns a null pointer. -/
  | null
  | awaited (w : WaitEnd)

/-- The loop ends with an error. -/
def ChunkOutcome.Fails : ChunkOutcome → Prop
  | .null => True
  | .awaited w => Call.outcome w.state w.rc ≠ 0

/-- What becomes of a chunk in interrupt mode. -/
inductive InterruptOutcome
  /-- `transfer_create` returns a null pointer. -/
  | null
  | awaited (w : Awaited)

/-- The transfer of the chunk has completed. -/
def InterruptOutcome.Completed : InterruptOutcome → Prop
  | .null => False
  | .awaited w => w.state = .completed

instance : DecidablePred InterruptOutcome.Completed
  | .null => isFalse id
  | .awaited w => inferInstanceAs (Decidable (w.state = .completed))

/-- The outcome as the loop sees it. -/
def InterruptOutcome.toChunk : InterruptOutcome → ChunkOutcome
  | .null => .null
  | .awaited w => .awaited w.toWaitEnd

/-- The loop ends at every other outcome. -/
theorem InterruptOutcome.fails {o : InterruptOutcome} (h : ¬ o.Completed) : o.toChunk.Fails := by
  cases o with
  | null => trivial
  | awaited w =>
    exact fun hzero => (Call.outcome_eq_zero.mp hzero).elim h fun hw => w.returns hw.1 hw.2

theorem Call.chunk_eq_min (c : Call) : c.chunk = min XDMA_TRANSFER_MAX_BYTES c.remaining := by
  unfold Call.chunk
  split
  · next hlarge => exact (min_eq_left (le_of_lt hlarge)).symm
  · next hsmall => exact (min_eq_right (not_lt.mp hsmall)).symm

namespace ReadWrite

variable {s : ReadWrite} {p : Ptr} {state : TransferState} {rc : ℤ}

theorem chunk_pos (h : s.call.Continues) : 0 < s.call.chunk := by
  unfold Call.chunk
  split
  · decide
  · exact h.2

/-- The length of a chunk the loop goes on with. -/
theorem chunk_bounds (h : s.call.Continues) :
    BitVec.ofInt 64 s.call.chunk ≠ 0 ∧ (BitVec.ofInt 64 s.call.chunk).toNat ≤ 2 ^ 32 := by
  have hpos := chunk_pos h
  have hmax : s.call.chunk ≤ 2 ^ 23 := by
    have hvalue : XDMA_TRANSFER_MAX_BYTES = 2 ^ 23 := by decide
    rw [Call.chunk, hvalue]
    split
    · exact le_rfl
    · next hsmall => exact not_lt.mp hsmall
  have hnat : (BitVec.ofInt 64 s.call.chunk).toNat = s.call.chunk.toNat := by
    rw [BitVec.toNat_ofInt, Int.emod_eq_of_lt hpos.le (hmax.trans_lt (by decide))]
  refine ⟨fun hzero => ?_, by rw [hnat]; omega⟩
  have hnone : s.call.chunk.toNat = 0 := hnat.symm.trans (congrArg BitVec.toNat hzero)
  omega

/-- A turn of the loop leaves less to do. -/
theorem remaining_next_lt (h : s.call.Continues) :
    (s.next p state rc).call.remaining.toNat < s.call.remaining.toNat := by
  have hchunk := chunk_pos h
  have hremaining := h.2
  simp only [next, settle, queued, Call.settle, Call.queued]
  split <;> omega

end ReadWrite

/-- A request that is not refused enters the loop. -/
theorem charSgdmaReadWrite_ok {a : EngineAlignment} {buf count pos : U64} {dirToDev : Bool}
    {s : ReadWrite} (hs : charSgdmaReadWrite a buf count pos dirToDev = .ok s) :
    s = ⟨.enter count.toInt pos.toInt, buf⟩ := by
  unfold charSgdmaReadWrite at hs
  split at hs
  · cases hs
  · obtain ⟨⟨⟩, -, rfl⟩ := Except.map_eq_ok hs
    rfl

section Loop

variable {σ : Type*} (turn : ReadWrite → σ → Option (ChunkOutcome × σ))

/-- `transfer_data`, from the head of its loop. `turn` is what becomes of the next chunk, none a
kernel that has stopped. -/
def transferData (s : ReadWrite) (env : σ) : Option (ReadWrite × σ) :=
  if s.call.Continues then
    match turn s env with
    | none => none
    | some (.null, env) => some ({ s with call := s.call.noTransfer }, env)
    | some (.awaited w, env) => transferData (s.next 0 w.state w.rc) env
  else some ({ s with call := s.call.leave }, env)
termination_by s.call.remaining.toNat
decreasing_by exact ReadWrite.remaining_next_lt ‹_›

variable {turn}

/-- What every turn keeps of the system around the loop is kept by the whole of it. -/
theorem transferData_invariant {P : σ → Prop}
    (hturn : ∀ s env o env', turn s env = some (o, env') → P env → P env')
    {s c : ReadWrite} {env env' : σ} (hrun : transferData turn s env = some (c, env'))
    (h : P env) : P env' := by
  fun_induction transferData turn s env with
  | case1 => cases hrun
  | case2 s env hgo env₁ hnull =>
    obtain ⟨-, rfl⟩ := Prod.mk.inj (Option.some.inj hrun)
    exact hturn _ _ _ _ hnull h
  | case3 s env hgo w env₁ hawaited ih => exact ih hrun (hturn _ _ _ _ hawaited h)
  | case4 =>
    obtain ⟨-, rfl⟩ := Prod.mk.inj (Option.some.inj hrun)
    exact h

end Loop

/-! ## Chunks -/

/-- A chunk, by where it starts in the user buffer and in the device. -/
structure Chunk where
  addr : U64
  pos : U64
  len : ℤ

/-- `d` starts where `c` ends. -/
structure Chunk.Follows (c d : Chunk) : Prop where
  addr : d.addr = c.addr + BitVec.ofInt 64 c.len
  pos : d.pos = c.pos + BitVec.ofInt 64 c.len

/-- How many chunks a request is moved in. -/
def chunkCount (size : ℕ) : ℕ :=
  size ⌈/⌉ XDMA_TRANSFER_MAX_BYTES.toNat

theorem lt_chunkCount {size k : ℕ} :
    k < chunkCount size ↔ (k : ℤ) * XDMA_TRANSFER_MAX_BYTES < size := by
  have hmax : 0 < XDMA_TRANSFER_MAX_BYTES.toNat := by decide
  rw [chunkCount, ← not_le, ceilDiv_le_iff_le_mul hmax, not_le]
  have hcast : ((XDMA_TRANSFER_MAX_BYTES.toNat : ℕ) : ℤ) = XDMA_TRANSFER_MAX_BYTES := rfl
  rw [← hcast]
  norm_cast
  rw [mul_comm]

namespace ReadWrite

/-- `*pos`. -/
def filePos (s : ReadWrite) : U64 :=
  BitVec.ofInt 64 s.call.pos

/-- The chunk the loop comes to. -/
def nextChunk (s : ReadWrite) : Chunk :=
  ⟨s.transferAddr, s.filePos, s.call.chunk⟩

/-- The call after `k` chunks that complete. -/
def past (s : ReadWrite) (k : ℕ) : ReadWrite :=
  (fun s => s.next 0 .completed 0)^[k] s

/-- The first `k` chunks. -/
def chunks (s : ReadWrite) (k : ℕ) : List Chunk :=
  (List.range k).map fun j => (s.past j).nextChunk

variable {s : ReadWrite}

theorem past_succ (k : ℕ) : s.past (k + 1) = (s.past k).next 0 .completed 0 :=
  Function.iterate_succ_apply' _ _ _

theorem chunks_succ (k : ℕ) : s.chunks (k + 1) = s.chunks k ++ [(s.past k).nextChunk] := by
  rw [chunks, List.range_succ, List.map_append]
  rfl

/-- The loop goes on in the same way from every chunk it goes on from. -/
theorem next_of_outcome {state : TransferState} {rc : ℤ} (h : Call.outcome state rc = 0) :
    s.next 0 state rc = s.next 0 .completed 0 := by
  simp only [next, settle, queued, Call.settle, h]
  rfl

/-- The call that has left its loop. -/
def left (s : ReadWrite) : ReadWrite :=
  { s with call := s.call.leave }

theorem left_phase (h : s.call.res = 0) : s.left.call.phase = .returned s.call.done :=
  congrArg _ (if_neg (not_not.mpr h))

theorem left_pos : s.left.call.pos = s.call.pos :=
  rfl

/-- A chunk that completes is gone by. -/
theorem next_completed :
    (s.next 0 .completed 0).call.remaining = s.call.remaining - s.call.chunk ∧
      (s.next 0 .completed 0).call.res = 0 ∧
      (s.next 0 .completed 0).call.done = s.call.done + s.call.chunk ∧
      (s.next 0 .completed 0).call.pos = s.call.pos + s.call.chunk ∧
      (s.next 0 .completed 0).transferAddr = s.transferAddr + BitVec.ofInt 64 s.call.chunk :=
  ⟨rfl, rfl, rfl, rfl, rfl⟩

/-- The chunks follow each other. -/
theorem isChain_chunks (k : ℕ) : (s.chunks k).IsChain Chunk.Follows := by
  refine (List.isChain_map _).mpr ((List.isChain_range _ _).mpr fun j _ => ?_)
  obtain ⟨-, -, -, hpos, haddr⟩ := next_completed (s := s.past j)
  rw [past_succ]
  refine ⟨haddr, ?_⟩
  rw [nextChunk, filePos, hpos, BitVec.ofInt_add]
  rfl

end ReadWrite

/-! ## Progress -/

section Progress

/-- The chunks that are submitted, with what becomes of each given in advance. -/
def recordChunk (outcomes : ℕ → InterruptOutcome) (s : ReadWrite) (submitted : List Chunk) :
    Option (ChunkOutcome × List Chunk) :=
  match outcomes submitted.length with
  | .null => some (.null, submitted)
  | .awaited w => some (.awaited w.toWaitEnd, submitted ++ [s.nextChunk])

/-- A call for `size` bytes at `buf` in the user's memory and `pos` in the device. -/
def enterRequest (buf pos : U64) (size : ℕ) : ReadWrite :=
  ⟨.enter size pos.toInt, buf⟩

/-- How far the call has come after `k` chunks that complete. -/
def offset (size k : ℕ) : ℤ :=
  min (k * XDMA_TRANSFER_MAX_BYTES) size

variable {outcomes : ℕ → InterruptOutcome} {buf pos : U64} {size k : ℕ}

variable (buf pos size k) in
theorem past_spec :
    ((enterRequest buf pos size).past k).call.remaining = size - offset size k ∧
      ((enterRequest buf pos size).past k).call.res = 0 ∧
      ((enterRequest buf pos size).past k).call.done = offset size k ∧
      ((enterRequest buf pos size).past k).call.pos = pos.toInt + offset size k := by
  induction k with
  | zero =>
    have hzero : offset size 0 = 0 := by simp [offset]
    rw [hzero]
    exact ⟨(sub_zero _).symm, rfl, rfl, (add_zero _).symm⟩
  | succ k ih =>
    obtain ⟨hremaining, hres, hdone, hpos⟩ := ih
    obtain ⟨hremaining', hres', hdone', hpos', -⟩ :=
      ReadWrite.next_completed (s := (enterRequest buf pos size).past k)
    have hoffset : offset size (k + 1) =
        offset size k + ((enterRequest buf pos size).past k).call.chunk := by
      have hmax : 0 < XDMA_TRANSFER_MAX_BYTES := by decide
      rw [Call.chunk, hremaining, offset, offset, Nat.cast_succ, add_one_mul]
      generalize XDMA_TRANSFER_MAX_BYTES = m at hmax ⊢
      generalize (k : ℤ) * m = done
      split <;> omega
    rw [ReadWrite.past_succ, hremaining', hres', hdone', hpos', hremaining, hdone, hpos, hoffset]
    exact ⟨sub_sub _ _ _, rfl, rfl, add_assoc _ _ _⟩

variable (buf pos) in
/-- The chunk behind `k` that complete : where it starts, and how long it is. -/
theorem past_chunk (hk : k < chunkCount size) :
    ((enterRequest buf pos size).past k).transferAddr =
        buf + BitVec.ofInt 64 (k * XDMA_TRANSFER_MAX_BYTES) ∧
      ((enterRequest buf pos size).past k).call.chunk =
        min XDMA_TRANSFER_MAX_BYTES (size - k * XDMA_TRANSFER_MAX_BYTES) := by
  have hoffset {j : ℕ} (hj : j < chunkCount size) : offset size j = j * XDMA_TRANSFER_MAX_BYTES :=
    min_eq_left (lt_chunkCount.mp hj).le
  have hchunk {j : ℕ} (hj : j < chunkCount size) :
      ((enterRequest buf pos size).past j).call.chunk =
        min XDMA_TRANSFER_MAX_BYTES (size - j * XDMA_TRANSFER_MAX_BYTES) := by
    rw [Call.chunk_eq_min, (past_spec _ _ _ _).1, hoffset hj]
  refine ⟨?_, hchunk hk⟩
  induction k with
  | zero =>
    have hzero : BitVec.ofInt 64 0 = 0 := rfl
    rw [Nat.cast_zero, zero_mul, hzero]
    exact (BitVec.add_zero _).symm
  | succ k ih =>
    have hk' : k < chunkCount size := Nat.lt_of_succ_lt hk
    obtain ⟨-, -, -, -, haddr⟩ :=
      ReadWrite.next_completed (s := (enterRequest buf pos size).past k)
    -- a chunk with another behind it is full
    have hfull : ((enterRequest buf pos size).past k).call.chunk = XDMA_TRANSFER_MAX_BYTES := by
      have hlt := lt_chunkCount.mp hk
      rw [hchunk hk', Nat.cast_succ, add_one_mul] at *
      exact min_eq_left (le_sub_iff_add_le'.mpr hlt.le)
    rw [ReadWrite.past_succ, haddr, ih hk', hfull, BitVec.add_assoc, ← BitVec.ofInt_add,
      Nat.cast_succ, add_one_mul]

theorem past_continues :
    ((enterRequest buf pos size).past k).call.Continues ↔ k < chunkCount size := by
  obtain ⟨hremaining, hres, -, -⟩ := past_spec buf pos size k
  rw [Call.Continues, hremaining, hres, lt_chunkCount, offset]
  generalize (k : ℤ) * XDMA_TRANSFER_MAX_BYTES = done
  omega

theorem sum_chunks : (((enterRequest buf pos size).chunks k).map Chunk.len).sum =
    offset size k := by
  induction k with
  | zero => simp [ReadWrite.chunks, offset]
  | succ k ih =>
    obtain ⟨-, -, hdone, -⟩ := past_spec buf pos size (k + 1)
    obtain ⟨-, -, hdone', -⟩ := past_spec buf pos size k
    rw [ReadWrite.chunks_succ, List.map_append, List.sum_append, ih, ← hdone, ← hdone',
      ReadWrite.past_succ]
    simp only [List.map_cons, List.map_nil, List.sum_cons, List.sum_nil, add_zero]
    exact (ReadWrite.next_completed).2.2.1.symm

/-- Chunks that complete bring the loop to the chunk behind them, whatever is kept of each. -/
theorem transferData_past {σ : Type*} {turn : ReadWrite → σ → Option (ChunkOutcome × σ)}
    (env : ℕ → σ) (hk : k ≤ chunkCount size)
    (hdone : ∀ j < k, ∃ w, w.state = .completed ∧
      turn ((enterRequest buf pos size).past j) (env j) = some (.awaited w, env (j + 1))) :
    transferData turn (enterRequest buf pos size) (env 0) =
      transferData turn ((enterRequest buf pos size).past k) (env k) := by
  induction k with
  | zero => rfl
  | succ k ih =>
    obtain ⟨w, hcompleted, hturn⟩ := hdone k (Nat.lt_succ_self k)
    have hzero : Call.outcome w.state w.rc = 0 := Call.outcome_eq_zero.mpr (.inl hcompleted)
    rw [ih (Nat.le_of_succ_le hk) fun j hj => hdone j (Nat.lt_succ_of_lt hj), transferData,
      if_pos (past_continues.mpr hk), hturn]
    dsimp only
    rw [ReadWrite.next_of_outcome hzero, ← ReadWrite.past_succ]

theorem length_chunks : ((enterRequest buf pos size).chunks k).length = k := by
  rw [ReadWrite.chunks, List.length_map, List.length_range]

variable (buf pos) in
/-- A chunk that completes is recorded. -/
theorem recordChunk_completed (hdone : ∀ j < k, (outcomes j).Completed) :
    ∀ j < k, ∃ w, w.state = .completed ∧
      recordChunk outcomes ((enterRequest buf pos size).past j)
        ((enterRequest buf pos size).chunks j) =
      some (.awaited w, (enterRequest buf pos size).chunks (j + 1)) := by
  intro j hj
  have hcompleted := hdone j hj
  rw [recordChunk, length_chunks, ReadWrite.chunks_succ]
  cases houtcome : outcomes j with
  | null =>
    rw [houtcome] at hcompleted
    exact hcompleted.elim
  | awaited w =>
    rw [houtcome] at hcompleted
    exact ⟨w.toWaitEnd, hcompleted, rfl⟩

/-- A call whose chunks have all completed returns their bytes. -/
theorem transferData_completed (hdone : ∀ j < chunkCount size, (outcomes j).Completed) :
    transferData (recordChunk outcomes) (enterRequest buf pos size) [] =
      some (((enterRequest buf pos size).past (chunkCount size)).left,
        (enterRequest buf pos size).chunks (chunkCount size)) := by
  refine (transferData_past _ le_rfl (recordChunk_completed _ _ hdone)).trans ?_
  rw [transferData, if_neg (mt past_continues.mp (lt_irrefl _))]
  rfl

theorem offset_chunkCount : offset size (chunkCount size) = size := by
  have hlast : ¬ chunkCount size < chunkCount size := lt_irrefl _
  rw [lt_chunkCount, not_lt] at hlast
  exact min_eq_right hlast

/-- The loop ends at an error. -/
theorem Call.outcome_neg {state : TransferState} {rc : ℤ} (h : Call.outcome state rc ≠ 0) :
    Call.outcome state rc < 0 := by
  unfold Call.outcome at h ⊢
  split
  · split <;> simp_all [Errno.code]
  · split <;> simp_all [Errno.code]

/-- A chunk that fails ends the call with an error, and its position stays. -/
theorem transferData_error {σ : Type*} {turn : ReadWrite → σ → Option (ChunkOutcome × σ)}
    {s : ReadWrite} {env env' : σ} {o : ChunkOutcome} (hgo : s.call.Continues)
    (hturn : turn s env = some (o, env')) (hfails : o.Fails) :
    ∃ c, transferData turn s env = some (c, env') ∧
      (∃ ret < 0, c.call.phase = .returned ret) ∧ c.call.pos = s.call.pos := by
  rw [transferData, if_pos hgo, hturn]
  cases o with
  | null => exact ⟨_, rfl, ⟨-Errno.eio.code, by decide, rfl⟩, rfl⟩
  | awaited w =>
    have hstop : ¬ (s.next 0 w.state w.rc).call.Continues := fun hnext => hfails hnext.1
    have hret : ((s.next 0 w.state w.rc).call.leave).phase =
        .returned (Call.outcome w.state w.rc) := congrArg _ (if_pos hfails)
    dsimp only
    rw [transferData, if_neg hstop]
    refine ⟨_, rfl, ⟨_, Call.outcome_neg hfails, hret⟩, ?_⟩
    simp only [ReadWrite.next, ReadWrite.settle, ReadWrite.queued, Call.leave, Call.settle,
      Call.queued, if_pos (show _ ≠ _ from hfails), add_zero]

variable (buf pos) in
/-- A call returns an error at the first chunk that does not complete, and its position has moved
on by the chunks before that. -/
theorem transferData_failed (hk : k < chunkCount size)
    (hdone : ∀ j < k, (outcomes j).Completed) (hfailed : ¬ (outcomes k).Completed) :
    ∃ c submitted, transferData (recordChunk outcomes) (enterRequest buf pos size) [] =
        some (c, submitted) ∧ (∃ ret < 0, c.call.phase = .returned ret) ∧
      c.call.pos = pos.toInt + offset size k ∧
      ∃ n, k ≤ n ∧ n ≤ k + 1 ∧ submitted = (enterRequest buf pos size).chunks n := by
  obtain ⟨-, -, -, hpos⟩ := past_spec buf pos size k
  have hpast := transferData_past _ hk.le (recordChunk_completed buf pos hdone)
  have hstart : (enterRequest buf pos size).chunks 0 = [] := rfl
  rw [hstart] at hpast
  have hturn : ∃ n, k ≤ n ∧ n ≤ k + 1 ∧
      recordChunk outcomes ((enterRequest buf pos size).past k)
        ((enterRequest buf pos size).chunks k) =
      some ((outcomes k).toChunk, (enterRequest buf pos size).chunks n) := by
    rw [recordChunk, length_chunks]
    cases outcomes k with
    | null => exact ⟨k, le_rfl, k.le_succ, rfl⟩
    | awaited w => exact ⟨k + 1, k.le_succ, le_rfl, by rw [ReadWrite.chunks_succ]; rfl⟩
  obtain ⟨n, hkn, hn, hturn⟩ := hturn
  obtain ⟨c, hend, hret, hkept⟩ := transferData_error (past_continues.mpr hk) hturn
    (InterruptOutcome.fails hfailed)
  exact ⟨c, _, hpast.trans hend, hret, hkept.trans hpos, n, hkn, hn, rfl⟩

/-- The chunks of a request : each starts where the one before it ended. -/
structure ChunksOf (buf pos : U64) (submitted : List Chunk) : Prop where
  first : ∀ c ∈ submitted.head?, c.addr = buf ∧ c.pos = pos
  follows : submitted.IsChain Chunk.Follows
  bounded : ∀ c ∈ submitted, 0 < c.len ∧ c.len ≤ XDMA_TRANSFER_MAX_BYTES

/-- The bytes of the first `k` chunks. -/
def bytesOf (submitted : List Chunk) (k : ℕ) : ℤ :=
  ((submitted.take k).map Chunk.len).sum

/-- What a call of `size` bytes comes to, by what becomes of its chunks. -/
structure RequestProgress (outcomes : ℕ → InterruptOutcome) (buf pos : U64) (size : ℕ)
    (c : ReadWrite) (submitted : List Chunk) : Prop where
  chunks : ChunksOf buf pos submitted
  /-- The whole request is moved just when every chunk completes. -/
  moved : c.call.phase = .returned size ∧ c.filePos = pos + BitVec.ofNat 64 size ↔
    ∀ k < chunkCount size, (outcomes k).Completed
  /-- The chunks that all complete make up the request. -/
  whole : (∀ k < chunkCount size, (outcomes k).Completed) →
    submitted.length = chunkCount size ∧ bytesOf submitted (chunkCount size) = size
  /-- The first chunk that does not complete ends the call with an error. -/
  failed : ∀ k < chunkCount size, (∀ j < k, (outcomes j).Completed) → ¬ (outcomes k).Completed →
    (∃ ret < 0, c.call.phase = .returned ret) ∧ k ≤ submitted.length ∧
      submitted.length ≤ k + 1 ∧ c.filePos = pos + BitVec.ofInt 64 (bytesOf submitted k)

theorem chunksOf_chunks (hk : k ≤ chunkCount size) :
    ChunksOf buf pos ((enterRequest buf pos size).chunks k) := by
  refine ⟨fun c hc => ?_, ReadWrite.isChain_chunks k, fun c hc => ?_⟩
  · cases k with
    | zero => cases hc
    | succ k =>
      rw [ReadWrite.chunks, List.range_succ_eq_map] at hc
      obtain rfl := Option.some.inj hc
      exact ⟨rfl, BitVec.ofInt_toInt⟩
  · obtain ⟨j, hj, rfl⟩ := List.mem_map.mp hc
    have hgo : ((enterRequest buf pos size).past j).call.Continues :=
      past_continues.mpr ((List.mem_range.mp hj).trans_le hk)
    refine ⟨ReadWrite.chunk_pos hgo, ?_⟩
    rw [ReadWrite.nextChunk, Call.chunk]
    split
    · exact le_rfl
    · next hsmall => exact not_lt.mp hsmall

theorem bytesOf_chunks {n : ℕ} (hk : k ≤ n) :
    bytesOf ((enterRequest buf pos size).chunks n) k = offset size k := by
  rw [bytesOf, ReadWrite.chunks, ← List.map_take, List.take_range, min_eq_left hk]
  exact sum_chunks

/-- For every request and whatever becomes of its chunks, `transfer_data` returns, having
submitted consecutive chunks; with the size of the request if every chunk completed, and otherwise
with an error and the position behind the chunks that did. -/
theorem transferData_progress (outcomes : ℕ → InterruptOutcome) (buf pos : U64) (size : ℕ) :
    ∃ c submitted, transferData (recordChunk outcomes) (enterRequest buf pos size) [] =
        some (c, submitted) ∧ RequestProgress outcomes buf pos size c submitted := by
  by_cases hall : ∀ k < chunkCount size, (outcomes k).Completed
  · obtain ⟨-, hres, hdone, hpos⟩ :=
      past_spec buf pos size (chunkCount size)
    rw [offset_chunkCount] at hdone hpos
    refine ⟨_, _, transferData_completed hall, chunksOf_chunks le_rfl,
      iff_of_true ⟨?_, ?_⟩ hall, fun _ => ⟨length_chunks, ?_⟩,
      fun k hk _ hfailed => absurd (hall k hk) hfailed⟩
    · rw [ReadWrite.left_phase hres, hdone]
    · rw [ReadWrite.filePos, ReadWrite.left_pos, hpos, BitVec.ofInt_add, BitVec.ofInt_toInt,
        BitVec.ofInt_natCast]
    · rw [bytesOf_chunks le_rfl, offset_chunkCount]
  · -- the first chunk that does not complete
    push Not at hall
    have hfind := Nat.find_spec hall
    have hbefore (j : ℕ) (hj : j < Nat.find hall) : (outcomes j).Completed := by
      by_contra hnot
      exact Nat.find_min hall hj ⟨hj.trans hfind.1, hnot⟩
    obtain ⟨c, submitted, hrun, ⟨ret, hneg, hret⟩, hpos, n, hkn, hn, rfl⟩ :=
      transferData_failed buf pos hfind.1 hbefore hfind.2
    have hlen : n ≤ chunkCount size := hn.trans hfind.1
    refine ⟨c, _, hrun, chunksOf_chunks hlen, iff_of_false ?_ fun h => hfind.2 (h _ hfind.1),
      fun h => absurd (h _ hfind.1) hfind.2, fun k hk hdone hfailed => ?_⟩
    · rintro ⟨hsize, -⟩
      rw [hret] at hsize
      rw [Phase.returned.inj hsize] at hneg
      exact not_lt.mpr (Int.natCast_nonneg size) hneg
    · obtain rfl : k = Nat.find hall :=
        le_antisymm (not_lt.mp fun hlt => hfind.2 (hdone _ hlt))
          (Nat.find_min' hall ⟨hk, hfailed⟩)
      rw [length_chunks, bytesOf_chunks hkn]
      refine ⟨⟨ret, hneg, hret⟩, hkn, hn, ?_⟩
      rw [ReadWrite.filePos, hpos, BitVec.ofInt_add, BitVec.ofInt_toInt]

end Progress

end Wimi
