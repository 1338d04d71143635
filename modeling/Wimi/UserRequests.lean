import Wimi.ChunkedRequests
import Wimi.TransferResources

/-!
# Requests on user memory

`char_sgdma_read_write` with all that can fail in it : the alignment, the memory of each transfer,
the pinning of its pages, the mapping, the descriptors, and the wait.

`readWrite_safe_iff` : the call transfers or returns an error, with no page pinned, exactly when it
is refused, or its length is an `ssize_t` that is not negative and every transfer it comes to that
has memory for its `xdma_transfer` finds all else it asks for, and is waited for until it is no
longer submitted.
-/

open Resources

namespace Wimi

/-! ## Creating a transfer -/

/-- `transfer_create` finds all it asks for behind the `xdma_transfer` : the mapper with its arrays,
the pages, all pinned and mapped, and the descriptors. -/
structure CreateEnv.Whole (env : CreateEnv) (start count : U64) : Prop where
  mapper : env.mapper = true
  pageArray : env.pageArray = true
  scatterlist : env.scatterlist = true
  pages : PinnedWhole env.pages start count
  dmaMapped : env.dmaMapped = true
  descBus : env.descBus ≠ none

section Create

variable {p : Ptr} {c : BuildArgs} {env : CreateEnv} {start count epAddr : U64}
  {l : Ledger TransferResource}

variable (p c epAddr l) in
/-- A transfer that finds all it asks for is created, with at least a page. -/
theorem createTransfer_of_whole (hcount : count ≠ 0) (hmax : count.toNat ≤ 2 ^ 32)
    (htransfer : env.transfer = true) (h : env.Whole start count) :
    ∃ n x, 0 < n ∧ createTransfer p c env start count epAddr l =
      (l.plus (transferHeld p n), .transfer n x) := by
  obtain ⟨hmapper, hpages, hlist, hwhole, hmapped, hbus⟩ := h
  obtain ⟨descBus, hbus⟩ := Option.ne_none_iff_exists'.mp hbus
  have hfew := fewPages_of_le hmax
  obtain ⟨es, hes, -⟩ := populateSgl_isPageList start
    (Nat.pos_of_ne_zero fun hzero => hcount (BitVec.eq_of_toNat_eq hzero))
  have hget := sgmGetUserPages_of_pinned hcount hfew hwhole.1 hes id
  have hmap := mapUserPages_of_pinned hcount hfew hwhole hes
  rw [← hwhole.2, show es.map (PageEntry.on id) = es from List.map_id _] at hget
  obtain ⟨e, rest, hsgl, -⟩ := mapUserPages_aligned hmap
  obtain ⟨x, hx, -⟩ := transferCreate_isChain (c := c) env.mem descBus epAddr e rest
  have hdescribe (m : ℕ) (l : Ledger TransferResource) : ∃ l',
      describeTransfer p c env epAddr m (es.map (PageEntry.mapped env.pages.bus)) l =
        (l', .transfer m x) := by
    rw [hsgl, describeTransfer, if_neg (by simp [hmapped])]
    simp only [hbus, hx]
    exact ⟨_, rfl⟩
  have hmade : (sgCreateMapper p env count (l.acquire (p, .transfer))).2 =
      some ⟨maxPages count, 0⟩ := by
    rw [sgCreateMapper_snd, hmapper, hpages, hlist]
    exact sgCreateMapper_of_few hcount hfew
  have hcreate : ∃ l', createTransfer p c env start count epAddr l =
      (l', .transfer (touchedPages start count) x) := by
    rw [createTransfer, if_neg (by simp [htransfer])]
    rcases hm : sgCreateMapper p env count (l.acquire (p, .transfer)) with ⟨l₁, made⟩
    rw [hm] at hmade
    obtain rfl : made = some ⟨maxPages count, 0⟩ := hmade
    simp only [hget, Int.toNat_natCast]
    exact hdescribe _ _
  obtain ⟨l', hcreate⟩ := hcreate
  exact ⟨_, x, Nat.succ_pos _, createTransfer_transfer hcreate ▸ hcreate⟩

/-- What a transfer that is created has found, and what it is built of. -/
theorem createTransfer_found {l' : Ledger TransferResource} {n : ℕ} {x : BuiltTransfer}
    (h : createTransfer p c env start count epAddr l = (l', .transfer n x)) :
    (env.mapper = true ∧ env.pageArray = true ∧ env.scatterlist = true) ∧
      env.dmaMapped = true ∧ ∃ sgl descBus, mapUserPages env.pages start count = some sgl ∧
        env.descBus = some descBus ∧ transferCreate c env.mem descBus epAddr sgl = some x := by
  unfold createTransfer at h
  split at h
  · cases h
  have hmade := sgCreateMapper_snd (p := p) (l := l.acquire (p, .transfer)) env count
  rcases hm : sgCreateMapper p env count (l.acquire (p, .transfer)) with ⟨l₁, _ | m⟩
  · rw [hm] at h
    cases h
  rw [hm] at h hmade
  have hmemory : (env.mapper && env.pageArray && env.scatterlist) = true := by
    by_contra hnone
    rw [Bool.not_eq_true] at hnone
    rw [hnone, SgMapping.sgCreateMapper] at hmade
    split_ifs at hmade
    all_goals simp_all
  rw [hmemory] at hmade
  dsimp only at h
  split at h
  case h_2 => cases h
  next k sgl hget =>
  have hmap : mapUserPages env.pages start count =
      some (sgl.map (PageEntry.mapped env.pages.bus)) := by
    rw [mapUserPages, ← hmade, Option.bind_eq_bind, Option.bind_some, hget]
    rfl
  unfold describeTransfer at h
  split at h
  · cases h
  next hmapped =>
  dsimp only at h
  split at h
  · cases h
  next descBus hbus =>
  split at h
  · cases h
  next y hy =>
  obtain ⟨-, rfl⟩ := Created.transfer.inj (Prod.mk.inj h).2
  simp only [Bool.and_eq_true] at hmemory
  exact ⟨⟨hmemory.1.1, hmemory.1.2, hmemory.2⟩, not_not.mp hmapped, _, descBus, hmap, hbus, hy⟩

/-- A transfer that is created has found all it asks for. -/
theorem whole_of_createTransfer {l' : Ledger TransferResource} {n : ℕ} {x : BuiltTransfer}
    (h : createTransfer p c env start count epAddr l = (l', .transfer n x)) :
    env.Whole start count := by
  obtain ⟨⟨hmapper, hpages, hlist⟩, hmapped, sgl, descBus, hmap, hbus, -⟩ :=
    createTransfer_found h
  exact ⟨hmapper, hpages, hlist, (mapUserPages_spec hmap).1, hmapped, hbus ▸ Option.some_ne_none _⟩

end Create

/-! ## Calls -/

/-- What a chunk finds : the kernel its transfer is created in, and how the wait for it returns. -/
structure ChunkEnv where
  create : CreateEnv
  wait : WaitEnd

/-- A chunk with its number, and what is held. -/
def createChunk (a : EngineAlignment) (envs : ℕ → ChunkEnv) (s : ReadWrite)
    (env : ℕ × Ledger TransferResource) :
    Option (ChunkOutcome × (ℕ × Ledger TransferResource)) :=
  let wait := (envs env.1).wait
  match createTransfer env.1 a.buildArgs (envs env.1).create s.transferAddr
    (BitVec.ofInt 64 s.call.chunk) (BitVec.ofInt 64 s.call.pos) env.2 with
  | (l, .null) => some (.null, env.1 + 1, l)
  | (_, .bug) => none
  | (l, .transfer n _) =>
    -- a transfer that is still submitted is not destroyed
    let l := if wait.state ≠ .submitted then destroyTransfer env.1 n l else l
    some (.awaited wait, env.1 + 1, l)

/-- What a call has returned. -/
def ReadWrite.ret (s : ReadWrite) : ℤ :=
  match s.call.phase with
  | .returned ret => ret
  | _ => 0

/-- `char_sgdma_read_write`, with what is held when it returns. None is a kernel that has
stopped. -/
def readWrite (a : EngineAlignment) (envs : ℕ → ChunkEnv) (buf count pos : U64)
    (dirToDev : Bool) : Option (ℤ × Ledger TransferResource) :=
  match charSgdmaReadWrite a buf count pos dirToDev with
  | .error e => some (-e.code, .empty)
  | .ok s => (transferData (createChunk a envs) s (0, .empty)).map fun r => (r.1.ret, r.2.2)

/-- The call returns the size of the request or an error, with no page pinned, and has released
nothing it did not hold. -/
def CallSafe (count : U64) (out : Option (ℤ × Ledger TransferResource)) : Prop :=
  ∃ ret l, out = some (ret, l) ∧ (ret = count.toInt ∨ ret < 0) ∧
    (∀ p i, (p, TransferPart.page i) ∉ l.held) ∧ l.faults = 0

/-- A chunk at `start` that has memory for its `xdma_transfer` finds all else it asks for, and its
transfer is no longer submitted when the wait returns : it has completed or failed. -/
def ChunkServed (env : ChunkEnv) (start count : U64) : Prop :=
  env.create.transfer = true → env.create.Whole start count ∧ env.wait.state ≠ .submitted

/-- The loop comes to chunk `k` : the transfers before it complete. -/
def Reached (envs : ℕ → ChunkEnv) (k : ℕ) : Prop :=
  ∀ j < k, (envs j).create.transfer = true ∧ (envs j).wait.state = .completed

/-- Every chunk the loop comes to is served. -/
def RequestServed (envs : ℕ → ChunkEnv) (buf : U64) (size : ℕ) : Prop :=
  ∀ k < chunkCount size, Reached envs k →
    ChunkServed (envs k) (buf + BitVec.ofInt 64 (k * XDMA_TRANSFER_MAX_BYTES))
      (BitVec.ofInt 64 (min XDMA_TRANSFER_MAX_BYTES (size - k * XDMA_TRANSFER_MAX_BYTES)))

section Chunks

variable {a : EngineAlignment} {envs : ℕ → ChunkEnv} {s : ReadWrite} {k : ℕ}
  {l : Ledger TransferResource}

/-- Without memory for the `xdma_transfer` nothing is held. -/
theorem createChunk_null (h : (envs k).create.transfer = false) :
    createChunk a envs s (k, l) = some (.null, k + 1, l) := by
  simp only [createChunk, createTransfer, h, Bool.false_eq_true, not_false_eq_true, if_true]

/-- A chunk that finds all it asks for is destroyed when its transfer is no longer submitted. -/
theorem createChunk_whole (hgo : s.call.Continues) (htransfer : (envs k).create.transfer = true)
    (hwhole : (envs k).create.Whole s.transferAddr (BitVec.ofInt 64 s.call.chunk)) :
    ∃ n, 0 < n ∧ createChunk a envs s (k, l) = some (.awaited (envs k).wait, k + 1,
      if (envs k).wait.state ≠ .submitted then l else l.plus (transferHeld k n)) := by
  obtain ⟨hcount, hmax⟩ := ReadWrite.chunk_bounds hgo
  obtain ⟨n, x, hpos, hcreate⟩ := createTransfer_of_whole k a.buildArgs
    (BitVec.ofInt 64 s.call.pos) l hcount hmax htransfer hwhole
  refine ⟨n, hpos, ?_⟩
  simp only [createChunk, hcreate, destroyTransfer_plus]

/-- Any other chunk stops the kernel. -/
theorem createChunk_bug (hgo : s.call.Continues) (htransfer : (envs k).create.transfer = true)
    (hwhole : ¬ (envs k).create.Whole s.transferAddr (BitVec.ofInt 64 s.call.chunk)) :
    createChunk a envs s (k, l) = none := by
  obtain ⟨hcount, hmax⟩ := ReadWrite.chunk_bounds hgo
  rcases hcreate : createTransfer k a.buildArgs (envs k).create s.transferAddr
    (BitVec.ofInt 64 s.call.chunk) (BitVec.ofInt 64 s.call.pos) l with ⟨l', out⟩
  cases out with
  | null => exact absurd ((createTransfer_null hcreate).1.symm.trans htransfer) (by decide)
  | bug => simp only [createChunk, hcreate]
  | transfer n x => exact absurd (whole_of_createTransfer hcreate) hwhole

/-- A chunk that is served but does not complete fails, with nothing held. -/
theorem createChunk_fails (hgo : s.call.Continues)
    (hserved : ChunkServed (envs k) s.transferAddr (BitVec.ofInt 64 s.call.chunk))
    (hstop : ¬ ((envs k).create.transfer = true ∧ (envs k).wait.state = .completed)) :
    ∃ o : ChunkOutcome, o.Fails ∧ createChunk a envs s (k, l) = some (o, k + 1, l) := by
  cases htransfer : (envs k).create.transfer with
  | false => exact ⟨.null, trivial, createChunk_null htransfer⟩
  | true =>
    obtain ⟨hwhole, hoff⟩ := hserved htransfer
    obtain ⟨n, -, hcreate⟩ := createChunk_whole (a := a) (l := l) hgo htransfer hwhole
    rw [if_pos hoff] at hcreate
    have hres : Call.outcome (envs k).wait.state (envs k).wait.rc ≠ 0 := fun hzero =>
      (Call.outcome_eq_zero.mp hzero).elim (fun hcompleted => hstop ⟨htransfer, hcompleted⟩)
        fun hsubmitted => hoff hsubmitted.1
    exact ⟨.awaited (envs k).wait, hres, hcreate⟩

/-- A chunk releases nothing that was held before it. -/
theorem createChunk_held {env env' : ℕ × Ledger TransferResource} {o : ChunkOutcome}
    (h : createChunk a envs s env = some (o, env')) : env.2.held ≤ env'.2.held := by
  unfold createChunk at h
  dsimp only at h
  split at h
  · next hnull =>
    obtain ⟨-, rfl⟩ := Prod.mk.inj (Option.some.inj h)
    exact (congrArg Ledger.held (createTransfer_null hnull).2).ge
  · cases h
  · next n x hcreate =>
    obtain ⟨-, rfl⟩ := Prod.mk.inj (Option.some.inj h)
    rw [createTransfer_transfer hcreate, destroyTransfer_plus]
    split
    · exact le_rfl
    · exact Multiset.le_add_left _ _

end Chunks

section Request

variable {a : EngineAlignment} {envs : ℕ → ChunkEnv} {buf pos : U64} {size k : ℕ}

variable (pos) in
/-- A chunk that is served, by what the loop asks for at it. -/
theorem chunkServed_past (hk : k < chunkCount size) (h : RequestServed envs buf size)
    (hreached : Reached envs k) :
    ChunkServed (envs k) ((enterRequest buf pos size).past k).transferAddr
      (BitVec.ofInt 64 ((enterRequest buf pos size).past k).call.chunk) := by
  obtain ⟨haddr, hchunk⟩ := past_chunk buf pos hk
  rw [haddr, hchunk]
  exact h k hk hreached

variable (a buf pos) in
/-- The loop comes to a chunk with nothing held when the chunks before it were served. -/
theorem transferData_reached (hk : k ≤ chunkCount size) (hreached : Reached envs k)
    (hserved : ∀ j < k, ChunkServed (envs j)
      ((enterRequest buf pos size).past j).transferAddr
      (BitVec.ofInt 64 ((enterRequest buf pos size).past j).call.chunk)) :
    transferData (createChunk a envs) (enterRequest buf pos size) (0, .empty) =
      transferData (createChunk a envs) ((enterRequest buf pos size).past k) (k, .empty) := by
  refine transferData_past (fun j => (j, Ledger.empty)) hk fun j hj => ?_
  obtain ⟨htransfer, hcompleted⟩ := hreached j hj
  obtain ⟨hwhole, hoff⟩ := hserved j hj htransfer
  obtain ⟨n, -, hcreate⟩ := createChunk_whole (a := a) (l := .empty)
    (past_continues.mpr (hj.trans_le hk)) htransfer hwhole
  rw [if_pos hoff] at hcreate
  exact ⟨_, hcompleted, hcreate⟩

theorem ReadWrite.ret_of_phase {s : ReadWrite} {ret : ℤ} (h : s.call.phase = .returned ret) :
    s.ret = ret := by
  rw [ReadWrite.ret, h]

variable (a pos) in
/-- A request whose chunks are served transfers or returns an error, and holds nothing. -/
theorem transferData_served (h : RequestServed envs buf size) :
    ∃ c n, transferData (createChunk a envs) (enterRequest buf pos size) (0, .empty) =
        some (c, n, .empty) ∧ (c.ret = size ∨ c.ret < 0) := by
  have hreached {k : ℕ} (hk : k ≤ chunkCount size) (hbefore : Reached envs k) :=
    transferData_reached a buf pos hk hbefore fun j hj =>
      chunkServed_past pos (hj.trans_le hk) h fun i hi => hbefore i (hi.trans hj)
  by_cases hall : Reached envs (chunkCount size)
  · -- every chunk completes
    obtain ⟨-, hres, hdone, -⟩ := past_spec buf pos size (chunkCount size)
    refine ⟨((enterRequest buf pos size).past (chunkCount size)).left, chunkCount size,
      (hreached le_rfl hall).trans ?_, .inl ?_⟩
    · rw [transferData, if_neg (mt past_continues.mp (lt_irrefl _))]
      rfl
    · rw [ReadWrite.ret_of_phase (ReadWrite.left_phase hres), hdone, offset_chunkCount]
  · -- the first chunk that does not complete
    simp only [Reached, not_forall] at hall
    obtain ⟨i, hi, hstopped⟩ := hall
    have hex : ∃ k, ¬ ((envs k).create.transfer = true ∧ (envs k).wait.state = .completed) :=
      ⟨i, hstopped⟩
    have hk : Nat.find hex < chunkCount size := (Nat.find_min' hex hstopped).trans_lt hi
    have hstop := Nat.find_spec hex
    have hmin : Reached envs (Nat.find hex) := fun j hj => not_not.mp (Nat.find_min hex hj)
    generalize Nat.find hex = k at hk hstop hmin
    have hgo : ((enterRequest buf pos size).past k).call.Continues := past_continues.mpr hk
    obtain ⟨o, hfailed, hturn⟩ := createChunk_fails (a := a) (l := .empty) hgo
      (chunkServed_past pos hk h hmin) hstop
    obtain ⟨c, hend, ⟨ret, hneg, hret⟩, -⟩ := transferData_error hgo hturn hfailed
    exact ⟨c, k + 1, (hreached hk.le hmin).trans hend, .inr (ReadWrite.ret_of_phase hret ▸ hneg)⟩

theorem page_mem_transferHeld {p : Ptr} {n : ℕ} (h : 0 < n) :
    (p, TransferPart.page 0) ∈ transferHeld p n := by
  have hpage : (p, TransferPart.page 0) ∈ pagesHeld p n := by
    obtain ⟨m, rfl⟩ := Nat.exists_eq_succ_of_ne_zero h.ne'
    rw [pagesHeld, List.range_succ_eq_map, List.map_cons, List.sum_cons]
    exact Multiset.mem_add.mpr (.inl (Multiset.mem_singleton_self _))
  simp [transferHeld, withTransfer, Ledger.plus, Ledger.empty, hpage]

/-- What is held at the head of the loop is held when it ends. -/
theorem transferData_keeps {s c : ReadWrite} {k n : ℕ} {l l' : Ledger TransferResource}
    {r : TransferResource} (hrun : transferData (createChunk a envs) s (k, l) = some (c, n, l'))
    (h : r ∈ l.held) : r ∈ l'.held :=
  transferData_invariant (P := fun env => r ∈ env.2.held)
    (fun _ _ _ _ hturn hmem => Multiset.mem_of_le (createChunk_held hturn) hmem) hrun h

/-- A request that returns with no page pinned has been served. -/
theorem requestServed_of_safe {c : ReadWrite} {n : ℕ} {l : Ledger TransferResource}
    (hrun : transferData (createChunk a envs) (enterRequest buf pos size) (0, .empty) =
      some (c, n, l)) (hnone : ∀ p i, (p, TransferPart.page i) ∉ l.held) :
    RequestServed envs buf size := by
  intro k hk hreached htransfer
  -- the chunks before it have been served
  induction k using Nat.strong_induction_on with
  | _ k ih =>
    have hbefore : ∀ j < k, ChunkServed (envs j) ((enterRequest buf pos size).past j).transferAddr
        (BitVec.ofInt 64 ((enterRequest buf pos size).past j).call.chunk) := by
      intro j hj hj'
      obtain ⟨haddr, hchunk⟩ := past_chunk buf pos (hj.trans hk)
      rw [haddr, hchunk]
      exact ih j hj (hj.trans hk) (fun i hi => hreached i (hi.trans hj)) hj'
    have hgo : ((enterRequest buf pos size).past k).call.Continues := past_continues.mpr hk
    rw [transferData_reached _ _ _ hk.le hreached hbefore] at hrun
    obtain ⟨haddr, hchunk⟩ := past_chunk buf pos hk
    rw [← haddr, ← hchunk]
    by_cases hwhole : (envs k).create.Whole ((enterRequest buf pos size).past k).transferAddr
        (BitVec.ofInt 64 ((enterRequest buf pos size).past k).call.chunk)
    · refine ⟨hwhole, fun hsubmitted => ?_⟩
      obtain ⟨m, hm, hcreate⟩ := createChunk_whole (a := a) (l := .empty) hgo htransfer hwhole
      rw [if_neg (not_not.mpr hsubmitted)] at hcreate
      rw [transferData, if_pos hgo, hcreate] at hrun
      refine hnone k 0 (transferData_keeps hrun ?_)
      exact Multiset.mem_add.mpr (.inl (page_mem_transferHeld hm))
    · rw [transferData, if_pos hgo, createChunk_bug hgo htransfer hwhole] at hrun
      cases hrun

theorem requestServed_of_callSafe {count : U64} {dirToDev : Bool}
    (hs : charSgdmaReadWrite a buf count pos dirToDev = .ok (enterRequest buf pos size))
    (h : CallSafe count (readWrite a envs buf count pos dirToDev)) :
    RequestServed envs buf size := by
  obtain ⟨ret, l, hout, -, hnone, -⟩ := h
  rw [readWrite, hs] at hout
  obtain ⟨⟨c, n, l'⟩, hrun, heq⟩ := Option.map_eq_some_iff.mp hout
  obtain ⟨-, rfl⟩ := Prod.mk.inj heq
  exact requestServed_of_safe hrun hnone

end Request

section Calls

variable {a : EngineAlignment} {envs : ℕ → ChunkEnv} {buf count pos : U64} {dirToDev : Bool}

theorem charSgdmaReadWrite_size {s : ReadWrite} (hcount : 0 ≤ count.toInt)
    (hs : charSgdmaReadWrite a buf count pos dirToDev = .ok s) :
    s = enterRequest buf pos count.toInt.toNat := by
  rw [charSgdmaReadWrite_ok hs, enterRequest, Int.toNat_of_nonneg hcount]

theorem callSafe_of_served (hcount : 0 ≤ count.toInt)
    (hs : charSgdmaReadWrite a buf count pos dirToDev =
      .ok (enterRequest buf pos count.toInt.toNat))
    (hserved : RequestServed envs buf count.toInt.toNat) :
    CallSafe count (readWrite a envs buf count pos dirToDev) := by
  obtain ⟨c, n, hrun, hret⟩ := transferData_served a pos hserved
  have hout : readWrite a envs buf count pos dirToDev = some (c.ret, .empty) := by
    rw [readWrite, hs]
    dsimp only
    rw [hrun]
    rfl
  refine ⟨c.ret, .empty, hout, ?_, fun _ _ => Multiset.notMem_zero _, rfl⟩
  rwa [Int.toNat_of_nonneg hcount] at hret

/-- A length that is negative as an `ssize_t` is neither transferred nor refused. -/
theorem not_callSafe_of_negative {s : ReadWrite} (hcount : count.toInt < 0)
    (hs : charSgdmaReadWrite a buf count pos dirToDev = .ok s) :
    ¬ CallSafe count (readWrite a envs buf count pos dirToDev) := by
  have hs' := charSgdmaReadWrite_ok hs
  have hnone : ¬ s.call.Continues := by
    rw [hs']
    exact fun hgo => not_lt.mpr hcount.le hgo.2
  have hleft : s.left.ret = 0 := by
    rw [hs']
    exact ReadWrite.ret_of_phase (ReadWrite.left_phase rfl)
  have hout : readWrite a envs buf count pos dirToDev = some (0, .empty) := by
    rw [readWrite, hs]
    dsimp only
    rw [transferData, if_neg hnone]
    exact congrArg (fun ret => some (ret, Ledger.empty)) hleft
  rintro ⟨ret, l, heq, hret, -, -⟩
  obtain ⟨rfl, -⟩ := Prod.mk.inj (Option.some.inj (hout.symm.trans heq))
  exact hret.elim hcount.ne' (lt_irrefl _)

end Calls

/-- A call transfers or returns an error, with no page pinned, exactly when the request is refused
or every chunk its loop comes to is served. -/
theorem readWrite_safe_iff (a : EngineAlignment) (envs : ℕ → ChunkEnv) (buf count pos : U64)
    (dirToDev : Bool) :
    CallSafe count (readWrite a envs buf count pos dirToDev) ↔
      ((∃ e, charSgdmaReadWrite a buf count pos dirToDev = .error e) ∨
        0 ≤ count.toInt ∧ RequestServed envs buf count.toInt.toNat) := by
  rcases hs : charSgdmaReadWrite a buf count pos dirToDev with e | s
  · refine iff_of_true ⟨-e.code, .empty, by rw [readWrite, hs], ?_, fun _ _ => ?_, rfl⟩
      (.inl ⟨e, rfl⟩)
    · exact .inr (neg_neg_of_pos e.code_pos)
    · exact Multiset.notMem_zero _
  constructor
  · intro hsafe
    have hcount : 0 ≤ count.toInt :=
      not_lt.mp fun hnegative => not_callSafe_of_negative hnegative hs hsafe
    obtain rfl := charSgdmaReadWrite_size hcount hs
    exact .inr ⟨hcount, requestServed_of_callSafe hs hsafe⟩
  · rintro (⟨e, he⟩ | ⟨hcount, hserved⟩)
    · cases he
    · obtain rfl := charSgdmaReadWrite_size hcount hs
      exact callSafe_of_served hcount hs hserved

/-- An engine that takes any address and length. -/
def plainEngine : EngineAlignment :=
  ⟨true, false, false, 1, 1⟩

/-- A kernel with all the memory asked for, where pinning answers `rc`, and a transfer that
completes. -/
def pinningAnswers (rc : ℤ) : ChunkEnv where
  create := ⟨true, true, true, true, .same rc, true, some 0x30000000,
    fun _ => ⟨0, 0, 0, 0, 0, 0, 0, 0⟩⟩
  wait := ⟨.completed, 0⟩

/-- The buffer is not mapped : `get_user_pages_fast` answers `-EFAULT`. -/
theorem readWrite_not_safe : ¬ ∀ (a : EngineAlignment) (envs : ℕ → ChunkEnv)
    (buf count pos : U64) (dirToDev : Bool), 0 ≤ count.toInt →
      CallSafe count (readWrite a envs buf count pos dirToDev) := by
  intro h
  have hsafe := h plainEngine (fun _ => pinningAnswers (-14)) 0x1000 4096 0 true (by decide)
  have hserved := @requestServed_of_callSafe _ _ _ _ 4096 _ _ rfl hsafe
  have hone : 0 < chunkCount 4096 := lt_chunkCount.mpr (by decide)
  obtain ⟨hwhole, -⟩ := hserved 0 hone (fun j hj => absurd hj (Nat.not_lt_zero j)) rfl
  exact absurd hwhole.pages.2 (by decide)

end Wimi
