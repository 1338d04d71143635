import Wimi.PerfCalls
import Wimi.Service

/-!
# The ring of a performance measurement

Which sizes of a descriptor IOCTL_XDMA_PERF_START can take. The size in an `int`, the size of the
loop, the limit of 4 MiB and the limit of the hardware are four different bounds, and only the limit
of 4 MiB is tested, by a `BUG_ON`.

`startBounded_iff` : the call is refused or queues a ring within all bounds exactly when it is
refused before it submits, or the size is one the hardware takes and there is all the memory.
-/

namespace Wimi

/-! ## The bounds on a call -/

/-- The descriptor has a size the hardware takes, and its host range lies in the buffer that
`pci_alloc_consistent` has returned. -/
structure DescInside (dirToDev : Bool) (env : SubmitEnv) (size : ℤ) (d : XdmaDesc) : Prop where
  pos : 1 ≤ d.bytes.toNat
  le : d.bytes.toNat ≤ XDMA_DESC_MAX_BYTES.toNat
  inside : ∃ bus, env.pciAlloc size = some bus ∧ bus.toNat ≤ (d.hostAddr dirToDev).toNat ∧
    (d.hostAddr dirToDev).toNat + d.bytes.toNat ≤ bus.toNat + size.toNat

/-- The ring is queued behind `queue` : a cyclic transfer of at most 128 descriptors, which an
engine goes round for ever. -/
structure RingQueued (dirToDev : Bool) (queue : List Ptr) (e : XdmaEngine) (env : SubmitEnv)
    (ring : PerfRing) : Prop where
  list : e.transferList = queue ++ [ring.p]
  cyclic : e.cyclicOf ring.p = true
  descNum : (e.descNumOf ring.p).toNat = ring.transfer.descNum
  descBus : (e.transfers ring.p).descBus = ring.transfer.descBus
  pos : 1 ≤ ring.transfer.descNum
  le : ring.transfer.descNum ≤ 128
  visits : ∀ n, ring.transfer.visits n = some ((List.range n).map (· % ring.transfer.descNum))
  descs : ∀ i < ring.transfer.descNum,
    DescInside dirToDev env ring.size (ring.transfer.descVirt i)

/-- START returns an error or has queued such a ring. -/
def StartBounded (s : PerfEngine) (env : StartEnv) : Prop :=
  ∃ r, ioctlDoPerfStart s env = .ok r ∧
    (r.rc < 0 ∨ ∃ ring, r.queued = some ring ∧
      RingQueued s.engine.dirToDev s.engine.transferList r.engine.engine env.submit ring)

/-- START is refused before it submits. -/
def StartRefused (s : PerfEngine) (env : StartEnv) : Prop :=
  s.xdmaPerf.isSome ∨ env.memory = false ∨ env.copied.version ≠ IOCTL_XDMA_PERF_V1

/-- The buffer `xdma_performance_submit` asks for. -/
def bufferSize (transferSize : U32) : ℤ :=
  min (transferSize.toNat * 128) maxConsistentSize.toNat

/-- The descriptors of its loop. -/
def loopCount (transferSize : U32) : ℕ :=
  if transferSize.toNat * 128 ≤ maxConsistentSize.toNat then 128
  else maxConsistentSize.toNat / transferSize.toNat

/-- The hardware takes the size, there is all the memory, and the engine takes the transfer. -/
structure StartFits (e : XdmaEngine) (transferSize : U32) (env : SubmitEnv) : Prop where
  pos : 1 ≤ transferSize.toNat
  le : transferSize.toNat ≤ XDMA_DESC_MAX_BYTES.toNat
  buffer : (env.pciAlloc (bufferSize transferSize)).isSome
  transfer : env.transfer.isSome
  descs : env.descs.isSome
  unrequested : e.shutdown &&& ENGINE_SHUTDOWN_REQUEST = 0

/-! ## Sizes -/

theorem maxConsistentSize_toNat : maxConsistentSize.toNat = 4194304 :=
  rfl

theorem mulInt_of_lt {a b : ℤ} (ha : 0 ≤ a) (hb : 0 ≤ b) (h : a * b < 2 ^ 31) :
    mulInt a b = .ok (a * b) := by
  have hpos := Int.mul_nonneg ha hb
  exact if_pos ⟨by omega, h⟩

section Sizes

variable {transferSize : U32}

theorem toInt_of_le (h : transferSize.toNat ≤ maxConsistentSize.toNat) :
    transferSize.toInt = transferSize.toNat := by
  rw [maxConsistentSize_toNat] at h
  exact BitVec.toInt_eq_toNat_of_lt (by omega)

/-- How a value that is not negative compares with the limit. -/
theorem limit_lt_ofInt_iff {n : ℕ} (h : n < 2 ^ 32) :
    BitVec.ofInt 32 (n : ℤ) > maxConsistentSize ↔ ¬ n ≤ maxConsistentSize.toNat := by
  rw [BitVec.ofInt_natCast, gt_iff_lt, BitVec.lt_def, BitVec.toNat_ofNat, Nat.mod_eq_of_lt h,
    Nat.not_le]

theorem bufferSize_of_le (h : transferSize.toNat * 128 ≤ maxConsistentSize.toNat) :
    bufferSize transferSize = ((transferSize.toNat * 128 : ℕ) : ℤ) := by
  rw [Nat.cast_mul]
  exact min_eq_left (by exact_mod_cast h)

theorem bufferSize_of_gt (h : ¬ transferSize.toNat * 128 ≤ maxConsistentSize.toNat) :
    bufferSize transferSize = maxConsistentSize.toNat :=
  min_eq_right (by exact_mod_cast (Nat.le_of_not_le h))

/-- Up to 4 MiB nothing overflows, and the divisor is not 0. -/
theorem loopSize_of_le (h : transferSize.toNat ≤ maxConsistentSize.toNat) :
    loopSize transferSize.toInt = .ok (bufferSize transferSize, loopCount transferSize) := by
  have hle := h
  rw [maxConsistentSize_toNat] at hle
  have hmul : mulInt (transferSize.toNat : ℤ) 128 = .ok ((transferSize.toNat * 128 : ℕ) : ℤ) := by
    rw [Nat.cast_mul]
    exact mulInt_of_lt (by omega) (by omega) (by omega)
  have hdesc := (limit_lt_ofInt_iff (n := transferSize.toNat) (by omega)).not.mpr (not_not.mpr h)
  have hloop := limit_lt_ofInt_iff (n := transferSize.toNat * 128) (by omega)
  rw [loopSize, toInt_of_le h, hmul, Except.ok_bind, if_neg hdesc, loopCount]
  by_cases hfits : transferSize.toNat * 128 ≤ maxConsistentSize.toNat
  · rw [if_neg (hloop.not.mpr (not_not.mpr hfits)), if_pos hfits, bufferSize_of_le hfits]
    rfl
  · have hpos : (transferSize.toNat : ℤ) ≠ 0 := by
      rw [maxConsistentSize_toNat] at hfits
      omega
    have hdiv : divInt maxConsistentSize.toInt transferSize.toNat =
        .ok ((maxConsistentSize.toNat / transferSize.toNat : ℕ) : ℤ) := by
      rw [divInt, if_neg hpos]
      exact congrArg Except.ok (Int.tdiv_eq_ediv_of_nonneg (by decide))
    rw [if_pos (hloop.mpr hfits), if_neg hfits, bufferSize_of_gt hfits]
    dsimp only
    rw [hdiv]
    rfl

/-- Beyond 4 MiB the product overflows or the assertion fails. -/
theorem loopSize_of_gt (h : maxConsistentSize.toNat < transferSize.toNat) :
    ∃ f, loopSize transferSize.toInt = .error f := by
  have hdesc : BitVec.ofInt 32 transferSize.toInt > maxConsistentSize := by
    rwa [BitVec.ofInt_toInt]
  rw [loopSize]
  cases mulInt transferSize.toInt 128 with
  | error f => exact ⟨f, rfl⟩
  | ok size => exact ⟨.bug, (Except.ok_bind _ _).trans (if_pos hdesc)⟩

/-- The loop has between 1 and 128 descriptors, and they fit the buffer. -/
theorem loopCount_bounds (h : transferSize.toNat ≤ maxConsistentSize.toNat) :
    1 ≤ loopCount transferSize ∧ loopCount transferSize ≤ 128 ∧
      ((transferSize.toNat * loopCount transferSize : ℕ) : ℤ) ≤ bufferSize transferSize := by
  by_cases hfits : transferSize.toNat * 128 ≤ maxConsistentSize.toNat
  · rw [bufferSize_of_le hfits, loopCount, if_pos hfits]
    exact ⟨by decide, le_rfl, le_rfl⟩
  · have hpos : 0 < transferSize.toNat := by
      by_contra hzero
      rw [Nat.eq_zero_of_not_pos hzero] at hfits
      exact hfits (Nat.zero_le _)
    rw [bufferSize_of_gt hfits, loopCount, if_neg hfits]
    refine ⟨(Nat.le_div_iff_mul_le hpos).mpr (by rwa [Nat.one_mul]), ?_, ?_⟩
    · exact Nat.div_le_of_le_mul (Nat.le_of_not_le hfits)
    · exact_mod_cast Nat.mul_div_le _ _

end Sizes

/-! ## Descriptors -/

section Descs

variable {dirToDev : Bool} {bufferBus next : U64} {transferSize : U32} {k : ℕ} {d : XdmaDesc}

/-- Descriptor `k` of the loop, made of `d`. -/
def perfDesc (dirToDev : Bool) (bufferBus : U64) (transferSize : U32) (k : ℕ) (d : XdmaDesc) :
    XdmaDesc :=
  xdmaDescSet d (bufferBus + BitVec.ofNat 64 (transferSize.toNat * k)) 0 transferSize dirToDev

/-- The offsets in the buffer do not overflow. -/
theorem fillDescs_eq (t : DescTable) {n : ℕ} (hle : transferSize.toNat ≤ maxConsistentSize.toNat)
    (hfits : transferSize.toNat * n ≤ maxConsistentSize.toNat) :
    fillDescs dirToDev bufferBus transferSize.toInt t n =
      .ok fun k => if k < n then perfDesc dirToDev bufferBus transferSize k (t k) else t k := by
  induction n with
  | zero => simp [fillDescs]
  | succ n ih =>
    have hn : transferSize.toNat * n ≤ maxConsistentSize.toNat :=
      (Nat.mul_le_mul_left _ n.le_succ).trans hfits
    have hmul : mulInt (transferSize.toNat : ℤ) n = .ok ((transferSize.toNat * n : ℕ) : ℤ) := by
      rw [maxConsistentSize_toNat] at hn
      rw [Nat.cast_mul]
      exact mulInt_of_lt (by omega) (by omega) (by exact_mod_cast Nat.lt_of_le_of_lt hn (by decide))
    have hlen : BitVec.ofInt 32 (transferSize.toNat : ℤ) = transferSize := by
      rw [BitVec.ofInt_natCast, BitVec.ofNat_toNat, BitVec.setWidth_eq]
    rw [fillDescs, ih hn, Except.ok_bind, toInt_of_le hle, hmul, Except.ok_bind, hlen,
      BitVec.ofInt_natCast]
    simp only [lt_irrefl, if_false]
    exact congrArg Except.ok (update_below t (fun k => perfDesc dirToDev bufferBus transferSize k
      (t k)) n)

/-- A descriptor that moves block `k` of the buffer and goes on at `next`. -/
structure MovesBlock (dirToDev : Bool) (bufferBus : U64) (transferSize : U32) (next : U64) (k : ℕ)
    (d : XdmaDesc) : Prop where
  bytes : d.bytes = transferSize
  host : d.hostAddr dirToDev = bufferBus + BitVec.ofNat 64 (transferSize.toNat * k)
  next : d.nextAddr = next
  control : d.controlByte = 0

theorem movesBlock_perfDesc (h : d.controlByte = 0) :
    MovesBlock dirToDev bufferBus transferSize d.nextAddr k
      (perfDesc dirToDev bufferBus transferSize k d) where
  bytes := bytes_xdmaDescSet ..
  host := hostAddr_xdmaDescSet ..
  next := nextAddr_xdmaDescSet ..
  control := by rwa [XdmaDesc.controlByte, perfDesc, control_xdmaDescSet]

theorem MovesBlock.withControlByte (h : MovesBlock dirToDev bufferBus transferSize next k d) :
    MovesBlock dirToDev bufferBus transferSize next k (d.withControlByte 0) :=
  ⟨h.bytes, h.host, h.next, controlByte_withControlByte d 0 (by decide)⟩

theorem MovesBlock.link (h : MovesBlock dirToDev bufferBus transferSize next k d) (bus : U64) :
    MovesBlock dirToDev bufferBus transferSize bus k (xdmaDescLink d (some bus)) where
  bytes := (bytes_xdmaDescLink d _).trans h.bytes
  host := (hostAddr_xdmaDescLink d dirToDev _).trans h.host
  next := nextAddr_xdmaDescLink d bus
  control := (controlByte_xdmaDescLink d _).trans h.control

/-- The table of `n` descriptors as `xdma_performance_submit` leaves it. -/
def perfTable (dirToDev : Bool) (bufferBus : U64) (transferSize : U32) (t : DescTable)
    (descBus : U64) (n : ℕ) : DescTable :=
  let t : DescTable := fun k =>
    if k < n then perfDesc dirToDev bufferBus transferSize k (t k) else t k
  let t := Function.update t 0 ((t 0).withControlByte 0)
  Function.update t (n - 1) (xdmaDescLink (t (n - 1)) (some descBus))

/-- Each descriptor moves its block and goes on at the one behind it, the last at the first. -/
theorem movesBlock_perfTable {t : DescTable} {descBus : U64} {n : ℕ}
    (hcontrol : ∀ k < n, (t k).controlByte = 0)
    (hlink : ∀ k, k + 1 < n → (t k).nextAddr = descBus + BitVec.ofNat 64 (descSize * (k + 1)))
    (hk : k < n) :
    MovesBlock dirToDev bufferBus transferSize
      (descBus + BitVec.ofNat 64 (descSize * ((k + 1) % n))) k
      (perfTable dirToDev bufferBus transferSize t descBus n k) := by
  have hset : MovesBlock dirToDev bufferBus transferSize (t k).nextAddr k
      (perfDesc dirToDev bufferBus transferSize k (t k)) := movesBlock_perfDesc (hcontrol k hk)
  have hfirst : MovesBlock dirToDev bufferBus transferSize (t k).nextAddr k
      (if k = 0 then (perfDesc dirToDev bufferBus transferSize k (t k)).withControlByte 0
        else perfDesc dirToDev bufferBus transferSize k (t k)) := by
    split
    · exact hset.withControlByte
    · exact hset
  by_cases hlast : k + 1 = n
  · subst hlast
    have hself := hfirst.link descBus
    have hzero : descBus + BitVec.ofNat 64 (descSize * 0) = descBus := BitVec.add_zero _
    rw [Nat.mod_self, hzero]
    simp only [perfTable, Nat.add_sub_cancel, Function.update_self]
    rcases Nat.eq_zero_or_pos k with rfl | hpos
    · simpa using hself
    · rw [Function.update_of_ne hpos.ne', if_pos hk]
      rwa [if_neg hpos.ne'] at hself
  · rw [Nat.mod_eq_of_lt (by omega), ← hlink k (by omega)]
    simp only [perfTable]
    rw [Function.update_of_ne (by omega)]
    rcases Nat.eq_zero_or_pos k with rfl | hpos
    · rw [Function.update_self, if_pos hk]
      rwa [if_pos rfl] at hfirst
    · rw [Function.update_of_ne hpos.ne', if_pos hk]
      rwa [if_neg hpos.ne'] at hfirst

end Descs

/-! ## The ring -/

section Ring

variable {transferSize : U32} {env : SubmitEnv} {ring : PerfRing}

/-- What `xdma_performance_submit` makes of its memory. -/
structure IsPerfRing (dirToDev : Bool) (transferSize : U32) (env : SubmitEnv) (ring : PerfRing) :
    Prop where
  le : transferSize.toNat ≤ maxConsistentSize.toNat
  transfer : env.transfer = some ring.p
  descs : env.descs.isSome
  size : ring.size = bufferSize transferSize
  descNum : ring.transfer.descNum = loopCount transferSize
  moves : ∀ k < loopCount transferSize,
    MovesBlock dirToDev ((env.pciAlloc (bufferSize transferSize)).getD env.bufferBus) transferSize
      (ring.transfer.descBus + BitVec.ofNat 64 (descSize * ((k + 1) % loopCount transferSize))) k
      (ring.transfer.descVirt k)

/-- The size is within 4 MiB, and there is memory for the transfer and its descriptors. -/
structure SubmitEnv.Suffices (env : SubmitEnv) (transferSize : U32) : Prop where
  le : transferSize.toNat ≤ maxConsistentSize.toNat
  transfer : env.transfer.isSome
  descs : env.descs.isSome

theorem IsPerfRing.suffices {dirToDev : Bool} (h : IsPerfRing dirToDev transferSize env ring) :
    env.Suffices transferSize :=
  ⟨h.le, by rw [h.transfer]; rfl, h.descs⟩

/-- Within 4 MiB and with memory for the transfer the ring is built, also without a buffer. -/
theorem perfRing_ok (dirToDev : Bool) (h : env.Suffices transferSize) :
    ∃ ring, perfRing dirToDev transferSize env = .ok ring ∧
      IsPerfRing dirToDev transferSize env ring := by
  obtain ⟨hle, htransfer, hdescs⟩ := h
  obtain ⟨p, hp⟩ := Option.isSome_iff_exists.mp htransfer
  obtain ⟨⟨mem, descBus⟩, hmem⟩ := Option.isSome_iff_exists.mp hdescs
  obtain ⟨hpos, -, hfits⟩ := loopCount_bounds hle
  obtain ⟨t, ht, hcontrol, hlink, -⟩ := xdmaDescAlloc_spec mem descBus hpos
  have hmax : transferSize.toNat * loopCount transferSize ≤ maxConsistentSize.toNat := by
    exact_mod_cast hfits.trans (min_le_right _ _)
  have hmask : (0 : U32) &&& ~~~LS_BYTE_MASK = 0 := by decide
  refine ⟨⟨p, ⟨perfTable dirToDev ((env.pciAlloc (bufferSize transferSize)).getD env.bufferBus)
      transferSize t descBus (loopCount transferSize), descBus, loopCount transferSize, 0⟩,
    bufferSize transferSize⟩, ?_,
    ⟨hle, hp, hdescs, rfl, rfl, fun k hk => movesBlock_perfTable hcontrol hlink hk⟩⟩
  simp only [perfRing, loopSize_of_le hle, Except.ok_bind, Int.toNat_natCast, hp, hmem, orBug, ht,
    fillDescs_eq t hle hmax, xdmaDescControl_of_mask _ _ hmask]
  rfl

/-- Beyond 4 MiB or without memory for the transfer the call does not return. -/
theorem perfRing_error (dirToDev : Bool) (h : ¬ env.Suffices transferSize) :
    ∃ f, perfRing dirToDev transferSize env = .error f := by
  by_cases hle : transferSize.toNat ≤ maxConsistentSize.toNat
  · rw [perfRing, loopSize_of_le hle]
    simp only [Except.ok_bind]
    cases hp : env.transfer with
    | none => exact ⟨.bug, rfl⟩
    | some p =>
      cases hd : env.descs with
      | none => exact ⟨.bug, rfl⟩
      | some d => exact absurd ⟨hle, by rw [hp]; rfl, by rw [hd]; rfl⟩ h
  · obtain ⟨f, hf⟩ := loopSize_of_gt (Nat.lt_of_not_le hle)
    exact ⟨f, by rw [perfRing, hf]; rfl⟩

theorem perfRing_cases {dirToDev : Bool} (h : perfRing dirToDev transferSize env = .ok ring) :
    IsPerfRing dirToDev transferSize env ring := by
  by_cases hok : env.Suffices transferSize
  · obtain ⟨ring', hring, hspec⟩ := perfRing_ok dirToDev hok
    rw [hring] at h
    exact Except.ok.inj h ▸ hspec
  · obtain ⟨f, hf⟩ := perfRing_error dirToDev hok
    rw [hf] at h
    cases h

/-- The host range of a descriptor lies in the buffer. -/
theorem IsPerfRing.inside {e : XdmaEngine} (h : IsPerfRing e.dirToDev transferSize env ring)
    (hpos : 1 ≤ transferSize.toNat) {bus : U64}
    (hbus : env.pciAlloc (bufferSize transferSize) = some bus) {k : ℕ}
    (hk : k < loopCount transferSize) :
    bus.toNat ≤ ((ring.transfer.descVirt k).hostAddr e.dirToDev).toNat ∧
      ((ring.transfer.descVirt k).hostAddr e.dirToDev).toNat + transferSize.toNat ≤
        bus.toNat + (bufferSize transferSize).toNat := by
  have hhost := (h.moves k hk).host
  have hfits := env.fits _ _ hbus
  have hend : transferSize.toNat * k + transferSize.toNat ≤ (bufferSize transferSize).toNat := by
    have hcount := (loopCount_bounds h.le).2.2
    have hblock : transferSize.toNat * (k + 1) ≤ transferSize.toNat * loopCount transferSize :=
      Nat.mul_le_mul_left _ hk
    rw [Nat.mul_succ] at hblock
    omega
  rw [hbus, Option.getD_some] at hhost
  rw [hhost, BitVec.toNat_add, BitVec.toNat_ofNat]
  omega

/-- A ring that is queued keeps all bounds exactly when the hardware takes the size and there is a
buffer. -/
theorem ringQueued_iff {e e' : XdmaEngine} (h : IsPerfRing e.dirToDev transferSize env ring)
    (hq : Queued (e.setTransfer ring.p ring.transfer.cyclic) e' ring.p) :
    RingQueued e.dirToDev e.transferList e' env ring ↔ 1 ≤ transferSize.toNat ∧
      transferSize.toNat ≤ XDMA_DESC_MAX_BYTES.toNat ∧
      (env.pciAlloc (bufferSize transferSize)).isSome := by
  obtain ⟨hcount, hmax, -⟩ := loopCount_bounds h.le
  refine ⟨fun hr => ?_, fun ⟨hpos, hle, hbuffer⟩ => ?_⟩
  · have hd := hr.descs 0 (h.descNum ▸ hcount)
    obtain ⟨bus, hbus, -⟩ := hd.inside
    rw [← h.size, hbus, ← (h.moves 0 hcount).bytes]
    exact ⟨hd.pos, hd.le, rfl⟩
  · obtain ⟨bus, hbus⟩ := Option.isSome_iff_exists.mp hbuffer
    have hself : e'.transfers ring.p = { ring.transfer.cyclic with state := .submitted } := by
      rw [hq.self, XdmaEngine.transfers_setTransfer_self]
    refine ⟨hq.list, ?_, ?_, ?_, h.descNum ▸ hcount, h.descNum ▸ hmax, fun n => ?_, fun k hk => ?_⟩
    · rw [XdmaEngine.cyclicOf, hself, BuiltTransfer.cyclic]
    · rw [XdmaEngine.descNumOf, hself, BuiltTransfer.cyclic, BitVec.toNat_ofNat, h.descNum]
      omega
    · rw [hself, BuiltTransfer.cyclic]
    · refine visits_ring rfl (h.descNum ▸ hcount) ?_ (fun k hk => ?_) (fun k hk => ?_) n
      · rw [h.descNum]
        omega
      · rw [h.descNum] at hk ⊢
        exact (h.moves k hk).next
      · rw [has_iff_controlByte _ (by decide), (h.moves k (h.descNum ▸ hk)).control]
        decide
    · rw [h.descNum] at hk
      have hbytes := (h.moves k hk).bytes
      exact ⟨hbytes ▸ hpos, hbytes ▸ hle, bus, h.size ▸ hbus,
        by rw [hbytes, h.size]; exact h.inside hpos hbus hk⟩

end Ring

/-! ## The call -/

section Submit

variable {e e' : XdmaEngine} {transferSize : U32} {env : SubmitEnv} {ring : PerfRing} {rc : ℤ}

/-- The inversion lemma for `xdma_performance_submit`. -/
theorem xdmaPerformanceSubmit_cases
    (h : xdmaPerformanceSubmit e transferSize env = .ok (e', ring, rc)) :
    IsPerfRing e.dirToDev transferSize env ring ∧
      (rc = -1 ∧ e.shutdown &&& ENGINE_SHUTDOWN_REQUEST ≠ 0 ∨
        rc = 0 ∧ e.shutdown &&& ENGINE_SHUTDOWN_REQUEST = 0 ∧
          Queued (e.setTransfer ring.p ring.transfer.cyclic) e' ring.p) := by
  obtain ⟨ring', hring, h⟩ := Except.bind_eq_ok h
  split at h
  · next e₁ rc₁ hqueue =>
    obtain ⟨rfl, rfl, rfl⟩ := by simpa using Except.ok.inj h
    refine ⟨perfRing_cases hring, ?_⟩
    rcases transferQueue_cases hqueue with ⟨hrc, -, hshut⟩ | ⟨rfl, hq⟩
    · exact Or.inl ⟨hrc, hshut⟩
    · refine Or.inr ⟨rfl, ?_, hq⟩
      by_contra hshut
      have hrc := (transferQueue_rc hqueue).trans (if_pos hshut)
      cases hrc
  · cases h

/-- A ring that is built is not refused by an assertion of `transfer_queue`. -/
theorem xdmaPerformanceSubmit_ok (hring : perfRing e.dirToDev transferSize env = .ok ring) :
    ∃ r, xdmaPerformanceSubmit e transferSize env = .ok r := by
  have hspec := perfRing_cases hring
  rw [xdmaPerformanceSubmit, hring, Except.ok_bind]
  cases hqueue : transferQueue (e.setTransfer ring.p ring.transfer.cyclic) ring.p with
  | ok r => exact ⟨_, rfl⟩
  | error e₁ =>
    obtain ⟨hcount, hmax, -⟩ := loopCount_bounds hspec.le
    have hnum := (transferQueue_error hqueue).2
    rw [XdmaEngine.descNumOf, XdmaEngine.transfers_setTransfer_self, BuiltTransfer.cyclic,
      hspec.descNum, ← BitVec.toNat_inj, BitVec.toNat_ofNat] at hnum
    have hzero : (0 : U32).toNat = 0 := rfl
    omega

/-- With enough memory and a size within the limit `xdma_performance_submit` returns. -/
theorem xdmaPerformanceSubmit_returns (e : XdmaEngine) (h : env.Suffices transferSize) :
    ∃ r, xdmaPerformanceSubmit e transferSize env = .ok r := by
  obtain ⟨ring, hring, -⟩ := perfRing_ok e.dirToDev h
  exact xdmaPerformanceSubmit_ok hring

/-- It stops before `transfer_queue`, or not at all. -/
theorem xdmaPerformanceSubmit_error {f : PerfFault}
    (h : xdmaPerformanceSubmit e transferSize env = .error f) :
    perfRing e.dirToDev transferSize env = .error f := by
  cases hring : perfRing e.dirToDev transferSize env with
  | ok ring =>
    obtain ⟨r, hr⟩ := xdmaPerformanceSubmit_ok hring
    rw [hr] at h
    cases h
  | error f' =>
    rw [xdmaPerformanceSubmit, hring] at h
    exact congrArg Except.error (Except.error.inj h)

end Submit

section Start

variable {s : PerfEngine} {env : StartEnv}

/-- A call that is refused returns an error. -/
theorem ioctlDoPerfStart_of_refused (h : StartRefused s env) :
    ∃ r, ioctlDoPerfStart s env = .ok r ∧ r.rc < 0 := by
  cases hidle : s.xdmaPerf with
  | some perf => exact ⟨_, start_of_busy (by rw [hidle]; rfl), Errno.neg_code_neg _⟩
  | none =>
    cases hmemory : env.memory with
    | false => exact ⟨_, start_of_no_memory hidle hmemory, Errno.neg_code_neg _⟩
    | true =>
      have hversion : env.copied.version ≠ IOCTL_XDMA_PERF_V1 := by
        simpa [StartRefused, hidle, hmemory] using h
      exact ⟨_, start_of_version hidle hmemory hversion, Errno.neg_code_neg _⟩

/-- A call that is not goes on to submit. -/
theorem ioctlDoPerfStart_of_not_refused (h : ¬ StartRefused s env) :
    ioctlDoPerfStart s env =
      (xdmaPerformanceSubmit (s.submitted env).self env.copied.transferSize env.submit).map
        (s.submitted env).started := by
  obtain ⟨hidle, hmemory, hversion⟩ : s.xdmaPerf = none ∧ env.memory = true ∧
      env.copied.version = IOCTL_XDMA_PERF_V1 := by
    simpa [StartRefused] using h
  exact start_of_submit hidle hmemory hversion

/-- START keeps all bounds exactly when it is refused before it submits, or the size is between 1
and `XDMA_DESC_MAX_BYTES`, there is memory for buffer, transfer and descriptors, and the engine is
not about to be shut down. -/
theorem startBounded_iff (s : PerfEngine) (env : StartEnv) :
    StartBounded s env ↔
      StartRefused s env ∨ StartFits s.engine env.copied.transferSize env.submit := by
  by_cases hrefused : StartRefused s env
  · obtain ⟨r, hr, hneg⟩ := ioctlDoPerfStart_of_refused hrefused
    exact iff_of_true ⟨r, hr, Or.inl hneg⟩ (Or.inl hrefused)
  refine Iff.trans ⟨fun h => ?_, fun h => ?_⟩ (or_iff_right hrefused).symm
  · obtain ⟨r, hr, hmeets⟩ := h
    rw [ioctlDoPerfStart_of_not_refused hrefused] at hr
    obtain ⟨⟨e, ring, rc⟩, hsubmit, rfl⟩ := Except.map_eq_ok hr
    obtain ⟨hspec, ⟨rfl, -⟩ | ⟨rfl, hshut, hq⟩⟩ := xdmaPerformanceSubmit_cases hsubmit
    · -- nothing is queued, and the call returns 0
      obtain ⟨ring', hnone, -⟩ := hmeets.resolve_left (lt_irrefl _)
      cases hnone
    · obtain ⟨ring', hsome, hring⟩ := hmeets.resolve_left (lt_irrefl _)
      obtain rfl := Option.some.inj hsome
      obtain ⟨hpos, hle, hbuffer⟩ := (ringQueued_iff hspec hq).mp hring
      exact ⟨hpos, hle, hbuffer, by rw [hspec.transfer]; rfl, hspec.descs, hshut⟩
  · have hmax : env.copied.transferSize.toNat ≤ maxConsistentSize.toNat :=
      h.le.trans (by decide)
    obtain ⟨ring, hring, -⟩ :=
      perfRing_ok (s.submitted env).self.dirToDev ⟨hmax, h.transfer, h.descs⟩
    obtain ⟨⟨e, ring', rc⟩, hsubmit⟩ := xdmaPerformanceSubmit_ok hring
    rw [StartBounded, ioctlDoPerfStart_of_not_refused hrefused, hsubmit]
    obtain ⟨hspec, ⟨-, hshut⟩ | ⟨rfl, -, hq⟩⟩ := xdmaPerformanceSubmit_cases hsubmit
    · exact absurd h.unrequested hshut
    · exact ⟨_, rfl, Or.inr ⟨ring', rfl, (ringQueued_iff hspec hq).mpr ⟨h.pos, h.le, h.buffer⟩⟩⟩

end Start

/-- An idle memory-mapped engine that reads from the host. -/
def idlePerf : PerfEngine :=
  .create false false true false fun _ => ⟨0, 0, 0, .new, false, none, false, 0, 0⟩

/-- Memory for up to 4 MiB. -/
def ampleAlloc (size : ℤ) : Option U64 :=
  if size ≤ 0x400000 then some 0x10000000 else none

theorem ampleAlloc_fits (size : ℤ) (bus : U64) (h : ampleAlloc size = some bus) :
    bus.toNat + size.toNat ≤ 2 ^ 64 := by
  rw [ampleAlloc] at h
  split at h
  · obtain rfl := Option.some.inj h
    have hbus : (0x10000000 : U64).toNat = 0x10000000 := rfl
    omega
  · cases h

/-- All the memory a measurement asks for. -/
def ampleMemory : SubmitEnv :=
  ⟨ampleAlloc, 0, some 0, some (fun _ => ⟨0, 0, 0, 0, 0, 0, 0, 0⟩, 0x30000000), ampleAlloc_fits⟩

/-- A descriptor of a byte more than 4 MiB stops the kernel. -/
theorem not_startBounded :
    ¬ StartBounded idlePerf ⟨true, { pagePerf with transferSize := 0x400001 }, 0, ampleMemory⟩ := by
  rintro ⟨r, hr, -⟩
  have hbug : ioctlDoPerfStart idlePerf
      ⟨true, { pagePerf with transferSize := 0x400001 }, 0, ampleMemory⟩ = .error .bug := rfl
  rw [hbug] at hr
  cases hr

end Wimi
