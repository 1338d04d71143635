import Wimi.StreamIntegrity

/-!
# Copying a packet to the user

A read of a streaming engine from `char_sgdma_read` down to `copy_cyclic_to_user`. The loop that
copied a packet block by block only moves `head` over the blocks, and a single copy of the whole
length begins at the block behind the packet. The count of the read is not passed on, and what
`copy_to_user` returns is not looked at.

`packetCopied_iff` : exactly which reads hand out the bytes of the packet at the head of the ring.
-/

namespace Wimi

/-! ## The read -/

/-- What a read looks at of a streaming engine. `rxBuffer` is the memory from `rx_buffer` on. -/
structure PacketEngine where
  dirToDev : Bool
  rxBuffer : Option (ℕ → U8)
  rxTransferCyclic : Bool
  ring : RxRing

/-- What a read meets. -/
structure PacketEnv where
  /-- `transfer_monitor_cyclic` ends with an error. -/
  interrupted : Bool
  /-- There are pages for `test_buf0` and for `test_buf1`. -/
  testBuf0 : Bool
  testBuf1 : Bool
  /-- The bytes that `copy_to_user` does not copy. -/
  left : ℕ

/-- A call of `copy_to_user` for `length` bytes from `rx_buffer + src` on. -/
structure UserCopy where
  src : ℕ
  length : ℕ
  left : ℕ

inductive PacketOutcome
  /-- The kernel has stopped. -/
  | stopped
  | returned (ret : ℤ) (ring : RxRing) (copied : Option UserCopy)

/-- The loop of `copy_cyclic_to_user` : `head` behind `remaining` bytes. -/
def headBehind (remaining : ℤ) (head : ℕ) : ℕ :=
  if remaining = 0 then head
  else if remaining > RX_BUF_BLOCK.toInt then
    headBehind (remaining - RX_BUF_BLOCK.toInt) ((head + 1) % RX_BUF_PAGES)
  else headBehind (remaining - remaining) ((head + 1) % RX_BUF_PAGES)
  termination_by remaining.natAbs
  decreasing_by
    all_goals have hblock : RX_BUF_BLOCK.toInt = 4096 := rfl
    all_goals omega

/-- `copy_cyclic_to_user`. All of `rx_buffer` is copied to `test_buf0` first, and half of that to
`test_buf1`, before either is tested. -/
def copyCyclicToUser (ring : RxRing) (env : PacketEnv) (pktLength : U32) (head : ℕ) (buf : U64) :
    PacketOutcome :=
  if buf = 0 then .stopped
  else if ¬ env.testBuf0 ∨ ¬ env.testBuf1 then .stopped
  else
    let head := headBehind pktLength.toInt head
    .returned pktLength.toInt ring
      (some ⟨head * RX_BUF_BLOCK.toNat, (pktLength.signExtend 64).toNat, env.left⟩)

/-- The loop of `complete_cyclic`, in at most so many turns. -/
def completeLoop : ℕ → RxRing → Completion → RxRing × Completion
  | 0, ring, c => (ring, c)
  | fuel + 1, ring, c =>
    match completeTurn ring c with
    | none => (ring, c)
    | some (ring, c) => if c.Stops then (ring, c) else completeLoop fuel ring c

/-- `complete_cyclic`. Each turn of its loop clears a result, so that there are at most
`RX_BUF_PAGES`. -/
def completeCyclic (ring : RxRing) (env : PacketEnv) (buf : U64) : PacketOutcome :=
  let (ring, c) := completeLoop RX_BUF_PAGES ring (.start ring)
  if c.fault then .returned (-Errno.eio.code) ring none
  else if c.eop then copyCyclicToUser ring env c.pktLength c.head buf
  else .returned 0 ring none

/-- `char_sgdma_read_cyclic`, with the ring as `transfer_monitor_cyclic` leaves it. -/
def charSgdmaReadCyclic (e : PacketEngine) (env : PacketEnv) (buf : U64) : PacketOutcome :=
  if env.interrupted then .returned (-Errno.erestartsys.code) e.ring none
  else
    match completeCyclic e.ring env buf with
    | .stopped => .stopped
    | .returned rc ring copied => .returned rc { ring with rxOverrun := false } copied

/-- `char_sgdma_read`, with `char_sgdma_read_write` for any other engine. -/
def charSgdmaRead (e : PacketEngine) (env : PacketEnv)
    (charSgdmaReadWrite : (buf count pos : U64) → PacketOutcome) (buf count pos : U64) :
    PacketOutcome :=
  if ¬ e.dirToDev ∧ e.rxBuffer.isSome ∧ e.rxTransferCyclic then charSgdmaReadCyclic e env buf
  else charSgdmaReadWrite buf count pos

/-! ## The packet at the head -/

/-- Result `k` of the packet at the head of the ring. -/
def RxRing.block (ring : RxRing) (k : ℕ) : XdmaResult :=
  ring.result ((ring.rxHead + k) % RX_BUF_PAGES)

/-- The bytes in the first `n` blocks. -/
def RxRing.pktLength (ring : RxRing) (n : ℕ) : ℕ :=
  ((List.range n).map fun k => (ring.block k).length.toNat).sum

/-- The ring holds a complete packet of `n` blocks without a fault, all full but the last. -/
structure FaultFreePacket (ring : RxRing) (n : ℕ) : Prop where
  head : ring.rxHead < RX_BUF_PAGES
  pos : 0 < n
  valid : ∀ k < n, (ring.block k).Valid
  eop : ∀ k < n, (ring.block k).eop = true ↔ k + 1 = n
  full : ∀ k, k + 1 < n → (ring.block k).length = RX_BUF_BLOCK
  total : ring.pktLength n ≤ RX_BUF_SIZE

/-- The `length` bytes of a packet that begins with block `head`. -/
def packetBytes (rxBuffer : ℕ → U8) (head length : ℕ) : List U8 :=
  (List.range length).map fun i =>
    rxBuffer ((head + i / RX_BUF_BLOCK.toNat) % RX_BUF_PAGES * RX_BUF_BLOCK.toNat +
      i % RX_BUF_BLOCK.toNat)

/-- `length` bytes of the buffer from `src` on. -/
def bufferBytes (rxBuffer : ℕ → U8) (src length : ℕ) : List U8 :=
  (List.range length).map fun i => rxBuffer (src + i)

/-- What the user has from the read. -/
def userBytes (rxBuffer : ℕ → U8) : Option UserCopy → List U8
  | none => []
  | some c => bufferBytes rxBuffer c.src (c.length - c.left)

/-- The read of a packet with these bytes : nothing outside of `rx_buffer` is read, the user gets no
more than asked for, all of the packet unless the wait or the copy fails, and an error if the copy
does. -/
structure PacketCopied (rxBuffer : ℕ → U8) (bytes : List U8) (count : U64) (env : PacketEnv)
    (ret : ℤ) (copied : Option UserCopy) : Prop where
  inside : ∀ c ∈ copied, c.src + c.length ≤ RX_BUF_SIZE
  bounded : (userBytes rxBuffer copied).length ≤ count.toNat
  whole : env.interrupted = false → (∀ c ∈ copied, c.left = 0) →
    userBytes rxBuffer copied = bytes ∧ ret = bytes.length
  failed : ∀ c ∈ copied, c.left ≠ 0 → ret < 0

/-- The kernel goes on, and the read is that of the packet. -/
def CopiesPacket (rxBuffer : ℕ → U8) (bytes : List U8) (count : U64) (env : PacketEnv)
    (o : PacketOutcome) : Prop :=
  ∃ ret ring copied, o = .returned ret ring copied ∧
    PacketCopied rxBuffer bytes count env ret copied

/-! ## The loops -/

theorem headBehind_zero (head : ℕ) : headBehind 0 head = head := by
  rw [headBehind, if_pos rfl]

/-- The loop ends behind the packet. -/
theorem headBehind_blocks {m last : ℕ} (hpos : 0 < last) (hle : last ≤ 4096) (head : ℕ) :
    headBehind (4096 * m + last) head = (head + (m + 1)) % RX_BUF_PAGES := by
  have hblock : RX_BUF_BLOCK.toInt = 4096 := rfl
  induction m generalizing head with
  | zero => rw [headBehind, if_neg (by omega), if_neg (by omega), sub_self, headBehind_zero]
  | succ m ih =>
    have hrest : (4096 * (m + 1 : ℕ) + last : ℤ) - 4096 = 4096 * m + last := by push_cast; ring
    rw [headBehind, if_neg (by omega), if_pos (by omega), hblock, hrest, ih, Nat.mod_add_mod]
    congr 1
    omega

section Loop

variable {ring : RxRing} {n : ℕ}

theorem RxRing.pktLength_succ (n : ℕ) :
    ring.pktLength (n + 1) = ring.pktLength n + (ring.block n).length.toNat := by
  rw [pktLength, pktLength, List.range_succ, List.map_append, List.sum_append]
  rfl

/-- As many bytes as the blocks before one of the packet have. -/
theorem FaultFreePacket.pktLength_full (h : FaultFreePacket ring n) {k : ℕ} (hk : k < n) :
    ring.pktLength k = 4096 * k := by
  induction k with
  | zero => rfl
  | succ k ih =>
    rw [RxRing.pktLength_succ, ih (by omega), h.full k hk]
    rfl

/-- A packet is some full blocks and its last one. -/
theorem FaultFreePacket.pktLength_eq (h : FaultFreePacket ring n) :
    ∃ m last, n = m + 1 ∧ ring.pktLength n = 4096 * m + last ∧ 0 < last ∧ last ≤ 4096 := by
  obtain ⟨m, rfl⟩ := Nat.exists_eq_add_of_lt h.pos
  rw [Nat.zero_add] at h ⊢
  obtain ⟨-, hpos, hle⟩ := h.valid m (Nat.lt_succ_self m)
  refine ⟨m, (ring.block m).length.toNat, rfl, ?_, BitVec.le_def.mp hpos, BitVec.le_def.mp hle⟩
  rw [RxRing.pktLength_succ, h.pktLength_full (Nat.lt_succ_self m)]

/-- The packet is no longer than the ring. -/
theorem FaultFreePacket.le_pages (h : FaultFreePacket ring n) : n ≤ RX_BUF_PAGES := by
  obtain ⟨m, last, rfl, hlength, hpos, -⟩ := h.pktLength_eq
  have htotal := h.total
  have hsize : RX_BUF_SIZE = 1048576 := rfl
  have hpages : RX_BUF_PAGES = 256 := rfl
  omega

/-- The locals of `complete_cyclic` behind `k` blocks of the packet. -/
def RxRing.completionAt (ring : RxRing) (k : ℕ) : Completion :=
  ⟨ring.rxHead, BitVec.ofNat 32 (ring.pktLength k), false, false⟩

/-- A turn of `complete_cyclic` goes by block `k`. -/
theorem FaultFreePacket.turn_eq (h : FaultFreePacket ring n) {k : ℕ} (hk : k < n)
    {ring' : RxRing} (hblock : ring'.result ring'.rxHead = ring.block k) :
    completeTurn ring' (ring.completionAt k) =
      some (ring'.clearHead, { ring.completionAt (k + 1) with eop := (ring.block k).eop }) := by
  have hvalid := h.valid k hk
  have hadd : (ring.completionAt k).add (ring.block k) =
      { ring.completionAt (k + 1) with eop := (ring.block k).eop } := by
    rw [Completion.add_of_valid hvalid, RxRing.completionAt, RxRing.completionAt,
      RxRing.pktLength_succ, BitVec.ofNat_add, BitVec.ofNat_toNat, BitVec.setWidth_eq,
      Bool.or_false]
  rw [completeTurn, hblock, hadd]
  exact if_pos hvalid.status_ne_zero

/-- The loop of `complete_cyclic` goes by the rest of the packet. -/
theorem FaultFreePacket.loop_eq (h : FaultFreePacket ring n) {m k fuel : ℕ} {ring' : RxRing}
    (hm : k + (m + 1) = n) (hfuel : m < fuel)
    (hhead : ring'.rxHead = (ring.rxHead + k) % RX_BUF_PAGES)
    (hkept : ∀ j, k ≤ j → j < n →
      ring'.result ((ring.rxHead + j) % RX_BUF_PAGES) = ring.block j) :
    (completeLoop fuel ring' (ring.completionAt k)).2 =
      { ring.completionAt n with eop := true } := by
  induction m generalizing k fuel ring' with
  | zero =>
    obtain ⟨fuel, rfl⟩ := Nat.exists_eq_add_of_lt hfuel
    have hk : k < n := by omega
    have hturn := h.turn_eq hk (hhead ▸ hkept k le_rfl hk)
    have heop : (ring.block k).eop = true := (h.eop k hk).mpr (by omega)
    rw [heop] at hturn
    rw [completeLoop, hturn]
    simp only [Completion.Stops, or_true, if_true]
    rw [show k + 1 = n by omega]
  | succ m ih =>
    obtain ⟨fuel, rfl⟩ := Nat.exists_eq_add_of_lt hfuel
    have hk : k < n := by omega
    have hturn := h.turn_eq hk (hhead ▸ hkept k le_rfl hk)
    have heop : (ring.block k).eop = false := by
      refine Bool.eq_false_iff.mpr fun heop => ?_
      have := (h.eop k hk).mp heop
      omega
    have hgoes : ¬ (ring.completionAt (k + 1)).Stops :=
      not_or.mpr ⟨Bool.false_ne_true, Bool.false_ne_true⟩
    have hround := h.le_pages
    rw [heop] at hturn
    rw [completeLoop, hturn]
    refine (congrArg Prod.snd (if_neg hgoes)).trans (ih (by omega) (by omega) ?_ fun j hj hjn => ?_)
    · change (ring'.rxHead + 1) % RX_BUF_PAGES = _
      rw [hhead, Nat.mod_add_mod, Nat.add_assoc]
    · -- the block that was cleared is before the others
      have hne : (ring.rxHead + j) % RX_BUF_PAGES ≠ ring'.rxHead := by
        rw [hhead]
        exact Circular.mod_ne (by omega) (by omega)
      exact (Function.update_of_ne hne _ _).trans (hkept j (by omega) hjn)

/-- The whole loop goes by the packet. -/
theorem FaultFreePacket.loop_start (h : FaultFreePacket ring n) :
    (completeLoop RX_BUF_PAGES ring (.start ring)).2 =
      { ring.completionAt n with eop := true } := by
  obtain ⟨m, -, hn, -⟩ := h.pktLength_eq
  have hpages := h.le_pages
  exact h.loop_eq (k := 0) (m := m) (by omega) (by omega) (Nat.mod_eq_of_lt h.head).symm
    fun _ _ _ => rfl

end Loop

/-! ## Reads -/

section Reads

variable {ring : RxRing} {n : ℕ}

/-- Where the copy begins : at the block behind the packet. -/
def RxRing.behind (ring : RxRing) (n : ℕ) : ℕ :=
  (ring.rxHead + n) % RX_BUF_PAGES * RX_BUF_BLOCK.toNat

/-- A packet's length is the same as an `int` and as a size. -/
theorem FaultFreePacket.toInt_pktLength (h : FaultFreePacket ring n) :
    (BitVec.ofNat 32 (ring.pktLength n)).toInt = ring.pktLength n ∧
      ((BitVec.ofNat 32 (ring.pktLength n)).signExtend 64).toNat = ring.pktLength n := by
  have htotal : ring.pktLength n ≤ 1048576 := h.total
  have hnat : (BitVec.ofNat 32 (ring.pktLength n)).toNat = ring.pktLength n := by
    rw [BitVec.toNat_ofNat]
    exact Nat.mod_eq_of_lt (by omega)
  have hsmall : 2 * (BitVec.ofNat 32 (ring.pktLength n)).toNat < 2 ^ 32 := by omega
  refine ⟨(BitVec.toInt_eq_toNat_of_lt hsmall).trans (by rw [hnat]), ?_⟩
  rw [BitVec.signExtend_eq_setWidth_of_msb_false (BitVec.msb_eq_false_iff_two_mul_lt.mpr hsmall),
    BitVec.toNat_setWidth, hnat]
  exact Nat.mod_eq_of_lt (by omega)

/-- The call takes the packet and hands its length to the copy. -/
theorem FaultFreePacket.complete_eq (h : FaultFreePacket ring n) (env : PacketEnv) (buf : U64) :
    ∃ ring', completeCyclic ring env buf =
      copyCyclicToUser ring' env (BitVec.ofNat 32 (ring.pktLength n)) ring.rxHead buf := by
  refine ⟨(completeLoop RX_BUF_PAGES ring (.start ring)).1, ?_⟩
  rw [completeCyclic]
  simp only [h.loop_start]
  rfl

/-- As much is copied from behind the packet. -/
theorem FaultFreePacket.copy_eq (h : FaultFreePacket ring n) (ring' : RxRing) (env : PacketEnv)
    (buf : U64) :
    copyCyclicToUser ring' env (BitVec.ofNat 32 (ring.pktLength n)) ring.rxHead buf =
      if buf ≠ 0 ∧ env.testBuf0 = true ∧ env.testBuf1 = true then
        .returned (ring.pktLength n) ring' (some ⟨ring.behind n, ring.pktLength n, env.left⟩)
      else .stopped := by
  obtain ⟨hint, hsize⟩ := h.toInt_pktLength
  obtain ⟨m, last, rfl, hlength, hpos, hle⟩ := h.pktLength_eq
  have hhead : headBehind (ring.pktLength (m + 1)) ring.rxHead =
      (ring.rxHead + (m + 1)) % RX_BUF_PAGES := by
    rw [hlength]
    push_cast
    exact headBehind_blocks hpos hle _
  rw [copyCyclicToUser, hint, hsize, hhead]
  by_cases hbuf : buf = 0
  · rw [if_pos hbuf, if_neg fun hall => hall.1 hbuf]
  rw [if_neg hbuf]
  by_cases hbufs : env.testBuf0 = true ∧ env.testBuf1 = true
  · rw [if_neg (by simp [hbufs]), if_pos ⟨hbuf, hbufs⟩]
    rfl
  · rw [if_pos (not_and_or.mp hbufs), if_neg fun hall => hbufs hall.2]

end Reads

/-- What the copy of a packet of `n` blocks needs. -/
structure CopyExact (ring : RxRing) (n : ℕ) (rxBuffer : ℕ → U8) (env : PacketEnv)
    (buf count : U64) : Prop where
  buf : buf ≠ 0
  testBufs : env.testBuf0 = true ∧ env.testBuf1 = true
  left : env.left = 0
  count : ring.pktLength n ≤ count.toNat
  inside : ring.behind n + ring.pktLength n ≤ RX_BUF_SIZE
  same : bufferBytes rxBuffer (ring.behind n) (ring.pktLength n) =
    packetBytes rxBuffer ring.rxHead (ring.pktLength n)

theorem length_packetBytes (rxBuffer : ℕ → U8) (head length : ℕ) :
    (packetBytes rxBuffer head length).length = length := by
  rw [packetBytes, List.length_map, List.length_range]

theorem length_bufferBytes (rxBuffer : ℕ → U8) (src length : ℕ) :
    (bufferBytes rxBuffer src length).length = length := by
  rw [bufferBytes, List.length_map, List.length_range]

/-- An interrupted read hands out nothing, and returns an error. -/
theorem packetCopied_interrupted (rxBuffer : ℕ → U8) (bytes : List U8) (count : U64)
    {env : PacketEnv} (h : env.interrupted = true) (ret : ℤ) :
    PacketCopied rxBuffer bytes count env ret none where
  inside := nofun
  bounded := Nat.zero_le _
  whole hnot := absurd (h.symm.trans hnot) nofun
  failed := nofun

/-- The copy of as many bytes as the packet has is that of the packet exactly when it has all it
needs. -/
theorem copied_iff {ring : RxRing} {n : ℕ} {rxBuffer : ℕ → U8} {env : PacketEnv}
    (hmonitor : env.interrupted = false) {buf count : U64}
    (hbufs : buf ≠ 0 ∧ env.testBuf0 = true ∧ env.testBuf1 = true) :
    PacketCopied rxBuffer (packetBytes rxBuffer ring.rxHead (ring.pktLength n)) count env
        (ring.pktLength n) (some ⟨ring.behind n, ring.pktLength n, env.left⟩) ↔
      CopyExact ring n rxBuffer env buf count := by
  refine ⟨fun hcopied => ?_, fun hexact => ?_⟩
  · -- the length is returned, so the copy did not fail
    have hleft : env.left = 0 := by
      by_contra hne
      have := hcopied.failed _ rfl hne
      omega
    have hbounded := hcopied.bounded
    have hwhole := (hcopied.whole hmonitor fun c hc => Option.some.inj hc ▸ hleft).1
    rw [userBytes, hleft, Nat.sub_zero] at hbounded hwhole
    rw [length_bufferBytes] at hbounded
    exact ⟨hbufs.1, hbufs.2, hleft, hbounded, hcopied.inside _ rfl, hwhole⟩
  · have hbytes : userBytes rxBuffer (some ⟨ring.behind n, ring.pktLength n, env.left⟩) =
        packetBytes rxBuffer ring.rxHead (ring.pktLength n) := by
      rw [userBytes, hexact.left, Nat.sub_zero, hexact.same]
    refine ⟨fun c hc => ?_, ?_, fun _ _ => ⟨hbytes, ?_⟩, fun c hc hne => ?_⟩
    · obtain rfl := Option.some.inj hc
      exact hexact.inside
    · rw [hbytes, length_packetBytes]
      exact hexact.count
    · rw [length_packetBytes]
    · obtain rfl := Option.some.inj hc
      exact absurd hexact.left hne

/-- An engine with a cyclic transfer to the host. -/
structure PacketEngine.Streaming (e : PacketEngine) (rxBuffer : ℕ → U8) : Prop where
  dirToDev : e.dirToDev = false
  rxBuffer : e.rxBuffer = some rxBuffer
  rxTransferCyclic : e.rxTransferCyclic = true

section Streaming

variable {e : PacketEngine} {rxBuffer : ℕ → U8} {n : ℕ}

/-- What a read comes to with a packet at the head of the ring. -/
theorem charSgdmaRead_eq (hstreaming : e.Streaming rxBuffer) (hpacket : FaultFreePacket e.ring n)
    (env : PacketEnv) (charSgdmaReadWrite : (buf count pos : U64) → PacketOutcome)
    (buf count pos : U64) :
    ∃ ring, charSgdmaRead e env charSgdmaReadWrite buf count pos =
      if env.interrupted then .returned (-Errno.erestartsys.code) e.ring none
      else if buf ≠ 0 ∧ env.testBuf0 = true ∧ env.testBuf1 = true then
        .returned (e.ring.pktLength n) ring
          (some ⟨e.ring.behind n, e.ring.pktLength n, env.left⟩)
      else .stopped := by
  have hread : charSgdmaRead e env charSgdmaReadWrite buf count pos =
      charSgdmaReadCyclic e env buf := by
    obtain ⟨hdir, hbuffer, hcyclic⟩ := hstreaming
    rw [charSgdmaRead, hdir, hbuffer, hcyclic]
    exact if_pos ⟨Bool.false_ne_true, rfl, rfl⟩
  obtain ⟨ring, hcomplete⟩ := hpacket.complete_eq env buf
  refine ⟨{ ring with rxOverrun := false }, ?_⟩
  rw [hread, charSgdmaReadCyclic, hcomplete, hpacket.copy_eq]
  by_cases hbufs : buf ≠ 0 ∧ env.testBuf0 = true ∧ env.testBuf1 = true
  · rw [if_pos hbufs, if_pos hbufs]
  · rw [if_neg hbufs, if_neg hbufs]

/-- For every ring with a complete packet of `n` blocks without a fault from `rx_head` on, a read
of any count from a streaming engine hands out the bytes of that packet, from within the ring and
within the count, or an error, if and only if it is interrupted or the copy has all it needs, the
same bytes behind the packet among it. -/
theorem packetCopied_iff (hstreaming : e.Streaming rxBuffer) (hpacket : FaultFreePacket e.ring n)
    (env : PacketEnv) (charSgdmaReadWrite : (buf count pos : U64) → PacketOutcome)
    (buf count pos : U64) :
    CopiesPacket rxBuffer (packetBytes rxBuffer e.ring.rxHead (e.ring.pktLength n)) count env
        (charSgdmaRead e env charSgdmaReadWrite buf count pos) ↔
      env.interrupted = true ∨ CopyExact e.ring n rxBuffer env buf count := by
  obtain ⟨ring, hread⟩ := charSgdmaRead_eq hstreaming hpacket env charSgdmaReadWrite buf count pos
  rw [hread]
  by_cases hmonitor : env.interrupted = true
  · rw [if_pos hmonitor]
    exact iff_of_true ⟨_, _, _, rfl, packetCopied_interrupted _ _ _ hmonitor _⟩ (.inl hmonitor)
  rw [if_neg hmonitor, or_iff_right hmonitor]
  by_cases hbufs : buf ≠ 0 ∧ env.testBuf0 = true ∧ env.testBuf1 = true
  · rw [if_pos hbufs, ← copied_iff (Bool.eq_false_iff.mpr hmonitor) hbufs]
    refine ⟨?_, fun h => ⟨_, _, _, rfl, h⟩⟩
    rintro ⟨ret, ring', copied, heq, h⟩
    obtain ⟨rfl, -, rfl⟩ := PacketOutcome.returned.inj heq
    exact h
  · rw [if_neg hbufs]
    refine iff_of_false ?_ fun h => hbufs ⟨h.buf, h.testBufs⟩
    rintro ⟨ret, ring', copied, heq, -⟩
    cases heq

end Streaming

/-- Where all blocks have the same bytes, a packet has its own behind it. -/
theorem bufferBytes_behind {rxBuffer : ℕ → U8}
    (hsame : ∀ i, rxBuffer i = rxBuffer (i % RX_BUF_BLOCK.toNat)) (ring : RxRing) (n length : ℕ) :
    bufferBytes rxBuffer (ring.behind n) length = packetBytes rxBuffer ring.rxHead length := by
  refine List.map_congr_left fun i _ => ?_
  rw [hsame, hsame ((ring.rxHead + i / RX_BUF_BLOCK.toNat) % RX_BUF_PAGES * _ + _), RxRing.behind,
    Nat.mul_add_mod_self_right, Nat.mul_add_mod_self_right, Nat.mod_mod]

/-- A packet of a block and a byte, from the last block of the ring on, in a ring whose blocks all
have the same bytes. -/
def wrappedPacket : PacketEngine where
  dirToDev := false
  rxBuffer := some fun i => BitVec.ofNat 8 (i % RX_BUF_BLOCK.toNat)
  rxTransferCyclic := true
  ring := { (RxRing.setup.set 255 ⟨0x52B40000, 4096⟩).set 0 ⟨0x52B40001, 1⟩ with rxHead := 255 }

theorem wrappedPacket_packet : FaultFreePacket wrappedPacket.ring 2 where
  head := by decide
  pos := Nat.two_pos
  valid := by decide
  eop := by decide
  full k hk := by
    obtain rfl : k = 0 := by omega
    rfl
  total := by decide

/-- What is behind it is the same, and a read with room for it gets it. -/
theorem packetCopied_iff_wrapped :
    CopiesPacket (fun i => BitVec.ofNat 8 (i % RX_BUF_BLOCK.toNat))
      (packetBytes (fun i => BitVec.ofNat 8 (i % RX_BUF_BLOCK.toNat)) 255 4097) 8192
      ⟨false, true, true, 0⟩
      (charSgdmaRead wrappedPacket ⟨false, true, true, 0⟩ (fun _ _ _ => .stopped) 0x1000 8192 0) :=
  (packetCopied_iff ⟨rfl, rfl, rfl⟩ wrappedPacket_packet _ _ _ _ _).mpr <| .inr
    ⟨by decide, ⟨rfl, rfl⟩, rfl, by decide, by decide,
      bufferBytes_behind (fun i => by rw [Nat.mod_mod]) _ _ _⟩

/-- A packet of one byte in the first block, where the memory has a 1. -/
def oneByte : PacketEngine where
  dirToDev := false
  rxBuffer := some fun i => if i = 0 then 1 else 0
  rxTransferCyclic := true
  ring := RxRing.setup.set 0 ⟨0x52B40001, 1⟩

theorem oneByte_packet : FaultFreePacket oneByte.ring 1 where
  head := by decide
  pos := Nat.one_pos
  valid := by decide
  eop := by decide
  full k hk := by omega
  total := by decide

/-- The user gets the first byte of the next block. -/
theorem packet_not_copied :
    FaultFreePacket oneByte.ring 1 ∧
      ¬ CopiesPacket (fun i => if i = 0 then 1 else 0)
        (packetBytes (fun i => if i = 0 then 1 else 0) 0 1) 1 ⟨false, true, true, 0⟩
        (charSgdmaRead oneByte ⟨false, true, true, 0⟩ (fun _ _ _ => .stopped) 0x1000 1 0) := by
  refine ⟨oneByte_packet, ?_⟩
  rintro ⟨ret, ring', copied, heq, hcopied⟩
  obtain ⟨ring, hread⟩ := charSgdmaRead_eq (e := oneByte) ⟨rfl, rfl, rfl⟩ oneByte_packet
    ⟨false, true, true, 0⟩ (fun _ _ _ => .stopped) 0x1000 1 0
  rw [hread, if_neg Bool.false_ne_true, if_pos (by decide)] at heq
  obtain ⟨-, -, rfl⟩ := PacketOutcome.returned.inj heq
  refine absurd (hcopied.whole rfl ?_).1 (by decide)
  rintro c hc
  obtain rfl := Option.some.inj hc
  rfl

end Wimi
