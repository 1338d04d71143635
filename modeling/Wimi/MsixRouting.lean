import Wimi.Interrupts
import Wimi.ProbeUnwind

/-!
# Routing of interrupts

With MSI-X every source of interrupts has a vector, written to the device by `write_msix_vectors`,
and `probe` has requested the line of each vector for what is to be serviced. Without, `xdma_isr`
reads the requests, and goes by the bit each engine was given when it was created.

`msix_agrees` : after any probe the messages of the requested sources, in any order, come to what
`xdma_isr` does with the same requests.
-/

open Resources

namespace Wimi

def MAX_NUM_ENGINES : ℕ := XDMA_CHANNEL_NUM_MAX * 2

/-! ## What is serviced -/

/-- What an interrupt is for. -/
inductive IrqHandler
  /-- `xdma_user_irq` of a user interrupt. -/
  | user (i : ℕ)
  /-- `xdma_channel_irq` of an engine. -/
  | channel (k : EngineSlot)
  deriving DecidableEq

/-- The flags of the user interrupts, and the engines whose work is scheduled. -/
@[ext]
structure IrqEffects where
  eventsIrq : ℕ → U32
  scheduled : EngineSlot → Bool

/-- What servicing an interrupt does. Work that is scheduled already is not queued again. -/
def IrqEffects.run (s : IrqEffects) : IrqHandler → IrqEffects
  | .user i =>
    { s with eventsIrq := Function.update s.eventsIrq i (userIrqService (s.eventsIrq i)) }
  | .channel k => { s with scheduled := Function.update s.scheduled k true }

/-! ## `xdma_isr` -/

/-- `engines_num` as each engine of the list is created, from its value and the numbers before. -/
def numberLoop (env : ProbeEnv) :
    ℕ × (EngineSlot → Option ℕ) → List EngineSlot → ℕ × (EngineSlot → Option ℕ)
  | u, [] => u
  | u, k :: ks =>
    numberLoop env
      (if (env.engines k).isSome then (u.1 + 1, Function.update u.2 k (some u.1)) else u) ks

/-- The engines in the order `probe_engines` creates them, and `xdma_isr` looks at them. -/
def createdSlots : List EngineSlot :=
  engineSlotsOf false ++ engineSlotsOf true

/-- The number of an engine, which `irq_bitmask` and `msix_irq_line` are for. -/
def engineNumber (env : ProbeEnv) : EngineSlot → Option ℕ :=
  (numberLoop env (0, fun _ => none) createdSlots).2

/-- The engine is there, and its bit is in `ch_irq`. -/
def Fired (number : EngineSlot → Option ℕ) (chIrq : U32) (k : EngineSlot) : Prop :=
  ∃ i ∈ number k, irqBitmask i &&& chIrq ≠ 0

instance (number : EngineSlot → Option ℕ) (chIrq : U32) (k : EngineSlot) :
    Decidable (Fired number chIrq k) :=
  inferInstanceAs (Decidable (∃ i ∈ number k, _))

/-- `xdma_isr`, for the words it reads. -/
def xdmaIsr (number : EngineSlot → Option ℕ) (chIrq userIrq : U32) (s : IrqEffects) :
    IrqEffects :=
  let s := (List.range MAX_USER_IRQ).foldl
    (fun s bit => if userIrq.getLsbD bit then s.run (.user bit) else s) s
  createdSlots.foldl (fun s k => if Fired number chIrq k then s.run (.channel k) else s) s

/-! ## MSI-X -/

/-- `build_vector_reg`. -/
def buildVectorReg (a b c d : U32) : U32 :=
  (a &&& 0x1f) <<< 0 ||| (b &&& 0x1f) <<< 8 ||| (c &&& 0x1f) <<< 16 ||| (d &&& 0x1f) <<< 24

/-- The registers that give the sources their vectors. -/
structure MsixVectors where
  userMsiVector : List U32
  channelMsiVector : List U32

/-- `write_msix_vectors`. -/
def writeMsixVectors : MsixVectors where
  userMsiVector := [buildVectorReg 0 1 2 3, buildVectorReg 4 5 6 7, buildVectorReg 8 9 10 11,
    buildVectorReg 12 13 14 15]
  channelMsiVector := [buildVectorReg 16 17 18 19, buildVectorReg 20 21 22 23]

/-- A source of interrupts, by its bit in the request registers. -/
inductive IrqSource
  | user (bit : ℕ)
  | channel (bit : ℕ)

/-- Field `bit` of registers with four fields each. -/
def vectorField (regs : List U32) (bit : ℕ) : ℕ :=
  ((regs.getD (bit / 4) 0).extractLsb' (8 * (bit % 4)) 8).toNat

namespace IrqSource

/-- The vector the device sends a message with. -/
def vector : IrqSource → ℕ
  | user bit => vectorField writeMsixVectors.userMsiVector bit
  | channel bit => vectorField writeMsixVectors.channelMsiVector bit

/-- The source is one of the device, and requests an interrupt. -/
def Requested (chIrq userIrq : U32) : IrqSource → Prop
  | user bit => bit < MAX_USER_IRQ ∧ userIrq.getLsbD bit = true
  | channel bit => bit < MAX_NUM_ENGINES ∧ chIrq.getLsbD bit = true

end IrqSource

/-- The lines `msix_irq_setup` and `engine_msix_setup` have requested, with what for. -/
def msixLines (pci : Pci) (t : Engines) : List (ℕ × IrqHandler) :=
  (List.range MAX_USER_IRQ).map (fun i => (pci.vector i, .user i)) ++
    createdSlots.filterMap fun k => (t.engine k).map fun e => (e.msixIrqLine, .channel k)

/-- What is serviced when a source sends its message. -/
def msixHandlers (pci : Pci) (t : Engines) (src : IrqSource) : List IrqHandler :=
  ((msixLines pci t).filter fun x => x.1 = pci.vector src.vector).map Prod.snd

/-- A message is delivered. -/
def deliverMsix (pci : Pci) (t : Engines) (s : IrqEffects) (src : IrqSource) : IrqEffects :=
  (msixHandlers pci t src).foldl IrqEffects.run s

/-! ## The order is of no account -/

theorem userIrqService_idem (w : U32) : userIrqService (userIrqService w) = userIrqService w := by
  by_cases h : w = 0
  · rw [h]
    rfl
  · have hkeep : userIrqService w = w := if_neg h
    rw [hkeep, hkeep]

/-- What servicing interrupts comes to. -/
theorem foldl_run (hs : List IrqHandler) (s : IrqEffects) :
    hs.foldl IrqEffects.run s =
      ⟨fun i => if .user i ∈ hs then userIrqService (s.eventsIrq i) else s.eventsIrq i,
        fun k => decide (.channel k ∈ hs) || s.scheduled k⟩ := by
  induction hs generalizing s with
  | nil => simp
  | cons h hs ih =>
    rw [List.foldl_cons, ih]
    cases h with
    | user i =>
      refine IrqEffects.ext (funext fun j => ?_) (funext fun k => by simp [IrqEffects.run])
      rcases eq_or_ne j i with rfl | hne
      · simp [IrqEffects.run, userIrqService_idem]
      · simp [IrqEffects.run, hne]
    | channel k =>
      refine IrqEffects.ext (funext fun j => by simp [IrqEffects.run]) (funext fun j => ?_)
      rcases eq_or_ne j k with rfl | hne
      · simp [IrqEffects.run]
      · simp [IrqEffects.run, hne]

/-- It only matters what is serviced. -/
theorem foldl_run_congr {hs hs' : List IrqHandler} (h : ∀ x, x ∈ hs ↔ x ∈ hs') (s : IrqEffects) :
    hs.foldl IrqEffects.run s = hs'.foldl IrqEffects.run s := by
  rw [foldl_run, foldl_run]
  simp only [h]

/-- A loop that services some of what it goes by. -/
theorem foldl_run_if {α : Type} (p : α → Prop) [DecidablePred p] (f : α → IrqHandler) (l : List α)
    (s : IrqEffects) : l.foldl (fun s x => if p x then s.run (f x) else s) s =
      ((l.filter fun x => p x).map f).foldl IrqEffects.run s := by
  induction l generalizing s with
  | nil => rfl
  | cons x l ih =>
    by_cases hx : p x
    · rw [List.foldl_cons, if_pos hx, ih, List.filter_cons_of_pos (by simpa using hx)]
      rfl
    · rw [List.foldl_cons, if_neg hx, ih, List.filter_cons_of_neg (by simpa using hx)]

/-- What `xdma_isr` services. -/
def isrHandlers (number : EngineSlot → Option ℕ) (chIrq userIrq : U32) : List IrqHandler :=
  ((List.range MAX_USER_IRQ).filter fun bit => userIrq.getLsbD bit).map .user ++
    (createdSlots.filter fun k => Fired number chIrq k).map .channel

theorem xdmaIsr_eq (number : EngineSlot → Option ℕ) (chIrq userIrq : U32) (s : IrqEffects) :
    xdmaIsr number chIrq userIrq s =
      (isrHandlers number chIrq userIrq).foldl IrqEffects.run s := by
  rw [xdmaIsr, foldl_run_if, foldl_run_if, isrHandlers, List.foldl_append]
  simp

/-! ## The numbers of the engines -/

section Numbers

variable {env : ProbeEnv} {pci : Pci} {t t' : Engines} {l l' : Ledger Resource}
  {u : ℕ × (EngineSlot → Option ℕ)} {k : EngineSlot} {ks : List EngineSlot}

/-- The engines that were created have the lines of their numbers, no two the same. -/
structure Numbers (pci : Pci) (t : Engines) (u : ℕ × (EngineSlot → Option ℕ)) : Prop where
  num : t.enginesNum = u.1
  line : ∀ k, (t.engine k).map LroEngine.msixIrqLine =
    (u.2 k).map fun i => pci.vector (i + MAX_USER_IRQ)
  lt : ∀ k i, u.2 k = some i → i < u.1
  inj : ∀ k k' i, u.2 k = some i → u.2 k' = some i → k = k'

/-- An engine that is created takes the next number, and the line that belongs to it. -/
theorem createEngine_some {e : EngineEnv} {r : LroEngine} (hmsix : pci.msixEnabled = true)
    (h : createEngine env pci t l k e = (t', l', some r)) :
    t' = { t with enginesNum := t.enginesNum + 1 } ∧
      r.msixIrqLine = pci.vector (t.enginesNum + MAX_USER_IRQ) := by
  unfold createEngine at h
  dsimp only at h
  split at h
  · cases h
  split at h
  · cases h
  split at h
  · cases h
  · cases h
    exact ⟨rfl, rfl⟩

theorem Numbers.update (h : Numbers pci t u) {r : LroEngine}
    (hr : r.msixIrqLine = pci.vector (t.enginesNum + MAX_USER_IRQ)) :
    Numbers pci ⟨t.enginesNum + 1, Function.update t.engine k (some r)⟩
      (u.1 + 1, Function.update u.2 k (some u.1)) := by
  have hnew (j : EngineSlot) (i : ℕ) (hj : Function.update u.2 k (some u.1) j = some i) :
      j = k ∧ i = u.1 ∨ u.2 j = some i := by
    rcases eq_or_ne j k with rfl | hne
    · rw [Function.update_self] at hj
      exact .inl ⟨rfl, (Option.some.inj hj).symm⟩
    · rw [Function.update_of_ne hne] at hj
      exact .inr hj
  refine ⟨congrArg (· + 1) h.num, fun j => ?_, fun j i hj => ?_, fun j j' i hj hj' => ?_⟩
  · rcases eq_or_ne j k with rfl | hne
    · simp [hr, h.num]
    · simpa [hne] using h.line j
  · rcases hnew j i hj with ⟨-, rfl⟩ | hold
    · exact Nat.lt_succ_self _
    · exact Nat.lt_succ_of_lt (h.lt j i hold)
  · rcases hnew j i hj with ⟨rfl, rfl⟩ | hold <;> rcases hnew j' _ hj' with ⟨rfl, heq⟩ | hold'
    · rfl
    · exact absurd (h.lt j' _ hold') (lt_irrefl _)
    · exact absurd (heq ▸ h.lt j _ hold) (lt_irrefl _)
    · exact h.inj j j' i hold hold'

/-- One engine. -/
theorem Numbers.probeForEngine (h : Numbers pci t u) (hmsix : pci.msixEnabled = true)
    (hprobe : probeForEngine env pci t l k = (t', l', 0)) :
    Numbers pci t' (if (env.engines k).isSome then
      (u.1 + 1, Function.update u.2 k (some u.1)) else u) := by
  unfold Wimi.probeForEngine at hprobe
  split at hprobe
  · next hnone =>
    obtain ⟨rfl, -⟩ := hprobe
    rwa [hnone, if_neg (by simp)]
  · next e he =>
    rcases hcreate : createEngine env pci t l k e with ⟨t₁, l₁, r⟩
    rw [hcreate] at hprobe
    obtain ⟨rfl, -, hrc⟩ := Prod.mk.inj hprobe |>.imp_right Prod.mk.inj
    cases r with
    | none => simp at hrc
    | some r =>
      obtain ⟨rfl, hr⟩ := createEngine_some hmsix hcreate
      rw [he]
      exact h.update hr

/-- A loop of `probe_engines`. -/
theorem Numbers.loop (h : Numbers pci t u) (hmsix : pci.msixEnabled = true)
    (hprobe : probeEnginesLoop env pci t l ks = (t', l', 0)) :
    Numbers pci t' (numberLoop env u ks) := by
  induction ks generalizing t l u with
  | nil =>
    obtain ⟨rfl, -⟩ := hprobe
    exact h
  | cons k ks ih =>
    rcases hone : Wimi.probeForEngine env pci t l k with ⟨t₁, l₁, rc⟩
    simp only [probeEnginesLoop, hone] at hprobe
    split at hprobe
    · next hrc =>
      obtain ⟨-, -, rfl⟩ := hprobe
      exact absurd rfl hrc
    · next hrc =>
      rw [not_not.mp hrc] at hone
      exact ih (h.probeForEngine hmsix hone) hprobe

/-- Loops behind each other. -/
theorem numberLoop_append (u : ℕ × (EngineSlot → Option ℕ)) (ks ks' : List EngineSlot) :
    numberLoop env u (ks ++ ks') = numberLoop env (numberLoop env u ks) ks' := by
  induction ks generalizing u with
  | nil => rfl
  | cons k ks ih => exact ih _

/-- There are no more numbers than engines. -/
theorem numberLoop_le (u : ℕ × (EngineSlot → Option ℕ)) (ks : List EngineSlot) :
    (numberLoop env u ks).1 ≤ u.1 + ks.length := by
  induction ks generalizing u with
  | nil => exact le_rfl
  | cons k ks ih =>
    refine (ih _).trans ?_
    rw [List.length_cons]
    split <;> omega

/-- Only engines of the list get a number. -/
theorem numberLoop_mem {u : ℕ × (EngineSlot → Option ℕ)} {k : EngineSlot} (hk : k ∉ ks) :
    (numberLoop env u ks).2 k = u.2 k := by
  induction ks generalizing u with
  | nil => rfl
  | cons j ks ih =>
    rw [List.mem_cons, not_or] at hk
    rw [numberLoop, ih hk.2]
    split
    · exact Function.update_of_ne hk.1 _ _
    · rfl

/-- Engines that were all created are numbered in that order. -/
theorem probeEngines_numbers (hmsix : pci.msixEnabled = true)
    (h : probeEngines env pci .alloc l = (t, l', 0)) :
    Numbers pci t (numberLoop env (0, fun _ => none) createdSlots) := by
  have hstart : Numbers pci .alloc (0, fun _ => none) := ⟨rfl, fun _ => rfl, nofun, nofun⟩
  rcases hloop : probeEnginesLoop env pci .alloc l (engineSlotsOf false) with ⟨t₁, l₁, rc⟩
  simp only [probeEngines, hloop] at h
  split at h
  · next hrc =>
    obtain ⟨-, -, rfl⟩ := h
    exact absurd rfl hrc
  · next hrc =>
    rw [not_not.mp hrc] at hloop
    rw [createdSlots, numberLoop_append]
    exact (hstart.loop hmsix hloop).loop hmsix h

end Numbers

/-! ## What a message is for -/

/-- Up to `probe_engines`, a probe with MSI-X keeps the vectors it has got. -/
theorem probeSetUp_ok {env : ProbeEnv} {pci : Pci} {t : Engines} {l : Ledger Resource}
    {vectors : ℕ → ℕ} {hnz : ∀ i, vectors i ≠ 0} (hcap : env.msixCapable = true)
    (henable : env.enableMsix = .enabled vectors hnz) (h : probeSetUp env = .ok (pci, t, l)) :
    pci.msixEnabled = true ∧ pci.vector = vectors ∧
      ∃ l₁, probeEngines env pci .alloc l₁ = (t, l, 0) := by
  simp only [probeSetUp, probeScanForMsi, hcap, henable, if_true] at h
  split at h
  · cases h
  split at h
  · cases h
  split at h
  · next hrc => exact absurd hrc (lt_irrefl _)
  unfold probeRegions requestRegions at h
  dsimp only at h
  rcases hregions : env.requestRegions with _ | e
  case some =>
    rw [hregions] at h
    dsimp only at h
    rw [if_pos (by omega)] at h
    cases h
  rw [hregions] at h
  dsimp only at h
  rw [if_neg (not_not.mpr rfl)] at h
  rcases hmap : mapBars env { Pci.alloc with
    msixEnabled := true, vector := vectors, gotRegions := true }
      ((((Ledger.empty.acquire .dev).acquire .pciDevice).acquire .msix).acquire .regions) with
    ⟨pci₁, l₁, rc₁⟩
  obtain ⟨hsame₁, -⟩ := mapBars_spec (fun _ => rfl) hmap
  rw [hmap] at h
  dsimp only at h
  split at h
  · cases h
  split at h
  · cases h
  unfold probeIrqs at h
  rcases hirq : irqSetup env pci₁ l₁ with ⟨pci₂, l₂, rc₂⟩
  obtain ⟨hsame₂, -⟩ := irqSetup_spec hirq
  rw [hirq] at h
  dsimp only at h
  split at h
  · cases h
  rcases hengines : probeEngines env pci₂ .alloc l₂ with ⟨t₁, l₃, rc₃⟩
  rw [hengines] at h
  dsimp only at h
  split at h
  · cases h
  next hrc =>
  obtain ⟨rfl, rfl, rfl⟩ := Except.ok.inj h
  rw [not_not.mp hrc] at hengines
  have hsame := hsame₁.trans hsame₂
  exact ⟨hsame.msixEnabled, hsame.vector, l₂, hengines⟩

theorem vector_user : ∀ bit < MAX_USER_IRQ, (IrqSource.user bit).vector = bit := by
  decide

theorem vector_channel : ∀ bit < MAX_NUM_ENGINES,
    (IrqSource.channel bit).vector = bit + MAX_USER_IRQ := by
  decide

/-- The bit of an engine in a word of requests. -/
theorem irqBitmask_and_ne_zero {i : ℕ} (hi : i < 32) (w : U32) :
    irqBitmask i &&& w ≠ 0 ↔ w.getLsbD i = true := by
  have hbit : irqBitmask i = BitVec.twoPow 32 i := by
    rw [irqBitmask, XDMA_ENG_IRQ_NUM, Nat.mul_one, BitVec.twoPow]
    rfl
  rw [hbit, BitVec.and_comm, BitVec.and_twoPow]
  cases hw : w.getLsbD i with
  | false => simp
  | true =>
    have hpow : BitVec.twoPow 32 i ≠ 0 := by
      intro hzero
      have := congrArg (BitVec.getLsbD · i) hzero
      simp [hi] at this
    simpa using hpow

/-- A source that requests an interrupt has one of the vectors that are enabled. -/
theorem IrqSource.Requested.vector_lt {chIrq userIrq : U32} {src : IrqSource}
    (h : src.Requested chIrq userIrq) : src.vector < MAX_NUM_ENGINES + MAX_USER_IRQ := by
  cases src with
  | user bit =>
    rw [vector_user bit h.1]
    exact Nat.lt_add_left _ h.1
  | channel bit =>
    rw [vector_channel bit h.1]
    exact Nat.add_lt_add_right h.1 _

section Messages

variable {pci : Pci} {t : Engines} {u : ℕ × (EngineSlot → Option ℕ)} {src : IrqSource}
  {chIrq userIrq : U32}

/-- No two of the vectors that are enabled have the same line. -/
def Pci.LinesApart (pci : Pci) : Prop :=
  ∀ i < MAX_NUM_ENGINES + MAX_USER_IRQ, ∀ j < MAX_NUM_ENGINES + MAX_USER_IRQ,
    pci.vector i = pci.vector j → i = j

/-- Every engine has a line of its own. -/
structure Routed (pci : Pci) (t : Engines) (u : ℕ × (EngineSlot → Option ℕ)) : Prop
    extends Numbers pci t u where
  apart : pci.LinesApart
  few : u.1 ≤ MAX_NUM_ENGINES
  slots : ∀ k ∉ createdSlots, u.2 k = none

theorem mem_msixHandlers {x : IrqHandler} : x ∈ msixHandlers pci t src ↔
    (∃ i < MAX_USER_IRQ, pci.vector i = pci.vector src.vector ∧ .user i = x) ∨
      ∃ k ∈ createdSlots, ∃ e, t.engine k = some e ∧
        e.msixIrqLine = pci.vector src.vector ∧ .channel k = x := by
  simp only [msixHandlers, msixLines, List.mem_map, List.mem_filter, List.mem_append,
    List.mem_range, List.mem_filterMap, Option.map_eq_some_iff, decide_eq_true_iff]
  constructor
  · rintro ⟨-, ⟨⟨i, hi, rfl⟩ | ⟨k, hk, e, he, rfl⟩, hline⟩, rfl⟩
    · exact .inl ⟨i, hi, hline, rfl⟩
    · exact .inr ⟨k, hk, e, he, hline, rfl⟩
  · rintro (⟨i, hi, hline, rfl⟩ | ⟨k, hk, e, he, hline, rfl⟩)
    · exact ⟨_, ⟨.inl ⟨i, hi, rfl⟩, hline⟩, rfl⟩
    · exact ⟨_, ⟨.inr ⟨k, hk, e, he, rfl⟩, hline⟩, rfl⟩

namespace Routed

theorem lt_max (h : Routed pci t u) {k : EngineSlot} {i : ℕ} (hi : u.2 k = some i) :
    i < MAX_NUM_ENGINES :=
  (h.lt k i hi).trans_le h.few

theorem mem_createdSlots (h : Routed pci t u) {k : EngineSlot} {i : ℕ} (hi : u.2 k = some i) :
    k ∈ createdSlots := by
  by_contra hout
  rw [h.slots k hout] at hi
  cases hi

/-- A message is for the user interrupt with its vector. -/
theorem user_mem (h : Routed pci t u) (hsrc : src.Requested chIrq userIrq) {i : ℕ} :
    .user i ∈ msixHandlers pci t src ↔ i < MAX_USER_IRQ ∧ i = src.vector := by
  rw [mem_msixHandlers]
  constructor
  · rintro (⟨j, hj, hline, heq⟩ | ⟨k, -, e, -, -, heq⟩)
    · obtain rfl := IrqHandler.user.inj heq
      exact ⟨hj, h.apart j (Nat.lt_add_left _ hj) _ hsrc.vector_lt hline⟩
    · cases heq
  · rintro ⟨hi, heq⟩
    exact .inl ⟨i, hi, by rw [heq], rfl⟩

/-- A message is for the engine with the number of its vector. -/
theorem channel_mem (h : Routed pci t u) (hsrc : src.Requested chIrq userIrq) {k : EngineSlot} :
    .channel k ∈ msixHandlers pci t src ↔ ∃ i, u.2 k = some i ∧ i + MAX_USER_IRQ = src.vector := by
  have hline := h.line k
  rw [mem_msixHandlers]
  constructor
  · rintro (⟨j, -, -, heq⟩ | ⟨k', hk, e, he, hvec, heq⟩)
    · cases heq
    · obtain rfl := IrqHandler.channel.inj heq
      rw [he, Option.map_some, eq_comm, Option.map_eq_some_iff] at hline
      obtain ⟨i, hi, hirq⟩ := hline
      have hlt := Nat.add_lt_add_right (h.lt_max hi) MAX_USER_IRQ
      exact ⟨i, hi, h.apart _ hlt _ hsrc.vector_lt (hirq.trans hvec)⟩
  · rintro ⟨i, hi, hvec⟩
    rw [hi, Option.map_some, Option.map_eq_some_iff] at hline
    obtain ⟨e, he, hirq⟩ := hline
    exact .inr ⟨k, h.mem_createdSlots hi, e, he, by rw [hirq, hvec], rfl⟩

/-- The user interrupts that messages are for are those requested. -/
theorem user_served (h : Routed pci t u) {i : ℕ} :
    (∃ src : IrqSource, src.Requested chIrq userIrq ∧ .user i ∈ msixHandlers pci t src) ↔
      i < MAX_USER_IRQ ∧ userIrq.getLsbD i = true := by
  constructor
  · rintro ⟨src, hsrc, hx⟩
    obtain ⟨hi, heq⟩ := (h.user_mem hsrc).mp hx
    cases src with
    | user bit =>
      rw [vector_user bit hsrc.1] at heq
      exact heq ▸ hsrc
    | channel bit =>
      rw [vector_channel bit hsrc.1] at heq
      omega
  · intro hreq
    have hsrc : (IrqSource.user i).Requested chIrq userIrq := hreq
    exact ⟨_, hsrc, (h.user_mem hsrc).mpr ⟨hreq.1, (vector_user i hreq.1).symm⟩⟩

/-- The engines that messages are for are those whose bits are requested. -/
theorem channel_served (h : Routed pci t u) {k : EngineSlot} :
    (∃ src : IrqSource, src.Requested chIrq userIrq ∧ .channel k ∈ msixHandlers pci t src) ↔
      Fired u.2 chIrq k := by
  have hmax : MAX_NUM_ENGINES ≤ 32 := by decide
  constructor
  · rintro ⟨src, hsrc, hx⟩
    obtain ⟨i, hi, heq⟩ := (h.channel_mem hsrc).mp hx
    cases src with
    | user bit =>
      have hlt := hsrc.1
      rw [vector_user bit hlt] at heq
      omega
    | channel bit =>
      rw [vector_channel bit hsrc.1, Nat.add_right_cancel_iff] at heq
      subst heq
      exact ⟨i, hi, (irqBitmask_and_ne_zero ((h.lt_max hi).trans_le hmax) chIrq).mpr hsrc.2⟩
  · rintro ⟨i, hi, hbit⟩
    have hlt := h.lt_max hi
    have hsrc : (IrqSource.channel i).Requested chIrq userIrq :=
      ⟨hlt, (irqBitmask_and_ne_zero (hlt.trans_le hmax) chIrq).mp hbit⟩
    exact ⟨_, hsrc, (h.channel_mem hsrc).mpr ⟨i, hi, (vector_channel i hlt).symm⟩⟩

end Routed

end Messages

theorem user_mem_isrHandlers {number : EngineSlot → Option ℕ} {chIrq userIrq : U32} {i : ℕ} :
    .user i ∈ isrHandlers number chIrq userIrq ↔
      i < MAX_USER_IRQ ∧ userIrq.getLsbD i = true := by
  simp [isrHandlers]

theorem channel_mem_isrHandlers {number : EngineSlot → Option ℕ} {chIrq userIrq : U32}
    {k : EngineSlot} : .channel k ∈ isrHandlers number chIrq userIrq ↔
      k ∈ createdSlots ∧ Fired number chIrq k := by
  simp [isrHandlers]

/-- After a probe with MSI-X that goes through, with any engines present : for all words of
requests, the messages of the sources that request an interrupt, in any order and also more than
once, set the flags of the same user interrupts and schedule the work of the same engines as
`xdma_isr` does when it reads those words. -/
theorem msix_agrees (env : ProbeEnv) (pci : Pci) (t : Engines) (l : Ledger Resource)
    (vectors : ℕ → ℕ) (hnz : ∀ i, vectors i ≠ 0) (hcap : env.msixCapable = true)
    (henable : env.enableMsix = .enabled vectors hnz)
    (hprobe : probeSetUp env = .ok (pci, t, l)) (hapart : pci.LinesApart) (chIrq userIrq : U32)
    (srcs : List IrqSource) (hsrcs : ∀ src, src ∈ srcs ↔ src.Requested chIrq userIrq)
    (s : IrqEffects) :
    srcs.foldl (deliverMsix pci t) s = xdmaIsr (engineNumber env) chIrq userIrq s := by
  obtain ⟨hmsix, -, l₁, hengines⟩ := probeSetUp_ok hcap henable hprobe
  have h : Routed pci t (numberLoop env (0, fun _ => none) createdSlots) :=
    ⟨probeEngines_numbers hmsix hengines, hapart,
      (numberLoop_le (0, fun _ => none) createdSlots).trans (by decide),
      fun k hk => numberLoop_mem hk⟩
  have hdeliver : srcs.foldl (deliverMsix pci t) s =
      (srcs.flatMap (msixHandlers pci t)).foldl IrqEffects.run s :=
    List.foldl_flatMap.symm
  rw [hdeliver, xdmaIsr_eq]
  refine foldl_run_congr (fun x => ?_) s
  simp only [List.mem_flatMap, hsrcs]
  cases x with
  | user i => exact h.user_served.trans user_mem_isrHandlers.symm
  | channel k =>
    rw [h.channel_served, channel_mem_isrHandlers]
    exact ⟨fun hfired => ⟨hfired.elim fun i hi => h.mem_createdSlots hi.1, hfired⟩, And.right⟩

/-- A device with MSI-X, an H2C engine and a C2H engine. -/
def msixDevice : ProbeEnv :=
  { plainDevice with
    msixCapable := true
    enableMsix := .enabled (· + 1) fun _ => Nat.succ_ne_zero _
    engines := fun k => if k.1 = 0 then some ⟨true, none, true⟩ else none }

theorem requested_msixDevice (src : IrqSource) :
    src ∈ [.channel 1, .user 0, .channel 0] ↔ src.Requested 3 1 := by
  have huser : ∀ bit < MAX_USER_IRQ, bit = 0 ↔ (1 : U32).getLsbD bit = true := by decide
  have hchannel : ∀ bit < MAX_NUM_ENGINES, bit = 1 ∨ bit = 0 ↔ (3 : U32).getLsbD bit = true := by
    decide
  cases src with
  | user bit =>
    refine ⟨fun hmem => ?_, fun hreq => by simp [(huser bit hreq.1).mpr hreq.2]⟩
    obtain rfl : bit = 0 := by simpa using hmem
    exact ⟨by decide, by decide⟩
  | channel bit =>
    refine ⟨fun hmem => ?_, fun hreq => by simpa using (hchannel bit hreq.1).mpr hreq.2⟩
    have hbit : bit = 1 ∨ bit = 0 := by simpa using hmem
    have hlt : bit < MAX_NUM_ENGINES := by
      rw [MAX_NUM_ENGINES, XDMA_CHANNEL_NUM_MAX]
      omega
    exact ⟨hlt, (hchannel bit hlt).mp hbit⟩

theorem msix_agrees_two_engines : ∃ pci t l, probeSetUp msixDevice = .ok (pci, t, l) ∧
    ∀ s, [.channel 1, .user 0, .channel 0].foldl (deliverMsix pci t) s =
      xdmaIsr (engineNumber msixDevice) 3 1 s := by
  have hok : (probeSetUp msixDevice).toOption.isSome = true := by decide
  obtain ⟨⟨pci, t, l⟩, hsome⟩ := Option.isSome_iff_exists.mp hok
  have hprobe := Except.toOption_eq_some hsome
  obtain ⟨-, hvector, -⟩ := probeSetUp_ok rfl rfl hprobe
  have hapart : pci.LinesApart := fun i _ j _ heq => by simpa [hvector] using heq
  exact ⟨pci, t, l, hprobe, msix_agrees msixDevice pci t l _ _ rfl rfl hprobe hapart 3 1 _
    requested_msixDevice⟩

end Wimi
