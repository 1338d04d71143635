import Wimi.Probe

/-!
# What a failed probe leaves behind

`probe_releases` : a probe that returns an error has released everything it acquired, each once,
but for the MSI-X vectors and the character device numbers, and leaves a device enabled whose
regions are in use. Left out are the probes that hit one of the gaps of the ladder : fewer vectors
than were asked for, a C2H engine that fails after another engine was found, and
`device_create_file`.

Each function that acquires is given what the ledger holds more behind it, by the part of the
device it has filled in, and each function that releases undoes that.
-/

open Resources

namespace Wimi

open Ledger

/-! ## What the parts of a device hold -/

/-- A BAR, if it is mapped. -/
def barHeld (pci : Pci) (i : ℕ) : Multiset Resource :=
  if pci.bar i then {.bar i} else 0

/-- The BARs of a device. -/
def barsHeld (pci : Pci) : Multiset Resource :=
  ((List.range XDMA_BAR_NUM).map (barHeld pci)).sum

/-- The lines of user interrupts. -/
def linesHeld (is : List ℕ) : Multiset Resource :=
  (is.map fun i => {.userIrq i}).sum

/-- The lines of `irq_setup`. -/
def irqsHeld (pci : Pci) : Multiset Resource :=
  if pci.msixEnabled then linesHeld (List.range MAX_USER_IRQ)
  else if pci.irqLine.isSome then {.irqLine}
  else 0

/-- What an engine holds : itself, its line and its writeback buffer. -/
def engineHeld (env : ProbeEnv) (k : EngineSlot) (engine : LroEngine) : Multiset Resource :=
  (if env.pollMode ∧ engine.pollModeAddrVirt then {.writeback k} else 0) +
    ((if engine.msixIrqLine ≠ 0 then {.engineIrq k} else 0) + {.engine k})

/-- What a slot of the table of engines holds. -/
def slotHeld (env : ProbeEnv) (t : Engines) (k : EngineSlot) : Multiset Resource :=
  (t.engine k).elim 0 (engineHeld env k)

/-- The engines of a device. -/
def enginesHeld (env : ProbeEnv) (t : Engines) : Multiset Resource :=
  (engineSlots.map (slotHeld env t)).sum

/-- A character device. -/
def charHeld (slot : CharSlot) : Multiset Resource :=
  {.sysDevice slot} + ({.cdev slot} + {.charDev slot})

/-- A character device, if it is there. -/
def charSlotHeld (t : Chars) (slot : CharSlot) : Multiset Resource :=
  (t.char slot).elim 0 fun _ => charHeld slot

/-- The character devices of a device. -/
def charsHeld (t : Chars) : Multiset Resource :=
  (charSlots.map (charSlotHeld t)).sum

/-- The ledger of all but the character device numbers. -/
def unnumbered (l : Ledger Resource) : Ledger Resource :=
  l.only (¬ ·.isNumbers)

theorem isNumbers_of_mem_ite {P : Prop} [Decidable P] {r x : Resource} (hr : r.isNumbers = false)
    (hx : x ∈ if P then ({r} : Multiset Resource) else 0) : x.isNumbers = false := by
  split at hx
  · rwa [Multiset.mem_singleton.mp hx]
  · cases hx

section Functions

variable {env : ProbeEnv} {pci pci' : Pci} {l l' : Ledger Resource} {rc : ℤ}

/-! ## BARs -/

/-- `unmap_bars` unmaps what is mapped. -/
theorem unmapBars_plus : unmapBars pci (l.plus (barsHeld pci)) =
    ({ pci with bar := fun _ => false }, l) := by
  refine Prod.ext rfl ?_
  refine foldl_release (t := barHeld pci) (fun l i => ?_) _ l
  by_cases hi : pci.bar i = true <;> simp [barHeld, hi]

/-- The settings `map_bars` and `irq_setup` leave alone. -/
structure SamePci (pci pci' : Pci) : Prop where
  msixEnabled : pci'.msixEnabled = pci.msixEnabled
  msiEnabled : pci'.msiEnabled = pci.msiEnabled
  vector : pci'.vector = pci.vector
  gotRegions : pci'.gotRegions = pci.gotRegions
  regionsInUse : pci'.regionsInUse = pci.regionsInUse

@[refl] theorem SamePci.refl (pci : Pci) : SamePci pci pci :=
  ⟨rfl, rfl, rfl, rfl, rfl⟩

theorem SamePci.trans {pci₁ pci₂ pci₃ : Pci} (h : SamePci pci₁ pci₂) (h' : SamePci pci₂ pci₃) :
    SamePci pci₁ pci₃ :=
  ⟨h'.msixEnabled.trans h.msixEnabled, h'.msiEnabled.trans h.msiEnabled,
    h'.vector.trans h.vector, h'.gotRegions.trans h.gotRegions,
    h'.regionsInUse.trans h.regionsInUse⟩

/-- `map_single_bar` holds the BAR it has mapped. -/
theorem mapSingleBar_spec {i : ℕ} {barLen : ℤ} (hi : i < XDMA_BAR_NUM) (hfree : pci.bar i = false)
    (h : mapSingleBar env pci (l.plus (barsHeld pci)) i = (pci', l', barLen)) :
    l' = l.plus (barsHeld pci') ∧ SamePci pci pci' ∧ ∀ j ≠ i, pci'.bar j = pci.bar j := by
  have hother (b : Bool) : ∀ j ≠ i, Function.update pci.bar i b j = pci.bar j :=
    fun j hj => Function.update_of_ne hj b pci.bar
  have hsame : Function.update pci.bar i false = pci.bar := by
    rw [← hfree, Function.update_eq_self]
  unfold mapSingleBar at h
  dsimp only at h
  split at h
  · obtain ⟨rfl, rfl, -⟩ := h
    exact ⟨by rw [hsame], ⟨rfl, rfl, rfl, rfl, rfl⟩, hother false⟩
  split at h
  · obtain ⟨rfl, rfl, -⟩ := h
    exact ⟨by rw [hsame], ⟨rfl, rfl, rfl, rfl, rfl⟩, hother false⟩
  · obtain ⟨rfl, rfl, -⟩ := h
    refine ⟨?_, ⟨rfl, rfl, rfl, rfl, rfl⟩, hother true⟩
    have hnew : barHeld { pci with bar := Function.update pci.bar i true } =
        Function.update (barHeld pci) i {.bar i} := by
      funext j
      rcases eq_or_ne j i with rfl | hne
      · simp [barHeld]
      · simp [barHeld, hne]
    rw [acquire_eq, plus_plus, barsHeld, barsHeld, hnew, sum_map_update List.nodup_range
      (List.mem_range.mpr hi) (if_neg (by simp [hfree]))]

theorem mapBarsLoop_spec {is barIdList : List ℕ} {pos : ℕ} {r : Option (List ℕ × ℕ)}
    (his : ∀ i ∈ is, i < XDMA_BAR_NUM ∧ pci.bar i = false) (hnodup : is.Nodup)
    (h : mapBarsLoop env pci (l.plus (barsHeld pci)) barIdList pos is = (pci', l', r)) :
    l' = l.plus (barsHeld pci') ∧ SamePci pci pci' := by
  induction is generalizing pci barIdList pos with
  | nil =>
    obtain ⟨rfl, rfl, -⟩ := h
    exact ⟨rfl, .refl _⟩
  | cons i is ih =>
    obtain ⟨hi, hnodup⟩ := List.nodup_cons.mp hnodup
    obtain ⟨hlt, hfree⟩ := his i List.mem_cons_self
    rcases hsingle : mapSingleBar env pci (l.plus (barsHeld pci)) i with ⟨pci₁, l₁, barLen⟩
    obtain ⟨rfl, hpci, hother⟩ := mapSingleBar_spec hlt hfree hsingle
    have his₁ : ∀ j ∈ is, j < XDMA_BAR_NUM ∧ pci₁.bar j = false := fun j hj => by
      rw [hother j (ne_of_mem_of_not_mem hj hi)]
      exact his j (List.mem_cons_of_mem i hj)
    simp only [mapBarsLoop, hsingle] at h
    split at h
    · obtain ⟨hl, hrest⟩ := ih his₁ hnodup h
      exact ⟨hl, hpci.trans hrest⟩
    split at h
    · obtain ⟨rfl, rfl, -⟩ := h
      exact ⟨rfl, hpci⟩
    split at h
    · have hconfig : SamePci pci₁ { pci₁ with configBarIdx := some i } :=
        ⟨rfl, rfl, rfl, rfl, rfl⟩
      have his₂ : ∀ j ∈ is, j < XDMA_BAR_NUM ∧
          ({ pci₁ with configBarIdx := some i } : Pci).bar j = false := his₁
      obtain ⟨hl, hrest⟩ := ih his₂ hnodup h
      exact ⟨hl, hpci.trans (hconfig.trans hrest)⟩
    · obtain ⟨hl, hrest⟩ := ih his₁ hnodup h
      exact ⟨hl, hpci.trans hrest⟩

theorem identifyBars_same (pci : Pci) (barIdList : List ℕ) (pos : ℕ) :
    SamePci pci (identifyBars pci barIdList pos) ∧
      barsHeld (identifyBars pci barIdList pos) = barsHeld pci := by
  unfold identifyBars
  split
  · split
    · exact ⟨⟨rfl, rfl, rfl, rfl, rfl⟩, rfl⟩
    split
    · exact ⟨⟨rfl, rfl, rfl, rfl, rfl⟩, rfl⟩
    · exact ⟨.refl _, rfl⟩
  · split
    · exact ⟨⟨rfl, rfl, rfl, rfl, rfl⟩, rfl⟩
    · exact ⟨.refl _, rfl⟩
  · exact ⟨.refl _, rfl⟩

/-- `map_bars` holds the BARs it has mapped, and none when it fails. -/
theorem mapBars_spec (hbar : ∀ i, pci.bar i = false) (h : mapBars env pci l = (pci', l', rc)) :
    SamePci pci pci' ∧ (rc ≠ 0 → l' = l) ∧ (rc = 0 → l' = l.plus (barsHeld pci')) := by
  have hnone : barsHeld pci = 0 := by
    have hzero : barHeld pci = fun _ => 0 := funext fun i => if_neg (by simp [hbar i])
    rw [barsHeld, hzero, List.sum_map_zero]
  have hstart : l = l.plus (barsHeld pci) := by rw [hnone, plus_zero]
  rw [hstart] at h
  unfold mapBars at h
  rcases hloop : mapBarsLoop env pci (l.plus (barsHeld pci)) [] 0 (List.range XDMA_BAR_NUM) with
    ⟨pci₁, l₁, r⟩
  obtain ⟨rfl, hpci⟩ := mapBarsLoop_spec
    (fun i hi => ⟨List.mem_range.mp hi, hbar i⟩) List.nodup_range hloop
  have hunmap : SamePci pci { pci₁ with bar := fun _ => false } :=
    hpci.trans ⟨rfl, rfl, rfl, rfl, rfl⟩
  rw [hloop] at h
  rcases r with _ | ⟨barIdList, pos⟩
  · simp only [unmapBars_plus] at h
    obtain ⟨rfl, rfl, rfl⟩ := h
    exact ⟨hunmap, fun _ => rfl, nofun⟩
  · dsimp only at h
    split at h
    · rw [unmapBars_plus] at h
      obtain ⟨rfl, rfl, rfl⟩ := h
      exact ⟨hunmap, fun _ => rfl, nofun⟩
    · obtain ⟨rfl, rfl, rfl⟩ := h
      obtain ⟨hsame, hheld⟩ := identifyBars_same pci₁ barIdList pos
      exact ⟨hpci.trans hsame, fun hne => absurd rfl hne, fun _ => by rw [hheld]⟩

/-! ## Interrupt lines -/

theorem linesHeld_cons (i : ℕ) (is : List ℕ) :
    linesHeld (i :: is) = {Resource.userIrq i} + linesHeld is := by
  rw [linesHeld, List.map_cons, List.sum_cons, ← linesHeld]

theorem foldl_release_lines (is : List ℕ) :
    is.foldl (fun l i => l.release (.userIrq i)) (l.plus (linesHeld is)) = l :=
  foldl_release (t := fun i => {Resource.userIrq i}) (fun _ _ => release_plus) is l

/-- `msix_irq_setup` holds the lines it was to request besides those it had, and none of either
when it fails. -/
theorem msixIrqSetup_spec (requested is : List ℕ)
    (h : msixIrqSetup env (l.plus (linesHeld requested)) requested is = (l', rc)) :
    (rc ≠ 0 → l' = l) ∧ (rc = 0 → l' = l.plus (linesHeld is + linesHeld requested)) := by
  induction is generalizing requested with
  | nil =>
    obtain ⟨rfl, rfl⟩ := h
    exact ⟨fun hne => absurd rfl hne, fun _ => by simp [linesHeld]⟩
  | cons i is ih =>
    unfold msixIrqSetup at h
    split at h
    · rw [acquire_eq, plus_plus, ← linesHeld_cons] at h
      refine (ih (i :: requested) h).imp_right fun hok hrc => ?_
      rw [hok hrc, linesHeld_cons, linesHeld_cons, add_left_comm, add_assoc]
    · obtain ⟨rfl, rfl⟩ := h
      exact ⟨fun _ => foldl_release_lines requested, fun hrc => by omega⟩

theorem irqSetup_spec (h : irqSetup env pci l = (pci', l', rc)) :
    SamePci pci pci' ∧ pci'.bar = pci.bar ∧ (rc ≠ 0 → l' = l) ∧
      (rc = 0 → l' = l.plus (irqsHeld pci')) := by
  unfold irqSetup at h
  split at h
  · next hmsix =>
    rcases hloop : msixIrqSetup env l [] (List.range MAX_USER_IRQ) with ⟨l₁, rc₁⟩
    rw [hloop] at h
    obtain ⟨rfl, rfl, rfl⟩ := h
    have hnone : linesHeld [] = 0 := rfl
    rw [← plus_zero (l := l), ← hnone] at hloop
    obtain ⟨hfail, hok⟩ := msixIrqSetup_spec [] _ hloop
    refine ⟨.refl _, rfl, hfail, fun hrc => ?_⟩
    rw [hok hrc, irqsHeld, if_pos hmsix, hnone, add_zero]
  · next hmsix =>
    dsimp only at h
    split at h
    · obtain ⟨rfl, rfl, rfl⟩ := h
      refine ⟨⟨rfl, rfl, rfl, rfl, rfl⟩, rfl, fun hne => absurd rfl hne, fun _ => ?_⟩
      rw [irqsHeld, if_neg hmsix]
      rfl
    · obtain ⟨rfl, rfl, rfl⟩ := h
      exact ⟨⟨rfl, rfl, rfl, rfl, rfl⟩, rfl, fun _ => rfl, fun hrc => by omega⟩

/-- `irq_teardown` frees the lines of `irq_setup`. -/
theorem irqTeardown_plus : irqTeardown pci (l.plus (irqsHeld pci)) = l := by
  unfold irqTeardown irqsHeld
  split
  · exact foldl_release_lines _
  split
  · exact release_plus
  · exact plus_zero

/-! ## Engines -/

variable {t t' : Engines} {k : EngineSlot}

/-- An engine that cannot be created. -/
def EngineEnv.Fails (env : ProbeEnv) (e : EngineEnv) : Prop :=
  e.allocated = false ∨ (env.msixCapable = true ∧ e.requestIrq.isSome) ∨
    (env.pollMode = true ∧ e.writeback = false)

/-- The vectors of an engine are those of MSI-X, if it is used. -/
def Vectored (env : ProbeEnv) (pci : Pci) : Prop :=
  pci.msixEnabled = env.msixCapable ∧ (pci.msixEnabled = true → ∀ i, pci.vector i ≠ 0)

theorem engineMsixTeardown_plus {line : ℕ} :
    engineMsixTeardown (l.plus (if line ≠ 0 then {.engineIrq k} else 0)) k line = l := by
  unfold engineMsixTeardown
  split
  · exact release_plus
  · exact plus_zero

/-- `engine_create` holds what its engine keeps, and nothing when it fails. -/
theorem createEngine_spec {e : EngineEnv} {r : Option LroEngine} (hvec : Vectored env pci)
    (h : createEngine env pci t l k e = (t', l', r)) :
    t'.engine = t.engine ∧ l' = l.plus (r.elim 0 (engineHeld env k)) ∧
      (r = none → e.Fails env) := by
  unfold createEngine at h
  dsimp only at h
  split at h
  · next halloc =>
    obtain ⟨rfl, rfl, rfl⟩ := h
    exact ⟨rfl, plus_zero.symm, fun _ => .inl (Bool.eq_false_iff.mpr halloc)⟩
  split at h
  · next hirq =>
    obtain ⟨rfl, rfl, rfl⟩ := h
    exact ⟨rfl, by simp, fun _ => .inr (.inl ⟨hvec.1.symm.trans hirq.1, hirq.2⟩)⟩
  -- the line is held if and only if it is not 0
  have hline : (if pci.msixEnabled = true then (l.acquire (.engine k)).acquire (.engineIrq k)
        else l.acquire (.engine k)) =
      (l.plus {.engine k}).plus (if (if pci.msixEnabled = true then
        pci.vector (t.enginesNum + MAX_USER_IRQ) else 0) ≠ 0 then {.engineIrq k} else 0) := by
    by_cases hmsix : pci.msixEnabled = true
    · rw [if_pos hmsix, if_pos hmsix, if_pos (hvec.2 hmsix _)]
      rfl
    · rw [if_neg hmsix, if_neg hmsix, if_neg (not_not.mpr rfl), plus_zero]
      rfl
  rw [hline] at h
  split at h
  · next hwb =>
    obtain ⟨rfl, rfl, rfl⟩ := h
    refine ⟨rfl, ?_, fun _ => .inr (.inr ⟨hwb.1, Bool.eq_false_iff.mpr hwb.2⟩)⟩
    rw [engineMsixTeardown_plus, release_plus]
    exact plus_zero.symm
  · obtain ⟨rfl, rfl, rfl⟩ := h
    refine ⟨rfl, ?_, nofun⟩
    rw [Option.elim_some, engineHeld, ← plus_plus, ← plus_plus]
    by_cases hpoll : env.pollMode = true <;> simp [hpoll, acquire_eq]

theorem engineDestroy_plus {engine : LroEngine} :
    engineDestroy env (l.plus (engineHeld env k engine)) k engine = l := by
  rw [engineHeld, add_left_comm, ← plus_plus, ← plus_plus]
  simp only [engineDestroy]
  rw [engineMsixTeardown_plus]
  by_cases hwb : env.pollMode = true ∧ engine.pollModeAddrVirt = true
  · simp [hwb]
  · simp [hwb]

/-- `remove_engines` releases what the engines hold. -/
theorem removeEngines_plus : removeEngines env t (l.plus (enginesHeld env t)) = l := by
  refine foldl_release (t := slotHeld env t) (fun l k => ?_) _ l
  unfold slotHeld
  rcases t.engine k with _ | engine
  · exact plus_zero
  · exact engineDestroy_plus

theorem probeForEngine_spec (hvec : Vectored env pci) (hk : k ∈ engineSlots)
    (hfree : t.engine k = none)
    (h : probeForEngine env pci t (l.plus (enginesHeld env t)) k = (t', l', rc)) :
    l' = l.plus (enginesHeld env t') ∧ (∀ j ≠ k, t'.engine j = t.engine j) ∧
      (env.engines k = none → t'.engine k = none) ∧
      (rc ≠ 0 → t'.engine k = none ∧ ∃ e, env.engines k = some e ∧ e.Fails env) := by
  unfold probeForEngine at h
  split at h
  · obtain ⟨rfl, rfl, rfl⟩ := h
    exact ⟨rfl, fun _ _ => rfl, fun _ => hfree, fun hne => absurd rfl hne⟩
  · next e he =>
    rcases hcreate : createEngine env pci t (l.plus (enginesHeld env t)) k e with ⟨t₁, l₁, r⟩
    obtain ⟨hengine, rfl, hfails⟩ := createEngine_spec hvec hcreate
    rw [hcreate] at h
    obtain ⟨rfl, rfl, rfl⟩ := h
    refine ⟨?_, fun j hj => ?_, fun hnone => ?_, fun hrc => ?_⟩
    · have hnew : slotHeld env { t₁ with engine := Function.update t₁.engine k r } =
          Function.update (slotHeld env t) k (r.elim 0 (engineHeld env k)) := by
        funext j
        rcases eq_or_ne j k with rfl | hne
        · simp [slotHeld]
        · simp [slotHeld, hne, hengine]
      have hzero : slotHeld env t k = 0 := by rw [slotHeld, hfree, Option.elim_none]
      have hsum := sum_map_update (m := r.elim 0 (engineHeld env k)) (by decide) hk hzero
      rw [← hnew] at hsum
      rw [plus_plus]
      exact congrArg l.plus hsum.symm
    · exact (Function.update_of_ne hj _ _).trans (congrFun hengine j)
    · exact absurd (he.symm.trans hnone) (Option.some_ne_none e)
    · obtain rfl : r = none := by
        rcases r with _ | engine
        · rfl
        · exact absurd rfl hrc
      exact ⟨Function.update_self .., e, he, hfails rfl⟩

/-- A loop of `probe_engines` holds what its engines keep. It stops at the first engine that
cannot be created. -/
theorem probeEnginesLoop_spec {ks : List EngineSlot} (hvec : Vectored env pci)
    (hks : ∀ k ∈ ks, k ∈ engineSlots ∧ t.engine k = none) (hnodup : ks.Nodup)
    (h : probeEnginesLoop env pci t (l.plus (enginesHeld env t)) ks = (t', l', rc)) :
    l' = l.plus (enginesHeld env t') ∧ (∀ j ∉ ks, t'.engine j = t.engine j) ∧
      (∀ j, env.engines j = none → t.engine j = none → t'.engine j = none) ∧
      (rc ≠ 0 → ∃ pre k post e, ks = pre ++ k :: post ∧ env.engines k = some e ∧ e.Fails env ∧
        ∀ j ∉ pre, t'.engine j = t.engine j) := by
  induction ks generalizing t with
  | nil =>
    obtain ⟨rfl, rfl, rfl⟩ := h
    exact ⟨rfl, fun _ _ => rfl, fun _ _ h => h, fun hne => absurd rfl hne⟩
  | cons k ks ih =>
    obtain ⟨hk, hnodup⟩ := List.nodup_cons.mp hnodup
    obtain ⟨hslot, hfree⟩ := hks k List.mem_cons_self
    rcases hone : probeForEngine env pci t (l.plus (enginesHeld env t)) k with ⟨t₁, l₁, rc₁⟩
    obtain ⟨rfl, hother, habsent, hfail⟩ := probeForEngine_spec hvec hslot hfree hone
    have habsent₁ : ∀ j, env.engines j = none → t.engine j = none → t₁.engine j = none := by
      intro j hj hfree
      rcases eq_or_ne j k with rfl | hne
      · exact habsent hj
      · rwa [hother j hne]
    simp only [probeEnginesLoop, hone] at h
    split at h
    · next hrc =>
      obtain ⟨rfl, rfl, rfl⟩ := h
      obtain ⟨hself, e, he, hfails⟩ := hfail hrc
      have hkept : ∀ j, t'.engine j = t.engine j := fun j => by
        rcases eq_or_ne j k with rfl | hne
        · rw [hself, hfree]
        · exact hother j hne
      exact ⟨rfl, fun j _ => hkept j, habsent₁,
        fun _ => ⟨[], k, ks, e, rfl, he, hfails, fun j _ => hkept j⟩⟩
    · have hks₁ : ∀ j ∈ ks, j ∈ engineSlots ∧ t₁.engine j = none := fun j hj => by
        rw [hother j (ne_of_mem_of_not_mem hj hk)]
        exact hks j (List.mem_cons_of_mem k hj)
      obtain ⟨hl, hout, habs, hstop⟩ := ih hks₁ hnodup h
      refine ⟨hl, fun j hj => ?_, fun j hj hfree => habs j hj (habsent₁ j hj hfree), fun hrc => ?_⟩
      · rw [hout j fun hmem => hj (List.mem_cons_of_mem k hmem), hother j]
        rintro rfl
        exact hj List.mem_cons_self
      · obtain ⟨pre, k', post, e, rfl, he, hfails, hpre⟩ := hstop hrc
        refine ⟨k :: pre, k', post, e, rfl, he, hfails, fun j hj => ?_⟩
        rw [hpre j fun hmem => hj (List.mem_cons_of_mem k hmem), hother j]
        rintro rfl
        exact hj List.mem_cons_self

/-- Without engines nothing is held. -/
theorem enginesHeld_of_none (h : ∀ k, t.engine k = none) : enginesHeld env t = 0 := by
  have hzero : slotHeld env t = fun _ => 0 :=
    funext fun k => by rw [slotHeld, h k, Option.elim_none]
  exact (congrArg (fun f => (engineSlots.map f).sum) hzero).trans List.sum_map_zero

/-- A C2H engine that cannot be created is the first engine that is found. -/
def C2hFailsFirst (env : ProbeEnv) : Prop :=
  ∀ pre channel post e, engineSlotsOf true = pre ++ (channel, true) :: post →
    env.engines (channel, true) = some e → e.Fails env →
      ∀ k ∈ engineSlotsOf false ++ pre, env.engines k = none

/-- `probe_engines` holds what its engines keep, and nothing when it fails, unless a C2H engine
fails behind another. -/
theorem probeEngines_spec (hvec : Vectored env pci) (hc2h : C2hFailsFirst env)
    (h : probeEngines env pci .alloc l = (t', l', rc)) :
    (rc ≠ 0 → l' = l) ∧ (rc = 0 → l' = l.plus (enginesHeld env t')) := by
  have halloc : enginesHeld env .alloc = 0 := enginesHeld_of_none fun _ => rfl
  have hstart : l = l.plus (enginesHeld env .alloc) := by rw [halloc, plus_zero]
  rw [hstart] at h
  unfold probeEngines at h
  rcases hh2c : probeEnginesLoop env pci .alloc (l.plus (enginesHeld env .alloc))
    (engineSlotsOf false) with ⟨t₁, l₁, rc₁⟩
  obtain ⟨rfl, hout, habsent, -⟩ := probeEnginesLoop_spec hvec
    (fun k hk => ⟨by revert k; decide, rfl⟩) (by decide) hh2c
  rw [hh2c] at h
  dsimp only at h
  split at h
  · next hrc =>
    obtain ⟨rfl, rfl, rfl⟩ := h
    exact ⟨fun _ => removeEngines_plus, fun h0 => absurd h0 hrc⟩
  have hfree : ∀ k ∈ engineSlotsOf true, k ∈ engineSlots ∧ t₁.engine k = none := fun k hk =>
    ⟨by revert k; decide, hout k (by revert k; decide)⟩
  obtain ⟨rfl, -, habsent', hstop⟩ := probeEnginesLoop_spec hvec hfree (by decide) h
  refine ⟨fun hrc => ?_, fun _ => rfl⟩
  -- no engine was found before the one that failed
  obtain ⟨pre, ⟨channel, dir⟩, post, e, hsplit, he, hfails, hpre⟩ := hstop hrc
  have hmem : (channel, dir) ∈ engineSlotsOf true := by
    rw [hsplit]
    exact List.mem_append_right pre List.mem_cons_self
  obtain ⟨c, -, hdir⟩ := List.mem_map.mp hmem
  obtain ⟨-, rfl⟩ := Prod.mk.inj hdir
  have hnone := hc2h pre channel post e hsplit he hfails
  have hnone₁ : ∀ j, t₁.engine j = none := fun j => by
    by_cases hj : j ∈ engineSlotsOf false
    · exact habsent j (hnone j (List.mem_append_left pre hj)) rfl
    · exact hout j hj
  rw [enginesHeld_of_none fun j => ?_, plus_zero]
  by_cases hj : j ∈ pre
  · exact habsent' j (hnone j (List.mem_append_right _ hj)) (hnone₁ j)
  · rw [hpre j hj, hnone₁ j]

/-! ## Character devices -/

variable {st st' : Statics} {c c' : Chars} {slot : CharSlot}

@[simp] theorem unnumbered_acquire {r : Resource} :
    unnumbered (l.acquire r) =
      if r.isNumbers then unnumbered l else (unnumbered l).acquire r := by
  split
  · next hr => exact only_acquire_of_not (not_not.mpr hr)
  · next hr => exact only_acquire hr

theorem unnumbered_release {r : Resource} (hr : r.isNumbers = false) :
    unnumbered (l.release r) = (unnumbered l).release r :=
  only_release (Bool.eq_false_iff.mp hr)

@[simp] theorem unnumbered_unregister {major : U32} {minor count : ℕ} :
    unnumbered (unregisterChrdevRegion l major minor count) = unnumbered l := by
  unfold unregisterChrdevRegion
  split
  · next hmem => exact only_release_of_not (not_not.mpr rfl) hmem
  · rfl

@[simp] theorem unnumbered_allocChrdevRegion {major chrdevMajor : U32} :
    unnumbered (allocChrdevRegion major chrdevMajor l) = unnumbered l := by
  unfold allocChrdevRegion
  split
  · exact unnumbered_acquire
  · rfl

theorem newInstance_char (e : CharEnv) {numbered : Bool}
    (h : newInstance st c l e = (st', c', l', numbered)) :
    c'.char = c.char ∧ unnumbered l' = unnumbered l := by
  unfold newInstance at h
  dsimp only at h
  split at h
  · obtain ⟨rfl, rfl, rfl, rfl⟩ := h
    exact ⟨rfl, rfl⟩
  · obtain ⟨rfl, rfl, rfl, rfl⟩ := h
    exact ⟨rfl, unnumbered_allocChrdevRegion⟩

theorem registerChar_spec {e : CharEnv} {major cdevMajor : U32} {created : Bool}
    {l₀ : Ledger Resource} (hl : unnumbered l = l₀.acquire (.charDev slot))
    (h : registerChar e major cdevMajor l slot = (l', created)) :
    unnumbered l' = if created then l₀.plus (charHeld slot) else l₀ := by
  -- whatever is done with numbers in between
  have hfail (l₁ : Ledger Resource) (hl₁ : unnumbered l₁ = l₀.acquire (.charDev slot)) :
      unnumbered (l₁.release (.charDev slot)) = l₀ := by
    rw [unnumbered_release rfl, hl₁, release_acquire]
  have hregion : unnumbered (if major ≠ 0 then l.acquire (.numbers cdevMajor (genDevMinor slot) 1)
      else l) = l₀.acquire (.charDev slot) := by
    split
    · exact unnumbered_acquire.trans hl
    · exact hl
  unfold registerChar at h
  dsimp only at h
  split at h
  · obtain ⟨rfl, rfl⟩ := h
    exact hfail l hl
  split at h
  · obtain ⟨rfl, rfl⟩ := h
    exact hfail l hl
  split at h
  · obtain ⟨rfl, rfl⟩ := h
    exact hfail _ (unnumbered_unregister.trans hregion)
  split at h
  · obtain ⟨rfl, rfl⟩ := h
    rw [release_acquire]
    exact hfail _ (unnumbered_unregister.trans hregion)
  · obtain ⟨rfl, rfl⟩ := h
    rw [if_pos rfl, charHeld, ← plus_plus, ← plus_plus, unnumbered_acquire, unnumbered_acquire,
      hregion]
    rfl

/-- `create_sg_char` holds the device it creates, and nothing when it fails, but for numbers. -/
theorem createSgChar_spec {created : Bool}
    (h : createSgChar env st c l slot = (st', c', l', created)) :
    c'.char = c.char ∧
      unnumbered l' = if created then (unnumbered l).plus (charHeld slot) else unnumbered l := by
  unfold createSgChar at h
  dsimp only at h
  split at h
  · obtain ⟨rfl, rfl, rfl, rfl⟩ := h
    exact ⟨rfl, rfl⟩
  rcases hnumber : if c.major = 0 then newInstance st c (l.acquire (.charDev slot)) (env.chars slot)
    else (st, c, l.acquire (.charDev slot), true) with ⟨st₁, c₁, l₁, numbered⟩
  have hacquire : unnumbered (l.acquire (.charDev slot)) =
      (unnumbered l).acquire (.charDev slot) := unnumbered_acquire
  obtain ⟨hchar, hl₁⟩ : c₁.char = c.char ∧
      unnumbered l₁ = (unnumbered l).acquire (.charDev slot) := by
    split at hnumber
    · obtain ⟨hchar, hl⟩ := newInstance_char _ hnumber
      exact ⟨hchar, hl.trans hacquire⟩
    · obtain ⟨rfl, rfl, rfl, rfl⟩ := hnumber
      exact ⟨rfl, hacquire⟩
  rw [hnumber] at h
  dsimp only at h
  split at h
  · obtain ⟨rfl, rfl, rfl, rfl⟩ := h
    refine ⟨hchar, ?_⟩
    rw [unnumbered_release rfl, hl₁]
    exact release_acquire
  · rcases hreg : registerChar (env.chars slot) st₁.major c₁.major l₁ slot with ⟨l₂, created₁⟩
    rw [hreg] at h
    obtain ⟨rfl, rfl, rfl, rfl⟩ := h
    exact ⟨hchar, registerChar_spec hl₁ hreg⟩

theorem destroySgChar_spec {cdevMajor : U32} {l₀ : Ledger Resource}
    (h : unnumbered l = l₀.plus (charHeld slot)) :
    unnumbered (destroySgChar l slot cdevMajor) = l₀ := by
  rw [charHeld, ← plus_plus, ← plus_plus] at h
  rw [destroySgChar, unnumbered_release rfl, unnumbered_unregister, unnumbered_release rfl,
    unnumbered_release rfl, h, release_plus, release_plus, release_plus]

/-- `destroy_interfaces` releases what the character devices hold. -/
theorem destroyInterfaces_spec (h : unnumbered l = l'.plus (charsHeld c)) :
    unnumbered (destroyInterfaces c l) = l' := by
  refine foldl_release_view (v := unnumbered) (t := charSlotHeld c) (fun l slot l₀ hl => ?_) _ _ h
  rcases hchar : c.char slot with _ | cdevMajor <;> rw [charSlotHeld, hchar] at hl
  · exact hl.trans plus_zero
  · exact destroySgChar_spec hl

/-- `create_interfaces` holds what its character devices keep, and nothing when it fails, but for
numbers. -/
theorem createInterfaces_spec {slots : List (CharSlot × Bool)} {l₀ : Ledger Resource}
    (hslots : ∀ s ∈ slots.map Prod.fst, s ∈ charSlots ∧ c.char s = none)
    (hnodup : (slots.map Prod.fst).Nodup) (hl : unnumbered l = l₀.plus (charsHeld c))
    (h : createInterfaces env st c l slots = (st', c', l', rc)) (hrc : rc ≠ 0) :
    unnumbered l' = l₀ := by
  induction slots generalizing st c l with
  | nil =>
    obtain ⟨rfl, rfl, rfl, rfl⟩ := h
    exact absurd rfl hrc
  | cons s slots ih =>
    obtain ⟨slot, checked⟩ := s
    obtain ⟨hslot, hnodup⟩ := List.nodup_cons.mp hnodup
    obtain ⟨hmem, hfree⟩ := hslots slot List.mem_cons_self
    rcases hcreate : createSgChar env st c l slot with ⟨st₁, c₁, l₁, created⟩
    obtain ⟨hchar, hl₁⟩ := createSgChar_spec hcreate
    generalize hc₂ : { c₁ with
      char := Function.update c₁.char slot (if created then some c₁.major else none) } = c₂
    have hchar₂ :
        c₂.char = Function.update c.char slot (if created then some c₁.major else none) := by
      rw [← hc₂, ← hchar]
    have hheld : unnumbered l₁ = l₀.plus (charsHeld c₂) := by
      have hnew : charSlotHeld c₂ =
          Function.update (charSlotHeld c) slot (if created then charHeld slot else 0) := by
        funext s
        rcases eq_or_ne s slot with rfl | hne
        · cases created <;> simp [charSlotHeld, hchar₂]
        · simp [charSlotHeld, hne, hchar₂]
      rw [hl₁, hl, charsHeld, charsHeld, hnew, sum_map_update (by decide) hmem
        (by rw [charSlotHeld, hfree, Option.elim_none]), ← plus_plus]
      cases created with
      | true => rfl
      | false => exact plus_zero.symm
    simp only [createInterfaces, hcreate, hc₂] at h
    split at h
    · obtain ⟨rfl, rfl, rfl, rfl⟩ := h
      exact destroyInterfaces_spec hheld
    · refine ih (fun s hs => ?_) hnodup hheld h
      obtain ⟨hs₁, hs₂⟩ := hslots s (List.mem_cons_of_mem slot hs)
      refine ⟨hs₁, ?_⟩
      rw [hchar₂, Function.update_of_ne (ne_of_mem_of_not_mem hs hslot), hs₂]

/-- All that `create_interfaces` can fill. -/
def allInterfaces : List CharSlot :=
  let all := (engineSlotsOf false).append (engineSlotsOf true)
  [CharSlot.user].append (.ctrl :: eventSlots.append ((all.map .sgdma).append
    ((all.map .bypass).append [.bypassBase])))

theorem interfaces_sublist : ((interfaces pci t).map Prod.fst).Sublist allInterfaces := by
  have hfst {f : EngineSlot → CharSlot} {b : Bool} (ks : List EngineSlot) :
      (ks.map fun k => (f k, b)).map Prod.fst = ks.map f := by
    rw [List.map_map]
    rfl
  have hpresent (f : EngineSlot → CharSlot) : ((presentSlots t).map f).Sublist
      (((engineSlotsOf false).append (engineSlotsOf true)).map f) :=
    List.filter_sublist.map f
  have hevents : (eventSlots.map fun slot => (slot, false)).map Prod.fst = eventSlots := by
    rw [List.map_map]
    exact List.map_id _
  simp only [interfaces, allInterfaces, List.append_eq, List.map_append, List.map_cons]
  rw [hevents, hfst]
  refine List.Sublist.append ?_ (.cons_cons _ (.append (.refl _) (.append (hpresent _) ?_)))
  · split
    · exact .refl _
    · exact List.nil_sublist _
  · split
    · rw [List.map_append, hfst]
      exact (hpresent _).append (.refl _)
    · exact List.nil_sublist _

/-- When `create_interfaces` fails, it leaves numbers at most. -/
theorem createInterfaces_interfaces (hl : unnumbered l = l)
    (h : createInterfaces env st .alloc l (interfaces pci t) = (st', c', l', rc)) (hrc : rc ≠ 0) :
    ∃ m : Multiset Resource, (∀ x ∈ m, x.isNumbers) ∧ l' = l.plus m := by
  have halloc : charsHeld .alloc = 0 := by
    have hzero : charSlotHeld .alloc = fun _ => 0 := rfl
    rw [charsHeld, hzero, List.sum_map_zero]
  have hstart : unnumbered l = l.plus (charsHeld .alloc) := by rw [hl, halloc, plus_zero]
  have hall : ∀ s ∈ allInterfaces, s ∈ charSlots := by decide
  have hleft := createInterfaces_spec (fun s hs => ⟨hall s (interfaces_sublist.subset hs), rfl⟩)
    (interfaces_sublist.nodup (by decide)) hstart h hrc
  obtain ⟨m, hm, rfl⟩ := eq_plus_of_only hleft
  exact ⟨m, fun x hx => not_not.mp (hm x hx), rfl⟩

/-! ## The error exits -/

/-- What is held when the interrupts are sorted out. -/
def enabledHeld (pci : Pci) (l : Ledger Resource) : Ledger Resource :=
  ((l.plus {.dev}).plus {.pciDevice}).plus (if pci.msiEnabled then {.msi} else 0)

/-- What is held when the regions are mapped as well. -/
def mappedHeld (pci : Pci) (l : Ledger Resource) : Ledger Resource :=
  ((enabledHeld pci l).plus {.regions}).plus (barsHeld pci)

/-- What a device holds before its character devices are created. -/
def setUpHeld (env : ProbeEnv) (pci : Pci) (t : Engines) : Multiset Resource :=
  enginesHeld env t + (irqsHeld pci + (barsHeld pci + ({.regions} +
    ((if pci.msiEnabled then {.msi} else 0) + ({.pciDevice} + {.dev})))))

theorem plus_setUpHeld : ((mappedHeld pci l).plus (irqsHeld pci)).plus (enginesHeld env t) =
    l.plus (setUpHeld env pci t) := by
  rw [mappedHeld, enabledHeld, setUpHeld]
  simp only [plus_plus]

/-- Those are not numbers. -/
theorem setUpHeld_isNumbers {x : Resource} (hx : x ∈ setUpHeld env pci t) :
    x.isNumbers = false := by
  simp only [setUpHeld, Multiset.mem_add, Multiset.mem_singleton] at hx
  rcases hx with hx | hx | hx | rfl | hx | rfl | rfl
  · obtain ⟨k, -, hx⟩ := mem_sum_map hx
    rcases hk : t.engine k with _ | engine <;> rw [slotHeld, hk] at hx
    · cases hx
    · simp only [Option.elim_some, engineHeld, Multiset.mem_add] at hx
      rcases hx with hx | hx | hx
      · exact isNumbers_of_mem_ite rfl hx
      · exact isNumbers_of_mem_ite rfl hx
      · rw [Multiset.mem_singleton.mp hx]
        rfl
  · unfold irqsHeld at hx
    split at hx
    · obtain ⟨i, -, hx⟩ := mem_sum_map hx
      rw [Multiset.mem_singleton.mp hx]
      rfl
    · exact isNumbers_of_mem_ite rfl hx
  · obtain ⟨i, -, hx⟩ := mem_sum_map hx
    exact isNumbers_of_mem_ite rfl hx
  · rfl
  · exact isNumbers_of_mem_ite rfl hx
  · rfl
  · rfl

theorem errScanMsi_plus (huse : pci.regionsInUse = false) :
    errScanMsi pci ((l.plus {.dev}).plus {.pciDevice}) = l := by
  simp [errScanMsi, errEnable, huse]

theorem errRegions_plus (huse : pci.regionsInUse = false) :
    errRegions pci (enabledHeld pci l) = l := by
  rw [errRegions, enabledHeld]
  split
  · rw [release_plus, errScanMsi_plus huse]
  · rw [plus_zero, errScanMsi_plus huse]

/-- A device whose regions are in use is left enabled. -/
theorem errRegions_inUse (huse : pci.regionsInUse = true) :
    errRegions pci (enabledHeld pci l) = l.plus {.pciDevice} := by
  have hscan : errScanMsi pci ((l.plus {.dev}).plus {.pciDevice}) = l.plus {.pciDevice} := by
    rw [plus_comm]
    simp [errScanMsi, errEnable, huse]
  rw [errRegions, enabledHeld]
  split
  · rw [release_plus, hscan]
  · rw [plus_zero, hscan]

theorem errMap_plus (huse : pci.regionsInUse = false) (hgot : pci.gotRegions = true) :
    errMap pci ((enabledHeld pci l).plus {.regions}) = l := by
  rw [errMap, if_pos hgot, release_plus, errRegions_plus huse]

theorem errMask_plus (huse : pci.regionsInUse = false) (hgot : pci.gotRegions = true) :
    errMask pci (mappedHeld pci l) = l := by
  rw [errMask, mappedHeld, unmapBars_plus]
  exact errMap_plus huse hgot

theorem errEngines_plus (huse : pci.regionsInUse = false) (hgot : pci.gotRegions = true) :
    errEngines pci ((mappedHeld pci l).plus (irqsHeld pci)) = l := by
  rw [errEngines, irqTeardown_plus, errMask_plus huse hgot]

theorem errInterfaces_plus (huse : pci.regionsInUse = false) (hgot : pci.gotRegions = true) :
    errInterfaces env pci t (l.plus (setUpHeld env pci t)) = l := by
  rw [← plus_setUpHeld, errInterfaces, removeEngines_plus, errEngines_plus huse hgot]

/-! ## Probing -/

/-- What is left behind `l` by a probe that returns an error : a device whose regions are in use
is left enabled. -/
def Leaves (l : Ledger Resource) (rc : ℤ) (pci : Pci) (l' : Ledger Resource) : Prop :=
  rc ≠ 0 → l' = l.plus (if pci.regionsInUse then {.pciDevice} else 0)

theorem leaves_self (huse : pci.regionsInUse = false) : Leaves l rc pci l := by
  intro _
  rw [huse]
  exact plus_zero.symm

/-- A stage that leaves has released all behind `l`; one that goes on holds what the device was
set up with. -/
def StageLeaves (env : ProbeEnv) (l : Ledger Resource) : ProbeStage → Prop
  | .error e => Leaves l e.rc e.pci e.ledger
  | .ok (pci, t, l') => pci.regionsInUse = false ∧ pci.gotRegions = true ∧
      l' = l.plus (setUpHeld env pci t)

theorem mappedHeld_congr (h : SamePci pci pci') (hbar : pci'.bar = pci.bar) :
    mappedHeld pci' l = mappedHeld pci l := by
  have hbars : barHeld pci' = barHeld pci := funext fun i => by rw [barHeld, barHeld, hbar]
  rw [mappedHeld, mappedHeld, enabledHeld, enabledHeld, barsHeld, barsHeld, hbars, h.msiEnabled]

theorem probeIrqs_leaves (hc2h : C2hFailsFirst env) (hvec : Vectored env pci)
    (huse : pci.regionsInUse = false) (hgot : pci.gotRegions = true) :
    StageLeaves env l (probeIrqs env pci (mappedHeld pci l)) := by
  rcases hirq : irqSetup env pci (mappedHeld pci l) with ⟨pci₁, l₁, rc₁⟩
  obtain ⟨hpci, hbar, hfail, hok⟩ := irqSetup_spec hirq
  have huse₁ : pci₁.regionsInUse = false := hpci.regionsInUse.trans huse
  have hgot₁ : pci₁.gotRegions = true := hpci.gotRegions.trans hgot
  have hvec₁ : Vectored env pci₁ := by
    rw [Vectored, hpci.msixEnabled, hpci.vector]
    exact hvec
  rw [← mappedHeld_congr hpci hbar] at hfail hok
  simp only [probeIrqs, hirq]
  split
  · next hrc =>
    rw [StageLeaves, hfail hrc, errMask_plus huse₁ hgot₁]
    exact leaves_self huse₁
  next hrc =>
  rw [hok (not_not.mp hrc)]
  rcases hengines : probeEngines env pci₁ .alloc ((mappedHeld pci₁ l).plus (irqsHeld pci₁)) with
    ⟨t, l₂, rc₂⟩
  obtain ⟨hfail₂, hok₂⟩ := probeEngines_spec hvec₁ hc2h hengines
  simp only
  split
  · next hrc₂ =>
    rw [StageLeaves, hfail₂ hrc₂, errEngines_plus huse₁ hgot₁]
    exact leaves_self huse₁
  · next hrc₂ => exact ⟨huse₁, hgot₁, (hok₂ (not_not.mp hrc₂)).trans plus_setUpHeld⟩

theorem probeRegions_leaves (hc2h : C2hFailsFirst env) (hvec : Vectored env pci)
    (huse : pci.regionsInUse = false) (hbar : ∀ i, pci.bar i = false) :
    StageLeaves env l (probeRegions env pci (enabledHeld pci l)) := by
  unfold probeRegions requestRegions
  rcases env.requestRegions with _ | e
  · have hbar₁ : ∀ i, { pci with gotRegions := true }.bar i = false := hbar
    rcases hbars : mapBars env { pci with gotRegions := true }
      ((enabledHeld pci l).acquire .regions) with ⟨pci₁, l₁, rc₁⟩
    obtain ⟨hpci, hfail, hok⟩ := mapBars_spec hbar₁ hbars
    have huse₁ : pci₁.regionsInUse = false := hpci.regionsInUse.trans huse
    have hgot₁ : pci₁.gotRegions = true := hpci.gotRegions
    have hheld : (enabledHeld pci l).acquire .regions = (enabledHeld pci₁ l).plus {.regions} := by
      rw [enabledHeld, enabledHeld, hpci.msiEnabled]
      rfl
    have hvec₁ : Vectored env pci₁ := by
      rw [Vectored, hpci.msixEnabled, hpci.vector]
      exact hvec
    rw [hheld] at hfail hok
    simp only [hbars, ne_eq, not_true_eq_false, if_false]
    split
    · next hrc =>
      rw [StageLeaves, hfail hrc, errMap_plus huse₁ hgot₁]
      exact leaves_self huse₁
    next hrc =>
    rw [hok (not_not.mp hrc)]
    split
    · have hmask : errMask pci₁ (mappedHeld pci₁ l) = l := errMask_plus huse₁ hgot₁
      rw [StageLeaves, ← mappedHeld, hmask]
      exact leaves_self huse₁
    · exact probeIrqs_leaves hc2h hvec₁ huse₁ hgot₁
  · simp only [ne_eq]
    split
    · exact fun _ => errRegions_inUse rfl
    · next hrc => omega

/-- `probe_scan_for_msi` holds what it enables, unless fewer vectors can be had. -/
theorem probeScanForMsi_spec (hvectors : env.msixCapable = true → ∀ n, env.enableMsix ≠ .fewer n)
    (h : probeScanForMsi env .alloc ((l.plus {.dev}).plus {.pciDevice}) = (pci', l', rc)) :
    pci'.regionsInUse = false ∧ (∀ i, pci'.bar i = false) ∧
      (rc < 0 → l' = (l.plus {.dev}).plus {.pciDevice}) ∧
      (¬ rc < 0 → Vectored env pci' ∧
        (l' = enabledHeld pci' l ∨ l' = enabledHeld pci' (l.plus {.msix}))) := by
  unfold probeScanForMsi at h
  split at h
  · next hcapable =>
    split at h
    · next vectors hnonzero _ =>
      obtain ⟨rfl, rfl, rfl⟩ := h
      refine ⟨rfl, fun _ => rfl, fun hrc => absurd hrc (by decide), fun _ => ?_⟩
      refine ⟨⟨hcapable.symm, fun _ => hnonzero⟩, .inr ?_⟩
      calc ((l.plus {.dev}).plus {.pciDevice}).plus {.msix}
        _ = ((l.plus {.dev}).plus {.msix}).plus {.pciDevice} := plus_comm
        _ = ((l.plus {.msix}).plus {.dev}).plus {.pciDevice} := by rw [plus_comm (l := l)]
        _ = _ := plus_zero.symm
    · next n henable => exact absurd henable (hvectors hcapable n)
    · obtain ⟨rfl, rfl, rfl⟩ := h
      exact ⟨rfl, fun _ => rfl, fun _ => rfl, fun hrc => by omega⟩
  next hcapable =>
  have hvec (b : Bool) : Vectored env { Pci.alloc with msiEnabled := b } :=
    ⟨(Bool.eq_false_iff.mpr hcapable).symm, nofun⟩
  split at h
  · split at h
    · obtain ⟨rfl, rfl, rfl⟩ := h
      exact ⟨rfl, fun _ => rfl, fun hrc => absurd hrc (by decide), fun _ => ⟨hvec true, .inl rfl⟩⟩
    · obtain ⟨rfl, rfl, rfl⟩ := h
      exact ⟨rfl, fun _ => rfl, fun _ => rfl, fun hrc => by omega⟩
  · obtain ⟨rfl, rfl, rfl⟩ := h
    refine ⟨rfl, fun _ => rfl, fun hrc => absurd hrc (by decide), fun _ => ⟨hvec false, .inl ?_⟩⟩
    exact plus_zero.symm

/-- Besides, it holds MSI-X vectors at most. -/
theorem probeSetUp_leaves (hvectors : env.msixCapable = true → ∀ n, env.enableMsix ≠ .fewer n)
    (hc2h : C2hFailsFirst env) :
    ∃ m : Multiset Resource, (m = 0 ∨ m = {.msix}) ∧
      StageLeaves env (Ledger.empty.plus m) (probeSetUp env) := by
  have hexit (rc : ℤ) (pci : Pci) (huse : pci.regionsInUse = false) :
      StageLeaves env (Ledger.empty.plus 0) (.error ⟨rc, pci, .empty⟩) := by
    rw [plus_zero]
    exact leaves_self huse
  unfold probeSetUp
  dsimp only
  split
  · exact ⟨0, .inl rfl, hexit _ _ rfl⟩
  split
  · refine ⟨0, .inl rfl, ?_⟩
    rw [errEnable, release_acquire]
    exact hexit _ _ rfl
  rcases hscan : probeScanForMsi env .alloc ((Ledger.empty.acquire .dev).acquire .pciDevice) with
    ⟨pci, l, rc⟩
  obtain ⟨huse, hbar, hfail, hok⟩ := probeScanForMsi_spec (l := .empty) hvectors hscan
  simp only [hscan]
  split
  · next hrc =>
    refine ⟨0, .inl rfl, ?_⟩
    rw [hfail hrc, errScanMsi_plus huse]
    exact hexit _ _ huse
  · next hrc =>
    obtain ⟨hvec, rfl | rfl⟩ := hok hrc
    · refine ⟨0, .inl rfl, ?_⟩
      rw [plus_zero]
      apply probeRegions_leaves hc2h hvec huse hbar
    · refine ⟨{.msix}, .inr rfl, ?_⟩
      apply probeRegions_leaves hc2h hvec huse hbar

/-- No numbers are held before the character devices are created. -/
theorem unnumbered_setUp {m : Multiset Resource} (hm : m = 0 ∨ m = {.msix}) :
    unnumbered ((Ledger.empty.plus m).plus (setUpHeld env pci t)) =
      (Ledger.empty.plus m).plus (setUpHeld env pci t) := by
  refine only_self fun x hx => ?_
  rw [plus_plus, held_empty_plus] at hx
  rcases Multiset.mem_add.mp hx with hx | hx
  · exact Bool.eq_false_iff.mp (setUpHeld_isNumbers hx)
  · rcases hm with rfl | rfl
    · cases hx
    · rw [Multiset.mem_singleton.mp hx]
      exact nofun

/-- What is left behind a failed probe : numbers, the MSI-X vectors, and the device whose regions
are in use. -/
theorem probe_leaves (hvectors : env.msixCapable = true → ∀ n, env.enableMsix ≠ .fewer n)
    (hc2h : C2hFailsFirst env) (hfile : env.createFile = none) :
    ∃ m : Multiset Resource, (∀ x ∈ m, x = .msix ∨ x.isNumbers) ∧ Leaves (Ledger.empty.plus m)
      (probe env st).rc (probe env st).pci (probe env st).ledger := by
  obtain ⟨m, hm, hstage⟩ := probeSetUp_leaves hvectors hc2h
  have hmsix : ∀ x ∈ m, x = .msix ∨ x.isNumbers := fun x hx => by
    rcases hm with rfl | rfl
    · cases hx
    · exact .inl (Multiset.mem_singleton.mp hx)
  unfold probe
  rcases hsetUp : probeSetUp env with e | ⟨pci, t, l⟩ <;> rw [hsetUp] at hstage
  · exact ⟨m, hmsix, hstage⟩
  obtain ⟨huse, hgot, rfl⟩ := hstage
  rcases hcreate : createInterfaces env st .alloc
    ((Ledger.empty.plus m).plus (setUpHeld env pci t)) (interfaces pci t) with ⟨st₁, c₁, l₁, rc₁⟩
  simp only [probeInterfaces, hcreate, hfile]
  split
  · next hrc =>
    obtain ⟨n, hn, rfl⟩ := createInterfaces_interfaces (unnumbered_setUp hm) hcreate hrc
    refine ⟨n + m, fun x hx => ?_, ?_⟩
    · exact (Multiset.mem_add.mp hx).elim (fun hx => .inr (hn x hx)) (hmsix x)
    · rw [plus_comm, errInterfaces_plus huse hgot, plus_plus]
      exact leaves_self huse
  · exact ⟨m, hmsix, fun hrc => absurd rfl hrc⟩

end Functions

/-- Nothing is held, nothing was released that was not held, and nothing refers to an engine that
is gone. -/
structure AllOrNothing (r : Probed) : Prop where
  held : r.ledger.held = 0
  faults : r.ledger.faults = 0
  refers : ∀ x ∈ r.ledger.held, ∀ k ∈ x.engineOf, Resource.engine k ∈ r.ledger.held

/-- But for character device numbers and the MSI-X vectors, nothing is held besides the enabled
device if its regions are in use; nothing was released that was not held, and nothing refers to an
engine that is gone. -/
structure Releases (r : Probed) : Prop where
  held : r.ledger.held.filter (fun x => ¬ (x = .msix ∨ x.isNumbers)) =
    if r.pci.regionsInUse then {.pciDevice} else 0
  faults : r.ledger.faults = 0
  refers : ∀ x ∈ r.ledger.held, ∀ k ∈ x.engineOf, Resource.engine k ∈ r.ledger.held

theorem releases_of_leaves {r : Probed} {m : Multiset Resource}
    (hm : ∀ x ∈ m, x = .msix ∨ x.isNumbers)
    (h : Leaves (Ledger.empty.plus m) r.rc r.pci r.ledger) (hrc : r.rc ≠ 0) : Releases r := by
  have hledger := h hrc
  refine ⟨?_, by rw [hledger]; rfl, fun x hx k hk => ?_⟩
  · have hnone : m.filter (fun x => ¬ (x = .msix ∨ x.isNumbers)) = 0 :=
      Multiset.filter_eq_nil.mpr fun x hx => not_not.mpr (hm x hx)
    rw [hledger, plus_plus, held_empty_plus, Multiset.filter_add, hnone, add_zero]
    split <;> rfl
  · rw [hledger, plus_plus, held_empty_plus] at hx
    have hnone : x.engineOf = none := by
      rcases Multiset.mem_add.mp hx with hx | hx
      · split at hx
        · rw [Multiset.mem_singleton.mp hx]
          rfl
        · cases hx
      · rcases hm x hx with rfl | hnumbers
        · rfl
        · cases x with
          | numbers => rfl
          | _ => cases hnumbers
    rw [hnone] at hk
    cases hk

/-- A probe that returns an error has released everything, but for character device numbers, the
MSI-X vectors and the device whose regions are in use. -/
theorem probe_releases (env : ProbeEnv) (st : Statics)
    (hvectors : env.msixCapable = true → ∀ n, env.enableMsix ≠ .fewer n)
    (hc2h : C2hFailsFirst env) (hfile : env.createFile = none) (hrc : (probe env st).rc ≠ 0) :
    Releases (probe env st) := by
  obtain ⟨m, hm, h⟩ := probe_leaves hvectors hc2h hfile
  exact releases_of_leaves hm h hrc

/-- The static data before the first probe. -/
def Statics.start : Statics :=
  ⟨fun _ => false, [], 0⟩

/-- A device without engines, with one BAR and the legacy interrupt, on which nothing fails. -/
def plainDevice : ProbeEnv where
  allocated := true
  enable := none
  msixCapable := false
  msiCapable := false
  enableMsix := .failed 0
  enableMsi := none
  requestRegions := none
  bars i := if i = 0 then ⟨XDMA_BAR_SIZE, true, true⟩ else ⟨0, false, false⟩
  dmaMask64 := true
  dmaMask32 := true
  pollMode := false
  irq := 11
  requestIrq := none
  userIrq _ := none
  engines _ := none
  chars _ := ⟨true, 250, none, none, none, true⟩
  createFile := none

/-- Its regions are in use. -/
def regionsTaken : ProbeEnv :=
  { plainDevice with requestRegions := some 15 }

/-- The device whose regions are in use is left enabled, and nothing else is. -/
theorem probe_releases_regionsTaken : Releases (probe regionsTaken .start) :=
  probe_releases regionsTaken .start nofun (fun _ _ _ _ _ h => by cases h) rfl (by decide)

/-- A failed probe leaves the device enabled whose regions are in use. -/
theorem not_all_or_nothing : (probe regionsTaken .start).rc ≠ 0 ∧
    ¬ AllOrNothing (probe regionsTaken .start) :=
  ⟨by decide, fun h => absurd h.held (by decide)⟩

end Wimi
