import Wimi.ProbeUnwind
import Wimi.Lib.Run

/-!
# Instance numbers

Runs of the driver over any devices : those `pci_register_driver` finds are probed, `xdma_init`
clears `dev_present`, and devices come and go.

`instances_kept` : no two devices share an instance number, `dev_present` marks the numbers in
use, and is accessed within its bounds, as long as no device was probed before `dev_present` is
cleared, and a probe that takes a number finds one free, is given a major that is not 0, and
returns 0.
-/

open Machine Resources

namespace Wimi

/-! ## Runs -/

/-- The driver with its devices. `live` are the instance numbers of those that were probed. -/
structure InstanceRun where
  statics : Statics
  live : ℕ → Option ℕ
  initialised : Bool

inductive InstanceStep
  | probe (dev : ℕ) (env : ProbeEnv)
  | remove (dev : ℕ)
  /-- `xdma_init` is back from `pci_register_driver`, and clears `dev_present`. -/
  | clear

namespace InstanceRun

/-- A device that returned 0 for want of memory has no number. -/
def probe (s : InstanceRun) (dev : ℕ) (env : ProbeEnv) : Option InstanceRun :=
  if (s.live dev).isSome then none
  else
    let r := Wimi.probe env s.statics
    some { s with
      statics := r.statics
      live := if r.rc = 0 ∧ env.allocated then
        Function.update s.live dev (some r.chars.instanceNo) else s.live }

def remove (s : InstanceRun) (dev : ℕ) : Option InstanceRun :=
  (s.live dev).map fun i =>
    { s with
      statics := { s.statics with
        devPresent := Function.update s.statics.devPresent i false
        accesses := i :: s.statics.accesses }
      live := Function.update s.live dev none }

def clear (s : InstanceRun) : Option InstanceRun :=
  if s.initialised then none
  else
    some { s with
      statics := { s.statics with
        devPresent := fun i => if i < MAX_XDMA_DEVICES then false else s.statics.devPresent i
        accesses := List.range MAX_XDMA_DEVICES ++ s.statics.accesses }
      initialised := true }

/-- One step; none is a step that is not enabled. -/
def step (s : InstanceRun) : InstanceStep → Option InstanceRun
  | .probe dev env => s.probe dev env
  | .remove dev => s.remove dev
  | .clear => s.clear

/-- The driver is loaded with the module parameter `major`. -/
def start (major : U32) : InstanceRun :=
  ⟨⟨fun _ => false, [], major⟩, fun _ => none, false⟩

theorem step_probe {s : InstanceRun} {dev : ℕ} (h : s.live dev = none) (env : ProbeEnv) :
    s.step (.probe dev env) = some { s with
      statics := (Wimi.probe env s.statics).statics
      live := if (Wimi.probe env s.statics).rc = 0 ∧ env.allocated then
        Function.update s.live dev (some (Wimi.probe env s.statics).chars.instanceNo)
        else s.live } := by
  rw [step, probe, h]
  rfl

end InstanceRun

/-! ## Numbers -/

/-- No two devices share a number, the numbers in use are those that are marked, and
`dev_present` was accessed within its bounds. -/
structure InstancesKept (s : InstanceRun) : Prop where
  distinct : ∀ d d' i, s.live d = some i → s.live d' = some i → d = d'
  bound : ∀ d i, s.live d = some i → i < MAX_XDMA_DEVICES
  marked : ∀ i < MAX_XDMA_DEVICES, s.statics.devPresent i = true ↔ ∃ d, s.live d = some i
  within : ∀ i ∈ s.statics.accesses, i < MAX_XDMA_DEVICES

/-- The character device `create_interfaces` creates first. -/
def firstSlot (pci : Pci) : CharSlot :=
  if pci.userBarIdx.isSome then .user else .ctrl

/-- Nothing `create_sg_char` calls fails. -/
structure CharEnv.Creates (c : CharEnv) (major : U32) : Prop where
  allocated : c.allocated = true
  kobject : c.kobject = none
  region : major = 0 ∨ c.region = none
  cdevAdd : c.cdevAdd = none
  device : c.device = true

/-- A number is free, the major of the device is not 0, and no step fails that `probe` checks. -/
structure NumberKept (env : ProbeEnv) (st : Statics) (pci : Pci) (t : Engines) : Prop where
  free : ∃ i < MAX_XDMA_DEVICES, st.devPresent i = false
  major : st.major ≠ 0 ∨ (env.chars (firstSlot pci)).chrdevMajor ≠ 0
  created : ∀ slot, (slot, true) ∈ interfaces pci t → (env.chars slot).Creates
    (genDevMajor st.major (env.chars (firstSlot pci)).chrdevMajor).1
  file : env.createFile = none

/-- A probe that comes to take a number keeps it, and no device was probed when `dev_present` is
cleared. -/
structure TakesNumbers (s : InstanceRun) (i : InstanceStep) : Prop where
  kept : ∀ dev env pci t l, i = .probe dev env → probeSetUp env = .ok (pci, t, l) →
    (env.chars (firstSlot pci)).allocated = true → NumberKept env s.statics pci t
  unused : i = .clear → ∀ d, s.live d = none

/-! ## Taking a number -/

section Probe

variable {env : ProbeEnv} {st st' : Statics} {pci : Pci} {t : Engines} {c c' : Chars}
  {l l' : Ledger Resource} {rc : ℤ}

/-- The scan stops at the first index that is not marked. -/
theorem scanPresent_spec (present : ℕ → Bool) (left i : ℕ) :
    scanPresent present left i ≤ i + left ∧
      (∀ j, i ≤ j → j < scanPresent present left i → present j = true) ∧
      (scanPresent present left i < i + left →
        present (scanPresent present left i) = false) := by
  induction left generalizing i with
  | zero =>
    exact ⟨le_rfl, fun j hi hj => absurd hj (Nat.not_lt.mpr hi), fun h => absurd h (lt_irrefl _)⟩
  | succ left ih =>
    rw [scanPresent]
    split
    · next hi =>
      obtain ⟨hle, hbelow, hat⟩ := ih (i + 1)
      refine ⟨by omega, fun j hij hj => ?_, fun hlt => hat (by omega)⟩
      rcases eq_or_lt_of_le hij with rfl | hlt
      · exact hi
      · exact hbelow j hlt hj
    · next hi =>
      exact ⟨by omega, fun j hij hj => absurd hj (Nat.not_lt.mpr hij),
        fun _ => Bool.eq_false_iff.mpr hi⟩

/-- A number that was free is marked. -/
structure Marks (st st' : Statics) (i : ℕ) : Prop where
  bound : i < MAX_XDMA_DEVICES
  free : st.devPresent i = false
  present : st'.devPresent = Function.update st.devPresent i true
  accesses : ∀ j ∈ st'.accesses, j ∈ st.accesses ∨ j < MAX_XDMA_DEVICES

/-- The scan finds a number if there is one. -/
theorem scanPresent_lt (hfree : ∃ i < MAX_XDMA_DEVICES, st.devPresent i = false) :
    scanPresent st.devPresent MAX_XDMA_DEVICES 0 < MAX_XDMA_DEVICES := by
  obtain ⟨k, hk, hkfree⟩ := hfree
  obtain ⟨-, hbelow, -⟩ := scanPresent_spec st.devPresent MAX_XDMA_DEVICES 0
  by_contra hge
  have hmarked := hbelow k (Nat.zero_le k) (lt_of_lt_of_le hk (Nat.not_lt.mp hge))
  exact absurd (hmarked.symm.trans hkfree) (by decide)

/-- A number that is free is taken and marked. -/
theorem newInstance_spec {e : CharEnv} {numbered : Bool}
    (hfree : ∃ i < MAX_XDMA_DEVICES, st.devPresent i = false)
    (h : newInstance st c l e = (st', c', l', numbered)) :
    Marks st st' c'.instanceNo ∧ st'.major = (genDevMajor st.major e.chrdevMajor).1 ∧
      c'.major = (genDevMajor st.major e.chrdevMajor).2 ∧ numbered = true := by
  have hlt := scanPresent_lt hfree
  obtain ⟨-, -, hat⟩ := scanPresent_spec st.devPresent MAX_XDMA_DEVICES 0
  rw [zero_add] at hat
  simp only [newInstance, hlt.ne, if_false] at h
  obtain ⟨rfl, rfl, rfl, rfl⟩ := h
  refine ⟨⟨hlt, hat hlt, rfl, fun j hj => ?_⟩, rfl, rfl, rfl⟩
  rcases List.mem_cons.mp hj with rfl | hj
  · exact .inr hlt
  rcases List.mem_append.mp hj with hj | hj
  · exact .inr (lt_of_le_of_lt (Nat.lt_succ_iff.mp (List.mem_range.mp hj)) hlt)
  · exact .inl hj

theorem registerChar_creates {e : CharEnv} {major cdevMajor : U32} {slot : CharSlot}
    (h : e.Creates major) : (registerChar e major cdevMajor l slot).2 = true := by
  have hregion : ¬ (major ≠ 0 ∧ e.region.isSome) := fun ⟨hmajor, hsome⟩ => by
    rw [h.region.resolve_left hmajor] at hsome
    cases hsome
  rw [registerChar, if_neg hregion, h.kobject, h.cdevAdd, h.device]
  rfl

/-- A device that has its numbers keeps them. -/
theorem createSgChar_numbered {slot : CharSlot} {created : Bool} (hmajor : c.major ≠ 0)
    (h : createSgChar env st c l slot = (st', c', l', created)) :
    st' = st ∧ c' = c ∧ ((env.chars slot).Creates st.major → created = true) := by
  unfold createSgChar at h
  simp only [hmajor, if_false] at h
  split at h
  · next halloc =>
    obtain ⟨rfl, rfl, rfl, rfl⟩ := h
    exact ⟨rfl, rfl, fun hcreates => absurd hcreates.allocated halloc⟩
  split at h
  · next hnot => exact absurd trivial hnot
  · obtain ⟨rfl, rfl, rfl, rfl⟩ := h
    exact ⟨rfl, rfl, registerChar_creates⟩

theorem createInterfaces_numbered {slots : List (CharSlot × Bool)} (hmajor : c.major ≠ 0)
    (hcreates : ∀ slot, (slot, true) ∈ slots → (env.chars slot).Creates st.major)
    (h : createInterfaces env st c l slots = (st', c', l', rc)) :
    st' = st ∧ c'.instanceNo = c.instanceNo ∧ rc = 0 := by
  induction slots generalizing c l with
  | nil =>
    obtain ⟨rfl, rfl, rfl, rfl⟩ := h
    exact ⟨rfl, rfl, rfl⟩
  | cons s slots ih =>
    obtain ⟨slot, checked⟩ := s
    rcases hcreate : createSgChar env st c l slot with ⟨st₁, c₁, l₁, created⟩
    obtain ⟨rfl, rfl, hcreated⟩ := createSgChar_numbered hmajor hcreate
    simp only [createInterfaces, hcreate] at h
    split at h
    · next hfail =>
      obtain ⟨hnot, rfl⟩ := hfail
      exact absurd (hcreated (hcreates slot List.mem_cons_self)) hnot
    · have hrest := ih (by exact hmajor)
        (fun slot hslot => hcreates slot (List.mem_cons_of_mem _ hslot)) h
      exact hrest

theorem interfaces_eq (pci : Pci) (t : Engines) :
    ∃ slots, interfaces pci t = (firstSlot pci, true) :: slots := by
  unfold interfaces firstSlot
  split
  · exact ⟨_, rfl⟩
  · exact ⟨_, rfl⟩

/-- The first character device takes a number, unless there is no memory for it. -/
theorem createSgChar_first {slot : CharSlot} {created : Bool}
    (hkept : (env.chars slot).allocated = true →
      (∃ i < MAX_XDMA_DEVICES, st.devPresent i = false) ∧
        (st.major ≠ 0 ∨ (env.chars slot).chrdevMajor ≠ 0) ∧
        (env.chars slot).Creates (genDevMajor st.major (env.chars slot).chrdevMajor).1)
    (h : createSgChar env st .alloc l slot = (st', c', l', created)) :
    ((env.chars slot).allocated = false ∧ st' = st ∧ created = false) ∨
      ((env.chars slot).allocated = true ∧ Marks st st' c'.instanceNo ∧
        st'.major = (genDevMajor st.major (env.chars slot).chrdevMajor).1 ∧ c'.major ≠ 0 ∧
        created = true) := by
  have hmajor : Chars.alloc.major = 0 := rfl
  unfold createSgChar at h
  simp only [hmajor, if_true] at h
  split at h
  · next halloc =>
    obtain ⟨rfl, rfl, rfl, rfl⟩ := h
    exact .inl ⟨Bool.eq_false_iff.mpr halloc, rfl, rfl⟩
  next halloc =>
  obtain ⟨hfree, hgiven, hcreates⟩ := hkept (not_not.mp halloc)
  rcases hnew : newInstance st .alloc (l.acquire (.charDev slot)) (env.chars slot) with
    ⟨st₁, c₁, l₁, numbered⟩
  obtain ⟨hmarks, hst, hc, rfl⟩ := newInstance_spec hfree hnew
  simp only [hnew] at h
  obtain ⟨rfl, rfl, rfl, rfl⟩ := h
  refine .inr ⟨not_not.mp halloc, hmarks, hst, ?_, ?_⟩
  · rw [hc, genDevMajor]
    split
    · next hzero => exact hgiven.resolve_left (not_not.mpr hzero)
    · next hne => exact hne
  · rw [hst]
    exact registerChar_creates hcreates

/-- `create_interfaces` takes a number and returns 0, or leaves the numbers alone and fails. -/
theorem createInterfaces_interfaces_numbers
    (hkept : (env.chars (firstSlot pci)).allocated = true → NumberKept env st pci t)
    (h : createInterfaces env st .alloc l (interfaces pci t) = (st', c', l', rc)) :
    (st' = st ∧ rc ≠ 0) ∨ (rc = 0 ∧ Marks st st' c'.instanceNo ∧ env.createFile = none) := by
  obtain ⟨slots, hslots⟩ := interfaces_eq pci t
  have hfirst : (firstSlot pci, true) ∈ interfaces pci t := by
    rw [hslots]
    exact List.mem_cons_self
  rcases hcreate : createSgChar env st .alloc l (firstSlot pci) with ⟨st₁, c₁, l₁, created⟩
  simp only [hslots, createInterfaces, hcreate] at h
  rcases createSgChar_first (fun halloc => ⟨(hkept halloc).free, (hkept halloc).major,
    (hkept halloc).created _ hfirst⟩) hcreate with
    ⟨-, rfl, rfl⟩ | ⟨halloc, hmarks, hst, hmajor, rfl⟩
  · simp only [Bool.false_eq_true, not_false_eq_true, and_self, if_true] at h
    obtain ⟨rfl, rfl, rfl, rfl⟩ := h
    exact .inl ⟨rfl, by decide⟩
  simp only [not_true_eq_false, false_and, if_false] at h
  obtain ⟨rfl, hinstance, rfl⟩ := createInterfaces_numbered (by exact hmajor)
    (fun slot hslot => by
      rw [hst]
      refine (hkept halloc).created slot ?_
      rw [hslots]
      exact List.mem_cons_of_mem _ hslot) h
  rw [hinstance]
  exact .inr ⟨rfl, hmarks, (hkept halloc).file⟩

/-- `probe` leaves early with an error, but for want of memory. -/
theorem probeRegions_error {e : EarlyExit} (h : probeRegions env pci l = .error e) : e.rc ≠ 0 := by
  unfold probeRegions at h
  rcases hregions : requestRegions env pci l with ⟨pci₁, l₁, rc₁⟩
  simp only [hregions] at h
  split at h
  · next hrc =>
    obtain rfl := Except.error.inj h
    exact hrc
  rcases hbars : mapBars env pci₁ l₁ with ⟨pci₂, l₂, rc₂⟩
  simp only [hbars] at h
  split at h
  · next hrc =>
    obtain rfl := Except.error.inj h
    exact hrc
  split at h
  · next hrc =>
    obtain rfl := Except.error.inj h
    exact hrc
  unfold probeIrqs at h
  rcases hirqs : irqSetup env pci₂ l₂ with ⟨pci₃, l₃, rc₃⟩
  simp only [hirqs] at h
  split at h
  · next hrc =>
    obtain rfl := Except.error.inj h
    exact hrc
  rcases hengines : probeEngines env pci₃ .alloc l₃ with ⟨t₄, l₄, rc₄⟩
  simp only [hengines] at h
  split at h
  · next hrc =>
    obtain rfl := Except.error.inj h
    exact hrc
  · cases h

theorem probeSetUp_error {e : EarlyExit} (h : probeSetUp env = .error e) :
    e.rc = 0 → env.allocated = false := by
  unfold probeSetUp at h
  dsimp only at h
  split at h
  · next halloc => exact fun _ => Bool.eq_false_iff.mpr halloc
  split at h
  · next henable =>
    obtain rfl := Except.error.inj h
    obtain ⟨n, hn⟩ := Option.isSome_iff_exists.mp henable
    intro hrc
    simp only [hn, KernelCall.rc] at hrc
    omega
  rcases hscan : probeScanForMsi env .alloc ((Ledger.empty.acquire .dev).acquire .pciDevice) with
    ⟨pci, l, rc⟩
  simp only [hscan] at h
  split at h
  · next hneg =>
    obtain rfl := Except.error.inj h
    exact fun hrc => absurd hrc hneg.ne
  · exact fun hrc => absurd hrc (probeRegions_error h)

theorem probeSetUp_allocated (h : probeSetUp env = .ok (pci, t, l)) : env.allocated = true := by
  by_contra halloc
  rw [probeSetUp, if_pos halloc] at h
  cases h

/-- A probe takes a number for a device it leaves in place, or leaves the numbers alone. -/
theorem probe_numbers (hkept : ∀ pci t l, probeSetUp env = .ok (pci, t, l) →
    (env.chars (firstSlot pci)).allocated = true → NumberKept env st pci t) :
    ((probe env st).statics = st ∧ ¬ ((probe env st).rc = 0 ∧ env.allocated = true)) ∨
      (((probe env st).rc = 0 ∧ env.allocated = true) ∧
        Marks st (probe env st).statics (probe env st).chars.instanceNo) := by
  unfold probe
  rcases hsetUp : probeSetUp env with e | ⟨pci, t, l⟩
  · refine .inl ⟨rfl, fun ⟨hrc, halloc⟩ => ?_⟩
    exact absurd halloc (Bool.eq_false_iff.mp (probeSetUp_error hsetUp hrc))
  rcases hcreate : createInterfaces env st .alloc l (interfaces pci t) with ⟨st₁, c₁, l₁, rc₁⟩
  simp only [probeInterfaces, hcreate]
  rcases createInterfaces_interfaces_numbers (hkept pci t l hsetUp) hcreate with
    ⟨rfl, hrc⟩ | ⟨rfl, hmarks, hfile⟩
  · rw [if_pos hrc]
    exact .inl ⟨rfl, fun h => hrc h.1⟩
  · rw [if_neg (not_not.mpr rfl), hfile]
    exact .inr ⟨⟨rfl, probeSetUp_allocated hsetUp⟩, hmarks⟩

end Probe

/-! ## Runs keep the numbers -/

section Runs

variable {s s' : InstanceRun} {st' : Statics} {dev i : ℕ}

theorem start_kept (major : U32) : InstancesKept (.start major) where
  distinct _ _ _ h := nomatch h
  bound _ _ h := nomatch h
  marked _ _ := ⟨nofun, nofun⟩
  within _ h := absurd h List.not_mem_nil

/-- A device is given a number that was free. -/
theorem InstancesKept.mark (hs : InstancesKept s) (hdev : s.live dev = none)
    (hmarks : Marks s.statics st' i) :
    InstancesKept { s with statics := st', live := Function.update s.live dev (some i) } := by
  have hunused (d : ℕ) : s.live d ≠ some i := fun hd =>
    Bool.eq_false_iff.mp hmarks.free ((hs.marked i hmarks.bound).mpr ⟨d, hd⟩)
  have hlive (d j : ℕ) : Function.update s.live dev (some i) d = some j ↔
      (d = dev ∧ j = i) ∨ s.live d = some j := by
    by_cases hd : d = dev
    · subst hd
      rw [Function.update_self, hdev]
      simp [eq_comm]
    · rw [Function.update_of_ne hd]
      simp [hd]
  constructor
  · intro d d' j hd hd'
    rcases (hlive d j).mp hd with ⟨hdd, rfl⟩ | hold
    · rcases (hlive d' j).mp hd' with ⟨hdd', -⟩ | hold'
      · exact hdd.trans hdd'.symm
      · exact absurd hold' (hunused d')
    · rcases (hlive d' j).mp hd' with ⟨-, rfl⟩ | hold'
      · exact absurd hold (hunused d)
      · exact hs.distinct d d' j hold hold'
  · intro d j hd
    rcases (hlive d j).mp hd with ⟨-, rfl⟩ | hd
    · exact hmarks.bound
    · exact hs.bound d j hd
  · intro j hj
    simp only [hmarks.present, hlive]
    by_cases hji : j = i
    · subst hji
      rw [Function.update_self]
      exact ⟨fun _ => ⟨dev, .inl ⟨rfl, rfl⟩⟩, fun _ => rfl⟩
    · rw [Function.update_of_ne hji, hs.marked j hj]
      simp [hji]
  · intro j hj
    rcases hmarks.accesses j hj with hj | hj
    · exact hs.within j hj
    · exact hj

/-- The device that had a number gives it back. -/
theorem InstancesKept.unmark (hs : InstancesKept s) (hdev : s.live dev = some i) :
    InstancesKept { s with
      statics := { s.statics with
        devPresent := Function.update s.statics.devPresent i false
        accesses := i :: s.statics.accesses }
      live := Function.update s.live dev none } := by
  have hlive (d j : ℕ) : Function.update s.live dev none d = some j ↔
      d ≠ dev ∧ s.live d = some j := by
    by_cases hd : d = dev
    · subst hd
      simp
    · rw [Function.update_of_ne hd]
      simp [hd]
  constructor
  · exact fun d d' j hd hd' =>
      hs.distinct d d' j ((hlive d j).mp hd).2 ((hlive d' j).mp hd').2
  · exact fun d j hd => hs.bound d j ((hlive d j).mp hd).2
  · intro j hj
    simp only [hlive]
    by_cases hji : j = i
    · subst hji
      rw [Function.update_self]
      refine ⟨fun h => absurd h (by decide), fun ⟨d, hne, hd⟩ => ?_⟩
      exact absurd (hs.distinct d dev j hd hdev) hne
    · rw [Function.update_of_ne hji, hs.marked j hj]
      refine ⟨fun ⟨d, hd⟩ => ⟨d, fun hdd => ?_, hd⟩, fun ⟨d, _, hd⟩ => ⟨d, hd⟩⟩
      rw [hdd, hdev] at hd
      exact hji (Option.some.inj hd).symm
  · intro j hj
    rcases List.mem_cons.mp hj with rfl | hj
    · exact hs.bound dev j hdev
    · exact hs.within j hj

/-- What one step keeps. -/
theorem step_kept {x : InstanceStep} (hs : InstancesKept s) (h : s.step x = some s')
    (hx : TakesNumbers s x) : InstancesKept s' := by
  cases x with
  | probe dev env =>
    obtain ⟨hlive, h⟩ := Option.ite_none_left_eq_some.mp h
    obtain rfl := Option.some.inj h
    have hdev : s.live dev = none := Option.not_isSome_iff_eq_none.mp hlive
    rcases probe_numbers (hx.kept dev env · · · rfl) with ⟨hsame, hnot⟩ | ⟨htakes, hmarks⟩
    · rw [if_neg hnot, hsame]
      exact hs
    · rw [if_pos htakes]
      exact hs.mark hdev hmarks
  | remove dev =>
    obtain ⟨i, hdev, rfl⟩ := Option.map_eq_some_iff.mp h
    exact hs.unmark hdev
  | clear =>
    obtain ⟨-, h⟩ := Option.ite_none_left_eq_some.mp h
    obtain rfl := Option.some.inj h
    have hnone := hx.unused rfl
    refine ⟨hs.distinct, hs.bound, fun i hi => ?_, fun i hi => ?_⟩
    · simp only [hi, if_true, hnone]
      simp
    · rcases List.mem_append.mp hi with hi | hi
      · exact List.mem_range.mp hi
      · exact hs.within i hi

end Runs

/-- No two devices share a number, `dev_present` marks the numbers in use and is accessed within
its bounds, along every run whose probes keep the numbers they take, and in which no device was
probed before `dev_present` is cleared. -/
theorem instances_kept (major : U32) (is : List InstanceStep)
    (h : Along InstanceRun.step (fun s i _ => TakesNumbers s i) (.start major) is) :
    Along InstanceRun.step (fun _ _ s' => InstancesKept s') (.start major) is :=
  along_of_step (fun _ _ _ hs h hx => ⟨step_kept hs h hx, step_kept hs h hx⟩) (start_kept major) h

/-- A device that is plugged in and removed. -/
theorem instances_kept_plugged : Along InstanceRun.step (fun _ _ s' => InstancesKept s') (.start 0)
    [.clear, .probe 0 plainDevice, .remove 0] := by
  have hclear (s : InstanceRun) (h : ∀ d, s.live d = none) : TakesNumbers s .clear :=
    ⟨fun _ _ _ _ _ heq => (nomatch heq), fun _ => h⟩
  have hremove (s : InstanceRun) : TakesNumbers s (.remove 0) :=
    ⟨fun _ _ _ _ _ heq => (nomatch heq), fun heq => nomatch heq⟩
  refine instances_kept 0 _ fun s₁ h₁ => ⟨hclear _ fun _ => rfl, fun s₂ _ =>
    ⟨⟨fun dev env pci t l heq _ _ => ?_, fun heq => (nomatch heq)⟩, fun s₃ _ =>
    ⟨hremove _, trivial⟩⟩⟩
  obtain ⟨rfl, rfl⟩ := InstanceStep.probe.inj heq
  obtain rfl := Option.some.inj h₁
  have hcreates (slot : CharSlot) (major : U32) : (plainDevice.chars slot).Creates major :=
    ⟨rfl, rfl, .inr rfl, rfl, rfl⟩
  have hmajor (slot : CharSlot) : (plainDevice.chars slot).chrdevMajor ≠ 0 :=
    show (250 : U32) ≠ 0 by decide
  exact ⟨⟨0, by decide, by decide⟩, .inr (hmajor _), fun slot _ => hcreates slot _, rfl⟩

/-- A device that is there when the driver is loaded loses its number when `dev_present` is
cleared. -/
theorem not_instances_kept : ¬ ∀ (major : U32) (is : List InstanceStep),
    Along InstanceRun.step (fun _ _ s' => InstancesKept s') (.start major) is := by
  intro h
  obtain ⟨-, hrest⟩ := h 0 [.probe 0 plainDevice, .clear] _ (InstanceRun.step_probe rfl _)
  obtain ⟨hkept, -⟩ := hrest _ rfl
  exact absurd ((hkept.marked 0 (by decide)).mpr ⟨0, by decide⟩) (by decide)

end Wimi
