import Wimi.Kernel
import Wimi.Lib.Ledger

/-!
# Probing a device

`probe` with all it calls, as far as it acquires resources and takes an instance number, and the
ladder of its error exits. What the kernel and the device answer is a `ProbeEnv`. The ledger
says what is held of the kernel.

The steps are given over the parts of the `xdma_dev` they work on : `Pci`, which is set up once,
the `Engines` and the character devices.
-/

open Resources

namespace Wimi

def XDMA_BAR_NUM : ℕ := 6
def XDMA_BAR_SIZE : ℕ := 0x8000
def MAX_XDMA_DEVICES : ℕ := 64
def XDMA_MINOR_BASE : ℕ := 0
def XDMA_MINOR_COUNT : ℕ := 255

/-! ## Resources -/

/-- An engine of a device : its channel, and `dir_from_dev`. -/
abbrev EngineSlot := ℕ × Bool

/-- Where an `xdma_dev` keeps a character device. -/
inductive CharSlot
  | user
  | ctrl
  | events (i : ℕ)
  | sgdma (k : EngineSlot)
  | bypass (k : EngineSlot)
  | bypassBase
  deriving DecidableEq

/-- What `probe` acquires. -/
inductive Resource
  /-- The `xdma_dev`. -/
  | dev
  /-- The device is enabled. -/
  | pciDevice
  | msix
  | msi
  | regions
  | bar (i : ℕ)
  | userIrq (i : ℕ)
  | irqLine
  | engine (k : EngineSlot)
  | engineIrq (k : EngineSlot)
  | writeback (k : EngineSlot)
  /-- The `count` character device numbers of `major` from `minor` on. -/
  | numbers (major : U32) (minor count : ℕ)
  | charDev (c : CharSlot)
  | cdev (c : CharSlot)
  | sysDevice (c : CharSlot)
  deriving DecidableEq

def Resource.isNumbers : Resource → Bool
  | .numbers .. => true
  | _ => false

/-- The engine a resource refers to, as the argument of its handler or in its `xdma_char`. -/
def Resource.engineOf : Resource → Option EngineSlot
  | .engineIrq k => some k
  | .charDev (.sgdma k) | .charDev (.bypass k) => some k
  | _ => none

/-! ## What the kernel and the device answer -/

/-- A kernel call returns 0, or a negative error number. -/
abbrev KernelCall := Option ℕ

def KernelCall.rc : KernelCall → ℤ
  | none => 0
  | some e => -(e + 1)

/-- What `pci_enable_msix` does. -/
inductive EnableMsix
  /-- It fills in the vectors. -/
  | enabled (vectors : ℕ → ℕ) (nonzero : ∀ i, vectors i ≠ 0)
  /-- It returns that only `n + 1` vectors could be had, and enables none. -/
  | fewer (n : ℕ)
  | failed (e : ℕ)

/-- A BAR : its length, whether `pci_iomap` maps it, and whether it has the identifiers
`is_config_bar` looks for. -/
structure BarEnv where
  len : ℕ
  mapped : Bool
  config : Bool

/-- An engine that is present. -/
structure EngineEnv where
  allocated : Bool
  requestIrq : KernelCall
  writeback : Bool

/-- A character device. `chrdevMajor` is the major `alloc_chrdev_region` gives, 0 if it fails. -/
structure CharEnv where
  allocated : Bool
  chrdevMajor : U32
  kobject : KernelCall
  region : KernelCall
  cdevAdd : KernelCall
  device : Bool

/-- A device and the kernel it is probed in. -/
structure ProbeEnv where
  allocated : Bool
  enable : KernelCall
  msixCapable : Bool
  msiCapable : Bool
  enableMsix : EnableMsix
  enableMsi : KernelCall
  requestRegions : KernelCall
  bars : ℕ → BarEnv
  dmaMask64 : Bool
  dmaMask32 : Bool
  pollMode : Bool
  irq : ℕ
  requestIrq : KernelCall
  userIrq : ℕ → KernelCall
  engines : EngineSlot → Option EngineEnv
  chars : CharSlot → CharEnv
  createFile : KernelCall

/-! ## The device -/

/-- The static data of the driver. `accesses` are the indices `dev_present` was accessed at. -/
structure Statics where
  devPresent : ℕ → Bool
  accesses : List ℕ
  major : U32

/-- What an `xdma_dev` knows of its PCI device; an index that is -1 is none. -/
structure Pci where
  msixEnabled : Bool
  msiEnabled : Bool
  vector : ℕ → ℕ
  gotRegions : Bool
  regionsInUse : Bool
  bar : ℕ → Bool
  configBarIdx : Option ℕ
  userBarIdx : Option ℕ
  bypassBarIdx : Option ℕ
  irqLine : Option ℕ

/-- What `engine_create` keeps in an `xdma_engine` to release. -/
structure LroEngine where
  msixIrqLine : ℕ
  pollModeAddrVirt : Bool

/-- The engines of an `xdma_dev`. -/
structure Engines where
  enginesNum : ℕ
  engine : EngineSlot → Option LroEngine

/-- The character devices of an `xdma_dev`, those that are not null, with the major in their
`cdevno`, and the numbers they share. -/
structure Chars where
  major : U32
  instanceNo : ℕ
  char : CharSlot → Option U32

/-- `alloc_dev_instance`. -/
def Pci.alloc : Pci :=
  ⟨false, false, fun _ => 0, false, false, fun _ => false, none, none, none, none⟩

def Engines.alloc : Engines :=
  ⟨0, fun _ => none⟩

def Chars.alloc : Chars :=
  ⟨0, 0, fun _ => none⟩

/-! ## Setting up the PCI device -/

section Pci

variable (env : ProbeEnv)

/-- `probe_scan_for_msi`. It takes the flag whatever the call returned. -/
def probeScanForMsi (pci : Pci) (l : Ledger Resource) : Pci × Ledger Resource × ℤ :=
  if env.msixCapable then
    match env.enableMsix with
    | .enabled vectors _ =>
      ({ pci with msixEnabled := true, vector := vectors }, l.acquire .msix, 0)
    | .fewer n => ({ pci with msixEnabled := true }, l, n + 1)
    | .failed e => ({ pci with msixEnabled := true }, l, -(e + 1))
  else if env.msiCapable then
    match env.enableMsi with
    | none => ({ pci with msiEnabled := true }, l.acquire .msi, 0)
    | some e => ({ pci with msiEnabled := true }, l, -(e + 1))
  else (pci, l, 0)

/-- `request_regions`. A device whose regions are taken is not to be disabled later. -/
def requestRegions (pci : Pci) (l : Ledger Resource) : Pci × Ledger Resource × ℤ :=
  match env.requestRegions with
  | none => ({ pci with gotRegions := true }, l.acquire .regions, 0)
  | some e => ({ pci with regionsInUse := true }, l, -(e + 1))

/-- `unmap_bars`. -/
def unmapBars (pci : Pci) (l : Ledger Resource) : Pci × Ledger Resource :=
  ({ pci with bar := fun _ => false },
    (List.range XDMA_BAR_NUM).foldl (fun l i => if pci.bar i then l.release (.bar i) else l) l)

/-- `map_single_bar`, which returns the bytes it has mapped. -/
def mapSingleBar (pci : Pci) (l : Ledger Resource) (idx : ℕ) : Pci × Ledger Resource × ℤ :=
  let bar := env.bars idx
  if bar.len = 0 then ({ pci with bar := Function.update pci.bar idx false }, l, 0)
  else if ¬ bar.mapped then ({ pci with bar := Function.update pci.bar idx false }, l, -1)
  else
    ({ pci with bar := Function.update pci.bar idx true }, l.acquire (.bar idx),
      min bar.len INT_MAX)

/-- The loop of `map_bars` : `bar_id_list` and `config_bar_pos` behind it, and none when a BAR
could not be mapped. -/
def mapBarsLoop (pci : Pci) (l : Ledger Resource) (barIdList : List ℕ) (configBarPos : ℕ) :
    List ℕ → Pci × Ledger Resource × Option (List ℕ × ℕ)
  | [] => (pci, l, some (barIdList, configBarPos))
  | i :: is =>
    let (pci, l, barLen) := mapSingleBar env pci l i
    if barLen = 0 then mapBarsLoop pci l barIdList configBarPos is
    else if barLen < 0 then (pci, l, none)
    else if XDMA_BAR_SIZE ≤ barLen ∧ pci.configBarIdx = none ∧ (env.bars i).config then
      mapBarsLoop { pci with configBarIdx := some i } l (barIdList ++ [i]) barIdList.length is
    else mapBarsLoop pci l (barIdList ++ [i]) configBarPos is

/-- `identify_bars`. -/
def identifyBars (pci : Pci) (barIdList : List ℕ) (configBarPos : ℕ) : Pci :=
  match barIdList with
  | [bar0, bar1] =>
    if configBarPos = 0 then { pci with bypassBarIdx := some bar1 }
    else if configBarPos = 1 then { pci with userBarIdx := some bar0 }
    else pci
  | [bar0, _, bar2] =>
    if configBarPos = 1 then { pci with userBarIdx := some bar0, bypassBarIdx := some bar2 }
    else pci
  | _ => pci

/-- `map_bars`. -/
def mapBars (pci : Pci) (l : Ledger Resource) : Pci × Ledger Resource × ℤ :=
  match mapBarsLoop env pci l [] 0 (List.range XDMA_BAR_NUM) with
  | (pci, l, none) =>
    let (pci, l) := unmapBars pci l
    (pci, l, -1)
  | (pci, l, some (barIdList, configBarPos)) =>
    if pci.configBarIdx = none then
      let (pci, l) := unmapBars pci l
      (pci, l, -1)
    else (identifyBars pci barIdList configBarPos, l, 0)

/-- `set_dma_mask`. -/
def setDmaMask : ℤ :=
  if env.dmaMask64 ∨ env.dmaMask32 then 0 else -1

/-- The loop of `msix_irq_setup`, with the lines it has requested, last one first, which it
frees again when one fails. -/
def msixIrqSetup (l : Ledger Resource) (requested : List ℕ) : List ℕ → Ledger Resource × ℤ
  | [] => (l, 0)
  | i :: is =>
    match env.userIrq i with
    | none => msixIrqSetup (l.acquire (.userIrq i)) (i :: requested) is
    | some e => (requested.foldl (fun l i => l.release (.userIrq i)) l, -(e + 1))

/-- `irq_setup`. -/
def irqSetup (pci : Pci) (l : Ledger Resource) : Pci × Ledger Resource × ℤ :=
  if pci.msixEnabled then
    let (l, rc) := msixIrqSetup env l [] (List.range MAX_USER_IRQ)
    (pci, l, rc)
  else
    let pci := { pci with irqLine := some env.irq }
    match env.requestIrq with
    | none => (pci, l.acquire .irqLine, 0)
    | some e => (pci, l, -(e + 1))

/-- `irq_teardown`. -/
def irqTeardown (pci : Pci) (l : Ledger Resource) : Ledger Resource :=
  if pci.msixEnabled then
    (List.range MAX_USER_IRQ).foldl (fun l i => l.release (.userIrq i)) l
  else if pci.irqLine.isSome then l.release .irqLine
  else l

end Pci

/-! ## Engines -/

section Engines

variable (env : ProbeEnv) (pci : Pci)

/-- `engine_msix_teardown`. -/
def engineMsixTeardown (l : Ledger Resource) (k : EngineSlot) (msixIrqLine : ℕ) :
    Ledger Resource :=
  if msixIrqLine ≠ 0 then l.release (.engineIrq k) else l

/-- `engine_create`, of an engine that is present. -/
def createEngine (t : Engines) (l : Ledger Resource) (k : EngineSlot) (e : EngineEnv) :
    Engines × Ledger Resource × Option LroEngine :=
  if ¬ e.allocated then (t, l, none)
  else
    let l := l.acquire (.engine k)
    if pci.msixEnabled ∧ e.requestIrq.isSome then (t, l.release (.engine k), none)
    else
      let msixIrqLine := if pci.msixEnabled then pci.vector (t.enginesNum + MAX_USER_IRQ) else 0
      let l := if pci.msixEnabled then l.acquire (.engineIrq k) else l
      let t := { t with enginesNum := t.enginesNum + 1 }
      if env.pollMode ∧ ¬ e.writeback then
        (t, (engineMsixTeardown l k msixIrqLine).release (.engine k), none)
      else
        (t, if env.pollMode then l.acquire (.writeback k) else l, some ⟨msixIrqLine, env.pollMode⟩)

/-- `probe_for_engine`. -/
def probeForEngine (t : Engines) (l : Ledger Resource) (k : EngineSlot) :
    Engines × Ledger Resource × ℤ :=
  match env.engines k with
  | none => (t, l, 0)
  | some e =>
    let (t, l, engine) := createEngine env pci t l k e
    ({ t with engine := Function.update t.engine k engine }, l, if engine.isSome then 0 else -1)

/-- A loop of `probe_engines`. -/
def probeEnginesLoop (t : Engines) (l : Ledger Resource) :
    List EngineSlot → Engines × Ledger Resource × ℤ
  | [] => (t, l, 0)
  | k :: ks =>
    let (t, l, rc) := probeForEngine env pci t l k
    if rc ≠ 0 then (t, l, rc) else probeEnginesLoop t l ks

/-- `engine_destroy`. -/
def engineDestroy (l : Ledger Resource) (k : EngineSlot) (engine : LroEngine) : Ledger Resource :=
  let l := engineMsixTeardown l k engine.msixIrqLine
  let l := if env.pollMode ∧ engine.pollModeAddrVirt then l.release (.writeback k) else l
  l.release (.engine k)

/-- The engines in the order `remove_engines` goes by them. -/
def engineSlots : List EngineSlot :=
  (List.range XDMA_CHANNEL_NUM_MAX).flatMap fun channel => [(channel, false), (channel, true)]

/-- `remove_engines`. -/
def removeEngines (t : Engines) (l : Ledger Resource) : Ledger Resource :=
  engineSlots.foldl (fun l k =>
    match t.engine k with
    | none => l
    | some engine => engineDestroy env l k engine) l

/-- The engines of one direction. -/
def engineSlotsOf (dirFromDev : Bool) : List EngineSlot :=
  (List.range XDMA_CHANNEL_NUM_MAX).map fun channel => (channel, dirFromDev)

/-- `probe_engines`. Only the first of its loops is unwound. -/
def probeEngines (t : Engines) (l : Ledger Resource) : Engines × Ledger Resource × ℤ :=
  let (t, l, rc) := probeEnginesLoop env pci t l (engineSlotsOf false)
  if rc ≠ 0 then (t, removeEngines env t l, rc)
  else probeEnginesLoop env pci t l (engineSlotsOf true)

end Engines

/-! ## Character devices -/

/-- The index the loop of `create_sg_char` stops at, from `i` on with `left` more to go. -/
def scanPresent (present : ℕ → Bool) : ℕ → ℕ → ℕ
  | 0, i => i
  | left + 1, i => if present i then scanPresent present left (i + 1) else i

/-- `gen_dev_major`, on the module parameter : what is left of it, and the major. -/
def genDevMajor (major chrdevMajor : U32) : U32 × U32 :=
  if major = 0 then (major, chrdevMajor) else (major - 1, major)

/-- The numbers `gen_dev_major` allocates : all minors of a major, if the module parameter has
none left. -/
def allocChrdevRegion (major chrdevMajor : U32) (l : Ledger Resource) : Ledger Resource :=
  if major = 0 ∧ chrdevMajor ≠ 0 then
    l.acquire (.numbers chrdevMajor XDMA_MINOR_BASE XDMA_MINOR_COUNT)
  else l

/-- `gen_dev_minor`. -/
def genDevMinor : CharSlot → ℕ
  | .user => 0
  | .ctrl => 1
  | .events i => 10 + i
  | .sgdma (channel, dirFromDev) => 32 + dirFromDev.toNat * 4 + channel
  | .bypass (channel, dirFromDev) => 64 + dirFromDev.toNat * 4 + channel
  | .bypassBase => 100

/-- `create_sg_char` takes an instance number, if there is one. The loop reads `dev_present` up
to the index it stops at. -/
def newInstance (st : Statics) (t : Chars) (l : Ledger Resource) (c : CharEnv) :
    Statics × Chars × Ledger Resource × Bool :=
  let i := scanPresent st.devPresent MAX_XDMA_DEVICES 0
  let st := { st with accesses := List.range (i + 1) ++ st.accesses }
  if i = MAX_XDMA_DEVICES then (st, t, l, false)
  else
    let (major, selected) := genDevMajor st.major c.chrdevMajor
    (⟨Function.update st.devPresent i true, i :: st.accesses, major⟩,
      { t with major := selected, instanceNo := i }, allocChrdevRegion st.major c.chrdevMajor l,
      true)

/-- `unregister_chrdev_region` gives back numbers that were given as one region. Of any others
it does nothing. -/
def unregisterChrdevRegion (l : Ledger Resource) (major : U32) (minor count : ℕ) :
    Ledger Resource :=
  if .numbers major minor count ∈ l.held then l.release (.numbers major minor count) else l

/-- `create_sg_char`, once it has its numbers. `major` is what is left of the module parameter,
`cdevMajor` the major of the `cdevno`. -/
def registerChar (c : CharEnv) (major cdevMajor : U32) (l : Ledger Resource) (slot : CharSlot) :
    Ledger Resource × Bool :=
  let minor := genDevMinor slot
  if c.kobject.isSome then (l.release (.charDev slot), false)
  else if major ≠ 0 ∧ c.region.isSome then (l.release (.charDev slot), false)
  else
    let l := if major ≠ 0 then l.acquire (.numbers cdevMajor minor 1) else l
    if c.cdevAdd.isSome then
      ((unregisterChrdevRegion l cdevMajor minor XDMA_MINOR_COUNT).release (.charDev slot), false)
    else
      let l := l.acquire (.cdev slot)
      if ¬ c.device then
        let l := l.release (.cdev slot)
        ((unregisterChrdevRegion l cdevMajor minor XDMA_MINOR_COUNT).release (.charDev slot), false)
      else (l.acquire (.sysDevice slot), true)

/-- `create_sg_char`, for the slot it fills; false is a null pointer. -/
def createSgChar (env : ProbeEnv) (st : Statics) (t : Chars) (l : Ledger Resource)
    (slot : CharSlot) : Statics × Chars × Ledger Resource × Bool :=
  let c := env.chars slot
  if ¬ c.allocated then (st, t, l, false)
  else
    let l := l.acquire (.charDev slot)
    let (st, t, l, numbered) := if t.major = 0 then newInstance st t l c else (st, t, l, true)
    if ¬ numbered then (st, t, l.release (.charDev slot), false)
    else
      let (l, created) := registerChar c st.major t.major l slot
      (st, t, l, created)

/-- `destroy_sg_char`. -/
def destroySgChar (l : Ledger Resource) (slot : CharSlot) (cdevMajor : U32) : Ledger Resource :=
  let l := (l.release (.sysDevice slot)).release (.cdev slot)
  (unregisterChrdevRegion l cdevMajor (genDevMinor slot) 1).release (.charDev slot)

/-- The event devices. -/
def eventSlots : List CharSlot :=
  (List.range MAX_USER_IRQ).map CharSlot.events

/-- The slots of a channel. -/
def channelSlots (channel : ℕ) : List CharSlot :=
  [.sgdma (channel, false), .sgdma (channel, true), .bypass (channel, false),
    .bypass (channel, true)]

/-- The slots in the order `destroy_interfaces` goes by them. -/
def charSlots : List CharSlot :=
  ((List.range XDMA_CHANNEL_NUM_MAX).flatMap channelSlots).append
    (.bypassBase :: eventSlots.append [.ctrl, .user])

/-- `destroy_interfaces`. -/
def destroyInterfaces (t : Chars) (l : Ledger Resource) : Ledger Resource :=
  charSlots.foldl (fun l slot =>
    match t.char slot with
    | none => l
    | some cdevMajor => destroySgChar l slot cdevMajor) l

/-- The engines that were created, in the order `create_interfaces` goes by them. -/
def presentSlots (t : Engines) : List EngineSlot :=
  ((engineSlotsOf false).append (engineSlotsOf true)).filter fun k => (t.engine k).isSome

/-- The slots `create_interfaces` fills, in its order, with whether it checks the outcome. -/
def interfaces (pci : Pci) (t : Engines) : List (CharSlot × Bool) :=
  let user : List (CharSlot × Bool) := if pci.userBarIdx.isSome then [(.user, true)] else []
  let events := eventSlots.map fun slot => (slot, false)
  let sgdma := (presentSlots t).map fun k => (CharSlot.sgdma k, true)
  let bypass := (presentSlots t).map fun k => (CharSlot.bypass k, true)
  user.append ((.ctrl, true) :: events.append (sgdma.append
    (if pci.bypassBarIdx.isSome then bypass.append [(.bypassBase, false)] else [])))

/-- `create_interfaces`, from one of its slots on. -/
def createInterfaces (env : ProbeEnv) (st : Statics) (t : Chars) (l : Ledger Resource) :
    List (CharSlot × Bool) → Statics × Chars × Ledger Resource × ℤ
  | [] => (st, t, l, 0)
  | (slot, checked) :: slots =>
    let (st, t, l, created) := createSgChar env st t l slot
    let t := { t with
      char := Function.update t.char slot (if created then some t.major else none) }
    if ¬ created ∧ checked then (st, t, destroyInterfaces t l, -1)
    else createInterfaces env st t l slots

/-! ## The error exits -/

def errEnable (l : Ledger Resource) : Ledger Resource :=
  l.release .dev

def errScanMsi (pci : Pci) (l : Ledger Resource) : Ledger Resource :=
  errEnable (if ¬ pci.regionsInUse then l.release .pciDevice else l)

def errRegions (pci : Pci) (l : Ledger Resource) : Ledger Resource :=
  errScanMsi pci (if pci.msiEnabled then l.release .msi else l)

def errMap (pci : Pci) (l : Ledger Resource) : Ledger Resource :=
  errRegions pci (if pci.gotRegions then l.release .regions else l)

/-- `err_mask` and `err_interrupts`. -/
def errMask (pci : Pci) (l : Ledger Resource) : Ledger Resource :=
  let (pci, l) := unmapBars pci l
  errMap pci l

def errEngines (pci : Pci) (l : Ledger Resource) : Ledger Resource :=
  errMask pci (irqTeardown pci l)

/-- `err_sgdma_cdev` and `err_interfaces`. -/
def errInterfaces (env : ProbeEnv) (pci : Pci) (t : Engines) (l : Ledger Resource) :
    Ledger Resource :=
  errEngines pci (removeEngines env t l)

/-- How `probe` leaves before it comes to `create_interfaces` : what it returns, and what it
leaves behind. -/
structure EarlyExit where
  rc : ℤ
  pci : Pci
  ledger : Ledger Resource

/-- A part of `probe` that goes on, or leaves. -/
abbrev ProbeStage := Except EarlyExit (Pci × Engines × Ledger Resource)

section Stages

variable (env : ProbeEnv)

/-- `probe`, from `irq_setup` to `probe_engines`. -/
def probeIrqs (pci : Pci) (l : Ledger Resource) : ProbeStage :=
  let (pci, l, rc) := irqSetup env pci l
  if rc ≠ 0 then .error ⟨rc, pci, errMask pci l⟩
  else
    let (t, l, rc) := probeEngines env pci .alloc l
    if rc ≠ 0 then .error ⟨rc, pci, errEngines pci l⟩ else .ok (pci, t, l)

/-- `probe`, from `request_regions` to `probe_engines`. -/
def probeRegions (pci : Pci) (l : Ledger Resource) : ProbeStage :=
  let (pci, l, rc) := requestRegions env pci l
  if rc ≠ 0 then .error ⟨rc, pci, errRegions pci l⟩
  else
    let (pci, l, rc) := mapBars env pci l
    if rc ≠ 0 then .error ⟨rc, pci, errMap pci l⟩
    else if setDmaMask env ≠ 0 then .error ⟨setDmaMask env, pci, errMask pci l⟩
    else probeIrqs env pci l

/-- `probe`, up to `probe_engines`. Without memory for the `xdma_dev` it returns 0. -/
def probeSetUp : ProbeStage :=
  let l : Ledger Resource := .empty
  if ¬ env.allocated then .error ⟨0, .alloc, l⟩
  else
    let l := l.acquire .dev
    if env.enable.isSome then .error ⟨env.enable.rc, .alloc, errEnable l⟩
    else
      let (pci, l, rc) := probeScanForMsi env .alloc (l.acquire .pciDevice)
      if rc < 0 then .error ⟨rc, pci, errScanMsi pci l⟩ else probeRegions env pci l

end Stages

/-- What `probe` leaves behind, with what it returns. -/
structure Probed where
  rc : ℤ
  statics : Statics
  pci : Pci
  chars : Chars
  ledger : Ledger Resource

/-- `probe`, from `create_interfaces` on. -/
def probeInterfaces (env : ProbeEnv) (st : Statics) (pci : Pci) (t : Engines)
    (l : Ledger Resource) : Probed :=
  let (st, chars, l, rc) := createInterfaces env st .alloc l (interfaces pci t)
  if rc ≠ 0 then ⟨rc, st, pci, chars, errInterfaces env pci t l⟩
  else if env.createFile.isSome then
    ⟨env.createFile.rc, st, pci, chars, errInterfaces env pci t l⟩
  else ⟨0, st, pci, chars, l⟩

/-- `probe`. -/
def probe (env : ProbeEnv) (st : Statics) : Probed :=
  match probeSetUp env with
  | .error e => ⟨e.rc, st, e.pci, .alloc, e.ledger⟩
  | .ok (pci, t, l) => probeInterfaces env st pci t l

end Wimi
