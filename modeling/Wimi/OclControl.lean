import Wimi.Bitstream

/-!
# Resets and clocks of the OCL region

The calls of the user that freeze the AXI gate : the downloads of `bitstream_ioctl`, the reset of
the OCL region and the scaling of its clock, and what they are made of. What the registers read is
given in advance.
-/

open Traced

namespace Wimi

/-! ## Compute units -/

/-- What `compute_unit_busy` reads. -/
structure UnitBusyEnv where
  gate : U32
  units : ℕ → U32

/-- `compute_unit_busy`. -/
def computeUnitBusy (e : UnitBusyEnv) : Traced Access U32 := do
  emit (.read .AXI_GATE_READ e.gate)
  if e.gate ≠ 0x3 then return 0 else
    emitAll ((List.range 16).map fun i => .read (.OCL_CU_CTRL i) (e.units i))
    return (List.range 16).foldl
      (fun result i => if e.units i = 0x1 then result ||| e.units i <<< i else result) 0

/-- What the registers answer in `reset_ocl_ioctl`. -/
structure ResetEnv where
  before : UnitBusyEnv
  after : UnitBusyEnv

/-- `reset_ocl_ioctl`. -/
def resetOclIoctl (e : ResetEnv) (d : BitDev) : Traced Access (ℤ × BitDev) := do
  if (← computeUnitBusy e.before) = 0 then return (0, d) else
    let d ← freezeAXIGate d
    let d ← freeAXIGate d
    return (if (← computeUnitBusy e.after) ≠ 0 then -Errno.ebusy.code else 0, d)

/-! ## The clock -/

/-- An `xdma_ocl_clockwiz`. -/
structure OclClockwiz where
  ocl : U32
  divide : U32
  divideFrac : U32

def frequencyTable : List OclClockwiz :=
  [⟨25, 0x28, 0x0⟩, ⟨50, 0x14, 0x0⟩, ⟨75, 0xd, 0x14d⟩, ⟨100, 0xa, 0x0⟩, ⟨125, 0x8, 0x0⟩,
    ⟨150, 0x6, 0x29a⟩, ⟨175, 0x5, 0x2ca⟩, ⟨200, 0x5, 0x0⟩, ⟨225, 0x4, 0x1bc⟩, ⟨250, 0x4, 0x0⟩,
    ⟨275, 0x3, 0x27c⟩, ⟨300, 0x3, 0x14d⟩, ⟨325, 0x3, 0x4c⟩, ⟨350, 0x2, 0x359⟩, ⟨375, 0x2, 0x29a⟩,
    ⟨400, 0x2, 0x1f4⟩]

/-- `frequency_table[0].ocl`. -/
def lowestFreq : U32 := (frequencyTable.head (List.cons_ne_nil _ _)).ocl

/-- What `get_ocl_frequency` reads. -/
structure FrequencyEnv where
  status : U32
  config0 : U32
  config2 : U32

/-- `get_ocl_frequency`, for what it reads. The caller does not look at the frequency. -/
def getOclFrequency (e : FrequencyEnv) : Traced Access Unit := do
  emit (.read .OCL_CLKWIZ_STATUS e.status)
  if e.status &&& 1 = 0 then return () else
    emitAll [.read (.OCL_CLKWIZ_CONFIG 0) e.config0, .read (.OCL_CLKWIZ_CONFIG 2) e.config2]

/-- What the kernel and the clocking wizard answer in `ocl_freqscaling_ioctl`. -/
structure FreqscalingEnv where
  argLeft : ℕ
  oclTargetFreq : U32
  ultrascale : Bool
  status : U32
  units : UnitBusyEnv
  before : FrequencyEnv
  config0 : U32
  config2 : U32
  ready : U32
  locked : ℕ → U32
  after : FrequencyEnv

/-- The word for `OCL_CLKWIZ_CONFIG(2)`. -/
def divideConfig (row : OclClockwiz) : U32 :=
  let config := row.divideFrac <<< 8
  let config := if config ≠ 0 then config &&& 0x1 <<< 18 else config
  config ||| row.divide

/-- The clock is set for `row`, and waited for. Its loop reads the status 1000 times, and the last
value counts. -/
def setClock (e : FreqscalingEnv) (row : OclClockwiz) : Traced Access ℤ := do
  emitAll [.write (.OCL_CLKWIZ_CONFIG 0) (if e.ultrascale then 0x04000501 else 0x04000a01),
    .write (.OCL_CLKWIZ_CONFIG 2) (divideConfig row),
    .write (.OCL_CLKWIZ_CONFIG 23) 0x7, .write (.OCL_CLKWIZ_CONFIG 23) 0x2]
  emitAll ((List.range 1000).map fun i => .read .OCL_CLKWIZ_STATUS (e.locked i))
  if e.locked 999 ≠ 1 then
    emitAll [.write (.OCL_CLKWIZ_CONFIG 23) 0x4, .write (.OCL_CLKWIZ_CONFIG 23) 0x0]
    return -Errno.einval.code
  else return 0

/-- `ocl_freqscaling_ioctl` between the freeze of the gate and `done`. -/
def scaleFrozen (e : FreqscalingEnv) (row : OclClockwiz) : Traced Access ℤ := do
  emitAll [.read (.OCL_CLKWIZ_CONFIG 0) e.config0, .read (.OCL_CLKWIZ_CONFIG 2) e.config2,
    .read .OCL_CLKWIZ_STATUS e.ready]
  if e.ready ≠ 1 then return -Errno.ebusy.code else setClock e row

/-- The row of `frequency_table` that `ocl_freqscaling_ioctl` looks up. -/
def frequencyRow (oclTargetFreq : U32) : Option OclClockwiz :=
  frequencyTable[oclTargetFreq.toNat / lowestFreq.toNat - 1]?

/-- A frequency that is let through has its row. -/
theorem frequencyRow_isSome {f : U32} (h : ¬(f > 250 ∨ f < lowestFreq)) :
    (frequencyRow f).isSome := by
  have hlt : f.toNat / lowestFreq.toNat - 1 < frequencyTable.length := by
    have hle : f.toNat ≤ 250 := BitVec.not_lt.mp (not_or.mp h).1
    rw [show lowestFreq.toNat = 25 from rfl, show frequencyTable.length = 16 from rfl]
    omega
  rw [frequencyRow, List.getElem?_eq_getElem hlt, Option.isSome_some]

/-- `ocl_freqscaling_ioctl`. -/
def oclFreqscalingIoctl (e : FreqscalingEnv) (d : BitDev) : Traced Access (ℤ × BitDev) :=
  if e.argLeft ≠ 0 then pure (-EFAULT, d) else do
    emit (.read .OCL_CLKWIZ_STATUS e.status)
    if e.status &&& 0x1 = 0 then return (-Errno.ebusy.code, d) else
      if (← computeUnitBusy e.units) ≠ 0 then return (-Errno.ebusy.code, d) else
        if h : e.oclTargetFreq > 250 ∨ e.oclTargetFreq < lowestFreq then
          return (-Errno.einval.code, d)
        else
          getOclFrequency e.before
          let d ← freezeAXIGate d
          let err ← scaleFrozen e ((frequencyRow e.oclTargetFreq).get (frequencyRow_isSome h))
          getOclFrequency e.after
          let d ← freeAXIGate d
          return (err, d)

/-! ## The calls -/

/-- A call of `char_ctrl_ioctl` that comes to the gate. -/
inductive GateCall
  | download (e : BitstreamIoctlEnv) (cmd : DownloadCmd) (c : Container)
  | reset (e : ResetEnv)
  | freqscaling (e : FreqscalingEnv)

def GateCall.run (d : BitDev) : GateCall → Traced Access (ℤ × BitDev)
  | .download e cmd c => bitstreamIoctl e cmd c d
  | .reset e => resetOclIoctl e d
  | .freqscaling e => oclFreqscalingIoctl e d

end Wimi
