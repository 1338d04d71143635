import Wimi.ContainerBounds
import Wimi.HeaderBounds
import Wimi.Lib.Register
import Wimi.Lib.Run
import Wimi.OclControl

/-!
# The gate and the control register of the MCAP

Every call of the user that freezes the AXI gate frees it, on each of its exits, and every
download through the MCAP goes back to the value of `MCAP_CONTROL` it has found. But a download
parses headers in between, and a string the parser did not get space for, or an empty one, stops
its thread there. No lock is held, so the next call comes to the assertion of a gate that was
never freed.

`gate_restored_iff` : over a sequence of calls that finds the gate open, the assertions of the gate
hold, the gate is open after each call that returns, and `MCAP_CONTROL` is what it was, exactly
when the strings of every header are held (`GateCall.HeadersHeld`), in all calls but the last.
-/

open Machine Register Traced

namespace Wimi

/-- What an access does with `MCAP_CONTROL`. -/
def controlUse : Access → Option (Use U32)
  | .read .MCAP_CONTROL w => some (.read w)
  | .write .MCAP_CONTROL w => some (.write w)
  | _ => none

/-- No assertion of the gate fails, and the gate is not accessed. -/
structure Access.Beside (a : Access) : Prop where
  noBug : a ≠ .gateBug
  gate : a.reg ≠ some .AXI_GATE

/-- Neither is `MCAP_CONTROL`. -/
structure Access.Aside (a : Access) : Prop extends Access.Beside a where
  control : a.reg ≠ some .MCAP_CONTROL

theorem Access.Aside.unused {a : Access} (h : a.Aside) : controlUse a = none := by
  have hreg := h.control
  unfold controlUse
  split
  · exact absurd rfl hreg
  · exact absurd rfl hreg
  · rfl

theorem Access.Aside.of_reg {a : Access} {r : Reg} (ha : a.reg = some r) (hg : r ≠ .AXI_GATE)
    (hr : r ≠ .MCAP_CONTROL) : a.Aside where
  noBug := by
    rintro rfl
    cases ha
  gate h := hg (Option.some.inj (ha.symm.trans h))
  control h := hr (Option.some.inj (ha.symm.trans h))

theorem Access.Hwicap.aside {a : Access} (h : a.Hwicap) : a.Aside := by
  rcases h with ⟨r, hr, ha⟩ | ha
  · exact .of_reg ha (fun h => absurd (h ▸ hr) (by decide)) fun h => absurd (h ▸ hr) (by decide)
  · exact .of_reg ha (by decide) (by decide)

theorem Access.aside_copy {s : Segment} {offset : U64} {n : ℕ} : (Access.copy s offset n).Aside :=
  ⟨⟨nofun, nofun⟩, nofun⟩

/-! ## The flag of the gate -/

/-- `axi_gate_frozen` behind the accesses `es`. It is set next to the write that freezes the gate,
and cleared next to the last of those that free it. -/
def frozenBehind (frozen : Bool) (es : List Access) : Bool :=
  es.foldl (fun frozen a =>
    if a = .write .AXI_GATE 0x0 then true else if a = .write .AXI_GATE 0x3 then false else frozen)
    frozen

theorem frozenBehind_append {frozen : Bool} {es fs : List Access} :
    frozenBehind frozen (es ++ fs) = frozenBehind (frozenBehind frozen es) fs :=
  List.foldl_append

/-- Accesses beside the gate leave its flag. -/
theorem frozenBehind_of_beside {frozen : Bool} {es : List Access}
    (h : ∀ a ∈ es, a.reg ≠ some .AXI_GATE) : frozenBehind frozen es = frozen := by
  induction es with
  | nil => rfl
  | cons a es ih =>
    obtain ⟨ha, hes⟩ := List.forall_mem_cons.mp h
    have hwrite (w : U32) : a ≠ .write .AXI_GATE w := by
      rintro rfl
      exact ha rfl
    rw [frozenBehind, List.foldl_cons, if_neg (hwrite _), if_neg (hwrite _)]
    exact ih hes

/-! ## The gate -/

section Gate

variable {d : BitDev} {body : BitDev → Traced Access (ℤ × BitDev)}

/-- `body`, with the gate frozen. -/
def gated (d : BitDev) (body : BitDev → Traced Access (ℤ × BitDev)) :
    Traced Access (ℤ × BitDev) := do
  let d ← freezeAXIGate d
  let (err, d) ← body d
  let d ← freeAXIGate d
  return (err, d)

/-- A body that leaves the gate alone is run between the accesses to its register. -/
theorem gated_eq (hd : d.axiGateFrozen = false)
    (hbody : ∀ r, (body { d with axiGateFrozen := true }).returned = some r →
      r.2.axiGateFrozen = true) :
    gated d body = emit (.write .AXI_GATE 0x0) >>= fun _ =>
      body { d with axiGateFrozen := true } >>= fun r =>
        emitAll [.write .AXI_GATE 0x2, .write .AXI_GATE 0x0, .write .AXI_GATE 0x2,
          .write .AXI_GATE 0x3] >>= fun _ => pure (r.1, { r.2 with axiGateFrozen := false }) := by
  rw [gated, freezeAXIGate, if_neg (by simp [hd]), bind_assoc]
  refine bind_congr fun _ _ => ?_
  rw [pure_bind]
  refine bind_congr fun r hr => ?_
  have hfrozen : r.2.axiGateFrozen = true := hbody _ hr
  obtain ⟨err, d'⟩ := r
  dsimp only at hfrozen ⊢
  rw [freeAXIGate, if_neg (not_not.mpr hfrozen), bind_assoc]
  rfl

/-- A call that finds the gate open does not fail its assertions and leaves it open, unless it does
not return. -/
structure LeavesOpen (x : Traced Access (ℤ × BitDev)) : Prop where
  noBug : Emits (fun a => a ≠ .gateBug) x
  isOpen : ∀ r, x.returned = some r → r.2.axiGateFrozen = false
  tracks : frozenBehind false x.events = x.returned.isNone

theorem emits_gateWrites {P : Access → Prop} (h : ∀ w, P (.write .AXI_GATE w)) :
    Emits P (emitAll [.write .AXI_GATE 0x2, .write .AXI_GATE 0x0, .write .AXI_GATE 0x2,
      .write .AXI_GATE 0x3]) := by
  intro a ha
  simp only [events_emitAll, List.mem_cons, List.not_mem_nil, or_false] at ha
  rcases ha with rfl | rfl | rfl | rfl <;> exact h _

theorem leavesOpen_gated (hd : d.axiGateFrozen = false)
    (hbeside : Emits Access.Beside (body { d with axiGateFrozen := true }))
    (hbody : ∀ r, (body { d with axiGateFrozen := true }).returned = some r →
      r.2.axiGateFrozen = true) : LeavesOpen (gated d body) := by
  rw [gated_eq hd hbody]
  refine ⟨(Emits.emit nofun).bind fun _ _ => (hbeside.mono fun _ h => h.noBug).bind fun r _ =>
    (emits_gateWrites fun _ => nofun).bind fun _ _ => Emits.pure _, fun r hr => ?_, ?_⟩
  · obtain ⟨-, -, hr⟩ := bind_eq_some.mp hr
    obtain ⟨r', -, hr⟩ := bind_eq_some.mp hr
    exact Option.some.inj hr ▸ rfl
  · have hfrozen : frozenBehind true (body { d with axiGateFrozen := true }).events = true :=
      frozenBehind_of_beside fun a ha => (hbeside a ha).gate
    rw [emit_bind]
    cases hr : (body { d with axiGateFrozen := true }).returned with
    | none =>
      rw [bind_of_stopped hr]
      exact hfrozen
    | some r =>
      rw [bind_of_returned hr]
      change frozenBehind true ((body _).events ++ _) = false
      rw [frozenBehind_append, hfrozen]
      rfl

/-- The gate is freed if the body returns. -/
theorem returned_gated (hd : d.axiGateFrozen = false)
    (hbody : ∀ r, (body { d with axiGateFrozen := true }).returned = some r →
      r.2.axiGateFrozen = true) :
    (gated d body).returned = none ↔ (body { d with axiGateFrozen := true }).returned = none := by
  rw [gated_eq hd hbody, emit_bind]
  cases hr : (body { d with axiGateFrozen := true }).returned with
  | none => rw [bind_of_stopped hr]
  | some r =>
    rw [bind_of_returned hr]
    exact iff_of_false (Option.some_ne_none _) (Option.some_ne_none _)

/-- The gate has nothing to do with `MCAP_CONTROL`. -/
theorem restores_gated {entry : U32} (hd : d.axiGateFrozen = false)
    (hbody : ∀ r, (body { d with axiGateFrozen := true }).returned = some r →
      r.2.axiGateFrozen = true)
    (hrestores : Restores controlUse entry (body { d with axiGateFrozen := true })) :
    Restores controlUse entry (gated d body) := by
  have hwrite (w : U32) : controlUse (.write .AXI_GATE w) = none := rfl
  rw [gated_eq hd hbody]
  refine (restores_of_unused (Emits.emit (hwrite _))).bind fun _ _ => hrestores.bind fun r _ =>
    (restores_of_unused (emits_gateWrites hwrite)).bind fun _ _ => ?_
  exact restores_of_unused (Emits.pure _)

end Gate

/-! ## Calls that leave the MCAP alone -/

section Aside

theorem aside_read {r : Reg} (hg : r ≠ .AXI_GATE) (hr : r ≠ .MCAP_CONTROL) (w : U32) :
    Emits Access.Aside (emit (.read r w)) :=
  Emits.emit (.of_reg rfl hg hr)

theorem aside_copyFromUser (s : Segment) (mem : U64 → Byte) (left : ℕ) (offset : U64) (n : ℕ) :
    Emits Access.Aside (copyFromUser s mem left offset n) :=
  (Emits.emit Access.aside_copy).bind fun _ _ => Emits.pure _

theorem aside_downloadPrimary (e : IcapIoctlEnv) (mem : U64 → Byte) (bitBuf length : U64) :
    Emits Access.Aside (downloadPrimary e mem bitBuf length) := by
  refine Emits.ite (fun _ => Emits.pure _) fun _ =>
    (aside_copyFromUser _ _ _ _ _).bind fun o _ => ?_
  cases o with
  | none => exact Emits.pure _
  | some buffer =>
    exact emits_icapDownload (fun _ ha => ha.aside) fun _ _ _ _ => aside_copyFromUser _ _ _ _ _

theorem aside_stashSecondary (e : BitstreamIoctlEnv) (c : Container) (err : ℤ) (d : BitDev) :
    Emits Access.Aside (stashSecondary e c err d) := by
  refine Emits.ite (fun _ => Emits.pure _) fun _ => Emits.ite (fun _ => Emits.pure _) fun _ =>
    (aside_copyFromUser _ _ _ _ _).bind fun o _ => ?_
  cases o with
  | none => exact Emits.pure _
  | some p => exact Emits.pure _

theorem stashSecondary_gate {e : BitstreamIoctlEnv} {c : Container} {err : ℤ} {d : BitDev}
    {r : ℤ × BitDev} (h : (stashSecondary e c err d).returned = some r) :
    r.2.axiGateFrozen = d.axiGateFrozen := by
  unfold stashSecondary at h
  split at h
  · exact Option.some.inj h ▸ rfl
  split at h
  · exact Option.some.inj h ▸ rfl
  obtain ⟨o, -, h⟩ := bind_eq_some.mp h
  cases o with
  | none => exact Option.some.inj h ▸ rfl
  | some p => exact Option.some.inj h ▸ rfl

theorem aside_computeUnitBusy (e : UnitBusyEnv) : Emits Access.Aside (computeUnitBusy e) := by
  refine (aside_read (by decide) (by decide) _).bind fun _ _ =>
    Emits.ite (fun _ => Emits.pure _) fun _ => Emits.bind (fun a ha => ?_) fun _ _ => Emits.pure _
  obtain ⟨i, -, rfl⟩ := List.mem_map.mp ha
  exact .of_reg rfl nofun nofun

theorem aside_emitAll {es : List Access}
    (h : ∀ a ∈ es, ∃ r, r ≠ Reg.AXI_GATE ∧ r ≠ Reg.MCAP_CONTROL ∧ a.reg = some r) :
    Emits Access.Aside (emitAll es) := by
  intro a ha
  obtain ⟨r, hg, hr, hreg⟩ := h a ha
  exact .of_reg hreg hg hr

theorem aside_getOclFrequency (e : FrequencyEnv) : Emits Access.Aside (getOclFrequency e) :=
  (aside_read (by decide) (by decide) _).bind fun _ _ =>
    Emits.ite (fun _ => Emits.pure _) fun _ => aside_emitAll (by simp [Access.reg])

theorem aside_scaleFrozen (e : FreqscalingEnv) (row : OclClockwiz) :
    Emits Access.Aside (scaleFrozen e row) := by
  refine (aside_emitAll (by simp [Access.reg])).bind fun _ _ =>
    Emits.ite (fun _ => Emits.pure _) fun _ => (aside_emitAll (by simp [Access.reg])).bind
      fun _ _ => (aside_emitAll ?_).bind fun _ _ => Emits.ite (fun _ => ?_) fun _ => Emits.pure _
  · rintro a ha
    obtain ⟨i, -, rfl⟩ := List.mem_map.mp ha
    exact ⟨_, by decide, by decide, rfl⟩
  · exact (aside_emitAll (by simp [Access.reg])).bind fun _ _ => Emits.pure _

theorem returned_computeUnitBusy (e : UnitBusyEnv) : (computeUnitBusy e).returned ≠ none := by
  refine bind_ne_none (Option.some_ne_none _) fun _ => ?_
  split <;> exact Option.some_ne_none _

theorem returned_getOclFrequency (e : FrequencyEnv) : (getOclFrequency e).returned ≠ none := by
  refine bind_ne_none (Option.some_ne_none _) fun _ => ?_
  split <;> exact Option.some_ne_none _

theorem returned_scaleFrozen (e : FreqscalingEnv) (row : OclClockwiz) :
    (scaleFrozen e row).returned ≠ none := by
  refine bind_ne_none (Option.some_ne_none _) fun _ => ?_
  split
  · exact Option.some_ne_none _
  · refine bind_ne_none (Option.some_ne_none _) fun _ =>
      bind_ne_none (Option.some_ne_none _) fun _ => ?_
    split <;> exact Option.some_ne_none _

theorem returned_stashSecondary (e : BitstreamIoctlEnv) (c : Container) (err : ℤ) (d : BitDev) :
    (stashSecondary e c err d).returned ≠ none := by
  obtain ⟨⟨err', d', h, -⟩, -⟩ := stashSecondary_spec e c err d
  rw [h]
  exact Option.some_ne_none _

end Aside

/-! ## Calls -/

/-- What a call does that finds the gate open : it leaves it open, its assertions hold, and
`MCAP_CONTROL` is restored. -/
structure CallSound (x : Traced Access (ℤ × BitDev)) : Prop extends LeavesOpen x where
  restores : ∀ entry, Restores controlUse entry x

section Calls

variable {d : BitDev}

theorem CallSound.of_aside {x : Traced Access (ℤ × BitDev)} (hx : Emits Access.Aside x)
    (hreturned : x.returned ≠ none)
    (hopen : ∀ r, x.returned = some r → r.2.axiGateFrozen = false) : CallSound x where
  noBug := hx.mono fun _ h => h.noBug
  isOpen := hopen
  tracks := by
    rw [frozenBehind_of_beside fun a ha => (hx a ha).gate]
    exact (Option.isNone_eq_false_iff.mpr (Option.isSome_iff_ne_none.mpr hreturned)).symm
  restores _ := restores_of_unused (hx.mono fun _ h => h.unused)

/-- A call goes on once the first part has returned. -/
theorem CallSound.bind {x : Traced Access (ℤ × BitDev)}
    {f : ℤ × BitDev → Traced Access (ℤ × BitDev)} (hx : CallSound x)
    (hf : ∀ r, r.2.axiGateFrozen = false → CallSound (f r)) : CallSound (x >>= f) where
  noBug := hx.noBug.bind fun r hr => (hf r (hx.isOpen r hr)).noBug
  isOpen r hr := by
    obtain ⟨r', hr', hr⟩ := bind_eq_some.mp hr
    exact (hf r' (hx.isOpen r' hr')).isOpen r hr
  tracks := by
    have htracks := hx.tracks
    cases hr : x.returned with
    | none =>
      rw [bind_of_stopped hr]
      rwa [hr] at htracks
    | some r =>
      rw [hr] at htracks
      rw [bind_of_returned hr]
      exact (frozenBehind_append.trans (congrArg (frozenBehind · _) htracks)).trans
        (hf r (hx.isOpen r hr)).tracks
  restores entry := (hx.restores entry).bind fun r hr => (hf r (hx.isOpen r hr)).restores entry

/-- A part that is aside, before a call. -/
theorem CallSound.of_bind {α : Type} {x : Traced Access α} {f : α → Traced Access (ℤ × BitDev)}
    (hx : Emits Access.Aside x) (hreturned : x.returned ≠ none) (hf : ∀ a, CallSound (f a)) :
    CallSound (x >>= f) where
  noBug := (hx.mono fun _ h => h.noBug).bind fun a _ => (hf a).noBug
  isOpen r hr := by
    obtain ⟨a, -, hr⟩ := bind_eq_some.mp hr
    exact (hf a).isOpen r hr
  tracks := by
    obtain ⟨a, ha⟩ := Option.ne_none_iff_exists'.mp hreturned
    rw [bind_of_returned ha]
    exact (frozenBehind_append.trans (congrArg (frozenBehind · _)
      (frozenBehind_of_beside fun a ha => (hx a ha).gate))).trans (hf a).tracks
  restores entry := (restores_of_unused (hx.mono fun _ h => h.unused)).bind
    fun a _ => (hf a).restores entry

theorem CallSound.ite {c : Prop} [Decidable c] {x y : Traced Access (ℤ × BitDev)}
    (hx : c → CallSound x) (hy : ¬c → CallSound y) : CallSound (if c then x else y) := by
  split
  · exact hx ‹_›
  · exact hy ‹_›

theorem CallSound.pure {err : ℤ} (hd : d.axiGateFrozen = false) :
    CallSound (pure (err, d) : Traced Access (ℤ × BitDev)) :=
  .of_aside (Emits.pure _) (Option.some_ne_none _) fun _ hr => Option.some.inj hr ▸ hd

/-- A body that leaves the gate alone and restores `MCAP_CONTROL` is sound between the freeze and
the free. -/
theorem callSound_gated {body : BitDev → Traced Access (ℤ × BitDev)}
    (hd : d.axiGateFrozen = false)
    (hbeside : Emits Access.Beside (body { d with axiGateFrozen := true }))
    (hbody : ∀ r, (body { d with axiGateFrozen := true }).returned = some r →
      r.2.axiGateFrozen = true)
    (hrestores : ∀ entry, Restores controlUse entry (body { d with axiGateFrozen := true })) :
    CallSound (gated d body) :=
  ⟨leavesOpen_gated hd hbeside hbody, fun entry => restores_gated hd hbody (hrestores entry)⟩

theorem callSound_gated_aside {body : BitDev → Traced Access (ℤ × BitDev)}
    (hd : d.axiGateFrozen = false)
    (haside : Emits Access.Aside (body { d with axiGateFrozen := true }))
    (hbody : ∀ r, (body { d with axiGateFrozen := true }).returned = some r →
      r.2.axiGateFrozen = true) : CallSound (gated d body) :=
  callSound_gated hd (haside.mono fun _ h => h.toBeside) hbody
    fun _ => restores_of_unused (haside.mono fun _ h => h.unused)

theorem callSound_resetOclIoctl (e : ResetEnv) (hd : d.axiGateFrozen = false) :
    CallSound (resetOclIoctl e d) := by
  refine .of_bind (aside_computeUnitBusy _) (returned_computeUnitBusy _) fun busy =>
    .ite (fun _ => .pure hd) fun _ => ?_
  have heq : (freezeAXIGate d >>= fun d => freeAXIGate d >>= fun d => computeUnitBusy e.after >>=
      fun busy => (pure (if busy ≠ 0 then -Errno.ebusy.code else 0, d) :
        Traced Access (ℤ × BitDev))) = gated d (fun d => pure (0, d)) >>= fun r =>
          computeUnitBusy e.after >>= fun busy =>
            pure (if busy ≠ 0 then -Errno.ebusy.code else 0, r.2) := by
    simp only [gated, bind_assoc, pure_bind]
  refine heq ▸ .bind (callSound_gated_aside hd (Emits.pure _) ?_) fun r hr =>
    .of_bind (aside_computeUnitBusy _) (returned_computeUnitBusy _) fun _ => .pure hr
  exact fun r hr => Option.some.inj hr ▸ rfl

theorem callSound_oclFreqscalingIoctl (e : FreqscalingEnv) (hd : d.axiGateFrozen = false) :
    CallSound (oclFreqscalingIoctl e d) := by
  refine .ite (fun _ => .pure hd) fun _ =>
    .of_bind (aside_read (by decide) (by decide) _) (Option.some_ne_none _) fun _ =>
      .ite (fun _ => .pure hd) fun _ =>
        .of_bind (aside_computeUnitBusy _) (returned_computeUnitBusy _) fun _ =>
          .ite (fun _ => .pure hd) fun _ => ?_
  split
  · exact .pure hd
  next hfreq =>
  refine .of_bind (aside_getOclFrequency _) (returned_getOclFrequency _) fun _ => ?_
  generalize (frequencyRow e.oclTargetFreq).get (frequencyRow_isSome hfreq) = row
  have heq : (freezeAXIGate d >>= fun d => scaleFrozen e row >>= fun err =>
      getOclFrequency e.after >>= fun _ => freeAXIGate d >>= fun d =>
        (pure (err, d) : Traced Access (ℤ × BitDev))) = gated d fun d =>
          scaleFrozen e row >>= fun err => getOclFrequency e.after >>= fun _ => pure (err, d) := by
    simp only [gated, bind_assoc, pure_bind]
  refine heq ▸ callSound_gated_aside hd ?_ fun r hr => ?_
  · exact (aside_scaleFrozen e row).bind fun _ _ =>
      (aside_getOclFrequency _).bind fun _ _ => Emits.pure _
  · obtain ⟨err, -, hr⟩ := bind_eq_some.mp hr
    obtain ⟨-, -, hr⟩ := bind_eq_some.mp hr
    exact Option.some.inj hr ▸ rfl

theorem bitstreamClearIcap_gate {e : IcapEnv} {strings : StringEnv} {r : ℤ × BitDev}
    (h : (bitstreamClearIcap e strings d).returned = some r) :
    r.2.axiGateFrozen = d.axiGateFrozen := by
  unfold bitstreamClearIcap at h
  split at h
  · exact Option.some.inj h ▸ rfl
  · obtain ⟨err, -, h⟩ := bind_eq_some.mp h
    exact Option.some.inj h ▸ rfl

theorem callSound_bitstreamIoctlIcap (e : IcapIoctlEnv) (mem : U64 → Byte) (bitBuf length : U64)
    (hd : d.axiGateFrozen = false) : CallSound (bitstreamIoctlIcap e mem bitBuf length d) := by
  have heq : bitstreamIoctlIcap e mem bitBuf length d = gated d fun d =>
      bitstreamClearIcap e.clear e.clearStrings d >>= fun r =>
        (if r.1 ≠ 0 then pure r.1 else downloadPrimary e mem bitBuf length) >>=
          fun err => pure (err, r.2) := by
    simp only [bitstreamIoctlIcap, gated, bind_assoc, pure_bind]
  rw [heq]
  refine callSound_gated_aside hd ?_ fun r hr => ?_
  · exact ((emits_bitstreamClearIcap _ _ _).mono fun _ h => h.aside).bind fun r _ =>
      (Emits.ite (fun _ => Emits.pure _) fun _ => aside_downloadPrimary _ _ _ _).bind
        fun _ _ => Emits.pure _
  · obtain ⟨r', hr', hr⟩ := bind_eq_some.mp hr
    obtain ⟨err, -, hr⟩ := bind_eq_some.mp hr
    exact Option.some.inj hr ▸ bitstreamClearIcap_gate hr'

end Calls

/-! ## The MCAP -/

section Mcap

variable {e : McapIoctlEnv} {mem : U64 → Byte} {bitBuf length : U64} {d : BitDev}

theorem Access.Mcap.beside {a : Access} (h : a.Mcap) : a.Beside where
  noBug ha := h.reg_ne_none (ha ▸ rfl)
  gate ha := by
    obtain ⟨r, hr, hreg⟩ := h
    obtain rfl := Option.some.inj (hreg.symm.trans ha)
    exact absurd hr (by decide)

theorem beside_of_onlyMcap {α : Type} {x : Traced Access α} (hx : OnlyMcap x) :
    Emits Access.Beside x :=
  hx.mono fun _ ha => ha.beside

theorem beside_copyFromUser (s : Segment) (left : ℕ) (offset : U64) (n : ℕ) :
    Emits Access.Beside (copyFromUser s mem left offset n) :=
  (aside_copyFromUser s mem left offset n).mono fun _ h => h.toBeside

theorem beside_writePrimary (h : BitHeader) :
    Emits Access.Beside (writePrimary e mem bitBuf h d) := by
  refine (beside_of_onlyMcap (onlyMcap_bitstreamMcapSetup _ _)).bind fun err _ =>
    Emits.ite (fun _ => Emits.pure _) fun _ =>
      (beside_of_onlyMcap (onlyMcap_bitstreamClearMcap _ d)).bind fun r _ =>
        Emits.ite (fun _ => Emits.pure _) fun _ => Emits.bind (Emits.untilLeft fun b _ => ?_) ?_
  · refine (beside_copyFromUser _ _ _ _).bind fun o _ => ?_
    cases o with
    | none => exact Emits.pure _
    | some p =>
      exact (beside_of_onlyMcap (onlyMcap_bitstreamMcapHelper _ _)).bind fun _ _ => Emits.pure _
  · intro o _
    cases o with
    | none => exact (beside_of_onlyMcap (onlyMcap_mcapFinish _ _)).bind fun _ _ => Emits.pure _
    | some err => exact Emits.pure _

theorem bitstreamClearMcap_gate {strings : StringEnv} {r : ℤ × BitDev}
    (h : (bitstreamClearMcap strings d).returned = some r) :
    r.2.axiGateFrozen = d.axiGateFrozen := by
  unfold bitstreamClearMcap at h
  split at h
  · exact Option.some.inj h ▸ rfl
  obtain ⟨o, -, h⟩ := bind_eq_some.mp h
  cases o with
  | none => exact Option.some.inj h ▸ rfl
  | some hdr =>
    dsimp only at h
    split at h
    · exact Option.some.inj h ▸ rfl
    · obtain ⟨-, -, h⟩ := bind_eq_some.mp h
      exact Option.some.inj h ▸ rfl

theorem writePrimary_gate {h : BitHeader} {r : ℤ × BitDev}
    (hr : (writePrimary e mem bitBuf h d).returned = some r) :
    r.2.axiGateFrozen = d.axiGateFrozen := by
  obtain ⟨err, -, hr⟩ := bind_eq_some.mp hr
  split at hr
  · exact Option.some.inj hr ▸ rfl
  obtain ⟨r', hr', hr⟩ := bind_eq_some.mp hr
  dsimp only at hr
  have hkept := bitstreamClearMcap_gate hr'
  split at hr
  · exact Option.some.inj hr ▸ hkept
  obtain ⟨o, -, hr⟩ := bind_eq_some.mp hr
  cases o with
  | none =>
    obtain ⟨err, -, hr⟩ := bind_eq_some.mp hr
    exact Option.some.inj hr ▸ hkept
  | some err => exact Option.some.inj hr ▸ hkept

variable (e mem bitBuf d) in
/-- The first access of a download to a register is to `MCAP_CONTROL`, for its value. -/
theorem events_writePrimary (h : BitHeader) : ∃ es, (writePrimary e mem bitBuf h d).events =
    .read .MCAP_CONTROL e.setup.request.control :: es := by
  rw [writePrimary, bitstreamMcapSetup, mcapClearRequestByConfigure, bind_assoc, bind_assoc,
    emit_bind]
  exact ⟨_, rfl⟩

/-- The download between the read of `MCAP_CONTROL` and its restoration. -/
theorem restores_writePrimary (h : BitHeader) (entry : U32) :
    Restores controlUse entry (writePrimary e mem bitBuf h d >>= fun r =>
      emit (.write .MCAP_CONTROL e.setup.request.control) >>= fun _ => pure r) := by
  obtain ⟨es, hes⟩ := events_writePrimary e mem bitBuf d h
  refine restores_of_bracket (c := e.setup.request.control) rfl ((events_bind _ _).trans
    (congrArg (· ++ _) hes)) fun hreturned => ?_
  obtain ⟨r, hr⟩ : ∃ r, (writePrimary e mem bitBuf h d).returned = some r :=
    Option.ne_none_iff_exists'.mp fun hnone => hreturned (by rw [bind_of_stopped hnone])
  rw [hr]
  exact lastWritten_append

theorem mcapPrimary_gate {r : ℤ × BitDev}
    (hr : (mcapPrimary e mem bitBuf length d).returned = some r) :
    r.2.axiGateFrozen = d.axiGateFrozen := by
  unfold mcapPrimary at hr
  split at hr
  · exact Option.some.inj hr ▸ rfl
  obtain ⟨o, -, hr⟩ := bind_eq_some.mp hr
  cases o with
  | none => exact Option.some.inj hr ▸ rfl
  | some buffer =>
    obtain ⟨o, -, hr⟩ := bind_eq_some.mp hr
    cases o with
    | none => exact Option.some.inj hr ▸ rfl
    | some h =>
      dsimp only at hr
      split at hr
      · exact Option.some.inj hr ▸ rfl
      · obtain ⟨r', hr', hr⟩ := bind_eq_some.mp hr
        obtain ⟨-, -, hr⟩ := bind_eq_some.mp hr
        exact Option.some.inj hr ▸ writePrimary_gate hr'

theorem callSound_bitstreamIoctlMcap (address : U64) (hd : d.axiGateFrozen = false) :
    CallSound (bitstreamIoctlMcap e mem address bitBuf length d) := by
  refine .ite (fun _ => .pure hd) fun _ => ?_
  have heq : (freezeAXIGate d >>= fun d => mcapPrimary e mem bitBuf length d >>= fun r =>
      freeAXIGate r.2 >>= fun d => (pure (r.1, d) : Traced Access (ℤ × BitDev))) =
        gated d (mcapPrimary e mem bitBuf length) := rfl
  refine heq ▸ callSound_gated hd ?_ ?_ fun entry => ?_
  · refine Emits.ite (fun _ => Emits.pure _) fun _ =>
      (beside_copyFromUser _ _ _ _).bind fun o _ => ?_
    cases o with
    | none => exact Emits.pure _
    | some buffer =>
      refine (beside_of_onlyMcap (onlyMcap_parseHeader _)).bind fun o _ => ?_
      cases o with
      | none => exact Emits.pure _
      | some h =>
        exact Emits.ite (fun _ => Emits.pure _) fun _ => (beside_writePrimary h).bind fun _ _ =>
          (Emits.emit ⟨nofun, nofun⟩).bind fun _ _ => Emits.pure _
  · exact fun r hr => mcapPrimary_gate hr
  · have hunused {α : Type} {x : Traced Access α} (hx : Emits Access.Aside x) :
        Restores controlUse entry x := restores_of_unused (hx.mono fun _ h => h.unused)
    refine .ite (fun _ => hunused (Emits.pure _)) fun _ =>
      (hunused (aside_copyFromUser _ _ _ _ _)).bind fun o _ => ?_
    cases o with
    | none => exact hunused (Emits.pure _)
    | some buffer =>
      refine (hunused ?_).bind fun o _ => ?_
      · rw [parseHeader_untouched]
        split
        · exact Emits.pure _
        · exact Emits.pure _
        · exact Emits.stop
      cases o with
      | none => exact hunused (Emits.pure _)
      | some h =>
        exact .ite (fun _ => hunused (Emits.pure _)) fun _ => restores_writePrimary h entry

end Mcap

/-! ## Sequences of calls -/

theorem callSound_run {d : BitDev} (hd : d.axiGateFrozen = false) (call : GateCall) :
    CallSound (call.run d) := by
  cases call with
  | reset e => exact callSound_resetOclIoctl e hd
  | freqscaling e => exact callSound_oclFreqscalingIoctl e hd
  | download e cmd c =>
    have hstash (r : ℤ × BitDev) (hr : r.2.axiGateFrozen = false) :
        CallSound (stashSecondary e c r.1 r.2) :=
      .of_aside (aside_stashSecondary e c r.1 r.2) (returned_stashSecondary e c r.1 r.2)
        fun _ hr' => (stashSecondary_gate hr').trans hr
    refine .ite (fun _ => .pure hd) fun _ => .ite (fun _ => .pure hd) fun _ =>
      .ite (fun _ => .pure hd) fun _ => .ite (fun _ => .pure hd) fun _ =>
        .ite (fun _ => .pure hd) fun _ => ?_
    cases cmd with
    | icap => exact .bind (callSound_bitstreamIoctlIcap _ _ _ _ hd) hstash
    | mcap => exact .bind (callSound_bitstreamIoctlMcap _ hd) hstash
    | other => exact .pure hd


/-! ## Calls that do not return -/

theorem faults_iff {header : HeaderEnv} : header.Faults ↔ ¬header.StringsHeld := by
  rw [← HeaderEnv.ends_stringsHeld, Scanner.Ends, HeaderEnv.Faults]
  rcases bitstreamParseHeader header 0 with ⟨h, n⟩ | ⟨err, n⟩
  · simp
  · cases err <;> simp [NotFault]

/-- The strings of the headers that `bitstream_ioctl_icap` comes to are held, and the clearing
bitstream has a length. -/
def IcapIoctlEnv.HeadersHeld (e : IcapIoctlEnv) (mem : U64 → Byte) (bitBuf : U64) (d : BitDev) :
    Prop :=
  (∀ s ∈ d.stash, s.length ≠ 0 ∧ (e.clearHeader s).StringsHeld) ∧
    (ClearPasses e d → e.kmalloc = true → e.headerLeft = 0 → (e.header mem bitBuf).StringsHeld)

/-- What the parser is given of the primary segment at `bitBuf`. -/
def McapIoctlEnv.header (e : McapIoctlEnv) (mem : U64 → Byte) (bitBuf : U64) : HeaderEnv :=
  headerInBuffer e.strings e.heap fun i => mem (bitBuf + BitVec.ofNat 64 i)

/-- What the parser is given of the clearing bitstream `s`. -/
def McapIoctlEnv.clearHeader (e : McapIoctlEnv) (s : Stash) : HeaderEnv :=
  ⟨e.clearStrings, fun i => s.bytes i.toNat⟩

/-- The strings of the headers that `bitstream_ioctl_mcap` comes to are held. -/
def McapIoctlEnv.HeadersHeld (e : McapIoctlEnv) (mem : U64 → Byte) (bitBuf length : U64)
    (d : BitDev) : Prop :=
  e.kmalloc = true → e.headerLeft = 0 → (e.header mem bitBuf).StringsHeld ∧
    ∀ h, (e.header mem bitBuf).Accepts length.toNat h →
      (bitstreamMcapSetup e.setup false).returned = some 0 →
        ∀ s ∈ d.stash, (e.clearHeader s).StringsHeld

/-- The strings of the headers that the call comes to are held. -/
def GateCall.HeadersHeld (d : BitDev) : GateCall → Prop
  | .download e .icap c => e.accepts c.bin = true →
    e.icap.HeadersHeld c.mem c.bin.primaryFirmwareOffset d
  | .download e .mcap c => e.accepts c.bin = true →
    e.xclbin + c.bin.primaryFirmwareOffset ≠ 0 → c.bin.primaryFirmwareLength ≠ 0 →
      e.mcap.HeadersHeld c.mem c.bin.primaryFirmwareOffset c.bin.primaryFirmwareLength d
  | .download _ .other _ | .reset _ | .freqscaling _ => True

section Returns

variable {d : BitDev}

theorem not_stops_iff {e : IcapIoctlEnv} {mem : U64 → Byte} {bitBuf : U64}
    (hd : d.axiGateFrozen = false) :
    ¬Stops e mem bitBuf d ↔ e.HeadersHeld mem bitBuf d := by
  simp only [Stops, ClearStops, Reaches, hd, faults_iff, IcapIoctlEnv.HeadersHeld, not_or, not_and,
    not_exists, not_not, Bool.false_eq_true, not_false_eq_true, true_and, and_imp, ne_eq]

/-- A container that is refused does no harm. -/
theorem bitstreamIoctl_of_refused {e : BitstreamIoctlEnv} {c : Container} (cmd : DownloadCmd)
    (d : BitDev) (h : ¬e.accepts c.bin = true) :
    ∃ err, bitstreamIoctl e cmd c d = pure (err, d) := by
  unfold bitstreamIoctl
  iterate 5
    split
    · exact ⟨_, rfl⟩
  next harg hbin hmagic hfit haccess =>
    refine absurd ?_ h
    simp only [BitstreamIoctlEnv.accepts, Bool.and_eq_true, decide_eq_true_eq]
    exact ⟨⟨⟨⟨not_not.mp harg, not_not.mp hbin⟩, not_not.mp hmagic⟩, not_not.mp hfit⟩,
      not_not.mp haccess⟩

theorem returned_bitstreamIoctl_icap {e : BitstreamIoctlEnv} {c : Container}
    (hacc : e.accepts c.bin = true) : (bitstreamIoctl e .icap c d).returned = none ↔
      Stops e.icap c.mem c.bin.primaryFirmwareOffset d := by
  rcases hclear : (clearing e.icap d).returned with _ | ⟨err, d'⟩
  · rw [bitstreamIoctl_eq hacc, bind_of_stopped hclear]
    exact iff_of_true rfl (Or.inl (returned_clearing.1.mp hclear))
  · rw [bitstreamIoctl_of_cleared hacc hclear]
    exact (returned_afterClearing hclear).1

theorem returned_clearRequestLoop (polls : ℕ → U32) (loop i : ℕ) :
    (clearRequestLoop polls loop i).returned ≠ none := by
  induction loop generalizing i with
  | zero => exact Option.some_ne_none _
  | succ loop ih =>
    refine bind_ne_none (Option.some_ne_none _) fun _ => ?_
    split
    · exact Option.some_ne_none _
    · exact ih (i + 1)

theorem returned_mcapClearRequestByConfigure (e : ClearRequestEnv) :
    (mcapClearRequestByConfigure e).returned ≠ none := by
  refine bind_ne_none (Option.some_ne_none _) fun _ => bind_ne_none (Option.some_ne_none _)
    fun _ => ?_
  split
  · exact Option.some_ne_none _
  · refine bind_ne_none (Option.some_ne_none _) fun _ =>
      bind_ne_none (returned_clearRequestLoop _ _ _) fun _ => ?_
    split <;> exact Option.some_ne_none _

theorem returned_anyStatus (checks : List (U32 × U32)) : (anyStatus checks).returned ≠ none := by
  induction checks with
  | nil => exact Option.some_ne_none _
  | cons check checks ih =>
    refine bind_ne_none (Option.some_ne_none _) fun _ => ?_
    split
    · exact Option.some_ne_none _
    · exact ih

theorem returned_bitstreamMcapSetup (e : McapSetupEnv) (designSwitch : Bool) :
    (bitstreamMcapSetup e designSwitch).returned ≠ none := by
  refine bind_ne_none (returned_mcapClearRequestByConfigure _) fun _ => ?_
  split
  · exact Option.some_ne_none _
  · refine bind_ne_none (returned_anyStatus _) fun _ => ?_
    split <;> exact Option.some_ne_none _

theorem returned_mcapFullReset (e : FullResetEnv) : (mcapFullReset e).returned ≠ none := by
  have hchecks : (fullResetFailed e).returned ≠ none := by
    refine bind_ne_none (returned_anyStatus _) fun _ => ?_
    split
    · exact Option.some_ne_none _
    · refine bind_ne_none (Option.some_ne_none _) fun _ => ?_
      split <;> exact Option.some_ne_none _
  refine bind_ne_none (returned_mcapClearRequestByConfigure _) fun _ => ?_
  split
  · exact Option.some_ne_none _
  · exact bind_ne_none (Option.some_ne_none _) fun _ => bind_ne_none (Option.some_ne_none _)
      fun _ => bind_ne_none hchecks fun _ => Option.some_ne_none _

theorem returned_completionLoop (status : ℕ → U32) (left i : ℕ) :
    (completionLoop status left i).returned ≠ none := by
  induction left generalizing i with
  | zero =>
    rw [completionLoop]
    split <;> exact Option.some_ne_none _
  | succ left ih =>
    rw [completionLoop]
    split
    · exact Option.some_ne_none _
    · exact bind_ne_none (Option.some_ne_none _) fun _ => bind_ne_none (Option.some_ne_none _)
        fun _ => ih (i + 1)

theorem returned_mcapFinish (e : McapFinishEnv) (restore : U32) :
    (mcapFinish e restore).returned ≠ none := by
  refine bind_ne_none (bind_ne_none (Option.some_ne_none _) fun _ =>
    returned_completionLoop _ _ _) fun _ => bind_ne_none ?_ fun _ => ?_
  · split
    · exact Option.some_ne_none _
    · exact returned_anyStatus _
  · split
    · exact bind_ne_none (Option.some_ne_none _) fun _ =>
        bind_ne_none (returned_mcapFullReset _) fun _ => Option.some_ne_none _
    · exact Option.some_ne_none _

/-- A parser returns unless a string is not held. -/
theorem returned_parseHeader {header : HeaderEnv} :
    (parseHeader untouched header).returned = none ↔ ¬header.StringsHeld := by
  rw [← faults_iff, parseHeader_untouched, HeaderEnv.Faults]
  rcases bitstreamParseHeader header 0 with ⟨h, n⟩ | ⟨_ | _, n⟩ <;> simp

theorem returned_bitstreamClearMcap {e : McapIoctlEnv} :
    (bitstreamClearMcap e.clearStrings d).returned = none ↔
      ∃ s ∈ d.stash, ¬(e.clearHeader s).StringsHeld := by
  rw [bitstreamClearMcap]
  cases hs : d.stash with
  | none => simp
  | some s =>
    simp only [Option.mem_some_iff, exists_eq_left', bind_eq_none]
    refine (or_iff_left ?_).trans returned_parseHeader
    rintro ⟨o, -, hnone⟩
    cases o with
    | none => exact Option.some_ne_none _ hnone
    | some h =>
      dsimp only at hnone
      split at hnone <;> exact Option.some_ne_none _ hnone

section Mcap

variable {e : McapIoctlEnv} {mem : U64 → Byte} {bitBuf length : U64}

/-- A download returns unless the clearing bitstream is come to and stops its parser. -/
theorem returned_writePrimary {h : BitHeader} :
    (writePrimary e mem bitBuf h d).returned = none ↔
      (bitstreamMcapSetup e.setup false).returned = some 0 ∧
        ∃ s ∈ d.stash, ¬(e.clearHeader s).StringsHeld := by
  obtain ⟨err, herr⟩ := Option.ne_none_iff_exists'.mp (returned_bitstreamMcapSetup e.setup false)
  rw [writePrimary, bind_of_returned herr, herr, Option.some_inj]
  by_cases hzero : err = 0
  · rw [and_iff_right hzero, if_neg (not_not.mpr hzero), bind_eq_none]
    refine (or_iff_left ?_).trans returned_bitstreamClearMcap
    rintro ⟨r, -, hnone⟩
    refine absurd hnone ?_
    dsimp only
    split
    · exact Option.some_ne_none _
    refine bind_ne_none (returned_untilLeft_ne_none fun b _ => ?_) fun o => ?_
    · refine bind_ne_none (Option.some_ne_none _) fun o => ?_
      cases o <;> exact Option.some_ne_none _
    · cases o with
      | none => exact bind_ne_none (returned_mcapFinish _ _) fun _ => Option.some_ne_none _
      | some err => exact Option.some_ne_none _
  · rw [if_pos hzero]
    exact iff_of_false (Option.some_ne_none _) fun h => hzero h.1

/-- The header of the primary segment comes first, then that of the clearing bitstream. -/
theorem returned_mcapPrimary : (mcapPrimary e mem bitBuf length d).returned = none ↔
    ¬e.HeadersHeld mem bitBuf length d := by
  rw [mcapPrimary, McapIoctlEnv.HeadersHeld]
  by_cases hk : e.kmalloc = true
  swap
  · rw [if_pos hk]
    exact iff_of_false (Option.some_ne_none _) (not_not.mpr fun h => absurd h hk)
  rw [if_neg (not_not.mpr hk), copyFromUser, bind_assoc, emit_bind, pure_bind]
  by_cases hl : e.headerLeft = 0
  swap
  · rw [if_neg (by simp [hl, DMA_HWICAP_BITFILE_BUFFER_SIZE])]
    exact iff_of_false (Option.some_ne_none _) (not_not.mpr fun _ h => absurd h hl)
  rw [if_pos (Or.inl hl)]
  change (parseHeader untouched (e.header mem bitBuf) >>= _).returned = none ↔ _
  rw [bind_eq_none, returned_parseHeader, forall_prop_of_true hk, forall_prop_of_true hl,
    not_and_or]
  refine or_congr_right ?_
  have hparse (h : BitHeader) :
      (parseHeader untouched (e.header mem bitBuf)).returned = some (some h) ↔
        ∃ n, bitstreamParseHeader (e.header mem bitBuf) 0 = .ok h n := by
    rw [parseHeader_untouched]
    rcases bitstreamParseHeader (e.header mem bitBuf) 0 with ⟨h, n⟩ | ⟨_ | _, n⟩ <;> simp
  have hwrite (h : BitHeader) : (writePrimary e mem bitBuf h d >>= fun r =>
      emit (.write .MCAP_CONTROL e.setup.request.control) >>= fun _ =>
        (pure (r.1, r.2) : Traced Access (ℤ × BitDev))).returned = none ↔
        (writePrimary e mem bitBuf h d).returned = none := by
    refine bind_eq_none.trans (or_iff_left ?_)
    rintro ⟨_, -, hnone⟩
    exact Option.some_ne_none _ hnone
  constructor
  · rintro ⟨o, ho, hnone⟩ hall
    cases o with
    | none => exact Option.some_ne_none _ hnone
    | some h =>
      dsimp only at hnone
      split at hnone
      · exact Option.some_ne_none _ hnone
      · next hfits =>
        obtain ⟨hsetup, s, hs, hnot⟩ := returned_writePrimary.mp ((hwrite h).mp hnone)
        exact hnot (hall h ⟨(hparse h).mp ho, not_lt.mp hfits⟩ hsetup s hs)
  · intro hnot
    simp only [not_forall] at hnot
    obtain ⟨h, ⟨hok, hfits⟩, hsetup, s, hs, hnot⟩ := hnot
    refine ⟨some h, (hparse h).mpr hok, ?_⟩
    dsimp only
    rw [if_neg (not_lt.mpr hfits)]
    exact (hwrite h).mpr (returned_writePrimary.mpr ⟨hsetup, s, hs, hnot⟩)

/-- A download through the MCAP that finds the gate open. -/
theorem returned_bitstreamIoctlMcap {address : U64} (hd : d.axiGateFrozen = false) :
    (bitstreamIoctlMcap e mem address bitBuf length d).returned = none ↔
      ¬(address ≠ 0 → length ≠ 0 → e.HeadersHeld mem bitBuf length d) := by
  rw [bitstreamIoctlMcap]
  by_cases hargs : address = 0 ∨ length = 0
  · rw [if_pos hargs]
    refine iff_of_false (Option.some_ne_none _) (not_not.mpr fun ha hl => ?_)
    exact absurd hargs (not_or.mpr ⟨ha, hl⟩)
  · obtain ⟨ha, hl⟩ := not_or.mp hargs
    rw [if_neg hargs, forall_prop_of_true ha, forall_prop_of_true hl]
    change (gated d (mcapPrimary e mem bitBuf length)).returned = none ↔ _
    rw [returned_gated hd fun r hr => mcapPrimary_gate hr]
    exact returned_mcapPrimary

end Mcap

theorem returned_freezeAXIGate_bind {f : BitDev → Traced Access (ℤ × BitDev)}
    (hd : d.axiGateFrozen = false) :
    (freezeAXIGate d >>= f).returned = (f { d with axiGateFrozen := true }).returned := by
  rw [freezeAXIGate, if_neg (by simp [hd])]
  rfl

theorem returned_freeAXIGate_bind {f : BitDev → Traced Access (ℤ × BitDev)}
    (hd : d.axiGateFrozen = true) :
    (freeAXIGate d >>= f).returned = (f { d with axiGateFrozen := false }).returned := by
  rw [freeAXIGate, if_neg (not_not.mpr hd)]
  rfl

/-- A call that finds the gate open returns unless a header stops it. -/
theorem returned_run (hd : d.axiGateFrozen = false) (call : GateCall) :
    (call.run d).returned = none ↔ ¬call.HeadersHeld d := by
  cases call with
  | reset e =>
    refine iff_of_false ?_ (not_not.mpr trivial)
    refine bind_ne_none (returned_computeUnitBusy _) fun _ => ?_
    split
    · exact Option.some_ne_none _
    · rw [returned_freezeAXIGate_bind hd, returned_freeAXIGate_bind rfl]
      exact bind_ne_none (returned_computeUnitBusy _) fun _ => Option.some_ne_none _
  | freqscaling e =>
    refine iff_of_false ?_ (not_not.mpr trivial)
    change (oclFreqscalingIoctl e d).returned ≠ none
    rw [oclFreqscalingIoctl]
    split
    · exact Option.some_ne_none _
    refine bind_ne_none (Option.some_ne_none _) fun _ => ?_
    split
    · exact Option.some_ne_none _
    refine bind_ne_none (returned_computeUnitBusy _) fun _ => ?_
    split
    · exact Option.some_ne_none _
    split
    · exact Option.some_ne_none _
    refine bind_ne_none (returned_getOclFrequency _) fun _ => ?_
    rw [returned_freezeAXIGate_bind hd]
    refine bind_ne_none (returned_scaleFrozen _ _) fun _ =>
      bind_ne_none (returned_getOclFrequency _) fun _ => ?_
    rw [returned_freeAXIGate_bind rfl]
    exact Option.some_ne_none _
  | download e cmd c =>
    by_cases hacc : e.accepts c.bin = true
    swap
    · obtain ⟨err, hrefused⟩ := bitstreamIoctl_of_refused cmd d hacc
      rw [GateCall.run, hrefused]
      refine iff_of_false (Option.some_ne_none _) (not_not.mpr ?_)
      cases cmd with
      | icap => exact fun h => absurd h hacc
      | mcap => exact fun h => absurd h hacc
      | other => trivial
    cases cmd with
    | icap =>
      rw [GateCall.run, returned_bitstreamIoctl_icap hacc, GateCall.HeadersHeld,
        forall_prop_of_true hacc, ← not_stops_iff hd, not_not]
    | mcap =>
      rw [GateCall.run, bitstreamIoctl_of_accepts hacc, GateCall.HeadersHeld,
        forall_prop_of_true hacc, ← returned_bitstreamIoctlMcap hd]
      refine bind_eq_none.trans (or_iff_left ?_)
      rintro ⟨r, -, hnone⟩
      exact returned_stashSecondary _ _ _ _ hnone
    | other =>
      rw [GateCall.run, bitstreamIoctl_of_accepts hacc]
      exact iff_of_false (Option.some_ne_none _) (not_not.mpr trivial)

end Returns

/-! ## A gate that was never freed -/

/-- The call fails an assertion of the gate or leaves it frozen. -/
def Spoiled (x : Traced Access (ℤ × BitDev)) : Prop :=
  .gateBug ∈ x.events ∨ ∃ r, x.returned = some r ∧ r.2.axiGateFrozen = true

section Spoiled

variable {d : BitDev}

theorem Spoiled.pure {err : ℤ} (hd : d.axiGateFrozen = true) :
    Spoiled (pure (err, d) : Traced Access (ℤ × BitDev)) :=
  Or.inr ⟨_, rfl, hd⟩

theorem Spoiled.of_bind {α : Type} {x : Traced Access α} {f : α → Traced Access (ℤ × BitDev)}
    (hx : x.returned ≠ none) (hf : ∀ a, Spoiled (f a)) : Spoiled (x >>= f) := by
  obtain ⟨a, ha⟩ := Option.ne_none_iff_exists'.mp hx
  refine (hf a).imp (fun hbug => mem_events_bind.mpr (Or.inr ⟨a, ha, hbug⟩)) ?_
  exact fun ⟨r, hr, hfrozen⟩ => ⟨r, bind_eq_some.mpr ⟨a, ha, hr⟩, hfrozen⟩

/-- The assertion of the freeze. -/
theorem spoiled_freezeAXIGate {f : BitDev → Traced Access (ℤ × BitDev)}
    (hd : d.axiGateFrozen = true) : Spoiled (freezeAXIGate d >>= f) := by
  rw [freezeAXIGate, if_pos hd]
  exact Or.inl List.mem_cons_self

theorem spoiled_stash {e : BitstreamIoctlEnv} {c : Container} {x : Traced Access (ℤ × BitDev)}
    (hx : Spoiled x) : Spoiled (x >>= fun r => stashSecondary e c r.1 r.2) := by
  rcases hx with hbug | ⟨r, hr, hfrozen⟩
  · exact Or.inl (mem_events_bind.mpr (Or.inl hbug))
  · obtain ⟨r', hr'⟩ := Option.ne_none_iff_exists'.mp (returned_stashSecondary e c r.1 r.2)
    exact Or.inr ⟨r', bind_eq_some.mpr ⟨r, hr, hr'⟩, (stashSecondary_gate hr').trans hfrozen⟩

/-- Every call that finds the gate frozen is spoiled. -/
theorem spoiled_run (hd : d.axiGateFrozen = true) (call : GateCall) : Spoiled (call.run d) := by
  cases call with
  | reset e =>
    refine .of_bind (returned_computeUnitBusy _) fun _ => ?_
    split
    · exact .pure hd
    · exact spoiled_freezeAXIGate hd
  | freqscaling e =>
    change Spoiled (oclFreqscalingIoctl e d)
    rw [oclFreqscalingIoctl]
    split
    · exact .pure hd
    refine .of_bind (Option.some_ne_none _) fun _ => ?_
    split
    · exact .pure hd
    refine .of_bind (returned_computeUnitBusy _) fun _ => ?_
    split
    · exact .pure hd
    split
    · exact .pure hd
    exact .of_bind (returned_getOclFrequency _) fun _ => spoiled_freezeAXIGate hd
  | download e cmd c =>
    by_cases hacc : e.accepts c.bin = true
    swap
    · obtain ⟨err, hrefused⟩ := bitstreamIoctl_of_refused cmd d hacc
      rw [GateCall.run, hrefused]
      exact .pure hd
    rw [GateCall.run, bitstreamIoctl_of_accepts hacc]
    cases cmd with
    | icap => exact spoiled_stash (spoiled_freezeAXIGate hd)
    | mcap =>
      refine spoiled_stash ?_
      rw [bitstreamIoctlMcap]
      split
      · exact .pure hd
      · exact spoiled_freezeAXIGate hd
    | other => exact .pure hd

end Spoiled

/-! ## Sequences of calls -/

/-- The clearing bitstream behind a call that does not return. -/
def GateCall.stashLeft (d : BitDev) : GateCall → Option Stash
  | .download e .icap _ => if (clearing e.icap d).returned.isSome then none else d.stash
  | _ => d.stash

/-- The device behind a call. A call that does not return holds no lock : its thread ends, and the
device stays as it was then. -/
def GateCall.after (d : BitDev) (call : GateCall) : BitDev :=
  match (call.run d).returned with
  | some r => r.2
  | none => ⟨frozenBehind d.axiGateFrozen (call.run d).events, call.stashLeft d⟩

/-- One call of a sequence. -/
def GateCall.step (d : BitDev) (call : GateCall) : Option BitDev :=
  some (call.after d)

/-- What a call should do : no assertion of the gate fails, and if it returns the gate is open and
what it has written last to `MCAP_CONTROL` is the value it has found there. -/
structure GateKept (d : BitDev) (call : GateCall) (d' : BitDev) : Prop where
  noBug : .gateBug ∉ (call.run d).events
  isOpen : (call.run d).returned ≠ none → d'.axiGateFrozen = false
  restores : ∀ entry, Restores controlUse entry (call.run d)

section Step

variable {d : BitDev} {call : GateCall}

theorem after_of_returned {r : ℤ × BitDev} (h : (call.run d).returned = some r) :
    call.after d = r.2 := by
  rw [GateCall.after, h]

theorem gateKept_of_open (hd : d.axiGateFrozen = false) : GateKept d call (call.after d) := by
  have hcall := callSound_run hd call
  refine ⟨fun hbug => hcall.noBug _ hbug rfl, fun hreturned => ?_, hcall.restores⟩
  obtain ⟨r, hr⟩ := Option.ne_none_iff_exists'.mp hreturned
  rw [after_of_returned hr]
  exact hcall.isOpen r hr

/-- Behind a call that returns the gate is open, behind one that does not it is frozen. -/
theorem frozen_after (hd : d.axiGateFrozen = false) :
    (call.after d).axiGateFrozen = (call.run d).returned.isNone := by
  have hcall := callSound_run hd call
  cases hr : (call.run d).returned with
  | some r =>
    rw [after_of_returned hr]
    exact hcall.isOpen r hr
  | none =>
    have htracks := hcall.tracks
    rw [hr] at htracks
    rw [GateCall.after, hr, hd]
    exact htracks

theorem Spoiled.not_kept (h : Spoiled (call.run d)) : ¬GateKept d call (call.after d) := by
  intro hkept
  rcases h with hbug | ⟨r, hr, hfrozen⟩
  · exact hkept.noBug hbug
  · have hopen := hkept.isOpen (by simp [hr])
    rw [after_of_returned hr, hfrozen] at hopen
    cases hopen

end Step

/-- In a sequence of calls that finds the gate open, no assertion of the gate fails, the gate is
open after each call that returns, and what a call that returns has written last to `MCAP_CONTROL`
is the value it has found there, if and only if in every call but the last the strings of all the
headers it comes to are held. -/
theorem gate_restored_iff (stash : Option Stash) (calls : List GateCall) :
    Along GateCall.step GateKept ⟨false, stash⟩ calls ↔
      Along GateCall.step (fun d call _ => call.HeadersHeld d) ⟨false, stash⟩ calls.dropLast := by
  refine @along_iff_dropLast _ _ _ _ _ (fun d : BitDev => d.axiGateFrozen = false)
    (fun d => d.axiGateFrozen = true) ?_ ?_ ?_ ?_ _ rfl calls
  · rintro d call d' hd ⟨⟩
    exact gateKept_of_open hd
  · rintro d call d' hd ⟨⟩ hheld
    rw [frozen_after hd]
    cases hr : (call.run d).returned with
    | none => exact absurd hheld ((returned_run hd call).mp hr)
    | some r => rfl
  · rintro d call d' hd ⟨⟩ hnot
    rw [frozen_after hd, (returned_run hd call).mpr hnot]
    rfl
  · exact fun d call hd => ⟨_, rfl, (spoiled_run hd call).not_kept⟩

/-- A compute unit is busy, and no more once it was reset. -/
def busyReset : ResetEnv :=
  ⟨⟨0x3, fun i => if i = 0 then 1 else 0⟩, ⟨0x3, fun _ => 0⟩⟩

/-- There is no memory for the strings of a header. -/
def noStrings : BitstreamIoctlEnv :=
  { wordEnv readyFifo with
    icap := { (wordEnv readyFifo).icap with strings := ⟨fun _ => false, fun _ => none⟩ } }

/-- The download stops at the design name, and the reset behind it at the assertion of the gate. -/
theorem gate_restored_fails : ¬Along GateCall.step GateKept ⟨false, none⟩
    [.download noStrings .icap wordContainer, .reset busyReset] := by
  intro h
  obtain ⟨-, hrest⟩ := h _ rfl
  obtain ⟨hkept, -⟩ := hrest _ rfl
  exact hkept.noBug (by decide +kernel)

end Wimi
