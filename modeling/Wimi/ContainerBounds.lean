import Wimi.DownloadHonesty

/-!
# The bytes of a container that are read

A copy from the container is in bounds if every byte of it lies in the container and in the segment
it is made for. The offsets are 64 bits wide and wrap, so the sums that the driver compares to the
length of the container, and the sum of the header and the bitstream it compares to the length of
the segment, say less than they seem to. The header is copied in one piece of 1024 bytes whatever
the length of the segment.

`container_bounds_iff` says in natural numbers for which containers all bytes read are in bounds.
-/

open Traced Scanner

namespace Wimi

/-- Every byte that is copied lies in the container and in the segment it is copied for. -/
def Access.InBounds (bin : XclBin) : Access → Prop
  | .copy s offset n => ∀ i < n,
    (offset + BitVec.ofNat 64 i).toNat < bin.length.toNat ∧
      (bin.offset s).toNat ≤ (offset + BitVec.ofNat 64 i).toNat ∧
        (offset + BitVec.ofNat 64 i).toNat < (bin.offset s).toNat + (bin.segmentLength s).toNat
  | _ => True

/-- The `n` bytes from `k` on of a segment lie in it and in the container. -/
def XclBin.Holds (bin : XclBin) (s : Segment) (k n : ℕ) : Prop :=
  n = 0 ∨ k + n ≤ (bin.segmentLength s).toNat ∧
    (bin.offset s).toNat + k + n ≤ bin.length.toNat

section Bounds

variable {bin : XclBin} {s : Segment} {k n m : ℕ}

theorem inBounds_of_reg {a : Access} (h : a.reg ≠ none) : a.InBounds bin := by
  cases a with
  | copy => exact absurd rfl h
  | read => trivial
  | write => trivial
  | gateBug => trivial

/-- A part of a copy. -/
theorem inBounds_of_le {offset : U64} (h : (Access.copy s offset n).InBounds bin) (hm : m ≤ n) :
    (Access.copy s offset m).InBounds bin :=
  fun i hi => h i (hi.trans_le hm)

/-- The bytes that are copied do not wrap around if they are in bounds. -/
theorem inBounds_copy_iff (hk : k < 2 ^ 64) :
    (Access.copy s (bin.offset s + BitVec.ofNat 64 k) n).InBounds bin ↔ bin.Holds s k n := by
  have hbyte (i : ℕ) : (bin.offset s + BitVec.ofNat 64 k + BitVec.ofNat 64 i).toNat =
      ((bin.offset s).toNat + k + i) % 2 ^ 64 := by
    rw [BitVec.add_assoc, ← BitVec.ofNat_add, BitVec.toNat_add, BitVec.toNat_ofNat, Nat.add_mod_mod,
      Nat.add_assoc]
  have hlen := bin.length.isLt
  have hoffset := (bin.offset s).isLt
  simp only [Access.InBounds, hbyte, XclBin.Holds]
  constructor
  · intro h
    rcases Nat.eq_zero_or_pos n with hn | hn
    · exact Or.inl hn
    right
    have hfirst := h 0 hn
    -- a copy that wraps passes by the last byte of all
    have hwrap : (bin.offset s).toNat + k + n ≤ 2 ^ 64 := by
      by_contra hlt
      have hlast := h (2 ^ 64 - 1 - ((bin.offset s).toNat + k)) (by omega)
      omega
    have hlast := h (n - 1) (by omega)
    omega
  · rintro (rfl | ⟨hsegment, hcontainer⟩) i hi
    · exact absurd hi (Nat.not_lt_zero i)
    · rw [Nat.mod_eq_of_lt (by omega)]
      omega

end Bounds

/-! ## What accesses the MCAP only -/

/-- A register of the MCAP is accessed. -/
def Access.Mcap (a : Access) : Prop :=
  ∃ r ∈ [Reg.MCAP_STATUS, .MCAP_CONTROL, .MCAP_DATA], a.reg = some r

theorem Access.Mcap.reg_ne_none {a : Access} (h : a.Mcap) : a.reg ≠ none := by
  obtain ⟨r, -, ha⟩ := h
  simp [ha]

/-- No register but those of the MCAP is accessed, and no byte of the container. -/
abbrev OnlyMcap {α : Type} (x : Traced Access α) : Prop :=
  Emits Access.Mcap x

section Registers

variable {α : Type}

theorem onlyMcap_read {r : Reg} {w : U32}
    (hr : r ∈ [Reg.MCAP_STATUS, .MCAP_CONTROL, .MCAP_DATA]) :
    OnlyMcap (emit (.read r w)) :=
  Emits.emit ⟨r, hr, rfl⟩

theorem onlyMcap_write {r : Reg} {w : U32}
    (hr : r ∈ [Reg.MCAP_STATUS, .MCAP_CONTROL, .MCAP_DATA]) :
    OnlyMcap (emit (.write r w)) :=
  Emits.emit ⟨r, hr, rfl⟩

/-- The gate is frozen through its register, unless it was frozen before. -/
theorem emits_freezeAXIGate {P : Access → Prop} {d : BitDev}
    (hreg : ∀ a : Access, a.reg ≠ none → P a)
    (hbug : d.axiGateFrozen = true → P .gateBug) : Emits P (freezeAXIGate d) :=
  Emits.ite (fun h => (Emits.emit (hbug h)).bind fun _ _ => Emits.stop) fun _ =>
    (Emits.emit (hreg (.write .AXI_GATE 0x0) (Option.some_ne_none _))).bind fun _ _ => Emits.pure _

theorem emits_freeAXIGate {P : Access → Prop} {d : BitDev} (hreg : ∀ a : Access, a.reg ≠ none → P a)
    (hbug : d.axiGateFrozen ≠ true → P .gateBug) : Emits P (freeAXIGate d) := by
  refine Emits.ite (fun h => (Emits.emit (hbug h)).bind fun _ _ => Emits.stop) fun _ =>
    Emits.bind (fun a ha => hreg a ?_) fun _ _ => Emits.pure _
  simp only [events_emitAll, List.mem_cons, List.not_mem_nil, or_false] at ha
  rcases ha with rfl | rfl | rfl | rfl <;> exact Option.some_ne_none _

theorem emits_waitForDone (e : IcapEnv) : Emits Access.Hwicap (waitForDone e) := by
  refine Emits.bind ((emits_poll _ _ _).mono ?_) fun _ _ => Emits.pure _
  rintro a ⟨w, rfl⟩
  exact Or.inr rfl

theorem Access.Hwicap.reg_ne_none {a : Access} (h : a.Hwicap) : a.reg ≠ none := by
  rcases h with ⟨r, -, ha⟩ | ha <;> simp [ha]

theorem onlyMcap_parseHeader (header : HeaderEnv) : OnlyMcap (parseHeader untouched header) := by
  rw [parseHeader_untouched]
  split
  · exact Emits.pure _
  · exact Emits.pure _
  · exact Emits.stop

theorem ok_of_parseHeader {touch : U32 → List Access} {header : HeaderEnv} {h : BitHeader}
    (hparse : (parseHeader touch header).returned = some (some h)) :
    ∃ n, bitstreamParseHeader header 0 = .ok h n := by
  rw [parseHeader] at hparse
  rcases heq : bitstreamParseHeader header 0 with ⟨h', n⟩ | ⟨_ | _, n⟩ <;> rw [heq] at hparse
  · cases hparse
    exact ⟨n, rfl⟩
  · cases hparse
  · cases hparse

theorem onlyMcap_clearRequestLoop (polls : ℕ → U32) (loop i : ℕ) :
    OnlyMcap (clearRequestLoop polls loop i) := by
  induction loop generalizing i with
  | zero => exact (onlyMcap_read (by decide)).bind fun _ _ => Emits.pure _
  | succ loop ih =>
    exact (onlyMcap_read (by decide)).bind fun _ _ =>
      Emits.ite (fun _ => Emits.pure _) fun _ => ih (i + 1)

theorem onlyMcap_mcapClearRequestByConfigure (e : ClearRequestEnv) :
    OnlyMcap (mcapClearRequestByConfigure e) := by
  refine (onlyMcap_read (by decide)).bind fun _ _ => (onlyMcap_read (by decide)).bind fun _ _ =>
    Emits.ite (fun _ => Emits.pure _) fun _ => (onlyMcap_write (by decide)).bind fun _ _ =>
      (onlyMcap_clearRequestLoop _ _ _).bind fun _ _ => ?_
  exact Emits.ite (fun _ => (onlyMcap_write (by decide)).bind fun _ _ => Emits.pure _)
    fun _ => Emits.pure _

theorem onlyMcap_anyStatus (checks : List (U32 × U32)) : OnlyMcap (anyStatus checks) := by
  induction checks with
  | nil => exact Emits.pure false
  | cons check checks ih =>
    exact (onlyMcap_read (by decide)).bind fun _ _ => Emits.ite (fun _ => Emits.pure _) fun _ => ih

theorem onlyMcap_fullResetFailed (e : FullResetEnv) : OnlyMcap (fullResetFailed e) := by
  refine (onlyMcap_anyStatus _).bind fun _ _ => Emits.ite (fun _ => Emits.pure _) fun _ =>
    (onlyMcap_read (by decide)).bind fun _ _ => Emits.ite (fun _ => Emits.pure _) fun _ => ?_
  exact (onlyMcap_read (by decide)).bind fun _ _ => Emits.pure _

theorem onlyMcap_mcapFullReset (e : FullResetEnv) : OnlyMcap (mcapFullReset e) := by
  refine (onlyMcap_mcapClearRequestByConfigure _).bind fun _ _ =>
    Emits.ite (fun _ => Emits.pure _) fun _ => (onlyMcap_read (by decide)).bind fun _ _ =>
      (onlyMcap_write (by decide)).bind fun _ _ => (onlyMcap_fullResetFailed e).bind fun _ _ => ?_
  exact (onlyMcap_write (by decide)).bind fun _ _ => Emits.pure _

theorem onlyMcap_completionLoop (status : ℕ → U32) (left i : ℕ) :
    OnlyMcap (completionLoop status left i) := by
  have hnoops : OnlyMcap (emitAll (List.replicate EMCAP_EOS_LOOP_COUNT
      (Access.write .MCAP_DATA EMCAP_NOOP_VAL))) := fun a ha => by
    rw [List.eq_of_mem_replicate ha]
    exact ⟨.MCAP_DATA, by decide, rfl⟩
  induction left generalizing i with
  | zero =>
    exact Emits.ite (fun _ => Emits.pure _) fun _ => hnoops.bind fun _ _ =>
      (onlyMcap_read (by decide)).bind fun _ _ => Emits.pure _
  | succ left ih =>
    exact Emits.ite (fun _ => Emits.pure _) fun _ => hnoops.bind fun _ _ =>
      (onlyMcap_read (by decide)).bind fun _ _ => ih (i + 1)

theorem onlyMcap_mcapFinish (e : McapFinishEnv) (restore : U32) :
    OnlyMcap (mcapFinish e restore) := by
  refine Emits.bind ((onlyMcap_read (by decide)).bind fun _ _ => onlyMcap_completionLoop _ _ _)
    fun _ _ => Emits.bind (Emits.ite (fun _ => Emits.pure _) fun _ => onlyMcap_anyStatus _)
      fun _ _ => ?_
  refine Emits.ite (fun _ => (onlyMcap_write (by decide)).bind fun _ _ => ?_) fun _ => Emits.pure _
  exact (onlyMcap_mcapFullReset _).bind fun _ _ => Emits.pure _

theorem onlyMcap_bitstreamMcapSetup (e : McapSetupEnv) (designSwitch : Bool) :
    OnlyMcap (bitstreamMcapSetup e designSwitch) := by
  refine (onlyMcap_mcapClearRequestByConfigure _).bind fun _ _ =>
    Emits.ite (fun _ => Emits.pure _) fun _ => (onlyMcap_anyStatus _).bind fun _ _ => ?_
  refine Emits.ite (fun _ => (onlyMcap_write (by decide)).bind fun _ _ => Emits.pure _) fun _ =>
    (onlyMcap_read (by decide)).bind fun _ _ => ?_
  exact (onlyMcap_write (by decide)).bind fun _ _ => Emits.pure _

theorem onlyMcap_bitstreamMcapHelper (wordBuffer : ℕ → U32) (n : ℕ) :
    OnlyMcap (bitstreamMcapHelper untouched wordBuffer n) := by
  intro a ha
  obtain ⟨i, -, ha⟩ := List.mem_flatMap.mp ha
  obtain rfl := List.mem_singleton.mp ha
  exact ⟨.MCAP_DATA, by decide, rfl⟩

theorem onlyMcap_bitstreamClearMcap (strings : StringEnv) (d : BitDev) :
    OnlyMcap (bitstreamClearMcap strings d) := by
  rw [bitstreamClearMcap]
  split
  · exact Emits.pure _
  · refine (onlyMcap_parseHeader _).bind fun o _ => ?_
    cases o with
    | none => exact Emits.pure _
    | some h =>
      exact Emits.ite (fun _ => Emits.pure _) fun _ =>
        (onlyMcap_bitstreamMcapHelper _ _).bind fun _ _ => Emits.pure _

end Registers

/-! ## What is read of an accepted container -/

/-- `bitstream_ioctl` can come to accept the header `h` of the primary segment. -/
def Container.AcceptsHeader (c : Container) (h : BitHeader) : Prop :=
  ∃ strings heap, (headerInBuffer strings heap fun i =>
    c.mem (c.bin.primaryFirmwareOffset + BitVec.ofNat 64 i)).Accepts
      c.bin.primaryFirmwareLength.toNat h

/-- The bounds of what `bitstream_ioctl` reads. The header is copied in one piece, and the lengths
that the header tells are taken as natural numbers. -/
def IoctlBounds (cmd : DownloadCmd) (c : Container) : Prop :=
  (cmd = .mcap ∧ c.bin.primaryFirmwareLength = 0 ∨
    c.bin.Holds .primary 0 DMA_HWICAP_BITFILE_BUFFER_SIZE ∧ ∀ h, c.AcceptsHeader h →
      c.bin.Holds .primary h.headerLength.toNat h.bitstreamLength.toNat) ∧
    c.bin.Holds .secondary 0 c.bin.secondaryFirmwareLength.toNat

section Ioctl

variable {e : BitstreamIoctlEnv} {c : Container} {d : BitDev} {h : BitHeader}

theorem inBounds_copy_zero {s : Segment} {n : ℕ} :
    (Access.copy s (c.bin.offset s) n).InBounds c.bin ↔ c.bin.Holds s 0 n := by
  rw [← inBounds_copy_iff (by norm_num), BitVec.add_zero]

theorem chunk_offset (offset : U64) (h : BitHeader) (b : ℕ) :
    offset + h.headerLength.setWidth 64 + BitVec.ofNat 64 b =
      offset + BitVec.ofNat 64 (h.headerLength.toNat + b) := by
  rw [BitVec.add_assoc, BitVec.ofNat_add, BitVec.ofNat_toNat]

/-- The chunks of a bitstream that is in bounds are. -/
theorem inBounds_chunk {b : ℕ}
    (hholds : c.bin.Holds .primary h.headerLength.toNat h.bitstreamLength.toNat)
    (hb : b < h.bitstreamLength.toNat) :
    (Access.copy .primary (c.bin.primaryFirmwareOffset + h.headerLength.setWidth 64 +
      BitVec.ofNat 64 b) (numCharsRead h.bitstreamLength.toNat b)).InBounds c.bin := by
  have hlt := h.headerLength.isLt
  have hlt' := h.bitstreamLength.isLt
  obtain ⟨-, hle, -⟩ := numCharsRead_spec hb
  rw [chunk_offset]
  refine (inBounds_copy_iff (by omega)).mpr (Or.inr ?_)
  obtain ⟨hsegment, hcontainer⟩ := hholds.resolve_left (by omega)
  omega

theorem emits_copyFromUser {s : Segment} {mem : U64 → Byte} {left n : ℕ} {offset : U64}
    (hcopy : (Access.copy s offset n).InBounds c.bin) :
    Emits (Access.InBounds c.bin) (copyFromUser s mem left offset n) :=
  (Emits.emit (inBounds_of_le hcopy (Nat.sub_le n left))).bind fun _ _ => Emits.pure _

theorem copyFromUser_zero (s : Segment) (mem : U64 → Byte) (offset : U64) (n : ℕ) :
    copyFromUser s mem 0 offset n =
      ⟨[.copy s offset n], some (some fun i => mem (offset + BitVec.ofNat 64 i))⟩ := by
  rw [copyFromUser, emit_bind, if_pos (Or.inl rfl)]
  rfl

/-- What a copy that succeeds has copied. -/
theorem eq_of_copyFromUser {s : Segment} {mem : U64 → Byte} {left n : ℕ} {offset : U64}
    {p : ℕ → Byte} (hp : (copyFromUser s mem left offset n).returned = some (some p)) :
    p = fun i => mem (offset + BitVec.ofNat 64 i) := by
  obtain ⟨-, heq⟩ := Option.ite_none_right_eq_some.mp (Option.some.inj hp)
  exact (Option.some.inj heq).symm

/-- What comes behind a copy of the segment : it failed, or has copied what is in memory. -/
theorem emits_afterCopy {α : Type} {s : Segment} {mem : U64 → Byte} {left n : ℕ} {offset : U64}
    {f : Option (ℕ → Byte) → Traced Access α} (hcopy : (Access.copy s offset n).InBounds c.bin)
    (hnone : Emits (Access.InBounds c.bin) (f none))
    (hsome : Emits (Access.InBounds c.bin) (f (some fun i => mem (offset + BitVec.ofNat 64 i)))) :
    Emits (Access.InBounds c.bin) (copyFromUser s mem left offset n >>= f) := by
  refine (emits_copyFromUser hcopy).bind fun o ho => ?_
  cases o with
  | none => exact hnone
  | some p =>
    obtain rfl := eq_of_copyFromUser ho
    exact hsome

theorem emits_of_onlyMcap {α : Type} {bin : XclBin} {x : Traced Access α} (hx : OnlyMcap x) :
    Emits (Access.InBounds bin) x :=
  hx.mono fun _ h => inBounds_of_reg h.reg_ne_none

theorem emits_stashSecondary (err : ℤ)
    (hholds : c.bin.Holds .secondary 0 c.bin.secondaryFirmwareLength.toNat) :
    Emits (Access.InBounds c.bin) (stashSecondary e c err d) := by
  refine Emits.ite (fun _ => Emits.pure _) fun _ => Emits.ite (fun _ => Emits.pure _) fun _ =>
    emits_afterCopy (inBounds_copy_zero.mpr hholds) (Emits.pure _) (Emits.pure _)

/-- A download emits what its copies do, and accesses to the HWICAP. -/
theorem emits_icapDownload {e : IcapEnv} {header : HeaderEnv} {length : ℕ} {P : Access → Prop}
    {fetches : BitHeader → ℕ → ℕ → Traced Access (Option (ℕ → Byte))}
    (hreg : ∀ a : Access, a.Hwicap → P a)
    (hfetch : ∀ h, header.Accepts length h → ∀ b < h.bitstreamLength.toNat,
      Emits P (fetches h b (numCharsRead h.bitstreamLength.toNat b))) :
    Emits P (icapDownload e header length fetches) := by
  by_cases hex : ∃ h, header.Accepts length h
  · obtain ⟨h, hacc⟩ := hex
    rw [icapDownload_of_accepts hacc]
    refine Emits.bind (Emits.untilLeft fun b hb => ?_) fun o _ => ?_
    · refine (hfetch h hacc b ((byteReads_spec _ _).2 b hb).2.1).bind fun o _ => ?_
      cases o with
      | none => exact Emits.pure _
      | some p =>
        exact
          ((emits_bitstreamIcapHelper _ _ _).mono fun a ha => hreg a (Or.inl ha)).bind fun err _ =>
          Emits.ite (fun _ => Emits.pure _) fun _ => Emits.pure _
    · cases o with
      | none => exact (emits_waitForDone e).mono hreg
      | some err => exact Emits.pure _
  · rcases icapDownload_of_not_accepts e fetches (not_exists.mp hex) with
      ⟨-, heq⟩ | ⟨-, heq⟩
    · rw [heq]
      exact Emits.stop
    · rw [heq]
      exact Emits.pure _

theorem emits_bitstreamClearIcap (icap : IcapEnv) (strings : StringEnv) (d : BitDev) :
    Emits Access.Hwicap (bitstreamClearIcap icap strings d) := by
  rw [bitstreamClearIcap]
  split
  · exact Emits.pure _
  · refine Emits.bind (Emits.ite (fun _ => Emits.stop) fun _ => ?_) fun _ _ => Emits.pure _
    exact emits_icapDownload (fun _ h => h) fun _ _ _ _ => Emits.pure _

/-- A download of the primary segment that is in bounds reads it in bounds. -/
theorem emits_bitstreamIoctlIcap {icap : IcapIoctlEnv}
    (hheader : c.bin.Holds .primary 0 DMA_HWICAP_BITFILE_BUFFER_SIZE)
    (hbits : ∀ h, c.AcceptsHeader h →
      c.bin.Holds .primary h.headerLength.toNat h.bitstreamLength.toNat) :
    Emits (Access.InBounds c.bin) (bitstreamIoctlIcap icap c.mem c.bin.primaryFirmwareOffset
      c.bin.primaryFirmwareLength d) := by
  refine (emits_freezeAXIGate (fun _ => inBounds_of_reg) fun _ => trivial).bind fun d _ =>
    ((emits_bitstreamClearIcap _ _ d).mono fun _ h => inBounds_of_reg h.reg_ne_none).bind
      fun r _ => ?_
  refine Emits.bind (Emits.ite (fun _ => Emits.pure _) fun _ => ?_) fun err _ =>
    (emits_freeAXIGate (fun _ => inBounds_of_reg) fun _ => trivial).bind fun _ _ => Emits.pure _
  refine Emits.ite (fun _ => Emits.pure _) fun _ =>
    emits_afterCopy (inBounds_copy_zero.mpr hheader) (Emits.pure _) ?_
  exact emits_icapDownload (fun _ ha => inBounds_of_reg ha.reg_ne_none) fun h hacc b hb =>
    emits_copyFromUser (inBounds_chunk (hbits h ⟨_, _, hacc⟩) hb)

theorem emits_writePrimary {mcap : McapIoctlEnv}
    (hholds : c.bin.Holds .primary h.headerLength.toNat h.bitstreamLength.toNat) :
    Emits (Access.InBounds c.bin)
      (writePrimary mcap c.mem c.bin.primaryFirmwareOffset h d) := by
  refine (emits_of_onlyMcap (onlyMcap_bitstreamMcapSetup _ _)).bind fun err _ =>
    Emits.ite (fun _ => Emits.pure _) fun _ =>
      (emits_of_onlyMcap (onlyMcap_bitstreamClearMcap _ d)).bind fun r _ =>
        Emits.ite (fun _ => Emits.pure _) fun _ => Emits.bind (Emits.untilLeft fun b hb => ?_) ?_
  · have hb := ((byteReads_spec _ _).2 b hb).2.1
    exact emits_afterCopy (inBounds_chunk hholds hb) (Emits.pure _)
      ((emits_of_onlyMcap (onlyMcap_bitstreamMcapHelper _ _)).bind fun _ _ => Emits.pure _)
  · intro o _
    cases o with
    | none => exact (emits_of_onlyMcap (onlyMcap_mcapFinish _ _)).bind fun _ _ => Emits.pure _
    | some err => exact Emits.pure _

/-- So does a download through the MCAP. -/
theorem emits_bitstreamIoctlMcap {mcap : McapIoctlEnv} {address : U64}
    (hheader : c.bin.Holds .primary 0 DMA_HWICAP_BITFILE_BUFFER_SIZE)
    (hbits : ∀ h, c.AcceptsHeader h →
      c.bin.Holds .primary h.headerLength.toNat h.bitstreamLength.toNat) :
    Emits (Access.InBounds c.bin) (bitstreamIoctlMcap mcap c.mem address
      c.bin.primaryFirmwareOffset c.bin.primaryFirmwareLength d) := by
  refine Emits.ite (fun _ => Emits.pure _) fun _ =>
    (emits_freezeAXIGate (fun _ => inBounds_of_reg) fun _ => trivial).bind fun d _ =>
      Emits.bind ?_ fun r _ => (emits_freeAXIGate (fun _ => inBounds_of_reg)
        fun _ => trivial).bind fun _ _ => Emits.pure _
  refine Emits.ite (fun _ => Emits.pure _) fun _ =>
    emits_afterCopy (inBounds_copy_zero.mpr hheader) (Emits.pure _) ?_
  refine (emits_of_onlyMcap (onlyMcap_parseHeader _)).bind fun o ho => ?_
  cases o with
  | none => exact Emits.pure _
  | some h =>
    refine Emits.ite (fun _ => Emits.pure _) fun hfits => ?_
    have hacc : c.AcceptsHeader h := ⟨_, _, ok_of_parseHeader ho, not_lt.mp hfits⟩
    refine Emits.bind (emits_writePrimary (hbits h hacc)) fun r _ =>
      (emits_of_onlyMcap (onlyMcap_write (by decide))).bind fun _ _ => Emits.pure _

/-- What `bitstream_ioctl` reads of a container in bounds is in bounds. -/
theorem emits_bitstreamIoctl {cmd : DownloadCmd} (hbounds : IoctlBounds cmd c) :
    Emits (Access.InBounds c.bin) (bitstreamIoctl e cmd c d) := by
  obtain ⟨hprimary, hsecondary⟩ := hbounds
  refine Emits.ite (fun _ => Emits.pure _) fun _ => Emits.ite (fun _ => Emits.pure _) fun _ =>
    Emits.ite (fun _ => Emits.pure _) fun _ => Emits.ite (fun _ => Emits.pure _) fun _ =>
      Emits.ite (fun _ => Emits.pure _) fun _ => ?_
  cases cmd with
  | icap =>
    obtain ⟨hheader, hbits⟩ := hprimary.resolve_left fun h => nomatch h.1
    exact (emits_bitstreamIoctlIcap hheader hbits).bind fun r _ =>
      emits_stashSecondary _ hsecondary
  | mcap =>
    refine Emits.bind ?_ fun r _ => emits_stashSecondary _ hsecondary
    rcases hprimary with ⟨-, hlen⟩ | ⟨hheader, hbits⟩
    · rw [bitstreamIoctlMcap, if_pos (Or.inr hlen)]
      exact Emits.pure _
    · exact emits_bitstreamIoctlMcap hheader hbits
  | other => exact Emits.pure _

end Ioctl

/-! ## That it is read -/

theorem exists_last_byteReads {total : ℕ} (htotal : 0 < total) :
    ∃ b ∈ byteReads total 0, b + numCharsRead total b = total := by
  suffices h : ∀ b, b < total → ∃ b' ∈ byteReads total b, b' + numCharsRead total b' = total from
    h 0 htotal
  intro b
  induction b using byteReads.induct total with
  | case1 b hb ih =>
    intro _
    rw [byteReads, if_pos hb]
    by_cases hlast : b + numCharsRead total b < total
    · obtain ⟨b', hb', heq⟩ := ih hlast
      exact ⟨b', List.mem_cons_of_mem b hb', heq⟩
    · have := (numCharsRead_spec hb).2.1
      exact ⟨b, List.mem_cons_self, by omega⟩
  | case2 b hb => exact fun h => absurd h hb

/-- If all chunks of a bitstream are in bounds, so is the bitstream. -/
theorem holds_of_chunks {c : Container} {h : BitHeader}
    (hchunks : ∀ b ∈ byteReads h.bitstreamLength.toNat 0,
      (Access.copy .primary (c.bin.primaryFirmwareOffset + h.headerLength.setWidth 64 +
        BitVec.ofNat 64 b) (numCharsRead h.bitstreamLength.toNat b)).InBounds c.bin) :
    c.bin.Holds .primary h.headerLength.toNat h.bitstreamLength.toNat := by
  have hlt := h.headerLength.isLt
  have hlt' := h.bitstreamLength.isLt
  rcases Nat.eq_zero_or_pos h.bitstreamLength.toNat with hzero | hpos
  · exact Or.inl hzero
  obtain ⟨b, hb, hlast⟩ := exists_last_byteReads hpos
  have hcopy := hchunks b hb
  have := (numCharsRead_spec ((byteReads_spec _ _).2 b hb).2.1).1
  rw [chunk_offset] at hcopy
  obtain ⟨hsegment, hcontainer⟩ :=
    ((inBounds_copy_iff (by omega)).mp hcopy).resolve_left (by omega)
  exact Or.inr (by omega)

/-- The MCAP is idle, and done when it is asked. -/
def readySetup : McapSetupEnv :=
  ⟨⟨0, 0, fun _ => 0⟩, 0, 0, 0, 0⟩

def readyFinish : McapFinishEnv :=
  ⟨fun _ => MCAP_STS_EOS_MASK, 0, 0, ⟨⟨0, 0, fun _ => 0⟩, 0, 0, 0, 0⟩⟩

/-- The kernel does all it is asked to, but for the buffer of the header. -/
def readyEnv (kmalloc : Bool) (xclbin : U64) (strings : StringEnv) (heap : U32 → Byte) :
    BitstreamIoctlEnv where
  argLeft := 0
  xclbin := xclbin
  binLeft := 0
  accessOk := true
  icap := ⟨readyFifo, strings, kmalloc, 0, heap, strings, fun _ => 0, readyFifo⟩
  mcap := ⟨kmalloc, 0, heap, strings, readySetup, strings, fun _ => 0, readyFinish⟩
  vmalloc := true
  stashLeft := 0
  vmallocRest _ := 0

section Ready

variable {c : Container} {kmalloc : Bool} {xclbin : U64} {strings : StringEnv}
  {heap : U32 → Byte} {h : BitHeader} {d : BitDev}

variable (kmalloc xclbin strings heap) in
theorem accepts_readyEnv (hmagic : c.bin.magic = xclbin0) (hfit : c.bin.segmentsFit = true) :
    (readyEnv kmalloc xclbin strings heap).accepts c.bin = true := by
  simp [BitstreamIoctlEnv.accepts, readyEnv, hmagic, hfit]

theorem mem_stashSecondary {err : ℤ} (hlen : c.bin.secondaryFirmwareLength ≠ 0) :
    Access.copy .secondary c.bin.secondaryFirmwareOffset c.bin.secondaryFirmwareLength.toNat ∈
      (stashSecondary (readyEnv kmalloc xclbin strings heap) c err d).events := by
  rw [stashSecondary, if_neg hlen, if_neg (by simp [readyEnv])]
  exact mem_events_bind.mpr (Or.inl (mem_events_bind.mpr (Or.inl List.mem_cons_self)))

/-- The copies of a download through the HWICAP. -/
theorem mem_downloadPrimary :
    Access.copy .primary c.bin.primaryFirmwareOffset DMA_HWICAP_BITFILE_BUFFER_SIZE ∈
      (downloadPrimary (readyEnv true xclbin strings heap).icap c.mem c.bin.primaryFirmwareOffset
        c.bin.primaryFirmwareLength).events ∧
    ∀ h, ((readyEnv true xclbin strings heap).icap.header c.mem
        c.bin.primaryFirmwareOffset).Accepts c.bin.primaryFirmwareLength.toNat h →
      ∀ b ∈ byteReads h.bitstreamLength.toNat 0,
        Access.copy .primary (c.bin.primaryFirmwareOffset + h.headerLength.setWidth 64 +
          BitVec.ofNat 64 b) (numCharsRead h.bitstreamLength.toNat b) ∈
            (downloadPrimary (readyEnv true xclbin strings heap).icap c.mem
              c.bin.primaryFirmwareOffset c.bin.primaryFirmwareLength).events := by
  rw [downloadPrimary_of_copied rfl rfl, emit_bind]
  refine ⟨List.mem_cons_self, fun h hacc b hb => List.mem_cons_of_mem _ ?_⟩
  rw [icapDownload_of_accepts hacc]
  refine mem_events_bind.mpr (Or.inl ?_)
  have hfetch := fetches_copyFromUser
    (e := (readyEnv true xclbin strings heap).icap) c.mem c.bin.primaryFirmwareOffset h
  have hloop := (icapChunks_eq_none (e := readyFifo) h.bitstreamLength.toNat
    hfetch).mpr fun b _ => ⟨rfl, fun ⟨t, _, hnot⟩ => hnot (takes_readyFifo b t)⟩
  rw [icapChunks, untilLeft_eq_none (icapChunk_ne_none hfetch)] at hloop
  have hevents := events_untilLeft hloop
  rw [icapChunks]
  refine hevents ▸ List.mem_flatMap.mpr ⟨b, hb, ?_⟩
  exact mem_events_bind.mpr (Or.inl (mem_events_bind.mpr (Or.inl List.mem_cons_self)))

theorem returned_readySetup (designSwitch : Bool) :
    (bitstreamMcapSetup readySetup designSwitch).returned = some 0 := by
  cases designSwitch <;> rfl

theorem returned_readyFinish (restore : U32) :
    (mcapFinish readyFinish restore).returned = some 0 := by
  rfl

/-- The chunks that are written through the MCAP. -/
theorem mem_writePrimary (h : BitHeader) {b : ℕ} (hb : b ∈ byteReads h.bitstreamLength.toNat 0) :
    Access.copy .primary (c.bin.primaryFirmwareOffset + h.headerLength.setWidth 64 +
      BitVec.ofNat 64 b) (numCharsRead h.bitstreamLength.toNat b) ∈
        (writePrimary (readyEnv true xclbin strings heap).mcap c.mem c.bin.primaryFirmwareOffset h
          ⟨true, none⟩).events := by
  have hchunks : ∀ b ∈ byteReads h.bitstreamLength.toNat 0,
      (mcapChunk (readyEnv true xclbin strings heap).mcap c.mem
        (c.bin.primaryFirmwareOffset + h.headerLength.setWidth 64)
        h.bitstreamLength.toNat b).returned = some none := fun b _ => by
    rw [mcapChunk, show (readyEnv true xclbin strings heap).mcap.chunkLeft b = 0 from rfl,
      copyFromUser_zero]
    rfl
  refine mem_events_bind.mpr (Or.inr ⟨0, returned_readySetup false, ?_⟩)
  rw [if_neg (not_not.mpr rfl)]
  refine mem_events_bind.mpr (Or.inr ⟨(0, ⟨true, none⟩), rfl, ?_⟩)
  simp only [ne_eq, not_true_eq_false, if_false]
  refine mem_events_bind.mpr (Or.inl ?_)
  rw [events_untilLeft hchunks]
  refine List.mem_flatMap.mpr ⟨b, hb, ?_⟩
  exact mem_events_bind.mpr (Or.inl (mem_events_bind.mpr (Or.inl List.mem_cons_self)))

/-- The copies of a download through the MCAP. -/
theorem mem_mcapPrimary :
    Access.copy .primary c.bin.primaryFirmwareOffset DMA_HWICAP_BITFILE_BUFFER_SIZE ∈
      (mcapPrimary (readyEnv true xclbin strings heap).mcap c.mem c.bin.primaryFirmwareOffset
        c.bin.primaryFirmwareLength ⟨true, none⟩).events ∧
    ∀ h, ((readyEnv true xclbin strings heap).icap.header c.mem
        c.bin.primaryFirmwareOffset).Accepts c.bin.primaryFirmwareLength.toNat h →
      ∀ b ∈ byteReads h.bitstreamLength.toNat 0,
        Access.copy .primary (c.bin.primaryFirmwareOffset + h.headerLength.setWidth 64 +
          BitVec.ofNat 64 b) (numCharsRead h.bitstreamLength.toNat b) ∈
            (mcapPrimary (readyEnv true xclbin strings heap).mcap c.mem
              c.bin.primaryFirmwareOffset c.bin.primaryFirmwareLength ⟨true, none⟩).events := by
  rw [mcapPrimary, if_neg (by simp [readyEnv]),
    show (readyEnv true xclbin strings heap).mcap.headerLeft = 0 from rfl, copyFromUser_zero,
    bind_of_returned rfl]
  refine ⟨List.mem_cons_self, fun h hacc b hb => List.mem_cons_of_mem _ ?_⟩
  obtain ⟨⟨n, hparse⟩, hfits⟩ := hacc
  refine mem_events_bind.mpr (Or.inr ⟨some h, ?_, ?_⟩)
  · exact congrArg Traced.returned (parseHeader_of_ok hparse)
  · dsimp only
    rw [if_neg (not_lt.mpr hfits)]
    exact mem_events_bind.mpr (Or.inl (mem_writePrimary h hb))

/-- What is read for the primary segment. -/
theorem mem_bitstreamIoctl (strings : StringEnv) (heap : U32 → Byte) {cmd : DownloadCmd}
    (hcmd : cmd ≠ .other)
    (hmagic : c.bin.magic = xclbin0) (hfit : c.bin.segmentsFit = true)
    (hread : ¬(cmd = .mcap ∧ c.bin.primaryFirmwareLength = 0)) {a : Access}
    (hicap : a ∈ (downloadPrimary (readyEnv true (1 - c.bin.primaryFirmwareOffset) strings
      heap).icap c.mem c.bin.primaryFirmwareOffset c.bin.primaryFirmwareLength).events)
    (hmcap : a ∈ (mcapPrimary (readyEnv true (1 - c.bin.primaryFirmwareOffset) strings heap).mcap
      c.mem c.bin.primaryFirmwareOffset c.bin.primaryFirmwareLength ⟨true, none⟩).events) :
    a ∈ (bitstreamIoctl (readyEnv true (1 - c.bin.primaryFirmwareOffset) strings heap) cmd c
      ⟨false, none⟩).events := by
  have hacc := accepts_readyEnv true (1 - c.bin.primaryFirmwareOffset) strings heap hmagic hfit
  cases cmd with
  | icap =>
    rw [bitstreamIoctl_of_cleared hacc (returned_clearing_of_no_stash rfl rfl), afterClearing_zero]
    exact List.mem_append_right _ (mem_events_bind.mpr (Or.inl hicap))
  | mcap =>
    have haddress : (readyEnv true (1 - c.bin.primaryFirmwareOffset) strings heap).xclbin +
        c.bin.primaryFirmwareOffset ≠ 0 := by
      rw [readyEnv, BitVec.sub_add_cancel]
      decide
    rw [bitstreamIoctl_of_accepts hacc, bitstreamIoctlMcap,
      if_neg (not_or.mpr ⟨haddress, fun h => hread ⟨rfl, h⟩⟩)]
    refine mem_events_bind.mpr (Or.inl (mem_events_bind.mpr (Or.inr ⟨⟨true, none⟩, rfl, ?_⟩)))
    exact mem_events_bind.mpr (Or.inl hmcap)
  | other => exact absurd rfl hcmd

/-- What is read for the secondary segment, whatever becomes of the primary. -/
theorem mem_bitstreamIoctl_secondary {cmd : DownloadCmd} (hcmd : cmd ≠ .other)
    (hmagic : c.bin.magic = xclbin0) (hfit : c.bin.segmentsFit = true)
    (hlen : c.bin.secondaryFirmwareLength ≠ 0) :
    Access.copy .secondary c.bin.secondaryFirmwareOffset c.bin.secondaryFirmwareLength.toNat ∈
      (bitstreamIoctl (readyEnv false xclbin strings heap) cmd c ⟨false, none⟩).events := by
  have hacc := accepts_readyEnv false xclbin strings heap hmagic hfit
  rw [bitstreamIoctl_of_accepts hacc]
  cases cmd with
  | icap => exact mem_events_bind.mpr (Or.inr ⟨_, rfl, mem_stashSecondary hlen⟩)
  | mcap =>
    refine mem_events_bind.mpr (Or.inr ?_)
    rw [bitstreamIoctlMcap]
    split
    · exact ⟨_, rfl, mem_stashSecondary hlen⟩
    · exact ⟨_, rfl, mem_stashSecondary hlen⟩
  | other => exact absurd rfl hcmd

end Ready

/-- A container is in bounds if all that `bitstream_ioctl` can come to read of it is. -/
theorem ioctlBounds_of_emits {c : Container} {cmd : DownloadCmd} (hcmd : cmd ≠ .other)
    (hmagic : c.bin.magic = xclbin0) (hfit : c.bin.segmentsFit = true)
    (hall : ∀ e d, Emits (Access.InBounds c.bin) (bitstreamIoctl e cmd c d)) :
    IoctlBounds cmd c := by
  have hsecondary : c.bin.Holds .secondary 0 c.bin.secondaryFirmwareLength.toNat := by
    rcases eq_or_ne c.bin.secondaryFirmwareLength 0 with hzero | hne
    · exact Or.inl (by rw [hzero]; rfl)
    · exact inBounds_copy_zero.mp (hall (readyEnv false 0 ⟨fun _ => true, fun _ => none⟩
        fun _ => 0) ⟨false, none⟩ _ (mem_bitstreamIoctl_secondary hcmd hmagic hfit hne))
  refine ⟨?_, hsecondary⟩
  by_cases hskip : cmd = .mcap ∧ c.bin.primaryFirmwareLength = 0
  · exact Or.inl hskip
  have hread (strings : StringEnv) (heap : U32 → Byte) (a : Access) :=
    mem_bitstreamIoctl strings heap (a := a) hcmd hmagic hfit hskip
  refine Or.inr ⟨?_, fun h ⟨strings, heap, hacc⟩ => holds_of_chunks fun b hb => ?_⟩
  · exact inBounds_copy_zero.mp (hall _ _ _ (hread ⟨fun _ => true, fun _ => none⟩ (fun _ => 0) _
      mem_downloadPrimary.1 mem_mcapPrimary.1))
  · exact hall _ _ _ (hread strings heap _ (mem_downloadPrimary.2 h hacc b hb)
      (mem_mcapPrimary.2 h hacc b hb))

/-! ## The firmware -/

/-- What the parser is given of the primary segment of a firmware file. -/
def Container.firmwareHeader (c : Container) (strings : StringEnv) : HeaderEnv :=
  ⟨strings, fun i => c.mem (c.bin.primaryFirmwareOffset + i.setWidth 64)⟩

/-- `bitstream_mcap` accepts the header `h` of the primary segment, whose length it is given in
32 bits. -/
def Container.FirmwareAccepts (c : Container) (strings : StringEnv) (h : BitHeader) : Prop :=
  c.bin.primaryFirmwareLength.setWidth 32 ≠ (0 : U32) ∧ (c.firmwareHeader strings).Accepts
    (c.bin.primaryFirmwareLength.setWidth 32 : U32).toNat h

/-- The bounds of what `load_boot_firmware` reads : the header byte by byte, the whole words of the
bitstream, and as much of the secondary segment as its length has in 32 bits. -/
def FirmwareBounds (c : Container) : Prop :=
  (∀ strings h, c.FirmwareAccepts strings h →
    c.bin.Holds .primary 0 h.headerLength.toNat ∧
      c.bin.Holds .primary h.headerLength.toNat (4 * (h.bitstreamLength.toNat / 4))) ∧
    (c.bin.primaryFirmwareLength = 0 ∨ (∃ strings h, c.FirmwareAccepts strings h) →
      c.bin.Holds .secondary 0 (c.bin.secondaryFirmwareLength.setWidth 32 : U32).toNat)

section Firmware

variable {c : Container} {e : FirmwareEnv} {mcap : McapEnv} {d : BitDev} {strings : StringEnv}
  {h : BitHeader} {size : U64}

/-- The bytes of an accepted header are read one by one, and then the bitstream is written. -/
theorem bitstreamMcap_of_accepts (hacc : c.FirmwareAccepts mcap.strings h) :
    bitstreamMcap mcap c.mem c.bin.primaryFirmwareOffset (c.bin.primaryFirmwareLength.setWidth 32) =
      emitAll ((List.range h.headerLength.toNat).map fun i =>
          .copy .primary (c.bin.primaryFirmwareOffset + BitVec.ofNat 64 i) 1) >>= fun _ =>
        writeStage2 mcap c.mem (c.bin.primaryFirmwareOffset + h.headerLength.setWidth 64) h := by
  obtain ⟨hlen, ⟨n, hparse⟩, hfits⟩ := hacc
  obtain rfl : h.headerLength.toNat = n := yields_bitstreamParseHeader hparse
  have hlt := h.headerLength.isLt
  have htouch : (List.range h.headerLength.toNat).flatMap (fun i => [Access.copy .primary
      (c.bin.primaryFirmwareOffset + (BitVec.ofNat 32 i).setWidth 64) 1]) =
        (List.range h.headerLength.toNat).map fun i =>
          .copy .primary (c.bin.primaryFirmwareOffset + BitVec.ofNat 64 i) 1 := by
    rw [← List.map_eq_flatMap]
    refine List.map_congr_left fun i hi => ?_
    have := List.mem_range.mp hi
    rw [BitVec.setWidth_ofNat_of_le_of_lt (by norm_num) (by omega)]
  rw [Container.firmwareHeader] at hparse
  rw [bitstreamMcap, if_neg hlen, parseHeader_of_ok hparse, htouch, bind_of_returned rfl,
    emitAll_bind]
  dsimp only
  rw [if_neg (not_lt.mpr hfits)]

/-- The firmware file is accepted as far as its bitstream goes. -/
def FirmwareAccepted (e : FirmwareEnv) (c : Container) : Prop :=
  c.bin.primaryFirmwareLength ≠ 0 → ∃ h, c.FirmwareAccepts e.mcap.strings h

theorem emits_writeStage2
    (hholds : c.bin.Holds .primary h.headerLength.toNat (4 * (h.bitstreamLength.toNat / 4))) :
    Emits (Access.InBounds c.bin) (writeStage2 mcap c.mem
      (c.bin.primaryFirmwareOffset + h.headerLength.setWidth 64) h) := by
  refine (emits_of_onlyMcap (onlyMcap_bitstreamMcapSetup _ _)).bind fun err _ =>
    Emits.ite (fun _ => Emits.pure _) fun _ => Emits.bind ?_ fun _ _ =>
      (emits_of_onlyMcap (onlyMcap_mcapFinish _ _)).bind fun err _ => ?_
  · intro a ha
    obtain ⟨i, hi, ha⟩ := List.mem_flatMap.mp ha
    have hlt := List.mem_range.mp hi
    have hH := h.headerLength.isLt
    have hB := h.bitstreamLength.isLt
    rcases List.mem_append.mp ha with ha | ha
    · obtain rfl := List.mem_singleton.mp ha
      obtain ⟨hsegment, hcontainer⟩ := hholds.resolve_left (by omega)
      rw [chunk_offset]
      exact (inBounds_copy_iff (by omega)).mpr (Or.inr (by omega))
    · obtain rfl := List.mem_singleton.mp ha
      trivial
  · exact Emits.ite (fun _ => Emits.pure _) fun _ =>
      (emits_of_onlyMcap (onlyMcap_write (by decide))).bind fun _ _ => Emits.pure _

/-- The primary segment of a firmware file in bounds is read in bounds. -/
theorem emits_loadPrimary (hbounds : FirmwareBounds c) (haccepted : FirmwareAccepted e c) :
    Emits (Access.InBounds c.bin) (loadPrimary e c d) := by
  refine Emits.ite (fun _ => Emits.pure _) fun hlen => Emits.bind ?_ fun _ _ => Emits.pure _
  obtain ⟨h, hacc⟩ := haccepted hlen
  obtain ⟨hheader, hbits⟩ := hbounds.1 _ h hacc
  rw [bitstreamMcap_of_accepts hacc]
  refine Emits.bind (fun a ha => ?_) fun _ _ => emits_writeStage2 hbits
  obtain ⟨i, hi, rfl⟩ := List.mem_map.mp ha
  have hlt := List.mem_range.mp hi
  have hH := h.headerLength.isLt
  obtain ⟨hsegment, hcontainer⟩ := hheader.resolve_left (by omega)
  exact (inBounds_copy_iff (by omega)).mpr (Or.inr (by omega))

/-- What `load_boot_firmware` reads of a firmware file in bounds is in bounds. -/
theorem emits_loadBootFirmware (hbounds : FirmwareBounds c) (hfw : e.firmware = some ⟨c, size⟩)
    (haccepted : FirmwareAccepted e c) :
    Emits (Access.InBounds c.bin) (loadBootFirmware e d) := by
  have hsecondary : c.bin.Holds .secondary 0
      (c.bin.secondaryFirmwareLength.setWidth 32 : U32).toNat := by
    refine hbounds.2 (or_iff_not_imp_left.mpr fun hlen => ?_)
    obtain ⟨h, hacc⟩ := haccepted hlen
    exact ⟨_, h, hacc⟩
  rw [loadBootFirmware, hfw]
  refine Emits.ite (fun _ => Emits.pure _) fun _ => Emits.ite (fun _ => Emits.pure _) fun _ =>
    (emits_loadPrimary hbounds haccepted).bind fun r _ => Emits.ite (fun _ => Emits.pure _) fun _ =>
      Emits.bind ?_ fun r _ => Emits.ite (fun _ => Emits.pure _) fun _ => ?_
  · refine Emits.ite (fun _ => Emits.ite (fun _ => Emits.pure _) fun _ => ?_) fun _ => Emits.pure _
    exact (Emits.emit (inBounds_copy_zero.mpr hsecondary)).bind fun _ _ => Emits.pure _
  · rw [checkStash]
    split
    · exact Emits.pure _
    · refine (emits_of_onlyMcap (onlyMcap_parseHeader _)).bind fun o _ => ?_
      cases o with
      | none => exact Emits.pure _
      | some h => exact Emits.pure _

/-- The file is found, and the kernel and the MCAP do all they are asked to. -/
def readyFirmware (c : Container) (size : U64) (strings : StringEnv) : FirmwareEnv where
  requestFirmware _ := some ⟨c, size⟩
  mcap := ⟨strings, readySetup, readyFinish⟩
  vmalloc := true
  vmallocRest _ := 0
  stashStrings := strings

theorem writeStage2_ready (strings : StringEnv) (mem : U64 → Byte) (data : U64) (h : BitHeader) :
    (writeStage2 ⟨strings, readySetup, readyFinish⟩ mem data h).returned = some 0 ∧
      ∀ i < h.bitstreamLength.toNat / 4, Access.copy .primary (data + BitVec.ofNat 64 (4 * i)) 4 ∈
        (writeStage2 ⟨strings, readySetup, readyFinish⟩ mem data h).events := by
  rw [writeStage2, bind_of_returned (returned_readySetup true), if_neg (not_not.mpr rfl)]
  refine ⟨?_, fun i hi => List.mem_append_right _ (mem_events_bind.mpr (Or.inl ?_))⟩
  · rw [bitstreamMcapHelper, emitAll_bind, bind_of_returned (returned_readyFinish _)]
    rfl
  · exact List.mem_flatMap.mpr ⟨i, List.mem_range.mpr hi, List.mem_cons_self⟩

variable (size) in
/-- The bitstream of an accepted header is written, and read for it. -/
theorem loadPrimary_readyFirmware (hlen : c.bin.primaryFirmwareLength ≠ 0)
    (hacc : c.FirmwareAccepts strings h) :
    (loadPrimary (readyFirmware c size strings) c ⟨false, none⟩).returned =
      some (0, ⟨false, none⟩) ∧
    (∀ i < h.headerLength.toNat,
      Access.copy .primary (c.bin.primaryFirmwareOffset + BitVec.ofNat 64 i) 1 ∈
        (loadPrimary (readyFirmware c size strings) c ⟨false, none⟩).events) ∧
    ∀ i < h.bitstreamLength.toNat / 4, Access.copy .primary (c.bin.primaryFirmwareOffset +
        h.headerLength.setWidth 64 + BitVec.ofNat 64 (4 * i)) 4 ∈
          (loadPrimary (readyFirmware c size strings) c ⟨false, none⟩).events := by
  obtain ⟨hreturned, hcopies⟩ := writeStage2_ready strings c.mem
    (c.bin.primaryFirmwareOffset + h.headerLength.setWidth 64) h
  have hmcap : bitstreamMcap (readyFirmware c size strings).mcap c.mem c.bin.primaryFirmwareOffset
      (c.bin.primaryFirmwareLength.setWidth 32) = _ := bitstreamMcap_of_accepts hacc
  rw [loadPrimary, if_neg hlen, hmcap, emitAll_bind]
  refine ⟨?_, fun i hi => ?_, fun i hi => ?_⟩
  · exact congrArg (Option.bind · _) hreturned
  · refine mem_events_bind.mpr (Or.inl (List.mem_append_left _ ?_))
    exact List.mem_map.mpr ⟨i, List.mem_range.mpr hi, rfl⟩
  · exact mem_events_bind.mpr (Or.inl (List.mem_append_right _ (hcopies i hi)))

/-- The secondary segment is read once the primary is loaded, if there is one. -/
theorem mem_loadBootFirmware (hsize : c.bin.length ≤ size) (hfit : c.bin.segmentsFit = true) :
    (∀ a ∈ (loadPrimary (readyFirmware c size strings) c ⟨false, none⟩).events,
      a ∈ (loadBootFirmware (readyFirmware c size strings) ⟨false, none⟩).events) ∧
    ((loadPrimary (readyFirmware c size strings) c ⟨false, none⟩).returned =
        some (0, ⟨false, none⟩) → c.bin.secondaryFirmwareLength ≠ 0 →
      Access.copy .secondary c.bin.secondaryFirmwareOffset
        (c.bin.secondaryFirmwareLength.setWidth 32 : U32).toNat ∈
          (loadBootFirmware (readyFirmware c size strings) ⟨false, none⟩).events) := by
  have hfw : (readyFirmware c size strings).firmware = some ⟨c, size⟩ := rfl
  have hfits : ¬c.bin.length > size := BitVec.not_lt.mpr hsize
  rw [loadBootFirmware, hfw]
  dsimp only
  rw [if_neg hfits, if_neg (not_not.mpr hfit)]
  refine ⟨fun a ha => mem_events_bind.mpr (Or.inl ha), fun hreturned hlen => ?_⟩
  refine mem_events_bind.mpr (Or.inr ⟨_, hreturned, ?_⟩)
  simp only [ne_eq, not_true_eq_false, if_false]
  refine mem_events_bind.mpr (Or.inl ?_)
  rw [stashFirmware, if_pos ⟨hlen, Or.inr rfl⟩, if_neg (by simp [readyFirmware])]
  exact mem_events_bind.mpr (Or.inl List.mem_cons_self)

/-- A container is in bounds if all that `load_boot_firmware` can come to read of it is. -/
theorem firmwareBounds_of_emits (hsize : c.bin.length ≤ size) (hfit : c.bin.segmentsFit = true)
    (hall : ∀ e d, e.firmware = some ⟨c, size⟩ → FirmwareAccepted e c →
      Emits (Access.InBounds c.bin) (loadBootFirmware e d)) :
    FirmwareBounds c := by
  have hread (strings : StringEnv) (haccepted : FirmwareAccepted (readyFirmware c size strings) c)
      {a : Access}
      (ha : a ∈ (loadBootFirmware (readyFirmware c size strings) ⟨false, none⟩).events) :
      a.InBounds c.bin := hall _ ⟨false, none⟩ rfl haccepted a ha
  have hsecondary (strings : StringEnv)
      (haccepted : FirmwareAccepted (readyFirmware c size strings) c)
      (hreturned : (loadPrimary (readyFirmware c size strings) c ⟨false, none⟩).returned =
        some (0, ⟨false, none⟩)) :
      c.bin.Holds .secondary 0 (c.bin.secondaryFirmwareLength.setWidth 32 : U32).toNat := by
    rcases eq_or_ne c.bin.secondaryFirmwareLength 0 with hzero | hne
    · exact Or.inl (by rw [hzero]; rfl)
    · exact inBounds_copy_zero.mp (hread strings haccepted
        ((mem_loadBootFirmware hsize hfit).2 hreturned hne))
  have hnonzero {strings : StringEnv} {h : BitHeader} (hacc : c.FirmwareAccepts strings h) :
      c.bin.primaryFirmwareLength ≠ 0 := fun hzero => hacc.1 (by rw [hzero]; rfl)
  refine ⟨fun strings h hacc => ?_, ?_⟩
  · obtain ⟨-, hheader, hbits⟩ := loadPrimary_readyFirmware size (hnonzero hacc) hacc
    have hin {a : Access} (ha : a ∈
        (loadPrimary (readyFirmware c size strings) c ⟨false, none⟩).events) : a.InBounds c.bin :=
      hread strings (fun _ => ⟨h, hacc⟩) ((mem_loadBootFirmware hsize hfit).1 _ ha)
    have hH := h.headerLength.isLt
    have hB := h.bitstreamLength.isLt
    constructor
    · rcases Nat.eq_zero_or_pos h.headerLength.toNat with hzero | hpos
      · exact Or.inl hzero
      · have hlast := hin (hheader (h.headerLength.toNat - 1) (by omega))
        obtain ⟨hsegment, hcontainer⟩ :=
          ((inBounds_copy_iff (by omega)).mp hlast).resolve_left one_ne_zero
        exact Or.inr (by omega)
    · rcases Nat.eq_zero_or_pos (h.bitstreamLength.toNat / 4) with hzero | hpos
      · exact Or.inl (by omega)
      · have hlast := hin (hbits (h.bitstreamLength.toNat / 4 - 1) (by omega))
        rw [chunk_offset] at hlast
        obtain ⟨hsegment, hcontainer⟩ :=
          ((inBounds_copy_iff (by omega)).mp hlast).resolve_left (by decide)
        exact Or.inr (by omega)
  · rintro (hzero | ⟨strings, h, hacc⟩)
    · refine hsecondary ⟨fun _ => true, fun _ => none⟩ (fun hne => absurd hzero hne) ?_
      rw [loadPrimary, if_pos hzero]
      rfl
    · exact hsecondary strings (fun _ => ⟨h, hacc⟩)
        (loadPrimary_readyFirmware _ (hnonzero hacc) hacc).1

end Firmware

/-- The bytes that are read of an accepted container lie in it and in their segments, if the
container is in bounds and only then. -/
theorem container_bounds_iff (c : Container) (hfit : c.bin.segmentsFit = true) :
    (c.bin.magic = xclbin0 → ∀ cmd, cmd ≠ .other →
      ((∀ e d, ∀ a ∈ (bitstreamIoctl e cmd c d).events, a.InBounds c.bin) ↔
        IoctlBounds cmd c)) ∧
    ∀ size, c.bin.length ≤ size →
      ((∀ e d, e.firmware = some ⟨c, size⟩ → FirmwareAccepted e c →
        ∀ a ∈ (loadBootFirmware e d).events, a.InBounds c.bin) ↔ FirmwareBounds c) :=
  ⟨fun hmagic _ hcmd => ⟨ioctlBounds_of_emits hcmd hmagic hfit,
      fun hbounds _ _ => emits_bitstreamIoctl hbounds⟩,
    fun _ hsize => ⟨firmwareBounds_of_emits hsize hfit,
      fun hbounds _ _ hfw haccepted => emits_loadBootFirmware hbounds hfw haccepted⟩⟩

theorem container_bounds_iff_word :
    (∀ e d, ∀ a ∈ (bitstreamIoctl e .icap wordContainer d).events, a.InBounds wordContainer.bin) ↔
      IoctlBounds .icap wordContainer :=
  (container_bounds_iff wordContainer (by decide)).1 rfl .icap (by decide)

/-- A container whose primary segment has 32 bytes, and nothing behind it. -/
def shortContainer : Container where
  bin := ⟨xclbin0, 160, 128, 32, 0, 0⟩
  mem := wordContainer.mem

/-- Its bitstream is accepted, and its header is read up to 992 bytes behind its end. -/
theorem not_inBounds_short :
    (wordEnv readyFifo).accepts shortContainer.bin = true ∧
      shortContainer.AcceptsHeader ⟨26, 4, [0], [0], [0], [0], 1⟩ ∧
        ¬∀ a ∈ (bitstreamIoctl (wordEnv readyFifo) .icap shortContainer ⟨false, none⟩).events,
          a.InBounds shortContainer.bin := by
  have hacc : (wordEnv readyFifo).accepts shortContainer.bin = true := by decide
  have hmem : shortContainer.mem = wordContainer.mem := by rw [shortContainer]
  have hoffset : shortContainer.bin.primaryFirmwareOffset =
      wordContainer.bin.primaryFirmwareOffset := rfl
  refine ⟨hacc, ⟨⟨fun _ => true, fun _ => none⟩, fun _ => 0, ⟨26, ?_⟩, by decide⟩, fun hall => ?_⟩
  · rw [hmem, hoffset]
    exact parse_wordHeader
  have hcopy : Access.copy .primary shortContainer.bin.primaryFirmwareOffset 1024 ∈
      (bitstreamIoctl (wordEnv readyFifo) .icap shortContainer ⟨false, none⟩).events := by
    rw [bitstreamIoctl_of_cleared hacc (returned_clearing_of_no_stash rfl rfl), afterClearing_zero,
      downloadPrimary_of_copied rfl rfl]
    exact List.mem_append_right _
      (mem_events_bind.mpr (Or.inl (mem_events_bind.mpr (Or.inl List.mem_cons_self))))
  have hholds : shortContainer.bin.Holds .primary 0 1024 :=
    inBounds_copy_zero.mp (hall _ hcopy)
  exact absurd hholds (by unfold XclBin.Holds; decide)

end Wimi
