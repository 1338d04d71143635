import Wimi.Bitstream
import Wimi.IcapDownload

/-!
# What a return of 0 from a download says

`bitstream_ioctl` with `XDMA_IOCICAPDOWNLOAD` returns 0 for three kinds of downloads that did not
write the bitstream. The turn of a helper that the hardware does not take ends the loop with `err`
still 0. The bytes behind the last whole word are dropped. And the stash of the secondary segment
overwrites what the download of the primary returned.

`honest_iff` says when a return of 0 means that the bitstream was written : on which answers of the
kernel and the hardware, for which containers.
-/

open Traced

namespace Wimi

section Stages

variable (e : IcapIoctlEnv) (mem : U64 → Byte) (bitBuf : U64) (d : BitDev)

/-- What the parser is given of the primary segment at `bitBuf`. -/
def IcapIoctlEnv.header : HeaderEnv :=
  headerInBuffer e.strings e.heap fun i => mem (bitBuf + BitVec.ofNat 64 i)

/-- What the parser is given of the clearing bitstream `s`. -/
def IcapIoctlEnv.clearHeader (s : Stash) : HeaderEnv :=
  ⟨e.clearStrings, fun i => s.bytes i.toNat⟩

/-- The copy of a chunk succeeds. -/
def IcapIoctlEnv.copies (b : ℕ) : Prop :=
  e.chunkLeft b = 0

/-- The freeze of the gate, and the clearing bitstream. -/
def clearing : Traced Access (ℤ × BitDev) := do
  let d ← freezeAXIGate d
  bitstreamClearIcap e.clear e.clearStrings d

/-- The clearing bitstream, if there is one, is downloaded as far as its download tells. -/
def ClearPasses : Prop :=
  ∀ s ∈ d.stash, s.length ≠ 0 ∧ ∃ h, (e.clearHeader s).Accepts s.length.toNat h ∧
    (e.clear.Refuses (fun _ => True) h.bitstreamLength.toNat ∨
      e.clear.Completes (fun _ => True) h.bitstreamLength.toNat)

/-- The gate is frozen already, or the clearing bitstream has no length or stops its parser. -/
def ClearStops : Prop :=
  d.axiGateFrozen = true ∨ ∃ s ∈ d.stash, s.length = 0 ∨ (e.clearHeader s).Faults

/-- The header of the primary segment comes to be parsed. -/
def Reaches : Prop :=
  d.axiGateFrozen = false ∧ ClearPasses e d ∧ e.kmalloc = true ∧ e.headerLeft = 0

/-- The download of the primary segment begins, with the header `h`. -/
def Opens (length : U64) (h : BitHeader) : Prop :=
  Reaches e d ∧ (e.header mem bitBuf).Accepts length.toNat h

/-- The call does not return. -/
def Stops : Prop :=
  ClearStops e d ∨ Reaches e d ∧ (e.header mem bitBuf).Faults

end Stages

section Clearing

variable {e : IcapIoctlEnv} {mem : U64 → Byte} {bitBuf length : U64} {d : BitDev} {h : BitHeader}

theorem fetches_stash (s : Stash) (h : BitHeader) : Fetches
    (fun b _ => pure (some fun i => s.bytes (h.headerLength.toNat + b + i))) (fun _ => True)
    fun i => s.bytes (h.headerLength.toNat + i) where
  returned b n _ := by
    refine ⟨_, rfl, by simp, ?_⟩
    rintro p ⟨⟩ i -
    exact congrArg s.bytes (Nat.add_assoc _ _ _)
  quiet := nofun

variable (mem bitBuf) in
theorem fetches_copyFromUser (h : BitHeader) : Fetches
    (fun b n => copyFromUser .primary mem (e.chunkLeft b)
      (bitBuf + h.headerLength.setWidth 64 + BitVec.ofNat 64 b) n) e.copies
    fun i => mem (bitBuf + h.headerLength.setWidth 64 + BitVec.ofNat 64 i) where
  returned b n hn := by
    refine ⟨_, rfl, ?_, ?_⟩
    · simp [IcapIoctlEnv.copies, hn.ne']
    · rintro p hp i -
      obtain ⟨-, heq⟩ := Option.ite_none_right_eq_some.mp hp
      obtain rfl := Option.some.inj heq
      rw [BitVec.ofNat_add, ← BitVec.add_assoc]
  quiet b n a ha := by
    obtain rfl := List.mem_singleton.mp ha
    exact ⟨rfl, nofun⟩

theorem returned_bitstreamIcap (s : Stash) :
    ((bitstreamIcap e.clear e.clearStrings s.bytes s.length).returned = none ↔
      s.length = 0 ∨ (e.clearHeader s).Faults) ∧
    ((bitstreamIcap e.clear e.clearStrings s.bytes s.length).returned = some 0 ↔
      s.length ≠ 0 ∧ ∃ h, (e.clearHeader s).Accepts s.length.toNat h ∧
        (e.clear.Refuses (fun _ => True) h.bitstreamLength.toNat ∨
          e.clear.Completes (fun _ => True) h.bitstreamLength.toNat)) := by
  rw [bitstreamIcap]
  by_cases hlen : s.length = 0
  · rw [if_pos hlen]
    exact ⟨iff_of_true rfl (Or.inl hlen), iff_of_false (by simp) fun h => h.1 hlen⟩
  · rw [if_neg hlen, or_iff_right hlen, and_iff_right hlen]
    exact returned_icapDownload (fetches_stash s)

theorem clearing_of_frozen (hd : d.axiGateFrozen = true) :
    clearing e d = ⟨[.gateBug], none⟩ := by
  rw [clearing, freezeAXIGate, if_pos hd]
  rfl

theorem returned_clearing_of_no_stash (hd : d.axiGateFrozen = false) (hs : d.stash = none) :
    (clearing e d).returned = some (0, { d with axiGateFrozen := true }) := by
  rw [clearing, freezeAXIGate, if_neg (by simp [hd]), bind_assoc, emit_bind, pure_bind,
    bitstreamClearIcap]
  simp only [hs, returned_pure]

theorem returned_clearing_of_stash (hd : d.axiGateFrozen = false) {s : Stash}
    (hs : d.stash = some s) : (clearing e d).returned =
      (bitstreamIcap e.clear e.clearStrings s.bytes s.length).returned.map
        fun err => (err, ⟨true, none⟩) := by
  rw [clearing, freezeAXIGate, if_neg (by simp [hd]), bind_assoc, emit_bind, pure_bind,
    bitstreamClearIcap]
  simp only [hs, returned_bind, returned_pure, Option.map_eq_bind, Function.comp_def]

/-- The clearing download returns unless it stops. -/
theorem returned_clearing : ((clearing e d).returned = none ↔ ClearStops e d) ∧
    ∀ err d', (clearing e d).returned = some (err, d') →
      d.axiGateFrozen = false ∧ d'.axiGateFrozen = true ∧ (err = 0 ↔ ClearPasses e d) := by
  cases hd : d.axiGateFrozen with
  | true =>
    rw [clearing_of_frozen hd]
    exact ⟨iff_of_true rfl (Or.inl hd), nofun⟩
  | false =>
    cases hs : d.stash with
    | none =>
      rw [returned_clearing_of_no_stash hd hs]
      refine ⟨iff_of_false (by simp) (by simp [ClearStops, hd, hs]), fun err d' h => ?_⟩
      obtain ⟨rfl, rfl⟩ := Prod.mk.inj (Option.some.inj h)
      exact ⟨rfl, rfl, by simp [ClearPasses, hs]⟩
    | some s =>
      obtain ⟨hnone, hzero⟩ := returned_bitstreamIcap (e := e) s
      rw [returned_clearing_of_stash hd hs, Option.map_eq_none_iff, hnone]
      refine ⟨by simp [ClearStops, hd, hs], fun err d' h => ?_⟩
      obtain ⟨err', herr, heq⟩ := Option.map_eq_some_iff.mp h
      obtain ⟨rfl, rfl⟩ := Prod.mk.inj heq
      rw [herr, Option.some_inj] at hzero
      exact ⟨rfl, rfl, hzero.trans (by simp [ClearPasses, hs])⟩

theorem downloadPrimary_of_copied (hk : e.kmalloc = true) (hl : e.headerLeft = 0) :
    downloadPrimary e mem bitBuf length =
      emit (.copy .primary bitBuf DMA_HWICAP_BITFILE_BUFFER_SIZE) >>= fun _ =>
        icapDownload e.icap (e.header mem bitBuf) length.toNat fun h byteRead n =>
          copyFromUser .primary mem (e.chunkLeft byteRead)
            (bitBuf + h.headerLength.setWidth 64 + BitVec.ofNat 64 byteRead) n := by
  rw [downloadPrimary, if_neg (not_not.mpr hk), copyFromUser, bind_assoc, hl]
  rfl

theorem downloadPrimary_of_not_copied (hk : e.kmalloc = true) (hl : e.headerLeft ≠ 0) :
    downloadPrimary e mem bitBuf length =
      ⟨[.copy .primary bitBuf (DMA_HWICAP_BITFILE_BUFFER_SIZE - e.headerLeft)],
        some (-EFAULT)⟩ := by
  rw [downloadPrimary, if_neg (not_not.mpr hk), copyFromUser, bind_assoc, emit_bind, pure_bind,
    if_neg (by simp [hl, DMA_HWICAP_BITFILE_BUFFER_SIZE])]
  rfl

variable (e mem bitBuf length) in
/-- The download of the primary segment, once the clearing bitstream is. -/
theorem returned_downloadPrimary :
    ((downloadPrimary e mem bitBuf length).returned = none ↔
      e.kmalloc = true ∧ e.headerLeft = 0 ∧ (e.header mem bitBuf).Faults) ∧
    ((downloadPrimary e mem bitBuf length).returned = some 0 ↔
      e.kmalloc = true ∧ e.headerLeft = 0 ∧ ∃ h, (e.header mem bitBuf).Accepts length.toNat h ∧
        (e.icap.Refuses e.copies h.bitstreamLength.toNat ∨
          e.icap.Completes e.copies h.bitstreamLength.toNat)) := by
  by_cases hk : e.kmalloc = true
  · by_cases hl : e.headerLeft = 0
    · rw [downloadPrimary_of_copied hk hl, emit_bind, and_iff_right hk, and_iff_right hk,
        and_iff_right hl, and_iff_right hl]
      exact returned_icapDownload (fetches_copyFromUser mem bitBuf)
    · rw [downloadPrimary_of_not_copied hk hl]
      exact ⟨iff_of_false (by simp) fun h => hl h.2.1,
        iff_of_false (by simp [EFAULT]) fun h => hl h.2.1⟩
  · rw [downloadPrimary, if_pos hk]
    exact ⟨iff_of_false (by simp) fun h => hk h.1,
      iff_of_false (by simp [Errno.code]) fun h => hk h.1⟩

theorem ClearPasses.not_stops (hpasses : ClearPasses e d) (hd : d.axiGateFrozen = false) :
    ¬ClearStops e d := by
  rintro (hfrozen | ⟨s, hs, hstop⟩)
  · rw [hd] at hfrozen
    cases hfrozen
  · obtain ⟨hlen, h, hacc, -⟩ := hpasses s hs
    exact hstop.elim hlen hacc.not_faults

/-- The done status is only seen in a download of the primary segment that completes. -/
theorem completes_of_done_downloadPrimary {a : Access}
    (ha : a ∈ (downloadPrimary e mem bitBuf length).events) (hdone : a.Done) :
    e.kmalloc = true ∧ e.headerLeft = 0 ∧ ∃ h, (e.header mem bitBuf).Accepts length.toNat h ∧
      e.icap.Completes e.copies h.bitstreamLength.toNat := by
  by_cases hk : e.kmalloc = true
  · by_cases hl : e.headerLeft = 0
    · rw [downloadPrimary_of_copied hk hl, emit_bind] at ha
      rcases List.mem_cons.mp ha with rfl | ha
      · obtain ⟨w, hw, -⟩ := hdone
        cases hw
      · exact ⟨hk, hl, completes_of_done (fetches_copyFromUser mem bitBuf) ha hdone⟩
    · rw [downloadPrimary_of_not_copied hk hl] at ha
      obtain rfl := List.mem_singleton.mp ha
      obtain ⟨w, hw, -⟩ := hdone
      cases hw
  · rw [downloadPrimary, if_pos hk] at ha
    cases ha

end Clearing

/-! ## The ioctl -/

section Ioctl

variable {e : BitstreamIoctlEnv} {c : Container} {d : BitDev} {err : ℤ}

/-- The secondary segment is stashed. -/
def Stores (e : BitstreamIoctlEnv) (bin : XclBin) : Prop :=
  bin.secondaryFirmwareLength ≠ 0 ∧ e.vmalloc = true ∧ e.stashLeft = 0

/-- What `bitstream_ioctl` does once the primary segment is downloaded. -/
def afterPrimary (e : BitstreamIoctlEnv) (c : Container) (d : BitDev) (err : ℤ) :
    Traced Access (ℤ × BitDev) := do
  let d ← freeAXIGate d
  stashSecondary e c err d

/-- What `bitstream_ioctl` does once the clearing bitstream is downloaded. -/
def afterClearing (e : BitstreamIoctlEnv) (c : Container) (err : ℤ) (d : BitDev) :
    Traced Access (ℤ × BitDev) :=
  (if err ≠ 0 then pure err else downloadPrimary e.icap c.mem c.bin.primaryFirmwareOffset
    c.bin.primaryFirmwareLength) >>= afterPrimary e c d

theorem bitstreamIoctl_of_accepts {cmd : DownloadCmd} (hacc : e.accepts c.bin = true) :
    bitstreamIoctl e cmd c d = match cmd with
    | .icap => bitstreamIoctlIcap e.icap c.mem c.bin.primaryFirmwareOffset
        c.bin.primaryFirmwareLength d >>= fun r => stashSecondary e c r.1 r.2
    | .mcap => bitstreamIoctlMcap e.mcap c.mem (e.xclbin + c.bin.primaryFirmwareOffset)
        c.bin.primaryFirmwareOffset c.bin.primaryFirmwareLength d >>=
          fun r => stashSecondary e c r.1 r.2
    | .other => pure (-Errno.einval.code, d) := by
  simp only [BitstreamIoctlEnv.accepts, Bool.and_eq_true, decide_eq_true_eq] at hacc
  obtain ⟨⟨⟨⟨harg, hbin⟩, hmagic⟩, hfit⟩, haccess⟩ := hacc
  have hargs : ¬e.argLeft ≠ 0 ∧ ¬e.binLeft ≠ 0 := ⟨not_not.mpr harg, not_not.mpr hbin⟩
  cases cmd <;>
  · simp only [bitstreamIoctl, if_neg hargs.1, if_neg hargs.2, if_neg (not_not.mpr hmagic),
      if_neg (not_not.mpr hfit), if_neg (not_not.mpr haccess)]

theorem bitstreamIoctl_eq (hacc : e.accepts c.bin = true) : bitstreamIoctl e .icap c d =
    clearing e.icap d >>= fun r => afterClearing e c r.1 r.2 := by
  rw [bitstreamIoctl_of_accepts hacc]
  simp only [bitstreamIoctlIcap, clearing, afterClearing, bind_assoc, pure_bind]
  rfl

/-- The stash of the secondary segment returns, with 0 if it is stashed, and neither writes to the
FIFO nor reads the status. -/
theorem stashSecondary_spec (e : BitstreamIoctlEnv) (c : Container) (err : ℤ) (d : BitDev) :
    (∃ err' d', (stashSecondary e c err d).returned = some (err', d') ∧
      (err' = 0 ↔ c.bin.secondaryFirmwareLength = 0 ∧ err = 0 ∨ Stores e c.bin)) ∧
    ∀ a ∈ (stashSecondary e c err d).events, a.fifoWord = none ∧ ¬a.Done := by
  rw [stashSecondary, Stores]
  by_cases hlen : c.bin.secondaryFirmwareLength = 0
  · rw [if_pos hlen]
    exact ⟨⟨err, d, rfl, by simp [hlen]⟩, nofun⟩
  rw [if_neg hlen]
  by_cases hv : e.vmalloc = true
  · have hpos : c.bin.secondaryFirmwareLength.toNat ≠ 0 :=
      fun h => hlen (BitVec.eq_of_toNat_eq h)
    rw [if_neg (not_not.mpr hv), copyFromUser, bind_assoc, emit_bind, pure_bind]
    refine ⟨?_, fun a ha => ?_⟩
    · by_cases hl : e.stashLeft = 0
      · rw [if_pos (Or.inl hl)]
        exact ⟨0, _, rfl, iff_of_true rfl (Or.inr ⟨hlen, hv, hl⟩)⟩
      · rw [if_neg (not_or.mpr ⟨hl, hpos⟩)]
        exact ⟨-EFAULT, _, rfl, iff_of_false (by decide)
          fun h => h.elim (fun h => hlen h.1) fun h => hl h.2.2⟩
    · have hcopy : a = .copy .secondary c.bin.secondaryFirmwareOffset
          (c.bin.secondaryFirmwareLength.toNat - e.stashLeft) := by
        split at ha <;> simpa using ha
      rw [hcopy]
      exact ⟨rfl, nofun⟩
  · rw [if_pos hv]
    exact ⟨⟨_, _, rfl, iff_of_false (by decide)
      fun h => h.elim (fun h => hlen h.1) fun h => hv h.2.1⟩, nofun⟩

/-- So does the end of the call. -/
theorem afterPrimary_spec (hd : d.axiGateFrozen = true) :
    (∃ err' d', (afterPrimary e c d err).returned = some (err', d') ∧
      (err' = 0 ↔ c.bin.secondaryFirmwareLength = 0 ∧ err = 0 ∨ Stores e c.bin)) ∧
    ∀ a ∈ (afterPrimary e c d err).events, a.fifoWord = none ∧ ¬a.Done := by
  rw [afterPrimary, freeAXIGate, if_neg (not_not.mpr hd), bind_assoc, emitAll_bind, pure_bind]
  obtain ⟨hreturned, hquiet⟩ := stashSecondary_spec e c err { d with axiGateFrozen := false }
  refine ⟨hreturned, fun a ha => ?_⟩
  rcases List.mem_append.mp ha with ha | ha
  · have hgate : ∃ w, a = .write .AXI_GATE w := by
      simp only [List.mem_cons, List.not_mem_nil, or_false] at ha
      rcases ha with rfl | rfl | rfl | rfl <;> exact ⟨_, rfl⟩
    obtain ⟨w, rfl⟩ := hgate
    exact ⟨rfl, nofun⟩
  · exact hquiet a ha

/-! ## Honesty -/

/-- The bytes of the bitstream behind the header `h` of the primary segment. -/
def Container.primaryBytes (c : Container) (h : BitHeader) : List Byte :=
  (List.range h.bitstreamLength.toNat).map fun i =>
    c.mem (c.bin.primaryFirmwareOffset + h.headerLength.setWidth 64 + BitVec.ofNat 64 i)

/-- All bytes of the primary bitstream were written to the FIFO after the clearing bitstream, in
order and each once, as big endian words, and then the done status was seen. -/
def Honest (e : BitstreamIoctlEnv) (c : Container) (d : BitDev) : Prop :=
  ∃ own h n, (bitstreamIoctl e .icap c d).events = (clearing e.icap d).events ++ own ∧
    bitstreamParseHeader (e.icap.header c.mem c.bin.primaryFirmwareOffset) 0 = .ok h n ∧
    (fifoWords own).flatMap bigEndianBytes = c.primaryBytes h ∧ DoneSeen own

/-- The download of the primary bitstream completes, and leaves no bytes behind its last word. -/
def CompletesWhole (e : BitstreamIoctlEnv) (c : Container) (d : BitDev) : Prop :=
  ∃ h, Opens e.icap c.mem c.bin.primaryFirmwareOffset d c.bin.primaryFirmwareLength h ∧
    e.icap.icap.Completes e.icap.copies h.bitstreamLength.toNat ∧ 4 ∣ h.bitstreamLength.toNat

theorem dvd_length_of_words {words : List U32} {bytes : List Byte}
    (h : words.flatMap bigEndianBytes = bytes) : 4 ∣ bytes.length := by
  have hlen : ∀ ws : List U32, (ws.flatMap bigEndianBytes).length = 4 * ws.length := by
    intro ws
    simp [List.length_flatMap, bigEndianBytes, Nat.mul_comm]
  rw [← h, hlen]
  exact dvd_mul_right 4 _

/-- What the call does after the clearing bitstream. -/
theorem bitstreamIoctl_of_cleared (hacc : e.accepts c.bin = true) {err : ℤ} {d' : BitDev}
    (hclear : (clearing e.icap d).returned = some (err, d')) :
    bitstreamIoctl e .icap c d =
      ⟨(clearing e.icap d).events ++ (afterClearing e c err d').events,
        (afterClearing e c err d').returned⟩ := by
  rw [bitstreamIoctl_eq hacc, bind_of_returned hclear]

theorem afterClearing_of_ne_zero {d' : BitDev} (herr : err ≠ 0) :
    afterClearing e c err d' = afterPrimary e c d' err := by
  rw [afterClearing, if_pos herr, pure_bind]

theorem afterClearing_zero {d' : BitDev} : afterClearing e c 0 d' =
    downloadPrimary e.icap c.mem c.bin.primaryFirmwareOffset c.bin.primaryFirmwareLength >>=
      afterPrimary e c d' := by
  rw [afterClearing, if_neg (not_not.mpr rfl)]

theorem completesWhole_of_honest (hacc : e.accepts c.bin = true) (hhonest : Honest e c d) :
    CompletesWhole e c d := by
  obtain ⟨own, h, n, hevents, hparse, hbytes, hseen⟩ := hhonest
  obtain ⟨a, ha, hdone⟩ : ∃ a ∈ own, a.Done := by
    obtain ⟨before, a, after, rfl, hdone, -⟩ := hseen
    exact ⟨a, by simp, hdone⟩
  rcases hclear : (clearing e.icap d).returned with _ | ⟨err, d'⟩
  · rw [bitstreamIoctl_eq hacc, bind_of_stopped hclear] at hevents
    rw [List.self_eq_append_right.mp hevents] at ha
    cases ha
  rw [bitstreamIoctl_of_cleared hacc hclear] at hevents
  obtain rfl := List.append_cancel_left hevents
  obtain ⟨hd, hd', hpasses⟩ := returned_clearing.2 err d' hclear
  have hquiet (err' : ℤ) : a ∉ (afterPrimary e c d' err').events :=
    fun ha => ((afterPrimary_spec hd').2 a ha).2 hdone
  by_cases herr : err = 0
  · rw [herr, afterClearing_zero] at ha
    rcases mem_events_bind.mp ha with ha | ⟨err', -, ha⟩
    · obtain ⟨hk, hl, h', hacc', hcompletes⟩ := completes_of_done_downloadPrimary ha hdone
      obtain ⟨⟨n', hparse'⟩, -⟩ := id hacc'
      cases hparse.symm.trans hparse'
      refine ⟨h, ⟨⟨hd, hpasses.mp herr, hk, hl⟩, hacc'⟩, hcompletes, ?_⟩
      simpa [Container.primaryBytes] using dvd_length_of_words hbytes
    · exact absurd ha (hquiet err')
  · rw [afterClearing_of_ne_zero herr] at ha
    exact absurd ha (hquiet err)

theorem honest_of_completesWhole (hacc : e.accepts c.bin = true) (hwhole : CompletesWhole e c d) :
    Honest e c d := by
  obtain ⟨h, ⟨⟨hd, hpasses, hk, hl⟩, haccepts⟩, hcompletes, hdvd⟩ := hwhole
  rcases hclear : (clearing e.icap d).returned with _ | ⟨err, d'⟩
  · exact absurd (returned_clearing.1.mp hclear) (hpasses.not_stops hd)
  obtain ⟨-, hd', hzero⟩ := returned_clearing.2 err d' hclear
  obtain rfl := hzero.mpr hpasses
  obtain ⟨⟨n, hparse⟩, -⟩ := id haccepts
  obtain ⟨hbytes, hseen⟩ := trace_of_completes
    (fetches_copyFromUser c.mem c.bin.primaryFirmwareOffset) haccepts hdvd hcompletes
  have hreturned :=
    (returned_downloadPrimary _ _ _ _).2.mpr ⟨hk, hl, h, haccepts, Or.inr hcompletes⟩
  have hquiet : fifoWords (afterPrimary e c d' 0).events = [] :=
    fifoWords_eq_nil fun a ha => ((afterPrimary_spec hd').2 a ha).1
  refine ⟨(afterClearing e c 0 d').events, h, n, ?_, hparse, ?_, ?_⟩
  · rw [bitstreamIoctl_of_cleared hacc hclear]
  · rw [afterClearing_zero, bind_of_returned hreturned, fifoWords_append, hquiet, List.append_nil,
      downloadPrimary_of_copied hk hl, emit_bind, fifoWords_cons_of_none rfl, hbytes]
    rfl
  · rw [afterClearing_zero, bind_of_returned hreturned, downloadPrimary_of_copied hk hl, emit_bind]
    exact (hseen.prepend [_]).append hquiet

theorem honest_iff_completesWhole (hacc : e.accepts c.bin = true) :
    Honest e c d ↔ CompletesWhole e c d :=
  ⟨completesWhole_of_honest hacc, honest_of_completesWhole hacc⟩

/-- A download of the primary segment returns 0, for a bitstream that was written or was not. -/
def ReturnsZero (e : BitstreamIoctlEnv) (c : Container) (d : BitDev) : Prop :=
  ∃ h, Opens e.icap c.mem c.bin.primaryFirmwareOffset d c.bin.primaryFirmwareLength h ∧
    (e.icap.icap.Refuses e.icap.copies h.bitstreamLength.toNat ∨
      e.icap.icap.Completes e.icap.copies h.bitstreamLength.toNat)

/-- What is left of the call once the clearing bitstream is downloaded returns unless the header of
the primary segment stops its parser. -/
theorem returned_afterClearing {d' : BitDev}
    (hclear : (clearing e.icap d).returned = some (err, d')) :
    ((afterClearing e c err d').returned = none ↔
      Stops e.icap c.mem c.bin.primaryFirmwareOffset d) ∧
    ∀ err' dev, (afterClearing e c err d').returned = some (err', dev) →
      (err' = 0 ↔
        c.bin.secondaryFirmwareLength = 0 ∧ ReturnsZero e c d ∨ Stores e c.bin) := by
  obtain ⟨hd, hd', hpasses⟩ := returned_clearing.2 err d' hclear
  have hruns : ¬ClearStops e.icap d := fun h => by
    have := hclear.symm.trans (returned_clearing.1.mpr h)
    cases this
  have hafter (err : ℤ) : ∃ err' dev, (afterPrimary e c d' err).returned = some (err', dev) ∧
      (err' = 0 ↔ c.bin.secondaryFirmwareLength = 0 ∧ err = 0 ∨ Stores e c.bin) :=
    (afterPrimary_spec hd').1
  by_cases herr : err = 0
  · have hreaches : Reaches e.icap d ↔ e.icap.kmalloc = true ∧ e.icap.headerLeft = 0 :=
      ⟨fun h => h.2.2, fun h => ⟨hd, hpasses.mp herr, h⟩⟩
    obtain ⟨hnone, hzero⟩ := returned_downloadPrimary e.icap c.mem
      c.bin.primaryFirmwareOffset c.bin.primaryFirmwareLength
    have hstops : Stops e.icap c.mem c.bin.primaryFirmwareOffset d ↔
        e.icap.kmalloc = true ∧ e.icap.headerLeft = 0 ∧
          (e.icap.header c.mem c.bin.primaryFirmwareOffset).Faults := by
      rw [Stops, or_iff_right hruns, hreaches, and_assoc]
    have hreturns : ReturnsZero e c d ↔ (downloadPrimary e.icap c.mem c.bin.primaryFirmwareOffset
        c.bin.primaryFirmwareLength).returned = some 0 := by
      simp only [hzero, ReturnsZero, Opens, hreaches, and_assoc, exists_and_left]
    rw [herr, afterClearing_zero, hstops, ← hnone, hreturns]
    cases hr : (downloadPrimary e.icap c.mem c.bin.primaryFirmwareOffset
        c.bin.primaryFirmwareLength).returned with
    | none =>
      rw [bind_of_stopped hr]
      exact ⟨iff_of_true rfl rfl, nofun⟩
    | some err₁ =>
      obtain ⟨err₂, d₂, hreturned, hz⟩ := hafter err₁
      rw [bind_of_returned hr, hreturned, Option.some_inj]
      refine ⟨iff_of_false (by simp) (by simp), fun err' dev h => ?_⟩
      obtain ⟨rfl, rfl⟩ := Prod.mk.inj (Option.some.inj h)
      exact hz
  · have hreaches : ¬Reaches e.icap d := fun h => herr (hpasses.mpr h.2.1)
    obtain ⟨err₂, d₂, hreturned, hzero⟩ := hafter err
    rw [afterClearing_of_ne_zero herr, hreturned]
    refine ⟨iff_of_false (by simp) (not_or.mpr ⟨hruns, fun h => hreaches h.1⟩),
      fun err' dev h => ?_⟩
    obtain ⟨rfl, rfl⟩ := Prod.mk.inj (Option.some.inj h)
    rw [hzero, or_iff_right fun h => herr h.2,
      or_iff_right fun ⟨_, h, hopens, _⟩ => hreaches hopens.1]

/-- When the call returns 0. -/
theorem returns_zero_iff (hacc : e.accepts c.bin = true) :
    (∃ dev, (bitstreamIoctl e .icap c d).returned = some (0, dev)) ↔
      (c.bin.secondaryFirmwareLength = 0 ∧ ReturnsZero e c d ∨ Stores e c.bin) ∧
        ¬Stops e.icap c.mem c.bin.primaryFirmwareOffset d := by
  rcases hclear : (clearing e.icap d).returned with _ | ⟨err, d'⟩
  · have hstops : Stops e.icap c.mem c.bin.primaryFirmwareOffset d :=
      Or.inl (returned_clearing.1.mp hclear)
    rw [bitstreamIoctl_eq hacc, bind_of_stopped hclear]
    exact iff_of_false (by simp) fun h => h.2 hstops
  · obtain ⟨hnone, hsome⟩ := returned_afterClearing (c := c) hclear
    rw [bitstreamIoctl_of_cleared hacc hclear, ← hnone]
    cases hr : (afterClearing e c err d').returned with
    | none => exact iff_of_false (by simp) fun h => h.2 rfl
    | some r =>
      obtain ⟨err', dev⟩ := r
      rw [and_iff_left (Option.some_ne_none _), ← hsome err' dev hr]
      simp

/-- The exact condition under which a return of 0 means that the bitstream was written. -/
def HonestWhen (e : BitstreamIoctlEnv) (c : Container) (d : BitDev) : Prop :=
  (c.bin.secondaryFirmwareLength = 0 → ∀ h,
    Opens e.icap c.mem c.bin.primaryFirmwareOffset d c.bin.primaryFirmwareLength h →
      ¬e.icap.icap.Refuses e.icap.copies h.bitstreamLength.toNat ∧
        (e.icap.icap.Completes e.icap.copies h.bitstreamLength.toNat →
          4 ∣ h.bitstreamLength.toNat)) ∧
  (Stores e c.bin →
    Stops e.icap c.mem c.bin.primaryFirmwareOffset d ∨ CompletesWhole e c d)

theorem IcapEnv.Completes.not_refuses {e : IcapEnv} {ok : ℕ → Prop} {total : ℕ}
    (h : e.Completes ok total) : ¬e.Refuses ok total :=
  fun ⟨b, hb, _, hrefuses⟩ => (h.1 b hb).2 hrefuses

theorem Opens.not_stops {length : U64} {h : BitHeader}
    (hopens : Opens e.icap c.mem c.bin.primaryFirmwareOffset d length h) :
    ¬Stops e.icap c.mem c.bin.primaryFirmwareOffset d := by
  obtain ⟨⟨hd, hpasses, -⟩, hacc⟩ := hopens
  exact not_or.mpr ⟨hpasses.not_stops hd, fun h => hacc.not_faults h.2⟩

/-- A return of 0 means that the bitstream was written, under the condition and no other. -/
theorem honest_iff (e : BitstreamIoctlEnv) (c : Container) (d : BitDev)
    (hacc : e.accepts c.bin = true) :
    (∀ dev, (bitstreamIoctl e .icap c d).returned = some (0, dev) → Honest e c d) ↔
      HonestWhen e c d := by
  rw [← exists_imp, returns_zero_iff hacc, honest_iff_completesWhole hacc, HonestWhen]
  constructor
  · intro hall
    refine ⟨fun hlen h hopens => ?_, fun hstores => or_iff_not_imp_left.mpr fun hruns =>
      hall ⟨Or.inr hstores, hruns⟩⟩
    have hwhole (hor : e.icap.icap.Refuses e.icap.copies h.bitstreamLength.toNat ∨
        e.icap.icap.Completes e.icap.copies h.bitstreamLength.toNat) :
        e.icap.icap.Completes e.icap.copies h.bitstreamLength.toNat ∧
          4 ∣ h.bitstreamLength.toNat := by
      obtain ⟨h', hopens', hrest⟩ := hall ⟨Or.inl ⟨hlen, h, hopens, hor⟩, hopens.not_stops⟩
      rwa [hopens.2.unique hopens'.2] at hrest
    exact ⟨fun hrefuses => (hwhole (Or.inl hrefuses)).1.not_refuses hrefuses,
      fun hcompletes => (hwhole (Or.inr hcompletes)).2⟩
  · rintro ⟨hplain, hstored⟩ ⟨⟨hlen, h, hopens, hor⟩ | hstores, hruns⟩
    · obtain ⟨htakes, hdvd⟩ := hplain hlen h hopens
      have hcompletes := hor.resolve_left htakes
      exact ⟨h, hopens, hcompletes, hdvd hcompletes⟩
    · exact (hstored hstores).resolve_left hruns

/-! ### A container of one word -/

/-- A bitstream of one word : its header, and the word. -/
def wordBitstream : List Byte :=
  [0, 1, 0, 0, 1, 0x61, 0, 1, 0, 0x62, 0, 1, 0, 0x63, 0, 1, 0, 0x64, 0, 1, 0, 0x65, 0, 0, 0, 4,
    0xaa, 0x99, 0x55, 0x66]

/-- A container with a primary segment of 1024 bytes, which begins with `wordBitstream`. -/
def wordContainer : Container where
  bin := ⟨xclbin0, 1152, 128, 1024, 0, 0⟩
  mem a := wordBitstream.getD (a.toNat - 128) 0

/-- The kernel does all it is asked to, and the HWICAP answers with `icap`. -/
def wordEnv (icap : IcapEnv) : BitstreamIoctlEnv where
  argLeft := 0
  xclbin := 0x10000
  binLeft := 0
  accessOk := true
  icap := ⟨icap, ⟨fun _ => true, fun _ => none⟩, true, 0, fun _ => 0,
    ⟨fun _ => true, fun _ => none⟩, fun _ => 0, icap⟩
  mcap := ⟨true, 0, fun _ => 0, ⟨fun _ => true, fun _ => none⟩,
    ⟨⟨0, 0, fun _ => 0⟩, 0, 0, 0, 0⟩, ⟨fun _ => true, fun _ => none⟩, fun _ => 0,
    ⟨fun _ => 0, 0, 0, ⟨⟨0, 0, fun _ => 0⟩, 0, 0, 0, 0⟩⟩⟩
  vmalloc := true
  stashLeft := 0
  vmallocRest _ := 0

/-- The header of the container, as the parser is given it. -/
def wordHeader : HeaderEnv :=
  headerInBuffer ⟨fun _ => true, fun _ => none⟩ (fun _ => 0) fun i =>
    wordContainer.mem (wordContainer.bin.primaryFirmwareOffset + BitVec.ofNat 64 i)

theorem parse_wordHeader : bitstreamParseHeader wordHeader 0 =
    .ok ⟨26, 4, [0], [0], [0], [0], 1⟩ 26 :=
  Scanner.result_eq_some.mp (by decide +kernel)

theorem opens_wordContainer (icap : IcapEnv) : Opens (wordEnv icap).icap wordContainer.mem
    wordContainer.bin.primaryFirmwareOffset ⟨false, none⟩
    wordContainer.bin.primaryFirmwareLength ⟨26, 4, [0], [0], [0], [0], 1⟩ :=
  ⟨⟨rfl, nofun, rfl, rfl⟩, ⟨26, parse_wordHeader⟩, by decide⟩

theorem byteReads_four : byteReads 4 0 = [0] := by
  rw [byteReads, if_pos (by decide), byteReads, if_neg (by decide)]

/-- The FIFO never has room. -/
def fullFifo : IcapEnv :=
  ⟨fun _ _ => ⟨0, fun _ => 0⟩, fun _ => 0⟩

/-- The FIFO has room for all its words, and every write and the bitstream are done at once. -/
def readyFifo : IcapEnv :=
  ⟨fun _ _ => ⟨64, fun _ => 0⟩, fun _ => 0x4⟩

/-- The download ends before its first word, and the call returns 0. -/
theorem not_honest_on_full_fifo :
    ¬∀ dev, (bitstreamIoctl (wordEnv fullFifo) .icap wordContainer ⟨false, none⟩).returned =
      some (0, dev) → Honest (wordEnv fullFifo) wordContainer ⟨false, none⟩ := by
  have hacc : (wordEnv fullFifo).accepts wordContainer.bin = true := by decide
  have hopens := opens_wordContainer fullFifo
  have hrefuses : fullFifo.Refuses (wordEnv fullFifo).icap.copies 4 :=
    ⟨0, by simp [byteReads_four], fun _ _ _ => rfl, 0, by decide,
      fun h => absurd h.1 (by decide)⟩
  obtain ⟨dev, hreturned⟩ := (returns_zero_iff hacc).mpr
    ⟨Or.inl ⟨rfl, _, hopens, Or.inl hrefuses⟩, hopens.not_stops⟩
  intro hall
  obtain ⟨h, -, hcompletes, -⟩ := completesWhole_of_honest hacc (hall dev hreturned)
  obtain ⟨i, -, hdone⟩ := hcompletes.2
  exact hdone (show (0 : U32) &&& 0x5 = 0 by decide)

theorem takes_readyFifo (b t : ℕ) : (readyFifo.turns b t).Takes :=
  ⟨show 0 < (64 : U32).toInt by decide, 0, by decide, show (0 : U32) &&& 0x1 = 0 by decide⟩

theorem honest_iff_ready_fifo :
    Honest (wordEnv readyFifo) wordContainer ⟨false, none⟩ := by
  have hacc : (wordEnv readyFifo).accepts wordContainer.bin = true := by decide
  have hopens := opens_wordContainer readyFifo
  have hcompletes : readyFifo.Completes (wordEnv readyFifo).icap.copies 4 :=
    ⟨fun b _ => ⟨rfl, fun ⟨t, _, hnot⟩ => hnot (takes_readyFifo b t)⟩, 0, by decide, by decide⟩
  obtain ⟨dev, hreturned⟩ := (returns_zero_iff hacc).mpr
    ⟨Or.inl ⟨rfl, _, hopens, Or.inr hcompletes⟩, hopens.not_stops⟩
  refine (honest_iff (wordEnv readyFifo) wordContainer ⟨false, none⟩ hacc).mpr
    ⟨fun _ h hopens' => ⟨?_, fun _ => ?_⟩, fun hstores => absurd rfl hstores.1⟩ dev hreturned
  · rintro ⟨b, -, -, t, -, hnot⟩
    exact hnot (takes_readyFifo b t)
  · rw [hopens.2.unique hopens'.2]
    decide

end Ioctl

end Wimi
