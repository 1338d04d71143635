import Wimi.Icap

/-!
# What a download through the HWICAP does

For each function of the download, when it returns 0 and what it has written then. A turn of the
helper that the hardware does not take ends the helper with an error, which its callers turn into
a return of 0 (`returned_icapDownload`).
-/

open Traced

namespace Wimi

/-! ## Accesses -/

/-- The word an access writes to the FIFO. -/
def Access.fifoWord : Access → Option U32
  | .write .XHWICAP_WF w => some w
  | _ => none

/-- The words written to the FIFO, in order. -/
def fifoWords (es : List Access) : List U32 :=
  es.filterMap Access.fifoWord

@[simp] theorem fifoWords_append (es fs : List Access) :
    fifoWords (es ++ fs) = fifoWords es ++ fifoWords fs :=
  List.filterMap_append

theorem fifoWords_eq_nil {es : List Access} (h : ∀ a ∈ es, a.fifoWord = none) :
    fifoWords es = [] :=
  List.filterMap_eq_nil_iff.mpr h

theorem fifoWords_writes (f : ℕ → U32) (is : List ℕ) :
    fifoWords (is.map fun i => .write .XHWICAP_WF (f i)) = is.map f := by
  simp [fifoWords, List.filterMap_map, Function.comp_def, Access.fifoWord]

theorem fifoWords_cons_of_none {a : Access} (h : a.fifoWord = none) (es : List Access) :
    fifoWords (a :: es) = fifoWords es :=
  List.filterMap_cons_none h

/-- The register that is accessed, if it is one. -/
def Access.reg : Access → Option Reg
  | .read r _ | .write r _ => some r
  | .copy .. | .gateBug => none

/-- The done status is read. -/
def Access.Done (a : Access) : Prop :=
  ∃ w, a = .read .XHWICAP_SR w ∧ w &&& 0x5 ≠ 0

/-- A register that words are written to the FIFO with is accessed. -/
def Access.Fifo (a : Access) : Prop :=
  ∃ r ∈ [Reg.XHWICAP_WF, .XHWICAP_CR, .XHWICAP_WFV], a.reg = some r

/-- A register of the HWICAP is accessed. -/
def Access.Hwicap (a : Access) : Prop :=
  a.Fifo ∨ a.reg = some .XHWICAP_SR

theorem Access.Fifo.not_done {a : Access} (ha : a.Fifo) : ¬a.Done := by
  rintro ⟨w, rfl, -⟩
  obtain ⟨r, hr, heq⟩ := ha
  obtain rfl := Option.some.inj heq
  exact absurd hr (by decide)

/-- The done status is read, and nothing is written to the FIFO thereafter. -/
def DoneSeen (es : List Access) : Prop :=
  ∃ before a after, es = before ++ a :: after ∧ a.Done ∧ fifoWords after = []

theorem DoneSeen.append {es fs : List Access} (h : DoneSeen es) (hfs : fifoWords fs = []) :
    DoneSeen (es ++ fs) := by
  obtain ⟨before, a, after, rfl, ha, hafter⟩ := h
  refine ⟨before, a, after ++ fs, by simp, ha, ?_⟩
  rw [fifoWords_append, hafter, hfs, List.append_nil]

theorem DoneSeen.prepend {es : List Access} (h : DoneSeen es) (fs : List Access) :
    DoneSeen (fs ++ es) := by
  obtain ⟨before, a, after, rfl, ha, hafter⟩ := h
  exact ⟨fs ++ before, a, after, by simp, ha, hafter⟩

/-! ## Polls -/

section Poll

variable {r : Reg} {done : U32 → Bool} {values : ℕ → U32} {n i : ℕ}

variable (r done values) in
theorem returned_poll (n i : ℕ) : ∃ b, (poll r done values n i).returned = some b ∧
    (b = true ↔ ∃ j < n, done (values (i + j)) = true) := by
  induction n generalizing i with
  | zero => exact ⟨false, rfl, by simp⟩
  | succ n ih =>
    rw [poll, emit_bind]
    by_cases h : done (values i) = true
    · exact ⟨true, by simp [h], iff_of_true rfl ⟨0, Nat.succ_pos n, h⟩⟩
    · obtain ⟨b, hb, hiff⟩ := ih (i + 1)
      refine ⟨b, by simp [h, hb], hiff.trans ⟨?_, ?_⟩⟩
      · rintro ⟨j, hj, hdone⟩
        exact ⟨j + 1, Nat.succ_lt_succ hj, by rwa [Nat.add_right_comm] at hdone⟩
      · rintro ⟨j, hj, hdone⟩
        cases j with
        | zero => exact absurd hdone h
        | succ j => exact ⟨j, Nat.lt_of_succ_lt_succ hj, by rwa [Nat.add_right_comm]⟩

variable (r done values) in
theorem emits_poll : Emits (fun a => ∃ w, a = .read r w) (poll r done values n i) := by
  induction n generalizing i with
  | zero => exact Emits.pure false
  | succ n ih =>
    exact (Emits.emit ⟨_, rfl⟩).bind fun _ _ => Emits.ite (fun _ => Emits.pure true) fun _ => ih

/-- A poll that is answered ends with the answer. -/
theorem events_poll (h : (poll r done values n i).returned = some true) :
    ∃ before w, (poll r done values n i).events = before ++ [.read r w] ∧ done w = true := by
  induction n generalizing i with
  | zero => cases h
  | succ n ih =>
    rw [poll, emit_bind] at h ⊢
    by_cases hd : done (values i) = true
    · exact ⟨[], values i, by simp [hd], hd⟩
    · simp only [hd] at h ⊢
      obtain ⟨before, w, heq, hw⟩ := ih h
      exact ⟨.read r (values i) :: before, w, by simp [heq], hw⟩

/-- A poll that is not answered has read no answer. -/
theorem emits_poll_of_false (h : (poll r done values n i).returned = some false) :
    Emits (fun a => ∃ w, a = .read r w ∧ done w = false) (poll r done values n i) := by
  induction n generalizing i with
  | zero => exact Emits.pure false
  | succ n ih =>
    rw [poll, emit_bind] at h
    rw [poll]
    by_cases hd : done (values i) = true
    · rw [if_pos hd] at h
      cases h
    · rw [if_neg hd] at h ⊢
      exact (Emits.emit ⟨_, rfl, Bool.eq_false_iff.mpr hd⟩).bind fun _ _ => ih h

end Poll

/-! ## The FIFO -/

/-- The HWICAP takes the words of a turn. -/
def IcapTurn.Takes (t : IcapTurn) : Prop :=
  0 < t.vacancy.toInt ∧ ∃ i < 10, t.control i &&& 0x1 = 0

/-- Some turn that the helper comes to, for `n` words, is not taken. -/
def IcapRefuses (turns : ℕ → IcapTurn) (n : ℕ) : Prop :=
  ∃ t, ∑ i ∈ Finset.range t, (turns i).vacancy.toNat < n ∧ ¬(turns t).Takes

section Helper

variable {turns : ℕ → IcapTurn} {wordBuffer : ℕ → U32} {n t : ℕ}

variable (wordBuffer) in
/-- `hwicapWrite` returns 0 if the hardware completes the write, else an error. -/
theorem returned_hwicapWrite (control : ℕ → U32) (size : ℕ) :
    ∃ err, (hwicapWrite control wordBuffer size).returned = some err ∧
      (err = 0 ↔ ∃ i < 10, control i &&& 0x1 = 0) := by
  obtain ⟨b, hb, hiff⟩ := returned_poll .XHWICAP_CR
    (fun w => decide (w &&& 0x1 = 0)) control 10 0
  refine ⟨if b then 0 else -Errno.eio.code, ?_, ?_⟩
  · rw [hwicapWrite, emitAll_bind, emit_bind, bind_of_returned hb]
    rfl
  · simp only [Nat.zero_add, decide_eq_true_eq] at hiff
    rw [← hiff]
    cases b <;> simp [Errno.code]

variable (wordBuffer) in
/-- What `hwicapWrite` does to the FIFO. -/
theorem fifoWords_hwicapWrite (control : ℕ → U32) (size : ℕ) :
    fifoWords (hwicapWrite control wordBuffer size).events =
      (List.range size).map fun i => be32ToCpu (wordBuffer i) := by
  obtain ⟨b, hb, -⟩ := returned_poll .XHWICAP_CR
    (fun w => decide (w &&& 0x1 = 0)) control 10 0
  have hpoll := fifoWords_eq_nil fun a ha => by
    obtain ⟨w, rfl⟩ := emits_poll .XHWICAP_CR (fun w => decide (w &&& 0x1 = 0)) control
      (n := 10) (i := 0) a ha
    rfl
  rw [hwicapWrite, emitAll_bind, emit_bind, bind_of_returned hb, fifoWords_append,
    fifoWords_writes, fifoWords_cons_of_none rfl, fifoWords_append, hpoll]
  simp [fifoWords]

theorem emits_hwicapWrite (control : ℕ → U32) (size : ℕ) :
    Emits Access.Fifo
      (hwicapWrite control wordBuffer size) := by
  refine Emits.bind (fun a ha => ?_) fun _ _ =>
    (Emits.emit ⟨_, by decide, rfl⟩).bind fun _ _ =>
      Emits.bind (fun a ha => ?_) fun _ _ => Emits.pure _
  · obtain ⟨i, -, rfl⟩ := List.mem_map.mp ha
    exact ⟨_, by decide, rfl⟩
  · obtain ⟨w, rfl⟩ := emits_poll _ _ _ a ha
    exact ⟨_, by decide, rfl⟩

theorem not_icapRefuses_zero : ¬IcapRefuses turns 0 :=
  fun ⟨_, hlt, _⟩ => Nat.not_lt_zero _ hlt

theorem icapRefuses_of_not_takes (hn : 0 < n) (h : ¬(turns 0).Takes) : IcapRefuses turns n :=
  ⟨0, by simpa using hn, h⟩

/-- A turn that is taken leaves it to the others. -/
theorem icapRefuses_iff_of_takes (h : (turns 0).Takes) :
    IcapRefuses turns n ↔
      IcapRefuses (fun i => turns (i + 1)) (n - (turns 0).vacancy.toNat) := by
  constructor
  · rintro ⟨t, hlt, ht⟩
    cases t with
    | zero => exact absurd h ht
    | succ t =>
      rw [Finset.sum_range_succ'] at hlt
      exact ⟨t, Nat.lt_sub_of_add_lt hlt, ht⟩
  · rintro ⟨t, hlt, ht⟩
    refine ⟨t + 1, ?_, ht⟩
    rw [Finset.sum_range_succ']
    exact Nat.add_lt_of_lt_sub hlt

variable (turns) in
/-- The helper returns 0 if every turn is taken, else an error. If it returns 0 it has written all
its words. -/
theorem returned_bitstreamIcapHelper (n t : ℕ) (wordBuffer : ℕ → U32) :
    ∃ err, (bitstreamIcapHelper turns t wordBuffer n).returned = some err ∧
      (err = 0 ↔ ¬IcapRefuses (fun i => turns (t + i)) n) ∧
      (err = 0 → fifoWords (bitstreamIcapHelper turns t wordBuffer n).events =
        (List.range n).map fun i => be32ToCpu (wordBuffer i)) := by
  induction n using Nat.strong_induction_on generalizing t wordBuffer with
  | _ n ih =>
    rw [bitstreamIcapHelper]
    by_cases hn : n = 0
    · rw [if_pos hn, hn]
      exact ⟨0, rfl, iff_of_true rfl not_icapRefuses_zero, fun _ => rfl⟩
    rw [if_neg hn, emit_bind]
    have hpos : 0 < n := Nat.pos_of_ne_zero hn
    by_cases hv : (turns t).vacancy.toInt ≤ 0
    · rw [dif_pos hv]
      have hrefuses : IcapRefuses (fun i => turns (t + i)) n :=
        icapRefuses_of_not_takes hpos fun htakes => absurd htakes.1 (not_lt.mpr hv)
      refine ⟨-Errno.eio.code, rfl, iff_of_false (by decide) (not_not.mpr hrefuses), ?_⟩
      intro h
      exact absurd h (by decide)
    rw [dif_neg hv]
    have hvpos := pos_of_vacancy hv
    set w := if (turns t).vacancy.toNat < n then (turns t).vacancy.toNat else n with hw
    have hwle : w ≤ n ∧ n - w = n - (turns t).vacancy.toNat ∧ n - w < n := by
      rw [hw]
      split <;> omega
    obtain ⟨err, herr, hcontrol⟩ := returned_hwicapWrite wordBuffer (turns t).control w
    have hwrite := fifoWords_hwicapWrite wordBuffer (turns t).control w
    rw [bind_of_returned herr]
    by_cases hz : err = 0
    · have htakes : (turns t).Takes := ⟨not_le.mp hv, hcontrol.mp hz⟩
      obtain ⟨err', herr', hrest, hwords⟩ := ih (n - w) hwle.2.2 (t + 1) fun i => wordBuffer (w + i)
      rw [if_neg (not_not.mpr hz)]
      refine ⟨err', herr', ?_, fun h0 => ?_⟩
      · have hshift : IcapRefuses (fun i => turns (t + i)) n ↔
            IcapRefuses (fun i => turns (t + (i + 1))) (n - (turns t).vacancy.toNat) :=
          icapRefuses_iff_of_takes htakes
        rw [hrest, hshift, hwle.2.1]
        simp only [Nat.add_right_comm t 1, Nat.add_assoc]
      · rw [fifoWords_cons_of_none rfl, fifoWords_append, hwrite, hwords h0]
        conv_rhs => rw [← Nat.add_sub_cancel' hwle.1, List.range_add, List.map_append, List.map_map]
        rfl
    · rw [if_pos hz]
      have hrefuses : IcapRefuses (fun i => turns (t + i)) n :=
        icapRefuses_of_not_takes hpos fun htakes => hz (hcontrol.mpr htakes.2)
      refine ⟨-Errno.eio.code, rfl, iff_of_false (by decide) (not_not.mpr hrefuses), ?_⟩
      intro h
      exact absurd h (by decide)

theorem emits_bitstreamIcapHelper (n t : ℕ) (wordBuffer : ℕ → U32) :
    Emits Access.Fifo
      (bitstreamIcapHelper turns t wordBuffer n) := by
  induction n using Nat.strong_induction_on generalizing t wordBuffer with
  | _ n ih =>
    rw [bitstreamIcapHelper]
    refine Emits.ite (fun _ => Emits.pure 0) fun hn =>
      (Emits.emit ⟨_, by decide, rfl⟩).bind fun _ _ => ?_
    split
    · exact Emits.pure _
    · have hvpos := pos_of_vacancy ‹_›
      refine (emits_hwicapWrite _ _).bind fun err _ => Emits.ite (fun _ => Emits.pure _) fun _ => ?_
      refine ih _ ?_ _ _
      split <;> omega

end Helper

/-! ## The chunks -/

theorem numCharsRead_spec {total b : ℕ} (h : b < total) : 0 < numCharsRead total b ∧
    b + numCharsRead total b ≤ total ∧
      (b + numCharsRead total b < total → numCharsRead total b = 1024) := by
  rw [numCharsRead, DMA_HWICAP_BITFILE_BUFFER_SIZE]
  omega

/-- The loop starts its turns at whole words. -/
theorem byteReads_spec (total byteRead : ℕ) :
    (byteReads total byteRead).Pairwise (· < ·) ∧
      ∀ b ∈ byteReads total byteRead, byteRead ≤ b ∧ b < total ∧ 4 ∣ b - byteRead := by
  induction byteRead using byteReads.induct total with
  | case1 b hb ih =>
    obtain ⟨hsorted, hmem⟩ := ih
    obtain ⟨hpos, -, hfull⟩ := numCharsRead_spec hb
    rw [byteReads, if_pos hb]
    refine ⟨List.pairwise_cons.mpr ⟨fun c hc => ?_, hsorted⟩, fun c hc => ?_⟩
    · have := (hmem c hc).1
      omega
    · rcases List.mem_cons.mp hc with rfl | hc
      · exact ⟨le_rfl, hb, by simp⟩
      · obtain ⟨hle, hlt, hdvd⟩ := hmem c hc
        have := hfull (by omega)
        omega
  | case2 b hb =>
    rw [byteReads, if_neg hb]
    exact ⟨List.Pairwise.nil, nofun⟩

/-- The chunks are the whole. -/
theorem flatMap_byteReads {α : Type} (f : ℕ → α) (total byteRead : ℕ) :
    ((byteReads total byteRead).flatMap fun b =>
      (List.range (numCharsRead total b)).map fun i => f (b + i)) =
      (List.range (total - byteRead)).map fun i => f (byteRead + i) := by
  induction byteRead using byteReads.induct total with
  | case1 b hb ih =>
    obtain ⟨-, hle, -⟩ := numCharsRead_spec hb
    rw [byteReads, if_pos hb, List.flatMap_cons, ih,
      show total - b = numCharsRead total b + (total - (b + numCharsRead total b)) by omega,
      List.range_add, List.map_append, List.map_map]
    simp only [Function.comp_def, Nat.add_assoc]
  | case2 b hb =>
    rw [byteReads, if_neg hb, Nat.sub_eq_zero_of_le (not_lt.mp hb)]
    rfl

theorem extractLsb'_append (a b c d : Byte) :
    let w : U32 := a ++ b ++ c ++ d
    w.extractLsb' 24 8 = a ∧ w.extractLsb' 16 8 = b ∧ w.extractLsb' 8 8 = c ∧
      w.extractLsb' 0 8 = d := by
  have hhigh {m k : ℕ} (x : BitVec m) (y : Byte) :
      (x ++ y).extractLsb' (k + 8) 8 = x.extractLsb' k 8 :=
    (BitVec.extractLsb'_append_eq_of_le (by omega)).trans (by rw [Nat.add_sub_cancel])
  refine ⟨?_, ?_, ?_, BitVec.extractLsb'_append_eq_right⟩
  · exact (hhigh (a ++ b ++ c) d).trans ((hhigh (a ++ b) c).trans BitVec.extractLsb'_append_eq_left)
  · exact (hhigh (a ++ b ++ c) d).trans
      ((hhigh (a ++ b) c).trans BitVec.extractLsb'_append_eq_right)
  · exact (hhigh (a ++ b ++ c) d).trans BitVec.extractLsb'_append_eq_right

/-- The bytes of a word that is written are those of the buffer. -/
theorem bigEndianBytes_load32 (buffer : ℕ → Byte) (i : ℕ) :
    bigEndianBytes (be32ToCpu (load32 buffer i)) =
      [buffer (4 * i), buffer (4 * i + 1), buffer (4 * i + 2), buffer (4 * i + 3)] := by
  obtain ⟨h3, h2, h1, h0⟩ := extractLsb'_append (buffer (4 * i + 3)) (buffer (4 * i + 2))
    (buffer (4 * i + 1)) (buffer (4 * i))
  rw [be32ToCpu, load32, h0, h1, h2, h3]
  obtain ⟨h3, h2, h1, h0⟩ := extractLsb'_append (buffer (4 * i)) (buffer (4 * i + 1))
    (buffer (4 * i + 2)) (buffer (4 * i + 3))
  rw [bigEndianBytes, h0, h1, h2, h3]

theorem flatMap_bigEndianBytes (buffer : ℕ → Byte) (n : ℕ) :
    (((List.range n).map fun i => be32ToCpu (load32 buffer i)).flatMap bigEndianBytes) =
      (List.range (4 * n)).map buffer := by
  induction n with
  | zero => rfl
  | succ n ih =>
    rw [List.range_succ, List.map_append, List.flatMap_append, ih, Nat.mul_succ, List.range_add,
      List.map_append]
    simp [bigEndianBytes_load32, List.range_succ_eq_map]

/-! ## Downloads -/

/-- `fetch` gets what `buffer` has from `byte_read` on, where `ok`, and neither writes to the FIFO
nor reads the status. -/
structure Fetches (fetch : ℕ → ℕ → Traced Access (Option (ℕ → Byte))) (ok : ℕ → Prop)
    (buffer : ℕ → Byte) : Prop where
  returned : ∀ b n, 0 < n → ∃ o, (fetch b n).returned = some o ∧ (o ≠ none ↔ ok b) ∧
    ∀ p ∈ o, ∀ i < n, p i = buffer (b + i)
  quiet : ∀ b n, ∀ a ∈ (fetch b n).events, a.fifoWord = none ∧ ¬a.Done

/-- The hardware does not take a turn of the download, all bytes up to whose chunk were had. -/
def IcapEnv.Refuses (e : IcapEnv) (ok : ℕ → Prop) (total : ℕ) : Prop :=
  ∃ b ∈ byteReads total 0, (∀ b' ∈ byteReads total 0, b' ≤ b → ok b') ∧
    IcapRefuses (e.turns b) (numCharsRead total b / 4)

/-- All bytes were had, the hardware takes every turn, and then signals that it is done. -/
def IcapEnv.Completes (e : IcapEnv) (ok : ℕ → Prop) (total : ℕ) : Prop :=
  (∀ b ∈ byteReads total 0, ok b ∧ ¬IcapRefuses (e.turns b) (numCharsRead total b / 4)) ∧
    ∃ i < 10, e.status i &&& 0x5 ≠ 0

section Download

variable {e : IcapEnv} {ok : ℕ → Prop} {buffer : ℕ → Byte} {total b : ℕ}
  {fetch : ℕ → ℕ → Traced Access (Option (ℕ → Byte))}

/-- What a turn of the download is left with. -/
theorem returned_icapChunk (hfetch : Fetches fetch ok buffer) (hb : b < total) :
    ∃ o, (icapChunk e total fetch b).returned = some o ∧
      (o = none ↔ ok b ∧ ¬IcapRefuses (e.turns b) (numCharsRead total b / 4)) ∧
      (o = some 0 ↔ ok b ∧ IcapRefuses (e.turns b) (numCharsRead total b / 4)) := by
  obtain ⟨o, ho, hok, -⟩ := hfetch.returned b _ (numCharsRead_spec hb).1
  rw [icapChunk, bind_of_returned ho]
  cases o with
  | none =>
    have hok : ¬ok b := fun h => hok.mpr h rfl
    exact ⟨some (-EFAULT), rfl, by simp [hok], by simp [hok, EFAULT]⟩
  | some p =>
    have hok : ok b := hok.mp (Option.some_ne_none p)
    obtain ⟨err, herr, hz, -⟩ := returned_bitstreamIcapHelper (e.turns b)
      (numCharsRead total b / 4) 0 (load32 p)
    simp only [Nat.zero_add] at hz
    by_cases h : err = 0
    · refine ⟨none, ?_, by simp [hok, hz.mp h], by simp [hz.mp h]⟩
      simp [bind_of_returned herr, h]
    · have hrefuses := not_not.mp (mt hz.mpr h)
      refine ⟨some 0, ?_, by simp [hrefuses], by simp [hok, hrefuses]⟩
      simp [bind_of_returned herr, h]

/-- What a turn that goes on has written. -/
theorem fifoWords_icapChunk (hfetch : Fetches fetch ok buffer) (hb : b < total)
    (hnone : (icapChunk e total fetch b).returned = some none) :
    fifoWords (icapChunk e total fetch b).events =
      (List.range (numCharsRead total b / 4)).map fun i =>
        be32ToCpu (load32 (fun i => buffer (b + i)) i) := by
  obtain ⟨o, ho, -, hbytes⟩ := hfetch.returned b _ (numCharsRead_spec hb).1
  have hquiet := fifoWords_eq_nil fun a ha => (hfetch.quiet b (numCharsRead total b) a ha).1
  rw [icapChunk, bind_of_returned ho] at hnone ⊢
  cases o with
  | none => cases hnone
  | some p =>
    obtain ⟨err, herr, -, hwords⟩ := returned_bitstreamIcapHelper (e.turns b)
      (numCharsRead total b / 4) 0 (load32 p)
    simp only [bind_of_returned herr] at hnone ⊢
    by_cases hz : err = 0
    · rw [if_neg (not_not.mpr hz), fifoWords_append, fifoWords_append, hquiet, hwords hz]
      rw [List.nil_append, events_pure, show fifoWords [] = [] by rfl, List.append_nil]
      refine List.map_congr_left fun i hi => congrArg be32ToCpu ?_
      have hlt : 4 * i + 3 < numCharsRead total b := by
        have := List.mem_range.mp hi
        omega
      have heq (j : ℕ) (hj : j < numCharsRead total b) : p j = buffer (b + j) :=
        hbytes p rfl j hj
      rw [load32, load32, heq _ hlt, heq _ (by omega), heq _ (by omega), heq _ (by omega)]
    · rw [if_pos hz] at hnone
      cases hnone

theorem emits_icapChunk (hfetch : Fetches fetch ok buffer) (b : ℕ) :
    Emits (fun a => ¬a.Done) (icapChunk e total fetch b) := by
  refine Emits.bind (fun a ha => (hfetch.quiet b _ a ha).2) fun o _ => ?_
  cases o with
  | none => exact Emits.pure _
  | some p =>
    have hhelper : Emits (fun a => ¬a.Done) (bitstreamIcapHelper (e.turns b) 0 (load32 p)
        (numCharsRead total b / 4)) := (emits_bitstreamIcapHelper _ _ _).mono
      fun a ha => ha.not_done
    exact hhelper.bind fun err _ => Emits.ite (fun _ => Emits.pure _) fun _ => Emits.pure _

theorem icapChunk_ne_none (hfetch : Fetches fetch ok buffer) :
    ∀ b ∈ byteReads total 0, (icapChunk e total fetch b).returned ≠ none := by
  intro b hb
  obtain ⟨o, ho, -⟩ := returned_icapChunk (e := e) hfetch ((byteReads_spec total 0).2 b hb).2.1
  simp [ho]

variable (total) in
theorem icapChunks_eq_none (hfetch : Fetches fetch ok buffer) :
    (icapChunks e total fetch).returned = some none ↔
      ∀ b ∈ byteReads total 0, ok b ∧ ¬IcapRefuses (e.turns b) (numCharsRead total b / 4) := by
  rw [icapChunks, untilLeft_eq_none (icapChunk_ne_none hfetch)]
  refine forall₂_congr fun b hb => ?_
  obtain ⟨o, ho, hnone, -⟩ := returned_icapChunk (e := e) hfetch
    ((byteReads_spec total 0).2 b hb).2.1
  rw [ho, Option.some_inj, hnone]

variable (total) in
/-- The loop is left with 0 if it is left at a turn the hardware does not take. -/
theorem icapChunks_eq_zero (hfetch : Fetches fetch ok buffer) :
    (icapChunks e total fetch).returned = some (some 0) ↔ e.Refuses ok total := by
  have hspec := fun b hb => returned_icapChunk (e := e) hfetch ((byteReads_spec total 0).2 b hb).2.1
  rw [icapChunks, untilLeft_eq_some (byteReads_spec total 0).1]
  constructor
  · rintro ⟨b, hb, hleft, hbefore⟩
    obtain ⟨o, ho, -, hzero⟩ := hspec b hb
    rw [ho, Option.some_inj, hzero] at hleft
    refine ⟨b, hb, fun b' hb' hle => ?_, hleft.2⟩
    rcases hle.lt_or_eq with hlt | rfl
    · obtain ⟨o', ho', hnone', -⟩ := hspec b' hb'
      exact (hnone'.mp (Option.some_inj.mp (ho'.symm.trans (hbefore b' hb' hlt)))).1
    · exact hleft.1
  · rintro ⟨b, hb, hok, hrefuses⟩
    -- the first chunk with a turn the hardware does not take
    have hex : ∃ c, c ∈ byteReads total 0 ∧
      IcapRefuses (e.turns c) (numCharsRead total c / 4) := ⟨b, hb, hrefuses⟩
    obtain ⟨c, ⟨hc, hcrefuses⟩, hfirst⟩ := WellFounded.has_min Nat.lt_wfRel.wf _ hex
    replace hfirst : ∀ b' < c, ¬(b' ∈ byteReads total 0 ∧
        IcapRefuses (e.turns b') (numCharsRead total b' / 4)) :=
      fun b' hlt hb' => hfirst b' hb' hlt
    have hcb : c ≤ b := not_lt.mp fun hlt => hfirst b hlt ⟨hb, hrefuses⟩
    refine ⟨c, hc, ?_, fun b' hb' hlt => ?_⟩
    · obtain ⟨o, ho, -, hzero⟩ := hspec c hc
      rw [ho, hzero.mpr ⟨hok c hc hcb, hcrefuses⟩]
    · obtain ⟨o, ho, hnone, -⟩ := hspec b' hb'
      rw [ho, hnone.mpr ⟨hok b' hb' (hlt.le.trans hcb), fun h => hfirst b' hlt ⟨hb', h⟩⟩]

variable (total) in
theorem emits_icapChunks (hfetch : Fetches fetch ok buffer) :
    Emits (fun a => ¬a.Done) (icapChunks e total fetch) :=
  Emits.untilLeft fun b _ => emits_icapChunk hfetch b

/-- A download of whole words that is not left has written all its bytes, each once. -/
theorem bytes_icapChunks (hfetch : Fetches fetch ok buffer) (hdvd : 4 ∣ total)
    (hnone : (icapChunks e total fetch).returned = some none) :
    (fifoWords (icapChunks e total fetch).events).flatMap bigEndianBytes =
      (List.range total).map buffer := by
  rw [icapChunks, untilLeft_eq_none (icapChunk_ne_none hfetch)] at hnone
  have hchunk : ∀ b ∈ byteReads total 0,
      (fifoWords (icapChunk e total fetch b).events).flatMap bigEndianBytes =
        (List.range (numCharsRead total b)).map fun i => buffer (b + i) := by
    intro b hb
    obtain ⟨-, hlt, hb4⟩ := (byteReads_spec total 0).2 b hb
    have hwhole : 4 * (numCharsRead total b / 4) = numCharsRead total b := by
      rw [numCharsRead, DMA_HWICAP_BITFILE_BUFFER_SIZE]
      omega
    rw [fifoWords_icapChunk hfetch hlt (hnone b hb), flatMap_bigEndianBytes, hwhole]
  rw [icapChunks, events_untilLeft hnone, fifoWords, List.filterMap_flatMap, List.flatMap_assoc]
  calc (byteReads total 0).flatMap (fun b =>
        (fifoWords (icapChunk e total fetch b).events).flatMap bigEndianBytes)
      = (byteReads total 0).flatMap (fun b =>
        (List.range (numCharsRead total b)).map fun i => buffer (b + i)) :=
        List.flatMap_congr hchunk
    _ = (List.range total).map buffer := by
        rw [flatMap_byteReads]
        simp

/-- `wait_for_done` returns 0 once the done status is read. -/
theorem returned_waitForDone (e : IcapEnv) : ∃ err, (waitForDone e).returned = some err ∧
    (err = 0 ↔ ∃ i < 10, e.status i &&& 0x5 ≠ 0) ∧ fifoWords (waitForDone e).events = [] ∧
      (err = 0 → DoneSeen (waitForDone e).events) ∧
        (err ≠ 0 → Emits (fun a => ¬a.Done) (waitForDone e)) := by
  obtain ⟨b, hb, hiff⟩ := returned_poll .XHWICAP_SR
    (fun w => decide (w &&& 0x5 ≠ 0)) e.status 10 0
  simp only [Nat.zero_add, decide_eq_true_eq] at hiff
  refine ⟨if b then 0 else -Errno.eio.code, ?_, ?_, ?_, fun h0 => ?_, fun h0 => ?_⟩
  · rw [waitForDone, bind_of_returned hb]
    rfl
  · rw [← hiff]
    cases b <;> simp [Errno.code]
  · refine fifoWords_eq_nil fun a ha => ?_
    rw [waitForDone, bind_of_returned hb, events_pure, List.append_nil] at ha
    obtain ⟨w, rfl⟩ := emits_poll _ _ _ a ha
    rfl
  · cases b with
    | false => exact absurd h0 (by decide)
    | true =>
      obtain ⟨before, w, heq, hw⟩ := events_poll hb
      rw [waitForDone, bind_of_returned hb, events_pure, List.append_nil, heq]
      exact ⟨before, _, [], rfl, ⟨w, rfl, of_decide_eq_true hw⟩, rfl⟩
  · cases b with
    | true => exact absurd rfl h0
    | false =>
      refine Emits.bind (fun a ha => ?_) fun _ _ => Emits.pure _
      obtain ⟨w, rfl, hw⟩ := emits_poll_of_false hb a ha
      rintro ⟨v, hv, hdone⟩
      cases hv
      exact of_decide_eq_false hw hdone

theorem parseHeader_of_ok {touch : U32 → List Access} {header : HeaderEnv} {h : BitHeader} {n : ℕ}
    (hparse : bitstreamParseHeader header 0 = .ok h n) : parseHeader touch header =
      ⟨(List.range n).flatMap fun i => touch (BitVec.ofNat 32 i), some (some h)⟩ := by
  rw [parseHeader, hparse]

/-- A header in memory of the kernel is parsed without a trace. -/
theorem parseHeader_untouched (header : HeaderEnv) : parseHeader untouched header =
    match bitstreamParseHeader header 0 with
    | .ok h _ => pure (some h)
    | .error .invalid _ => pure none
    | .error .fault _ => stop := by
  have hquiet (n : ℕ) : ((List.range n).flatMap fun i =>
      untouched (BitVec.ofNat 32 i : U32)) = [] := by simp [untouched]
  rw [parseHeader]
  simp only [hquiet]
  rcases bitstreamParseHeader header 0 with ⟨h, n⟩ | ⟨_ | _, n⟩ <;> rfl

/-- The parser accepts `h`, which with its bitstream fits in `length`, as far as the sum tells. -/
def HeaderEnv.Accepts (header : HeaderEnv) (length : ℕ) (h : BitHeader) : Prop :=
  (∃ n, bitstreamParseHeader header 0 = .ok h n) ∧
    (h.headerLength + h.bitstreamLength).toNat ≤ length

/-- The parser accesses memory that is not mapped. -/
def HeaderEnv.Faults (header : HeaderEnv) : Prop :=
  ∃ n, bitstreamParseHeader header 0 = .error .fault n

theorem HeaderEnv.Accepts.unique {header : HeaderEnv} {length : ℕ} {h h' : BitHeader}
    (hacc : header.Accepts length h) (hacc' : header.Accepts length h') : h' = h := by
  obtain ⟨⟨n, hok⟩, -⟩ := hacc
  obtain ⟨⟨n', hok'⟩, -⟩ := hacc'
  cases hok.symm.trans hok'
  rfl

theorem HeaderEnv.Accepts.not_faults {header : HeaderEnv} {length : ℕ} {h : BitHeader}
    (hacc : header.Accepts length h) : ¬header.Faults := by
  obtain ⟨⟨n, hok⟩, -⟩ := hacc
  rintro ⟨n', hfault⟩
  cases hok.symm.trans hfault

variable {header : HeaderEnv} {length : ℕ} {h : BitHeader} {bytes : BitHeader → ℕ → Byte}
  {fetches : BitHeader → ℕ → ℕ → Traced Access (Option (ℕ → Byte))}

theorem icapDownload_of_accepts (hacc : header.Accepts length h) :
    icapDownload e header length fetches = (do
      match ← icapChunks e h.bitstreamLength.toNat (fetches h) with
      | some err => return err
      | none => waitForDone e) := by
  obtain ⟨⟨n, hparse⟩, hfits⟩ := hacc
  rw [icapDownload, parseHeader_untouched, hparse]
  exact if_neg (not_lt.mpr hfits)

variable (e fetches) in
/-- A download that is given no header returns an error, or does not return. -/
theorem icapDownload_of_not_accepts (hnot : ∀ h, ¬header.Accepts length h) :
    (header.Faults ∧ icapDownload e header length fetches = stop) ∨
      (¬header.Faults ∧ icapDownload e header length fetches = pure (-22)) := by
  rw [icapDownload, parseHeader_untouched]
  rcases hparse : bitstreamParseHeader header 0 with ⟨h, n⟩ | ⟨_ | _, n⟩
  · refine Or.inr ⟨?_, ?_⟩
    · rintro ⟨n', hfault⟩
      cases hparse.symm.trans hfault
    · have hlong : ¬(h.headerLength + h.bitstreamLength).toNat ≤ length :=
        fun hfits => hnot h ⟨⟨n, hparse⟩, hfits⟩
      exact if_pos (not_le.mp hlong)
  · refine Or.inr ⟨?_, rfl⟩
    rintro ⟨n', hfault⟩
    cases hparse.symm.trans hfault
  · exact Or.inl ⟨⟨n, hparse⟩, rfl⟩

/-- A download with a header returns. It returns 0 once the hardware signals that it is done, and
also when it does not take a turn. -/
theorem returned_icapDownload_of_accepts (hfetch : ∀ h, Fetches (fetches h) ok (bytes h))
    (hacc : header.Accepts length h) :
    ∃ err, (icapDownload e header length fetches).returned = some err ∧ (err = 0 ↔
      e.Refuses ok h.bitstreamLength.toNat ∨ e.Completes ok h.bitstreamLength.toNat) := by
  have hnone := icapChunks_eq_none (e := e) h.bitstreamLength.toNat (hfetch h)
  have hzero := icapChunks_eq_zero (e := e) h.bitstreamLength.toNat (hfetch h)
  rw [icapDownload_of_accepts hacc]
  rcases hloop : (icapChunks e h.bitstreamLength.toNat (fetches h)).returned with _ | _ | err
  · exact absurd hloop (returned_untilLeft_ne_none (icapChunk_ne_none (hfetch h)))
  · obtain ⟨err, herr, hdone, -⟩ := returned_waitForDone e
    refine ⟨err, by simp only [bind_of_returned hloop, herr], ?_⟩
    have hnot : ¬e.Refuses ok h.bitstreamLength.toNat := fun hr => by
      have := hloop.symm.trans (hzero.mpr hr)
      cases this
    rw [hdone, IcapEnv.Completes, and_iff_right (hnone.mp hloop), or_iff_right hnot]
  · refine ⟨err, by simp only [bind_of_returned hloop, returned_pure], ?_⟩
    have hnot : ¬e.Completes ok h.bitstreamLength.toNat := fun hc => by
      have := hloop.symm.trans (hnone.mpr hc.1)
      cases this
    rw [or_iff_left hnot, ← hzero, hloop, Option.some_inj, Option.some_inj]

/-- A download returns unless the parser faults. -/
theorem returned_icapDownload (hfetch : ∀ h, Fetches (fetches h) ok (bytes h)) :
    ((icapDownload e header length fetches).returned = none ↔ header.Faults) ∧
      ((icapDownload e header length fetches).returned = some 0 ↔ ∃ h, header.Accepts length h ∧
        (e.Refuses ok h.bitstreamLength.toNat ∨ e.Completes ok h.bitstreamLength.toNat)) := by
  by_cases hex : ∃ h, header.Accepts length h
  · obtain ⟨h, hacc⟩ := hex
    obtain ⟨err, herr, hzero⟩ := returned_icapDownload_of_accepts (e := e) hfetch hacc
    rw [herr, Option.some_inj, hzero]
    refine ⟨iff_of_false (Option.some_ne_none err) hacc.not_faults, fun hor => ⟨h, hacc, hor⟩, ?_⟩
    rintro ⟨h', hacc', hor⟩
    rwa [hacc.unique hacc'] at hor
  · have hnot := not_exists.mp hex
    have hno : ¬∃ h, header.Accepts length h ∧ (e.Refuses ok h.bitstreamLength.toNat ∨
        e.Completes ok h.bitstreamLength.toNat) := fun ⟨h, hacc, _⟩ => hnot h hacc
    rcases icapDownload_of_not_accepts e fetches hnot with
      ⟨hfault, hr⟩ | ⟨hfault, hr⟩
    · exact ⟨iff_of_true (by simp [hr]) hfault, iff_of_false (by simp [hr]) hno⟩
    · exact ⟨iff_of_false (by simp [hr]) hfault, iff_of_false (by simp [hr]) hno⟩

/-- A download of whole words that completes has written all its bytes, and then seen the done
status. -/
theorem trace_of_completes (hfetch : ∀ h, Fetches (fetches h) ok (bytes h))
    (hacc : header.Accepts length h) (hdvd : 4 ∣ h.bitstreamLength.toNat)
    (hcompletes : e.Completes ok h.bitstreamLength.toNat) :
    (fifoWords (icapDownload e header length fetches).events).flatMap bigEndianBytes =
      (List.range h.bitstreamLength.toNat).map (bytes h) ∧
        DoneSeen (icapDownload e header length fetches).events := by
  have hloop := (icapChunks_eq_none (e := e) _ (hfetch h)).mpr hcompletes.1
  obtain ⟨err, -, hdone, hquiet, hseen, -⟩ := returned_waitForDone e
  rw [icapDownload_of_accepts hacc, bind_of_returned hloop]
  refine ⟨?_, (hseen (hdone.mpr hcompletes.2)).prepend _⟩
  rw [fifoWords_append, hquiet, List.append_nil, bytes_icapChunks (hfetch h) hdvd hloop]

/-- The done status is only seen in a download that completes. -/
theorem completes_of_done (hfetch : ∀ h, Fetches (fetches h) ok (bytes h)) {a : Access}
    (ha : a ∈ (icapDownload e header length fetches).events) (hdone : a.Done) :
    ∃ h, header.Accepts length h ∧ e.Completes ok h.bitstreamLength.toNat := by
  by_cases hex : ∃ h, header.Accepts length h
  · obtain ⟨h, hacc⟩ := hex
    refine ⟨h, hacc, ?_⟩
    have hchunks := emits_icapChunks (e := e) h.bitstreamLength.toNat (hfetch h)
    rw [icapDownload_of_accepts hacc] at ha
    rcases hloop : (icapChunks e h.bitstreamLength.toNat (fetches h)).returned with _ | _ | err
    · rw [bind_of_stopped hloop] at ha
      exact absurd hdone (hchunks a ha)
    · rw [bind_of_returned hloop] at ha
      rcases List.mem_append.mp ha with ha | ha
      · exact absurd hdone (hchunks a ha)
      · obtain ⟨err, -, hzero, -, -, hquiet⟩ := returned_waitForDone e
        refine ⟨(icapChunks_eq_none _ (hfetch h)).mp hloop, hzero.mp ?_⟩
        exact not_not.mp fun hne => hquiet hne a ha hdone
    · rw [bind_of_returned hloop, events_pure, List.append_nil] at ha
      exact absurd hdone (hchunks a ha)
  · rcases icapDownload_of_not_accepts e fetches (not_exists.mp hex) with
      ⟨-, heq⟩ | ⟨-, heq⟩ <;>
    · rw [heq] at ha
      cases ha

end Download

end Wimi
