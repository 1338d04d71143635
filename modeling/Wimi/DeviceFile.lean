import Wimi.DataPath
import Wimi.Lib.Run

/-!
# Device files

The files of the memory-mapped engines of a device as their users see them : `char_sgdma_llseek`,
`char_sgdma_write` and `char_sgdma_read` on any number of files, in any order, with whatever becomes
of their chunks. In between the two memories may be written by others : the users, the device, and
the hardware where it is still behind with a call that has returned.

* `step_device` : a call changes the device in the range it writes to, and nowhere else;
* `read_back` : what a write of which all is moved has put in the device is what a later read gets,
  through whatever is done elsewhere in between;
* `round_trip` : what is sent in any number of writes is got in any number of reads.
-/

open Machine

namespace Wimi

/-! ## Calls -/

/-- An open file of an engine. -/
structure SgdmaFile where
  engine : EngineAlignment
  fPos : U64

/-- `UINT_MAX`. -/
def UINT_MAX : U64 := 0xffffffff

/-- `char_sgdma_llseek` : the new `f_pos`, which it returns. -/
def charSgdmaLlseek (f : SgdmaFile) (off : U64) (whence : ℤ) : Except Errno U64 :=
  let newpos : Except Errno U64 :=
    if whence = 0 then .ok off
    else if whence = 1 then .ok (f.fPos + off)
    else if whence = 2 then .ok (UINT_MAX + off)
    else .error .einval
  newpos.bind fun newpos => if newpos.slt 0 then .error .einval else .ok newpos

/-- The memories, the open files, and what the last call has returned. -/
structure FileSession (γ : Type*) where
  memories : Memories γ
  files : ℕ → SgdmaFile
  ret : ℤ

/-- What users do, and what is done between their calls. `buf` is in the memory behind the page
table `t`. -/
inductive FileCall (γ : Type*)
  | llseek (file : ℕ) (off : U64) (whence : ℤ)
  /-- `char_sgdma_write`. -/
  | write (file : ℕ) (t : PageTable) (buf count : U64) (runs : ℕ → ChunkRun)
  /-- `char_sgdma_read`. A memory-mapped engine has no ring. -/
  | read (file : ℕ) (t : PageTable) (buf count : U64) (runs : ℕ → ChunkRun)
  /-- The memory of the users is written, by them or by the hardware. -/
  | user (host : U64 → γ)
  /-- The memory of the device is written, by the device or by the hardware. -/
  | device (device : U64 → γ)

namespace FileSession

variable {γ : Type*} (keepsPos : Bool) (s : FileSession γ)

/-- The session with the position of a file set. -/
def setPos (file : ℕ) (pos : U64) : FileSession γ :=
  { s with files := Function.update s.files file { s.files file with fPos := pos } }

def llseek (file : ℕ) (off : U64) (whence : ℤ) : FileSession γ :=
  match charSgdmaLlseek (s.files file) off whence with
  | .ok pos => { s.setPos file pos with ret := pos.toInt }
  | .error e => { s with ret := -e.code }

/-- A call of `char_sgdma_read_write`. The kernel writes the position of a call that succeeds back
to its file, and that of a call that fails when `keepsPos` is set. -/
def readWrite (file : ℕ) (t : PageTable) (buf count : U64) (runs : ℕ → ChunkRun)
    (dirToDev : Bool) : Option (FileSession γ) :=
  (moveRequest (s.files file).engine t runs buf count (s.files file).fPos dirToDev).map fun out =>
    let pos := if out.ret ≥ 0 ∨ keepsPos then out.pos else (s.files file).fPos
    { s.setPos file pos with memories := s.memories.after dirToDev out.done, ret := out.ret }

/-- None is a kernel that has stopped. -/
def step : FileCall γ → Option (FileSession γ)
  | .llseek file off whence => some (s.llseek file off whence)
  | .write file t buf count runs => s.readWrite keepsPos file t buf count runs true
  | .read file t buf count runs => s.readWrite keepsPos file t buf count runs false
  | .user host => some { s with memories := { s.memories with host := host } }
  | .device device => some { s with memories := { s.memories with device := device } }

end FileSession

/-! ## What a call does -/

section Step

variable {γ : Type*} {keepsPos : Bool} {s s' : FileSession γ} {file : ℕ} {t : PageTable}
  {buf count : U64} {runs : ℕ → ChunkRun}

/-- The engines of the files go on with increasing addresses. -/
def FileSession.Increments (s : FileSession γ) : Prop :=
  ∀ file, (s.files file).engine.nonIncrAddr = false

@[simp] theorem setPos_self (s : FileSession γ) (file : ℕ) (pos : U64) :
    (s.setPos file pos).files file = { s.files file with fPos := pos } :=
  Function.update_self _ _ _

theorem setPos_of_ne (s : FileSession γ) {file g : ℕ} (hg : g ≠ file) (pos : U64) :
    (s.setPos file pos).files g = s.files g :=
  Function.update_of_ne hg _ _

theorem engine_setPos (s : FileSession γ) (file g : ℕ) (pos : U64) :
    ((s.setPos file pos).files g).engine = (s.files g).engine := by
  by_cases hg : g = file
  · subst hg
    rw [setPos_self]
  · rw [setPos_of_ne s hg]

/-- No call changes the engine of a file. -/
theorem engine_step {i : FileCall γ} (h : FileSession.step keepsPos s i = some s') (g : ℕ) :
    (s'.files g).engine = (s.files g).engine := by
  cases i with
  | llseek file off whence =>
    obtain rfl := Option.some.inj h
    rw [FileSession.llseek]
    split
    · exact engine_setPos _ _ _ _
    · rfl
  | write file t buf count runs =>
    obtain ⟨out, -, rfl⟩ := Option.map_eq_some_iff.mp h
    exact engine_setPos _ _ _ _
  | read file t buf count runs =>
    obtain ⟨out, -, rfl⟩ := Option.map_eq_some_iff.mp h
    exact engine_setPos _ _ _ _
  | user host | device device =>
    obtain rfl := Option.some.inj h
    rfl

theorem increments_step {i : FileCall γ} (hs : s.Increments)
    (h : FileSession.step keepsPos s i = some s') : s'.Increments := fun g => by
  rw [engine_step h g]
  exact hs g

/-- How many bytes a call is for. -/
def byteCount (count : U64) : ℕ :=
  count.toInt.toNat

/-- What a call that goes through leaves : the buffer or the device has all its bytes, and the file
is behind them. -/
structure Done (dirToDev : Bool) (s : FileSession γ) (file : ℕ) (t : PageTable) (buf : U64)
    (size : ℕ) (s' : FileSession γ) : Prop where
  copies : CopiesBytes dirToDev t buf (s.files file).fPos size s.memories s'.memories
  fPos : (s'.files file).fPos = (s.files file).fPos + BitVec.ofNat 64 size

/-- A call that does not fail, and of which all is moved that completes, copies all its bytes. -/
theorem readWrite_done {dirToDev : Bool} (hs : s.Increments)
    (hmoved : MovesCompleted runs (byteCount count))
    (hapart : dirToDev = false → t.Apart buf (byteCount count))
    (h : s.readWrite keepsPos file t buf count runs dirToDev = some s') (hok : 0 ≤ s'.ret) :
    Done dirToDev s file t buf (byteCount count) s' := by
  obtain ⟨out, hout, rfl⟩ := Option.map_eq_some_iff.mp h
  obtain ⟨m, hend⟩ := moveRequest_ended (hs file) hmoved hout
  obtain ⟨-, hcopies, hresult⟩ := hend.requestCopies s.memories (toInt_toNat_le count) hapart
  rcases hresult with ⟨-, rfl, hpos⟩ | ⟨hneg, -⟩
  · refine ⟨hcopies, ?_⟩
    have hset : (if out.ret ≥ 0 ∨ keepsPos = true then out.pos else (s.files file).fPos) =
        out.pos := if_pos (.inl hok)
    dsimp only
    rw [setPos_self, hset, hpos]
    rfl
  · exact absurd hok (not_le.mpr hneg)

/-- A write moves to its range of the device only. -/
theorem write_frame {a : U64} (hs : s.Increments)
    (h : s.readWrite keepsPos file t buf count runs true = some s')
    (hout : ∀ i < byteCount count, deviceAddr (s.files file).fPos i ≠ a) :
    s'.memories.device a = s.memories.device a := by
  obtain ⟨out, hrun, rfl⟩ := Option.map_eq_some_iff.mp h
  have hwithin : out.done ⊆ t.copies buf (s.files file).fPos (byteCount count) :=
    runRequest_within (works_engineMoves (hs file)) hrun
  refine Moves.move_of_not_mem fun hmem => ?_
  obtain ⟨x, hx, rfl⟩ := List.mem_map.mp hmem
  have hx := hwithin hx
  rw [t.copies_eq] at hx
  obtain ⟨i, hi, haddr⟩ := List.mem_map.mp (List.of_mem_zip hx).2
  exact hout i (List.mem_range.mp hi) haddr

/-! ## The device -/

/-- Address `a` of the device is written, or would be if the call went through. -/
def FileCall.WritesTo (s : FileSession γ) (a : U64) : FileCall γ → Prop
  | .write file _ _ count _ => ∃ i < byteCount count, deviceAddr (s.files file).fPos i = a
  | .device dev => dev a ≠ s.memories.device a
  | _ => False

/-- The device only changes where it is written to. -/
theorem step_device {i : FileCall γ} {a : U64} (hs : s.Increments)
    (h : FileSession.step keepsPos s i = some s') (hnot : ¬ i.WritesTo s a) :
    s'.memories.device a = s.memories.device a := by
  cases i with
  | llseek file off whence =>
    obtain rfl := Option.some.inj h
    rw [FileSession.llseek]
    split <;> rfl
  | write file t buf count runs =>
    exact write_frame hs h fun i hi heq => hnot ⟨i, hi, heq⟩
  | read file t buf count runs =>
    obtain ⟨out, -, rfl⟩ := Option.map_eq_some_iff.mp h
    rfl
  | user host =>
    obtain rfl := Option.some.inj h
    rfl
  | device device =>
    obtain rfl := Option.some.inj h
    exact not_ne_iff.mp hnot

/-- A run that does not write to an address leaves it alone. -/
theorem run_device {is : List (FileCall γ)} {a : U64} (hs : s.Increments)
    (hnot : Along (FileSession.step keepsPos) (fun s i _ => ¬ i.WritesTo s a) s is)
    (h : exec (FileSession.step keepsPos) s is = some s') :
    s'.Increments ∧ s'.memories.device a = s.memories.device a := by
  have hkept (u : FileSession γ) (i : FileCall γ) (u' : FileSession γ)
      (hu : u.Increments ∧ u.memories.device a = s.memories.device a)
      (hstep : u.step keepsPos i = some u') (hi : ¬ i.WritesTo u a) :
      u'.Increments ∧ u'.memories.device a = s.memories.device a :=
    ⟨increments_step hu.1 hstep, (step_device hu.1 hstep hi).trans hu.2⟩
  exact exec_kept_along hkept ⟨hs, rfl⟩ hnot h

/-! ## Streams -/

/-- The `n` bytes at `buf`, in a user's memory. -/
def FileSession.cells (s : FileSession γ) (t : PageTable) (buf : U64) (n : ℕ) : List γ :=
  (List.range n).map fun i => s.memories.host (t.userAddr buf i)

/-- The `n` bytes at `pos`, in the device. -/
def FileSession.stored (s : FileSession γ) (pos : U64) (n : ℕ) : List γ :=
  (List.range n).map fun i => s.memories.device (deviceAddr pos i)

/-- The bytes a write is given. -/
def sent (s : FileSession γ) (c : FileCall γ) (_ : FileSession γ) : List γ :=
  match c with
  | .write _ t buf count _ => s.cells t buf (byteCount count)
  | _ => []

/-- The bytes a read has put in its buffer. -/
def got (_ : FileSession γ) (c : FileCall γ) (s' : FileSession γ) : List γ :=
  match c with
  | .read _ t buf count _ => s'.cells t buf (byteCount count)
  | _ => []

/-- The call is a write to `file` that goes through, with all moved that completes, or the memory of
the users is written. -/
def Sends (file : ℕ) (_ : FileSession γ) (c : FileCall γ) (s' : FileSession γ) : Prop :=
  match c with
  | .write f _ _ count runs => f = file ∧ 0 ≤ s'.ret ∧ MovesCompleted runs (byteCount count)
  | .user _ => True
  | _ => False

/-- The call is a read of `file` that goes through, with all moved that completes, to a buffer with
a place for each byte, or the memory of the users is written. -/
def Gets (file : ℕ) (_ : FileSession γ) (c : FileCall γ) (s' : FileSession γ) : Prop :=
  match c with
  | .read f t buf count runs => f = file ∧ 0 ≤ s'.ret ∧ t.Apart buf (byteCount count) ∧
      MovesCompleted runs (byteCount count)
  | .user _ => True
  | _ => False

theorem deviceAddr_add (pos : U64) (m i : ℕ) :
    deviceAddr (pos + BitVec.ofNat 64 m) i = deviceAddr pos (m + i) := by
  rw [deviceAddr, deviceAddr, BitVec.ofNat_add, BitVec.add_assoc]

theorem stored_add (s : FileSession γ) (pos : U64) (m n : ℕ) :
    s.stored pos (m + n) = s.stored pos m ++ s.stored (pos + BitVec.ofNat 64 m) n := by
  simp only [FileSession.stored, List.range_add, List.map_append, List.map_map, deviceAddr_add]
  rfl

/-- The device has the bytes `os` from `pos` on, and the file is behind them. -/
structure Stored (file : ℕ) (pos : U64) (s : FileSession γ) (os : List γ) : Prop where
  increments : s.Increments
  fPos : (s.files file).fPos = pos + BitVec.ofNat 64 os.length
  stored : os.length ≤ 2 ^ 64 → s.stored pos os.length = os

/-- A write that goes through puts its bytes behind those that are stored. -/
theorem Stored.step {pos : U64} {c : FileCall γ} {os : List γ} (hs : Stored file pos s os)
    (h : FileSession.step keepsPos s c = some s') (hc : Sends file s c s') :
    Stored file pos s' (os ++ sent s c s') := by
  obtain ⟨hincr, hpos, hstored⟩ := hs
  cases c with
  | llseek | read | device _ => exact hc.elim
  | user host =>
    obtain rfl := Option.some.inj h
    exact (List.append_nil os).symm ▸ ⟨hincr, hpos, hstored⟩
  | write f t buf count runs =>
    obtain ⟨rfl, hok, hmoved⟩ := hc
    have hapart (hdir : true = false) : t.Apart buf (byteCount count) := nomatch hdir
    obtain ⟨⟨-, hcopied⟩, hpos'⟩ := readWrite_done hincr hmoved hapart h hok
    rw [hpos] at hcopied hpos'
    have hlen : (sent s (.write f t buf count runs) s').length = byteCount count := by
      simp [sent, FileSession.cells]
    refine ⟨increments_step hincr h, ?_, fun hmax => ?_⟩
    · rw [hpos', List.length_append, hlen, BitVec.ofNat_add, BitVec.add_assoc]
    · rw [List.length_append, hlen] at hmax ⊢
      rw [stored_add]
      congr 1
      · -- what is behind the position is not written again
        refine Eq.trans (List.map_congr_left fun i hi => hcopied.frame _ fun j hj heq => ?_)
          (hstored (le_of_add_le_left hmax))
        rw [deviceAddr_add] at heq
        have hi := List.mem_range.mp hi
        have := deviceAddr_inj (by omega) (by omega) heq
        omega
      · exact List.map_congr_left fun i hi => hcopied.cell i (List.mem_range.mp hi)

/-- The bytes `os` are those the device `device` has from `pos` on, and the file is behind them. -/
structure Fetched (file : ℕ) (pos : U64) (device : U64 → γ) (s : FileSession γ) (os : List γ) :
    Prop where
  increments : s.Increments
  device : s.memories.device = device
  fPos : (s.files file).fPos = pos + BitVec.ofNat 64 os.length
  fetched : os = s.stored pos os.length

/-- A read that goes through puts the bytes behind those fetched in its buffer. -/
theorem Fetched.step {pos : U64} {device : U64 → γ} {c : FileCall γ} {os : List γ}
    (hs : Fetched file pos device s os) (h : FileSession.step keepsPos s c = some s')
    (hc : Gets file s c s') : Fetched file pos device s' (os ++ got s c s') := by
  obtain ⟨hincr, hdevice, hpos, hfetched⟩ := hs
  cases c with
  | llseek | write | device _ => exact hc.elim
  | user host =>
    obtain rfl := Option.some.inj h
    exact (List.append_nil os).symm ▸ ⟨hincr, hdevice, hpos, hfetched⟩
  | read f t buf count runs =>
    obtain ⟨rfl, hok, hapart, hmoved⟩ := hc
    obtain ⟨⟨hkept, hcopied⟩, hpos'⟩ := readWrite_done hincr hmoved (fun _ => hapart) h hok
    have hlen : (got s (.read f t buf count runs) s').length = byteCount count := by
      simp [got, FileSession.cells]
    have hgot : got s (.read f t buf count runs) s' =
        s.stored (s.files f).fPos (byteCount count) :=
      List.map_congr_left fun i hi => hcopied.cell i (List.mem_range.mp hi)
    have hsame (p : U64) (n : ℕ) : s'.stored p n = s.stored p n := by
      rw [FileSession.stored, hkept]
      rfl
    refine ⟨increments_step hincr h, hkept.trans hdevice, ?_, ?_⟩
    · rw [hpos', hpos, List.length_append, hlen, BitVec.ofNat_add, BitVec.add_assoc]
    · rw [List.length_append, hlen, hsame, stored_add, ← hfetched, hgot, hpos]

/-- All that is sent in a run. -/
def sentIn (keepsPos : Bool) (s : FileSession γ) (ws : List (FileCall γ)) : List γ :=
  outputs (FileSession.step keepsPos) sent s ws

/-- All that is got in a run. -/
def gotIn (keepsPos : Bool) (s : FileSession γ) (rs : List (FileCall γ)) : List γ :=
  outputs (FileSession.step keepsPos) got s rs

/-- Writes behind each other leave what is sent, from where the file was. -/
theorem stored_of_sends {ws : List (FileCall γ)} (hs : s.Increments)
    (hsends : Along (FileSession.step keepsPos) (Sends file) s ws)
    (h : exec (FileSession.step keepsPos) s ws = some s') :
    Stored file (s.files file).fPos s' (sentIn keepsPos s ws) := by
  have hstart : Stored file (s.files file).fPos s [] :=
    ⟨hs, (BitVec.add_zero _).symm, fun _ => rfl⟩
  exact outputs_kept (fun _ _ _ _ hu => hu.step) hstart hsends h

/-- Reads behind each other get what the device has, from where the file was. -/
theorem fetched_of_gets {rs : List (FileCall γ)} (hs : s.Increments)
    (hgets : Along (FileSession.step keepsPos) (Gets file) s rs)
    (h : exec (FileSession.step keepsPos) s rs = some s') :
    gotIn keepsPos s rs = s.stored (s.files file).fPos (gotIn keepsPos s rs).length := by
  have hstart : Fetched file (s.files file).fPos s.memories.device s [] :=
    ⟨hs, rfl, (BitVec.add_zero _).symm, rfl⟩
  obtain ⟨-, hdevice, -, hfetched⟩ := outputs_kept (fun _ _ _ _ hu => hu.step) hstart hgets h
  refine hfetched.trans ?_
  rw [FileSession.stored, hdevice]
  rfl

variable (keepsPos) in
/-- A call whose chunks all complete goes through, and leaves the other files alone. -/
theorem readWrite_completes {dirToDev : Bool} {size : ℕ} (hs : s.Increments)
    (haccept : (charSgdmaReadWrite (s.files file).engine buf count (s.files file).fPos
      dirToDev).isOk)
    (hsize : count.toInt = size) (hall : AllComplete runs t buf size) :
    ∃ s', s.readWrite keepsPos file t buf count runs dirToDev = some s' ∧ 0 ≤ s'.ret ∧
      ∀ g ≠ file, s'.files g = s.files g := by
  cases hrw : charSgdmaReadWrite (s.files file).engine buf count (s.files file).fPos dirToDev with
  | error e =>
    rw [hrw] at haccept
    cases haccept
  | ok c =>
    obtain ⟨out, hout, hret⟩ := moveRequest_completes (hs file) hrw hsize hall
    refine ⟨_, congrArg (Option.map _) hout, ?_, fun g hg => setPos_of_ne s hg _⟩
    dsimp only
    rw [hret]
    exact Int.natCast_nonneg _

/-- File 0 of an engine that writes and file 1 of one that reads, over memory that holds the
addresses of its bytes. -/
def twoFiles : FileSession U64 where
  memories := ⟨fun a => a, fun _ => 0⟩
  files file := ⟨{ plainEngine with dirToDev := file = 0 }, 0⟩
  ret := 0

/-- Four bytes are written and then read to another buffer. -/
theorem twoFiles_runs : ∃ s₁ s₂,
    twoFiles.step false (.write 0 (.of id) 0xffe 4 fun _ => twoPageRun) = some s₁ ∧ 0 ≤ s₁.ret ∧
      (s₁.files 1).fPos = 0 ∧
      s₁.step false (.read 1 (.of id) 0x1ffe 4 fun _ => twoPageRun) = some s₂ ∧ 0 ≤ s₂.ret := by
  have hincr : twoFiles.Increments := fun _ => rfl
  have hcount : (4 : U64).toInt = (4 : ℕ) := by decide
  have hall : AllComplete (fun _ => twoPageRun) (.of id) 0xffe 4 :=
    allComplete_single (by decide) (twoPageRun_completes (by decide) (by decide) (by decide))
  have hall' : AllComplete (fun _ => twoPageRun) (.of id) 0x1ffe 4 :=
    allComplete_single (by decide) (twoPageRun_completes (by decide) (by decide) (by decide))
  have haccept : (charSgdmaReadWrite (twoFiles.files 0).engine 0xffe 4 (twoFiles.files 0).fPos
      true).isOk := rfl
  obtain ⟨s₁, hwrite, hok, hfiles⟩ := readWrite_completes false hincr haccept hcount hall
  have hfile : s₁.files 1 = twoFiles.files 1 := hfiles 1 (by decide)
  have hincr₁ : s₁.Increments := increments_step hincr (i := .write _ _ _ _ _) hwrite
  have haccept' :
      (charSgdmaReadWrite (s₁.files 1).engine 0x1ffe 4 (s₁.files 1).fPos false).isOk := by
    rw [hfile]
    rfl
  obtain ⟨s₂, hread, hok', -⟩ := readWrite_completes false hincr₁ haccept' hcount hall'
  exact ⟨s₁, s₂, hwrite, hok, by rw [hfile]; rfl, hread, hok'⟩

/-- Bytes sent to the device in any number of writes behind each other, and got from there in any
number of reads of the same total, are the bytes sent, if the hardware has moved all of each of
their chunks that completes, whatever is written outside of them in between. -/
theorem round_trip (keepsPos : Bool) (s s₁ s₂ s₃ : FileSession γ) (f g : ℕ)
    (ws is rs : List (FileCall γ)) (hincr : s.Increments)
    (hws : exec (FileSession.step keepsPos) s ws = some s₁)
    (his : exec (FileSession.step keepsPos) s₁ is = some s₂)
    (hrs : exec (FileSession.step keepsPos) s₂ rs = some s₃)
    (hsends : Along (FileSession.step keepsPos) (Sends f) s ws)
    (hgets : Along (FileSession.step keepsPos) (Gets g) s₂ rs)
    (hmax : (sentIn keepsPos s ws).length ≤ 2 ^ 64)
    (hsize : (gotIn keepsPos s₂ rs).length = (sentIn keepsPos s ws).length)
    (hpos : (s₂.files g).fPos = (s.files f).fPos)
    (hkept : ∀ i < (sentIn keepsPos s ws).length, Along (FileSession.step keepsPos)
      (fun u c _ => ¬ c.WritesTo u (deviceAddr (s.files f).fPos i)) s₁ is) :
    gotIn keepsPos s₂ rs = sentIn keepsPos s ws := by
  obtain ⟨hincr₁, -, hstored⟩ := stored_of_sends hincr hsends hws
  have hincr₂ : s₂.Increments := exec_kept (fun _ _ _ hu => increments_step hu) hincr₁ his
  have hbetween : s₂.stored (s.files f).fPos (sentIn keepsPos s ws).length =
      s₁.stored (s.files f).fPos (sentIn keepsPos s ws).length :=
    List.map_congr_left fun i hi => (run_device hincr₁ (hkept i (List.mem_range.mp hi)) his).2
  calc gotIn keepsPos s₂ rs
    _ = s₂.stored (s.files f).fPos (sentIn keepsPos s ws).length := by
        rw [fetched_of_gets hincr₂ hgets hrs, hpos, hsize]
    _ = s₁.stored (s.files f).fPos (sentIn keepsPos s ws).length := hbetween
    _ = sentIn keepsPos s ws := hstored hmax

theorem round_trip_two_files : ∃ s₁ s₂,
    exec (FileSession.step false) twoFiles [.write 0 (.of id) 0xffe 4 fun _ => twoPageRun] =
      some s₁ ∧
    exec (FileSession.step false) s₁ [.read 1 (.of id) 0x1ffe 4 fun _ => twoPageRun] = some s₂ ∧
    gotIn false s₁ [.read 1 (.of id) 0x1ffe 4 fun _ => twoPageRun] =
      sentIn false twoFiles [.write 0 (.of id) 0xffe 4 fun _ => twoPageRun] := by
  obtain ⟨s₁, s₂, hwrite, hok, hpos, hread, hok'⟩ := twoFiles_runs
  have hws : exec (FileSession.step false) twoFiles
      [.write 0 (.of id) 0xffe 4 fun _ => twoPageRun] = some s₁ :=
    congrArg (Option.bind · _) hwrite
  have hrs : exec (FileSession.step false) s₁
      [.read 1 (.of id) 0x1ffe 4 fun _ => twoPageRun] = some s₂ :=
    congrArg (Option.bind · _) hread
  have hsent : (sentIn false twoFiles [.write 0 (.of id) 0xffe 4 fun _ => twoPageRun]).length =
      4 := by
    simp only [sentIn, outputs, hwrite]
    rfl
  have hgot : (gotIn false s₁ [.read 1 (.of id) 0x1ffe 4 fun _ => twoPageRun]).length = 4 := by
    simp only [gotIn, outputs, hread]
    rfl
  have hmoved : MovesCompleted (fun _ => twoPageRun) (byteCount 4) := twoPageRun_moves (by decide)
  refine ⟨s₁, s₂, hws, hrs, round_trip false twoFiles s₁ s₁ s₂ 0 1 _ [] _ (fun _ => rfl) hws rfl hrs
    (.cons hwrite ⟨rfl, hok, hmoved⟩ trivial) (.cons hread ⟨rfl, hok', by decide, hmoved⟩ trivial)
    ?_ ?_ hpos fun _ _ => trivial⟩
  · rw [hsent]
    decide
  · rw [hsent, hgot]

/-- What a write that goes through has put at an address of the device is what a read that goes
through gets from there, if the hardware has moved all of each of their chunks that completes,
whatever is written elsewhere in between, and wherever in the two buffers it is. -/
theorem read_back (keepsPos : Bool) (s s₁ s₂ s₃ : FileSession γ) (f g : ℕ) (t t' : PageTable)
    (buf buf' count count' : U64) (runs runs' : ℕ → ChunkRun) (is : List (FileCall γ)) (i j : ℕ)
    (hincr : s.Increments)
    (hwrite : s.step keepsPos (.write f t buf count runs) = some s₁) (hok : 0 ≤ s₁.ret)
    (hmoved : MovesCompleted runs (byteCount count))
    (his : exec (FileSession.step keepsPos) s₁ is = some s₂)
    (hread : s₂.step keepsPos (.read g t' buf' count' runs') = some s₃) (hok' : 0 ≤ s₃.ret)
    (hmoved' : MovesCompleted runs' (byteCount count'))
    (hapart : t'.Apart buf' (byteCount count')) (hi : i < byteCount count)
    (hj : j < byteCount count')
    (haddr : deviceAddr (s₂.files g).fPos j = deviceAddr (s.files f).fPos i)
    (hkept : Along (FileSession.step keepsPos)
      (fun u c _ => ¬ c.WritesTo u (deviceAddr (s.files f).fPos i)) s₁ is) :
    s₃.memories.host (t'.userAddr buf' j) = s.memories.host (t.userAddr buf i) := by
  have hincr₁ := increments_step hincr hwrite
  obtain ⟨hincr₂, hbetween⟩ := run_device hincr₁ hkept his
  have hapart₁ (hdir : true = false) : t.Apart buf (byteCount count) := nomatch hdir
  obtain ⟨⟨-, hput⟩, -⟩ := readWrite_done hincr hmoved hapart₁ hwrite hok
  obtain ⟨⟨-, hget⟩, -⟩ := readWrite_done hincr₂ hmoved' (fun _ => hapart) hread hok'
  calc s₃.memories.host (t'.userAddr buf' j)
    _ = s₂.memories.device (deviceAddr (s₂.files g).fPos j) := hget.cell j hj
    _ = s₁.memories.device (deviceAddr (s.files f).fPos i) := by rw [haddr, hbetween]
    _ = s.memories.host (t.userAddr buf i) := hput.cell i hi

theorem read_back_two_files : ∃ s₁ s₂,
    twoFiles.step false (.write 0 (.of id) 0xffe 4 fun _ => twoPageRun) = some s₁ ∧
    s₁.step false (.read 1 (.of id) 0x1ffe 4 fun _ => twoPageRun) = some s₂ ∧
    s₂.memories.host ((PageTable.of id).userAddr 0x1ffe 3) =
      twoFiles.memories.host ((PageTable.of id).userAddr 0xffe 3) := by
  obtain ⟨s₁, s₂, hwrite, hok, hpos, hread, hok'⟩ := twoFiles_runs
  have hmoved : MovesCompleted (fun _ => twoPageRun) (byteCount 4) := twoPageRun_moves (by decide)
  exact ⟨s₁, s₂, hwrite, hread, read_back false twoFiles s₁ s₁ s₂ 0 1 (.of id) (.of id) 0xffe
    0x1ffe 4 4 _ _ [] 3 3 (fun _ => rfl) hwrite hok hmoved rfl hread hok' hmoved (by decide)
    (by decide) (by decide) (by rw [hpos]; rfl) trivial⟩

end Step

end Wimi
