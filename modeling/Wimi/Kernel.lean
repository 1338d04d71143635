import Mathlib

/-!
# Machine words and error numbers

The fixed-width integers the driver computes with, and the error numbers its entry points
return. A function that can fail returns `Except Errno`. A function that can hit a `BUG_ON`
returns `Option`, with `none` for the kernel bug, or `Except` with the state the bug leaves.
-/

namespace Wimi

abbrev U8 := BitVec 8

abbrev U32 := BitVec 32

abbrev U64 := BitVec 64

/-- The bytes of a word in memory. -/
def wordBytes (w : U32) : List U8 :=
  [w.setWidth 8, (w >>> 8).setWidth 8, (w >>> 16).setWidth 8, (w >>> 24).setWidth 8]

theorem U32.zero_le (x : U32) : 0 ≤ x :=
  Nat.zero_le _

/-- Error numbers, returned negated by the driver. -/
inductive Errno
  | eio
  | eagain
  | enomem
  | ebusy
  | enodev
  | einval
  | eproto
  | erestartsys
  deriving DecidableEq, Repr

/-- The number of an error. -/
def Errno.code : Errno → ℤ
  | .eio => 5
  | .eagain => 11
  | .enomem => 12
  | .ebusy => 16
  | .enodev => 19
  | .einval => 22
  | .eproto => 71
  | .erestartsys => 512

theorem Errno.code_pos (e : Errno) : 0 < e.code := by
  cases e <;> decide

theorem Errno.neg_code_neg (e : Errno) : -e.code < 0 :=
  neg_neg_of_pos e.code_pos

/-- `PAGE_SHIFT` of the kernel the driver is built for. -/
def PAGE_SHIFT : ℕ := 12

/-- `PAGE_SIZE`. -/
def PAGE_SIZE : ℕ := 2 ^ PAGE_SHIFT

/-- Channels of a device in each direction. -/
def XDMA_CHANNEL_NUM_MAX : ℕ := 4

def MAX_USER_IRQ : ℕ := 16

/-- `INT_MAX`. -/
def INT_MAX : ℕ := 2 ^ 31 - 1

/-! ## Computations that can stop at a `BUG_ON` -/

section Except

variable {ε α β : Type*}

theorem Except.map_eq_ok {x : Except ε α} {f : α → β} {b : β} (h : x.map f = .ok b) :
    ∃ a, x = .ok a ∧ f a = b := by
  cases x with
  | error e => cases h
  | ok a => exact ⟨a, rfl, Except.ok.inj h⟩

theorem Except.bind_eq_ok {α β : Type} {x : Except ε α} {f : α → Except ε β} {b : β}
    (h : x >>= f = .ok b) : ∃ a, x = .ok a ∧ f a = .ok b := by
  cases x with
  | error e => cases h
  | ok a => exact ⟨a, rfl, h⟩

theorem Except.ok_bind {α β : Type} (a : α) (f : α → Except ε β) : (Except.ok a >>= f) = f a :=
  rfl

theorem Except.map_eq_error {x : Except ε α} {f : α → β} {e : ε} (h : x.map f = .error e) :
    x = .error e := by
  cases x with
  | error e' => exact congrArg Except.error (Except.error.inj h)
  | ok a => cases h

theorem Except.toOption_eq_some {x : Except ε α} {a : α} (h : x.toOption = some a) :
    x = .ok a := by
  cases x with
  | error e => cases h
  | ok b => exact congrArg Except.ok (Option.some.inj h)

end Except

end Wimi
