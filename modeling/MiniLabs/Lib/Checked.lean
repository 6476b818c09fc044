/-
  Checked reads, sizes and array stores.

  Every operation says `none` where the program would leave its bounds: a read outside a buffer, a
  `size_t` that wraps around, a store behind the end of an array.  A program written with them
  that returns `some` has stayed inside throughout.

  Beside each read stands its total form, which the checked one returns when it is inside
  (`u16_eq`, `u32_eq`).  Words are little-endian.
-/
import Mathlib.Algebra.Order.Ring.Int
import Mathlib.Data.List.Basic

set_option linter.unusedVariables false

namespace Checked

/-! ## Sizes and stores -/

/-- A size that is computed without wrapping around. -/
def size (n : Nat) : Option Nat := if n < 2 ^ 64 then some n else none

/-- `x` is stored behind the entries so far of an array with room for `cap`. -/
def push {α : Type} (cap : Nat) (xs : List α) (x : α) : Option (List α) :=
  if xs.length < cap then some (xs ++ [x]) else none

/-- The terminator is stored behind the string, in a buffer of `cap` bytes. -/
def terminate (cap : Nat) (s : List UInt8) : Option (List UInt8) :=
  if s.length < cap then some s else none

/-- A size that fits does not wrap. -/
theorem size_eq {n : Nat} (h : n < 2 ^ 64) : size n = some n := if_pos h

/-- There is room for one more. -/
theorem push_eq {α : Type} {cap : Nat} {xs : List α} (h : xs.length < cap) (x : α) :
    push cap xs x = some (xs ++ [x]) := if_pos h

/-- There is room for the terminator. -/
theorem terminate_eq {cap : Nat} {s : List UInt8} (h : s.length < cap) :
    terminate cap s = some s := if_pos h

/-! ## Reads -/

/-- The byte at `p`. -/
def byte (mem : List UInt8) (p : Nat) : Option UInt8 := mem[p]?

/-- The 16-bit word at `p`. -/
def u16 (mem : List UInt8) (p : Nat) : Option Nat :=
  (byte mem p).bind fun a => (byte mem (p + 1)).bind fun b => some (a.toNat + 256 * b.toNat)

/-- The 32-bit word at `p`. -/
def u32 (mem : List UInt8) (p : Nat) : Option Nat :=
  (u16 mem p).bind fun lo => (u16 mem (p + 2)).bind fun hi => some (lo + 65536 * hi)

/-- The byte at `p`, 0 outside. -/
def byteAt (mem : List UInt8) (p : Nat) : UInt8 := mem.getD p 0

/-- The 16-bit word at `p`, with 0 outside. -/
def word16 (mem : List UInt8) (p : Nat) : Nat :=
  (byteAt mem p).toNat + 256 * (byteAt mem (p + 1)).toNat

/-- The 32-bit word at `p`, with 0 outside. -/
def word32 (mem : List UInt8) (p : Nat) : Nat := word16 mem p + 65536 * word16 mem (p + 2)

section Reads

variable {mem mem' : List UInt8} {p q : Nat}

/-- A byte inside the buffer. -/
theorem byte_eq (h : p < mem.length) : byte mem p = some (byteAt mem p) := by
  rw [byte, byteAt, List.getD_eq_getElem?_getD, List.getElem?_eq_getElem h]
  rfl

/-- Two bytes inside the buffer. -/
theorem u16_eq (h : p + 1 < mem.length) : u16 mem p = some (word16 mem p) := by
  rw [u16, byte_eq (Nat.lt_of_succ_lt h), Option.bind_some, byte_eq h]
  rfl

/-- Four bytes inside the buffer. -/
theorem u32_eq (h : p + 3 < mem.length) : u32 mem p = some (word32 mem p) := by
  rw [u32, u16_eq (by omega), Option.bind_some, u16_eq h]
  rfl

/-- Two bytes are a number below 2^16. -/
theorem word16_lt (mem : List UInt8) (p : Nat) : word16 mem p < 2 ^ 16 := by
  have h₁ := (byteAt mem p).toNat_lt
  have h₂ := (byteAt mem (p + 1)).toNat_lt
  rw [word16]
  omega

/-- Four bytes are a number below 2^32. -/
theorem word32_lt (mem : List UInt8) (p : Nat) : word32 mem p < 2 ^ 32 := by
  have h₁ := word16_lt mem p
  have h₂ := word16_lt mem (p + 2)
  rw [word32]
  omega

/-- Words are read from equal bytes alike. -/
theorem word16_congr (h₁ : byteAt mem' q = byteAt mem p)
    (h₂ : byteAt mem' (q + 1) = byteAt mem (p + 1)) : word16 mem' q = word16 mem p := by
  rw [word16, word16, h₁, h₂]

end Reads

end Checked
