import Spc700.Word

/-!
# The program status word

Eight flags, kept as a record and stored as one byte: bit 7 to bit 0 are negative, overflow,
direct page, break, half carry, interrupt, zero and carry.

* `Flags.ofByte_toByte`, `Flags.toByte_ofByte`: the record and the byte hold the same.
* `Flags.describe` is how a result of any width sets the negative and the zero flag.
-/

namespace Spc700

/-- Which of the eight status flags are set. It is also used for a set of flags. -/
structure Flags where
  negative : Bool := false
  overflow : Bool := false
  directPage : Bool := false
  brk : Bool := false
  halfCarry : Bool := false
  interrupt : Bool := false
  zero : Bool := false
  carry : Bool := false
deriving DecidableEq, Repr

namespace Flags

/-! ## The byte on the stack -/

/-- The flags as bits, the most significant first. -/
def toBits (f : Flags) : List Bool :=
  [f.negative, f.overflow, f.directPage, f.brk, f.halfCarry, f.interrupt, f.zero, f.carry]

/-- The flags as the byte that is pushed to the stack. -/
def toByte (f : Flags) : Byte := BitVec.ofBoolListBE f.toBits

/-- The flags that a byte stands for; every bit of the byte is a flag. -/
def ofByte (b : Byte) : Flags :=
  { negative := b[7], overflow := b[6], directPage := b[5], brk := b[4],
    halfCarry := b[3], interrupt := b[2], zero := b[1], carry := b[0] }

@[simp]
theorem ofByte_toByte (f : Flags) : ofByte f.toByte = f := by
  obtain ⟨n, v, p, b, h, i, z, c⟩ := f
  cases n <;> cases v <;> cases p <;> cases b <;> cases h <;> cases i <;> cases z <;> cases c <;>
    rfl

theorem eq_of_toByte {f g : Flags} (h : f.toByte = g.toByte) : f = g := by
  rw [← ofByte_toByte f, ← ofByte_toByte g, h]

@[simp]
theorem toByte_ofByte (b : Byte) : (ofByte b).toByte = b := by
  revert b
  decide +kernel

/-! ## Sets of flags -/

/-- Two sets of flags combined flag by flag. -/
def zipWith (op : Bool → Bool → Bool) (f g : Flags) : Flags :=
  { negative := op f.negative g.negative
    overflow := op f.overflow g.overflow
    directPage := op f.directPage g.directPage
    brk := op f.brk g.brk
    halfCarry := op f.halfCarry g.halfCarry
    interrupt := op f.interrupt g.interrupt
    zero := op f.zero g.zero
    carry := op f.carry g.carry }

/-- The flags in either set. -/
def union (f g : Flags) : Flags := zipWith (· || ·) f g

/-- The flags of the first set that are not in the second. -/
def diff (f g : Flags) : Flags := zipWith (fun x y => x && !y) f g

/-- The flags in exactly one of the two sets. -/
def symmDiff (f g : Flags) : Flags := zipWith (fun x y => x != y) f g

/-- All eight flags. -/
def all : Flags := ⟨true, true, true, true, true, true, true, true⟩

/-- The flags that are not in the set. -/
def compl (f : Flags) : Flags := all.diff f

/-- Whether every flag of `wanted` is set. -/
def contains (f wanted : Flags) : Bool := decide (wanted.diff f = {})

/-! ## Text -/

/-- The letters of the flags that are set, from bit 7 down. -/
def letters (f : Flags) : List String :=
  [(f.negative, "N"), (f.overflow, "V"), (f.directPage, "P"), (f.brk, "B"),
    (f.halfCarry, "H"), (f.interrupt, "I"), (f.zero, "Z"), (f.carry, "C")].filterMap
    fun (on, letter) => if on then some letter else none

/-- A set of flags as text: its letters between bars, or a word for the empty set. -/
def text (f : Flags) : String :=
  match f.letters with
  | [] => "(empty)"
  | ls => " | ".intercalate ls

/-! ## Results -/

/-- The negative and the zero flag as a result of any width sets them; the others stay. -/
def describe {w : Nat} (result : BitVec w) (f : Flags) : Flags :=
  { f with negative := result.msb, zero := result == 0 }

end Flags

end Spc700
