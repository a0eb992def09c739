import Spc700.Flags
import Spc700.Instruction.Basic

/-!
# Arithmetic and logic

What the arithmetic unit makes of its operands: a result and the flags. Sums are defined once for
every width, and subtraction is the sum with the inverted operand, so that the carry is the
inverse of a borrow. Main statements: `Alu.toNat_cons_addCarry` (a sum under its carry is the exact
sum) and `Alu.compare_eq` (a comparison leaves the carry, the negative and the zero flag
that the subtraction leaves).
-/

namespace Spc700.Alu

variable {w : Nat}

/-! ## Sums -/

/-- The sum of two operands and a carry. Half carry is the carry into the top
four bits; overflow is set when two operands of one sign have a sum of the other. -/
def addCarry (x y : BitVec w) (carry : Bool) (f : Flags) : BitVec w × Flags :=
  let sum := x + y + BitVec.setWidth w (BitVec.ofBool carry)
  (sum, { f.describe sum with
    overflow := x.msb == y.msb && y.msb != sum.msb
    halfCarry := BitVec.carry (w - 4) x y carry
    carry := BitVec.carry w x y carry })

/-- The difference of two operands, less one if the carry is clear. -/
def subBorrow (x y : BitVec w) (carry : Bool) (f : Flags) : BitVec w × Flags :=
  addCarry x (~~~y) carry f

theorem toNat_cons_addCarry (hw : 0 < w) (x y : BitVec w) (carry : Bool) (f : Flags) :
    (BitVec.cons (addCarry x y carry f).2.carry (addCarry x y carry f).1).toNat =
      x.toNat + y.toNat + carry.toNat := by
  have hx := x.isLt
  have hy := y.isLt
  have hc := carry.toNat_le
  have h2 : 2 ≤ 2 ^ w := Nat.pow_le_pow_right (by omega : 0 < 2) hw
  have hcarry : carry.toNat % 2 ^ w = carry.toNat := Nat.mod_eq_of_lt (by omega)
  rw [BitVec.toNat_cons']
  simp only [addCarry, BitVec.carry_width, BitVec.toNat_add, BitVec.toNat_setWidth,
    BitVec.toNat_ofBool, hcarry, Nat.mod_add_mod]
  by_cases h : 2 ^ w ≤ x.toNat + y.toNat + carry.toNat
  · rw [Nat.mod_eq_sub_mod h, Nat.mod_eq_of_lt (by omega)]
    simp only [ge_iff_le, h, decide_true, Bool.toNat_true, Nat.shiftLeft_eq]
    omega
  · rw [Nat.mod_eq_of_lt (by omega)]
    simp [h]

/-- A comparison: the flags of the difference, without overflow and half carry. -/
def compare (x y : BitVec w) (f : Flags) : Flags :=
  { f.describe (x - y) with carry := y ≤ x }

/-- The carry of a difference is the inverse of a borrow. -/
theorem carry_not (x y : BitVec w) : BitVec.carry w x (~~~y) true = decide (y ≤ x) := by
  have hx := x.isLt
  have hy := y.isLt
  rw [BitVec.carry_width, BitVec.toNat_not, decide_eq_decide, BitVec.le_def, Bool.toNat_true]
  omega

theorem compare_eq (x y : BitVec w) (f : Flags) :
    compare x y f =
      { (subBorrow x y true f).2 with overflow := f.overflow, halfCarry := f.halfCarry } := by
  have hone : BitVec.setWidth w (BitVec.ofBool true) = 1#w := by
    apply BitVec.eq_of_toNat_eq
    simp
  have hsum : x + ~~~y + BitVec.setWidth w (BitVec.ofBool true) = x - y := by
    rw [hone, BitVec.sub_eq_add_neg, BitVec.neg_eq_not_add, BitVec.add_assoc]
  simp only [compare, subBorrow, addCarry, hsum, carry_not, Flags.describe]

/-! ## Shifts -/

/-- A byte moved up by one bit, with the given bit at the bottom. The carry is the old top bit. -/
def shiftLeft (x : Byte) (bit : Bool) (f : Flags) : Byte × Flags :=
  let result := x.shiftConcat bit
  (result, { f.describe result with carry := x.msb })

/-- A byte moved down by one bit, with the given bit on top. The carry is the old bottom bit. -/
def shiftRight (x : Byte) (bit : Bool) (f : Flags) : Byte × Flags :=
  let result := (BitVec.cons bit x).extractLsb' 1 8
  (result, { f.describe result with carry := x.getLsbD 0 })

/-! ## Products and quotients -/

/-- The product of two bytes as a word. Its high byte sets the negative and the zero flag. -/
def multiply (x y : Byte) (f : Flags) : Word × Flags :=
  let product := x.setWidth 16 * y.setWidth 16
  (product, f.describe (Word.high product))

/-- Quotient and remainder of a word by a byte, the quotient still a word. A division by zero
yields the largest quotient and leaves the low byte. -/
def wordQuotient (dividend : Word) (divisor : Byte) : Word × Byte :=
  if divisor = 0 then (0xFFFF, Word.low dividend)
  else (dividend / divisor.setWidth 16, Word.low (dividend % divisor.setWidth 16))

/-- The low byte of the quotient, and the remainder. Overflow is set when the
quotient does not fit; half carry compares the low digits of the divisor and the high byte. -/
def divide (dividend : Word) (divisor : Byte) (f : Flags) : (Byte × Byte) × Flags :=
  let (quotient, remainder) := wordQuotient dividend divisor
  let result := Word.low quotient
  ((result, remainder), { f.describe result with
    overflow := 0xFF < quotient
    halfCarry := divisor.setWidth 4 ≤ (Word.high dividend).setWidth 4 })

/-! ## Decimal adjustment -/

/-- Whether the low digit of a byte is no decimal digit. -/
def lowDigitOver (x : Byte) : Bool := 9 < x.setWidth 4

/-- The sum of two numbers of two decimal digits, put right. First the
high digit, then the low one of what that leaves. -/
def adjustAddition (x : Byte) (f : Flags) : Byte × Flags :=
  let carryOut := decide (0x99 < x) || f.carry
  let high := if carryOut then x + 0x60 else x
  let result := if lowDigitOver high || f.halfCarry then high + 0x06 else high
  (result, { f.describe result with carry := carryOut })

/-- The difference of two numbers of two decimal digits, put right,
in the same order. The carry stays only where no borrow was found. -/
def adjustSubtraction (x : Byte) (f : Flags) : Byte × Flags :=
  let borrow := decide (0x99 < x) || !f.carry
  let high := if borrow then x - 0x60 else x
  let result := if lowDigitOver high || !f.halfCarry then high - 0x06 else high
  (result, { f.describe result with carry := !borrow })

end Alu

/-! ## The families of operations -/

open Alu

/-- The sum or the difference of two bytes, with the carry flag as the carry. -/
def Arithmetic.apply : Arithmetic → Byte → Byte → Flags → Byte × Flags
  | adc, x, y, f => addCarry x y f.carry f
  | sbc, x, y, f => subBorrow x y f.carry f

/-- The sum or the difference of two words. The carry flag is not looked at. -/
def Arithmetic.applyWord : Arithmetic → Word → Word → Flags → Word × Flags
  | adc, x, y, f => addCarry x y false f
  | sbc, x, y, f => subBorrow x y true f

/-- The bitwise combination of two bytes. -/
def Logic.apply : Logic → Byte → Byte → Byte
  | or, x, y => x ||| y
  | and, x, y => x &&& y
  | eor, x, y => x ^^^ y

/-- One more or one less, wrapping. -/
def Step.apply {w : Nat} : Step → BitVec w → BitVec w
  | inc, x => x + 1
  | dec, x => x - 1

/-- A shift brings in a zero, a rotation the carry. -/
def Shift.apply : Shift → Byte → Flags → Byte × Flags
  | asl, x, f => shiftLeft x false f
  | lsr, x, f => shiftRight x false f
  | rol, x, f => shiftLeft x f.carry f
  | ror, x, f => shiftRight x f.carry f

/-- The carry after an operation on it with a bit of memory. -/
def CarryBit.apply : CarryBit → Bool → Bool → Bool
  | or1, carry, bit => carry || bit
  | or1Not, carry, bit => carry || !bit
  | and1, carry, bit => carry && bit
  | and1Not, carry, bit => carry && !bit
  | eor1, carry, bit => carry != bit
  | mov1, _, bit => bit

end Spc700
