import Spc700.Alu
import Spc700.Instruction.Matrix
import Spc700.Microprogram.Execute

/-!
# Arithmetic that traps

The arithmetic unit as it is built from words of twice its width, in which its sums and products
are meant to fit. Here every sum, difference, product, quotient and shift is checked: where it does
not fit, where the divisor is zero or where the shift is as wide as the word, there is no result.

Each function is the one of the same name in `Alu`, and its main statement says so: it always has a
result, and the result is that of `Alu`. So nothing is lost in the wide words.
-/

namespace Spc700.Checked

variable {w : Nat}

/-! ## Checked operations on words -/

/-- The sum, if it fits. -/
def add (x y : BitVec w) : Option (BitVec w) :=
  if BitVec.uaddOverflow x y then none else some (x + y)

/-- The difference, if it is not negative. -/
def sub (x y : BitVec w) : Option (BitVec w) :=
  if BitVec.usubOverflow x y then none else some (x - y)

/-- The product, if it fits. -/
def mul (x y : BitVec w) : Option (BitVec w) :=
  if BitVec.umulOverflow x y then none else some (x * y)

/-- The quotient, if the divisor is not zero. -/
def div (x y : BitVec w) : Option (BitVec w) :=
  if y = 0 then none else some (x / y)

/-- The remainder, if the divisor is not zero. -/
def rem (x y : BitVec w) : Option (BitVec w) :=
  if y = 0 then none else some (x % y)

/-- One shifted up to a bit of the word, if the word has that bit. -/
def bit (w n : Nat) : Option (BitVec w) :=
  if n < w then some (1#w <<< n) else none

/-- Whether a bit of the word is set, if the word has that bit. -/
def testBit (x : BitVec w) (n : Nat) : Option Bool := do
  return x &&& (← bit w n) != 0

section

variable {x y : BitVec w}

theorem add_of_le (h : x.toNat + y.toNat ≤ (BitVec.allOnes w).toNat) :
    add x y = some (x + y) ∧ (x + y).toNat = x.toNat + y.toNat := by
  have hpos := Nat.two_pow_pos w
  rw [BitVec.toNat_allOnes] at h
  have hlt : x.toNat + y.toNat < 2 ^ w := by omega
  have hfits : BitVec.uaddOverflow x y = false := by simpa [BitVec.uaddOverflow] using hlt
  exact ⟨by simp [add, hfits], BitVec.toNat_add_of_lt hlt⟩

theorem mul_of_le (h : x.toNat * y.toNat ≤ (BitVec.allOnes w).toNat) :
    mul x y = some (x * y) := by
  have hpos := Nat.two_pow_pos w
  rw [BitVec.toNat_allOnes] at h
  have hlt : x.toNat * y.toNat < 2 ^ w := by omega
  have hfits : BitVec.umulOverflow x y = false := by simpa [BitVec.umulOverflow] using hlt
  simp [mul, hfits]

theorem bit_of_lt {n : Nat} (h : n < w) : bit w n = some (BitVec.twoPow w n) := by
  simp [bit, h, BitVec.twoPow_eq]

/-- **A bit that the word has can be tested.** -/
theorem testBit_of_lt {n : Nat} (h : n < w) : testBit x n = some (x.getLsbD n) := by
  have hne : BitVec.twoPow w n ≠ 0#w := by
    intro hzero
    have hbit := congrArg (BitVec.getLsbD · n) hzero
    simp [h] at hbit
  show (bit w n).bind _ = _
  rw [bit_of_lt h]
  show some (x &&& BitVec.twoPow w n != 0) = _
  rw [BitVec.and_twoPow]
  cases x.getLsbD n <;> simp [hne]

/-- The sign of a word can be tested. -/
theorem testBit_last (h : 0 < w) (x : BitVec w) : testBit x (w - 1) = some x.msb := by
  rw [testBit_of_lt (by omega), BitVec.msb_eq_getLsbD_last]

end

/-! ## Sums -/

/-- The sum of two operands and a carry in words of the width `wide`. -/
def sum (wide : Nat) (x y : BitVec w) (carry : Bool) : Option (BitVec wide) := do
  add (← add (x.setWidth wide) (y.setWidth wide)) ((BitVec.ofBool carry).setWidth wide)

/-- **A sum fits into a wider word**, with its carry. -/
theorem exists_sum (wide : Nat) (h : w < wide) (x y : BitVec w) (carry : Bool) :
    ∃ full, sum wide x y carry = some full ∧
      full.toNat = x.toNat + y.toNat + carry.toNat := by
  have hx := x.isLt
  have hy := y.isLt
  have hc := carry.toNat_le
  have hwide : 2 * 2 ^ w ≤ 2 ^ wide := by
    rw [← Nat.pow_succ']
    exact Nat.pow_le_pow_right (by decide) h
  have hmost : (BitVec.allOnes wide).toNat = 2 ^ wide - 1 := BitVec.toNat_allOnes
  have hxw : (x.setWidth wide).toNat = x.toNat := BitVec.toNat_setWidth_of_le (Nat.le_of_lt h)
  have hyw : (y.setWidth wide).toNat = y.toNat := BitVec.toNat_setWidth_of_le (Nat.le_of_lt h)
  have hcw : ((BitVec.ofBool carry).setWidth wide).toNat = carry.toNat := by
    rw [BitVec.toNat_setWidth, BitVec.toNat_ofBool]
    exact Nat.mod_eq_of_lt (by omega)
  obtain ⟨hfirst, hfirstNat⟩ := add_of_le (x := x.setWidth wide) (y := y.setWidth wide) (by omega)
  obtain ⟨hsecond, hsecondNat⟩ := add_of_le (x := x.setWidth wide + y.setWidth wide)
    (y := (BitVec.ofBool carry).setWidth wide) (by omega)
  refine ⟨_, ?_, by rw [hsecondNat, hfirstNat, hxw, hyw, hcw]⟩
  unfold sum
  rw [hfirst]
  exact hsecond

/-- Whether a sum does not fit into the width `w` that its operands had. -/
def exceeds (w : Nat) {wide : Nat} (full : BitVec wide) : Bool :=
  (BitVec.allOnes w).setWidth wide < full

/-- A sum does not fit if it has a carry. -/
theorem exceeds_eq {wide : Nat} (h : w ≤ wide) {full : BitVec wide} {x y : BitVec w} {carry : Bool}
    (hfull : full.toNat = x.toNat + y.toNat + carry.toNat) :
    exceeds w full = BitVec.carry w x y carry := by
  have hpos := Nat.two_pow_pos w
  rw [exceeds, BitVec.carry_width, decide_eq_decide, BitVec.lt_def, BitVec.toNat_setWidth_of_le h,
    BitVec.toNat_allOnes, hfull]
  omega

/-- `Alu.addCarry`, summed in words of twice the width. The half carry has a
sum of its own, of the operands without their top digit. -/
def addCarry (x y : BitVec w) (carry : Bool) (f : Flags) : Option (BitVec w × Flags) := do
  let full ← sum (w + w) x y carry
  let digits ← sum (w + w) (x.setWidth (w - 4)) (y.setWidth (w - 4)) carry
  let result := full.setWidth w
  return (result, { f.describe result with
    overflow := x.msb == y.msb && y.msb != result.msb
    halfCarry := exceeds (w - 4) digits
    carry := exceeds w full })

/-- `Alu.compare`, as the sum with the inverted operand. -/
def compare (x y : BitVec w) (f : Flags) : Option Flags := do
  let full ← sum (w + w) x (~~~y) true
  return { f.describe (full.setWidth w) with carry := exceeds w full }

/-- **No sum overflows**, and the flags are those of the sum in its own width. -/
theorem addCarry_eq (h : 0 < w) (x y : BitVec w) (carry : Bool) (f : Flags) :
    addCarry x y carry f = some (Alu.addCarry x y carry f) := by
  obtain ⟨full, hfull, hfullNat⟩ := exists_sum (w + w) (by omega) x y carry
  obtain ⟨digits, hdigits, hdigitsNat⟩ := exists_sum (w + w) (by omega)
    (x.setWidth (w - 4)) (y.setWidth (w - 4)) carry
  have hresult : full.setWidth w = x + y + BitVec.setWidth w (BitVec.ofBool carry) := by
    apply BitVec.eq_of_toNat_eq
    simp [hfullNat]
  have hcarry : exceeds w full = BitVec.carry w x y carry := exceeds_eq (by omega) hfullNat
  have hhalf : exceeds (w - 4) digits = BitVec.carry (w - 4) x y carry := by
    rw [exceeds_eq (by omega) hdigitsNat]
    simp [BitVec.carry]
  simp [addCarry, Alu.addCarry, hfull, hdigits, hresult, hcarry, hhalf]

/-- **No comparison overflows**, and it compares. -/
theorem compare_eq (h : 0 < w) (x y : BitVec w) (f : Flags) :
    compare x y f = some (Alu.compare x y f) := by
  obtain ⟨full, hfull, hfullNat⟩ := exists_sum (w + w) (by omega) x (~~~y) true
  have hcarry : exceeds w full = decide (y ≤ x) := by
    rw [exceeds_eq (by omega) hfullNat, Alu.carry_not]
  have hresult : full.setWidth w = x - y := by
    apply BitVec.eq_of_toNat_eq
    have hy := y.isLt
    rw [BitVec.toNat_not, Bool.toNat_true] at hfullNat
    rw [BitVec.toNat_setWidth, hfullNat, BitVec.toNat_sub]
    congr 1
    omega
  simp [compare, Alu.compare, hfull, hresult, hcarry]

/-! ## Products and quotients -/

/-- `Alu.multiply`, the product of two words. -/
def multiply (x y : Byte) (f : Flags) : Option (Word × Flags) := do
  let product ← mul (x.setWidth 16) (y.setWidth 16)
  return (product, f.describe (Word.high product))

/-- `Alu.wordQuotient`, which divides by a divisor that is not zero. -/
def wordQuotient (dividend : Word) (divisor : Byte) : Option (Word × Byte) := do
  if divisor = 0 then
    return (0xFFFF, Word.low dividend)
  else
    return (← div dividend (divisor.setWidth 16), Word.low (← rem dividend (divisor.setWidth 16)))

/-- `Alu.divide`. -/
def divide (dividend : Word) (divisor : Byte) (f : Flags) : Option ((Byte × Byte) × Flags) := do
  let (quotient, remainder) ← wordQuotient dividend divisor
  let result := Word.low quotient
  return ((result, remainder), { f.describe result with
    overflow := 0xFF < quotient
    halfCarry := divisor.setWidth 4 ≤ (Word.high dividend).setWidth 4 })

/-- **No product overflows.** -/
theorem multiply_eq (x y : Byte) (f : Flags) : multiply x y f = some (Alu.multiply x y f) := by
  have hfits : (x.setWidth 16).toNat * (y.setWidth 16).toNat ≤ (BitVec.allOnes 16).toNat := by
    rw [BitVec.toNat_setWidth_of_le (by decide), BitVec.toNat_setWidth_of_le (by decide)]
    have hx : x.toNat ≤ 255 := Nat.le_of_lt_succ x.isLt
    have hy : y.toNat ≤ 255 := Nat.le_of_lt_succ y.isLt
    exact Nat.le_trans (Nat.mul_le_mul hx hy) (by decide)
  simp [multiply, Alu.multiply, mul_of_le hfits]

/-- **No division is by zero.** -/
theorem divide_eq (dividend : Word) (divisor : Byte) (f : Flags) :
    divide dividend divisor f = some (Alu.divide dividend divisor f) := by
  have hquotient : wordQuotient dividend divisor = some (Alu.wordQuotient dividend divisor) := by
    unfold wordQuotient Alu.wordQuotient
    by_cases hzero : divisor = 0
    · rw [if_pos hzero, if_pos hzero]
      rfl
    · have hwide : divisor.setWidth 16 ≠ 0 := by
        intro h
        have hnat := congrArg BitVec.toNat h
        rw [BitVec.toNat_setWidth_of_le (by decide)] at hnat
        exact hzero (BitVec.eq_of_toNat_eq hnat)
      rw [if_neg hzero, if_neg hzero, div, rem, if_neg hwide, if_neg hwide]
      rfl
  simp [divide, Alu.divide, hquotient]

/-! ## What an opcode holds -/

/-- `Operation.callVector`, from the top digit of the opcode. The vectors
stand by falling number. -/
def callVector (opcode : Byte) : Option Word := do
  let place ← sub 15 (opcode >>> 4)
  add 0xFFC0 (place.setWidth 16 <<< 1)

/-- The mask of the bit that the top three bits of an opcode number. -/
def opcodeMask (opcode : Byte) : Option Byte := bit 8 (opcode >>> 5).toNat

end Spc700.Checked
