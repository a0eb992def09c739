import Spc700.Flags
import Spc700.Text.Numeral

/-!
# Registers

The programmer's view of the processor: accumulator, two index registers, stack pointer, program
counter and flags. `Registers.get_set` says what an update of one register does to all of them.
-/

namespace Spc700

/-- The data registers that an instruction can name. -/
inductive Register where
  | a
  | x
  | y
  | sp
deriving DecidableEq, Repr

/-- The register's name in a listing. -/
def Register.name : Register → String
  | a => "A"
  | x => "X"
  | y => "Y"
  | sp => "SP"

/-- The contents of all registers. -/
structure Registers where
  a : Byte := 0
  x : Byte := 0
  y : Byte := 0
  sp : Byte := 0
  pc : Word := 0
  psw : Flags := {}
deriving DecidableEq, Repr

namespace Registers

/-- What the named register holds. -/
def get (r : Registers) : Register → Byte
  | .a => r.a
  | .x => r.x
  | .y => r.y
  | .sp => r.sp

/-- The registers after a byte is put into the named one. -/
def set (r : Registers) : Register → Byte → Registers
  | .a, value => { r with a := value }
  | .x, value => { r with x := value }
  | .y, value => { r with y := value }
  | .sp, value => { r with sp := value }

@[simp]
theorem get_set (r : Registers) (n m : Register) (value : Byte) :
    (r.set n value).get m = if n = m then value else r.get m := by
  cases n <;> cases m <;> rfl

@[simp]
theorem psw_set (r : Registers) (n : Register) (value : Byte) : (r.set n value).psw = r.psw := by
  cases n <;> rfl

@[simp]
theorem pc_set (r : Registers) (n : Register) (value : Byte) : (r.set n value).pc = r.pc := by
  cases n <;> rfl

/-- Y and A as one number, Y on top. -/
def ya (r : Registers) : Word := Word.ofBytes r.y r.a

/-- The registers after a number is put into Y and A. -/
def setYa (r : Registers) (value : Word) : Registers :=
  { r with a := Word.low value, y := Word.high value }

@[simp]
theorem ya_setYa (r : Registers) (value : Word) : (r.setYa value).ya = value :=
  Word.ofBytes_high_low value

/-- The registers with the negative and the zero flag set by a result. -/
def describe {w : Nat} (result : BitVec w) (r : Registers) : Registers :=
  { r with psw := r.psw.describe result }

@[simp]
theorem get_describe {w : Nat} (r : Registers) (n : Register) (result : BitVec w) :
    (r.describe result).get n = r.get n := by
  cases n <;> rfl

/-- The address of a cell of the direct page: the first or, with the flag set, the second page. -/
def directAddress (r : Registers) (offset : Byte) : Word :=
  Word.ofBytes (if r.psw.directPage then 1 else 0) offset

/-- The address that the stack pointer stands for. The stack lies in the second page. -/
def stackAddress (r : Registers) : Word := Word.ofBytes 1 r.sp

/-- The registers as one line of text. -/
def text (r : Registers) : String :=
  "a: $" ++ Numeral.hexByte r.a ++ " x: $" ++ Numeral.hexByte r.x ++
  " y: $" ++ Numeral.hexByte r.y ++ " sp: $" ++ Numeral.hexByte r.sp ++
  " pc: $" ++ Numeral.hexWord r.pc ++ " nvpbhizc: " ++ Numeral.binaryByte r.psw.toByte

end Registers

end Spc700
