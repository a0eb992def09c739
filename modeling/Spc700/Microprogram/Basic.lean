import Spc700.Bus.Dialogue
import Spc700.Registers

/-!
# Microprograms

An instruction is carried out by a microprogram: steps that change the registers and steps that
ask the bus for an access. A request carries the registers as they are when it is made, so a
refusal leaves the changes of all earlier steps and of no later one.
-/

namespace Spc700

/-- A microprogram that yields an `α`. -/
abbrev Micro := StateT Registers (Dialogue Registers)

namespace Micro

variable {α : Type}

/-! ## Requests -/

/-- A read from the bus. -/
def read (purpose : Purpose) (address : Word) : Micro Byte :=
  fun now => .read now purpose address fun byte => .done (byte, now)

/-- A write to the bus. -/
def write (purpose : Purpose) (address : Word) (value : Byte) : Micro Unit :=
  fun now => .write now purpose address value (.done ((), now))

/-! ## Reading the program -/

/-- The byte at the program counter, which moves on once the byte is there. -/
def fetch (purpose : Purpose) : Micro Byte := do
  let byte ← read purpose (← get).pc
  modify fun r => { r with pc := r.pc + 1 }
  return byte

/-- The next operand byte. -/
def fetchOperand : Micro Byte := fetch .operand

/-- The next two operand bytes as a word, the low one first. -/
def fetchWord : Micro Word := do
  let low ← fetchOperand
  let high ← fetchOperand
  return Word.ofBytes high low

/-- The next operand byte as a signed displacement. -/
def fetchDisplacement : Micro Word := do
  return Word.ofSigned (← fetchOperand)

/-- The address of the next operand byte, which is passed over and not read. -/
def immediate : Micro Word := do
  let address := (← get).pc
  modify fun r => { r with pc := r.pc + 1 }
  return address

/-! ## Words in memory -/

/-- The word at two addresses, its low byte read first. -/
def readWord (purpose : Purpose) (lowAddress highAddress : Word) : Micro Word := do
  let low ← read purpose lowAddress
  let high ← read purpose highAddress
  return Word.ofBytes high low

/-! ## The stack -/

/-- A byte put on the stack, below which the stack pointer then points. -/
def push (value : Byte) : Micro Unit := do
  write .stack (← get).stackAddress value
  modify fun r => { r with sp := r.sp - 1 }

/-- The byte on top of the stack, taken off it. -/
def pop : Micro Byte := do
  modify fun r => { r with sp := r.sp + 1 }
  read .stack (← get).stackAddress

/-- The program counter put on the stack, its high byte first. -/
def pushCounter : Micro Unit := do
  push (Word.high (← get).pc)
  push (Word.low (← get).pc)

/-- A word taken off the stack, its low byte first. -/
def popWord : Micro Word := do
  let low ← pop
  let high ← pop
  return Word.ofBytes high low

/-! ## The program counter and the flags -/

/-- Going on at another address. -/
def jump (target : Word) : Micro Unit :=
  modify fun r => { r with pc := target }

/-- Going on at the address held by a vector. -/
def jumpVector (vector : Word) : Micro Unit := do
  jump (← readWord .vector vector (vector + 1))

/-- A result of the arithmetic unit, which takes the flags and sets them. -/
def compute (f : Flags → α × Flags) : Micro α :=
  modifyGet fun r =>
    let (result, psw) := f r.psw
    (result, { r with psw })

/-- A change of the flags. -/
def modifyFlags (f : Flags → Flags) : Micro Unit :=
  modify fun r => { r with psw := f r.psw }

/-- The negative and the zero flag set by a result. -/
def describe {w : Nat} (result : BitVec w) : Micro Unit :=
  modifyFlags fun f => f.describe result

/-! ## Reset -/

/-- Where the address of the first instruction is held. -/
def resetVector : Word := 0xFFFE

/-- The registers and flags cleared, the program counter last, from the reset vector. -/
def reset : Micro Unit := do
  modify fun r => { pc := r.pc }
  jumpVector resetVector

/-- A reset asks for the two bytes of its vector with all registers but the program counter
clear. -/
theorem run_reset (r : Registers) :
    reset.run r =
      .read { pc := r.pc } .vector resetVector fun low =>
        .read { pc := r.pc } .vector (resetVector + 1) fun high =>
          .done ((), { pc := Word.ofBytes high low }) := rfl

end Micro

end Spc700
