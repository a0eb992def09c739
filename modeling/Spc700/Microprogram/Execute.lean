import Spc700.Alu
import Spc700.Microprogram.Operands

/-!
# Operations

The microprogram of each operation, on operands that an addressing mode has made. The order of the
accesses is part of what an operation is, since a read may have effects on the host: a store reads
the cell before it writes it, and of two cells the operations differ in which is read first.

A microprogram yields the cycles that it takes beyond the instruction's base count: two for a
conditional branch that is taken, none otherwise.
-/

namespace Spc700

open Micro

namespace Operation

/-- The cell's byte. -/
def readCell (o : Operands) : Micro Byte := Micro.read .data o.address

/-- The byte of the other cell. -/
def readSource (o : Operands) : Micro Byte := Micro.read .data o.source

/-- A byte put into the cell. -/
def writeCell (o : Operands) (value : Byte) : Micro Unit := Micro.write .data o.address value

/-- The word at the cell. -/
def readCellWord (o : Operands) : Micro Word := readWord .data o.address o.highAddress

/-- A word put at the cell, its low byte first. -/
def writeCellWord (o : Operands) (value : Word) : Micro Unit := do
  Micro.write .data o.address (Word.low value)
  Micro.write .data o.highAddress (Word.high value)

/-- A register that takes a byte, which sets the negative and the zero flag. -/
def assign (r : Register) (value : Byte) : Micro Unit :=
  modify fun now => (now.set r value).describe value

/-- The byte with one bit set. -/
def bitMask (bit : BitNumber) : Byte := BitVec.twoPow 8 bit.toNat

/-- The byte with one bit, or several, set or cleared. -/
def putBits (mask : Byte) (on : Bool) (value : Byte) : Byte :=
  if on then value ||| mask else value &&& ~~~mask

/-- The address at which the address of a table call's routine is held: the last of the table for
the first call. -/
def callVector (n : BitVec 4) : Word := 0xFFDE - 2 * n.setWidth 16

/-- Where the address of the break routine is held. -/
def breakVector : Word := 0xFFDE

/-- The branch, if it is taken, and the cycles that this costs. -/
def branchIf (taken : Bool) (o : Operands) : Micro Nat := do
  if taken then
    modify fun r => { r with pc := r.pc + o.displacement }
    return 2
  else
    return 0

/-- A microprogram that takes no cycles beyond the base count. -/
def atBase (program : Micro Unit) : Micro Nat := do
  program
  return 0

/-- The microprogram of an operation, and the cycles beyond the base
count. -/
def execute (operation : Operation) (o : Operands) : Micro Nat :=
  match operation with
  | logic f => atBase do
    let operand ← readCell o
    assign .a (f.apply (← get).a operand)
  | logicMemory f => atBase do
    let target ← readCell o
    let source ← readSource o
    let result := f.apply target source
    writeCell o result
    describe result
  | arithmetic f => atBase do
    let operand ← readCell o
    let result ← compute (f.apply (← get).a operand)
    modify fun r => { r with a := result }
  | arithmeticMemory f => atBase do
    let source ← readSource o
    let target ← readCell o
    writeCell o (← compute (f.apply target source))
  | compare r => atBase do
    let operand ← readCell o
    let value := (← get).get r
    modifyFlags (Alu.compare value operand)
  | compareMemory => atBase do
    let target ← readCell o
    let source ← readSource o
    modifyFlags (Alu.compare target source)
  | shift f => atBase do
    let operand ← readCell o
    writeCell o (← compute (f.apply operand))
  | shiftAccumulator f => atBase do
    let result ← compute (f.apply (← get).a)
    modify fun r => { r with a := result }
  | step f => atBase do
    let result := f.apply (← readCell o)
    describe result
    writeCell o result
  | stepRegister f r => atBase do
    assign r (f.apply ((← get).get r))
  | exchangeNibbles => atBase do
    assign .a ((← get).a.rotateLeft 4)
  | loadWord => atBase do
    let low ← readCell o
    modify fun r => { r with a := low }
    let high ← Micro.read .data o.highAddress
    modify fun r => { r with y := high }
    describe (Word.ofBytes high low)
  | storeWord => atBase do
    let _ ← readCell o
    writeCellWord o (← get).ya
  | stepWord f => atBase do
    let result := f.apply (← readCellWord o)
    describe result
    writeCellWord o result
  | arithmeticWord f => atBase do
    let operand ← readCellWord o
    let result ← compute (f.applyWord (← get).ya operand)
    modify fun r => r.setYa result
  | compareWord => atBase do
    let operand ← readCellWord o
    let value := (← get).ya
    modifyFlags (Alu.compare value operand)
  | multiply => atBase do
    let r ← get
    let product ← compute (Alu.multiply r.y r.a)
    modify fun r => r.setYa product
  | divide => atBase do
    let r ← get
    let (quotient, remainder) ← compute (Alu.divide r.ya r.x)
    modify fun r => { r with a := quotient, y := remainder }
  | adjustAddition => atBase do
    let result ← compute (Alu.adjustAddition (← get).a)
    modify fun r => { r with a := result }
  | adjustSubtraction => atBase do
    let result ← compute (Alu.adjustSubtraction (← get).a)
    modify fun r => { r with a := result }
  | writeBit bit on => atBase do
    let value ← readCell o
    writeCell o (putBits (bitMask bit) on value)
  | writeBits on => atBase do
    let value ← readCell o
    let mask := (← get).a
    describe (mask - value)
    writeCell o (putBits mask on value)
  | carryBit f => atBase do
    let value ← readCell o
    modifyFlags fun psw => { psw with carry := f.apply psw.carry (value.getLsbD o.bit.toNat) }
  | invertBit => atBase do
    let value ← readCell o
    writeCell o (value ^^^ bitMask o.bit)
  | storeCarry => atBase do
    let value ← readCell o
    writeCell o (putBits (bitMask o.bit) (← get).psw.carry value)
  | branchAlways => atBase do
    modify fun r => { r with pc := r.pc + o.displacement }
  | jump => atBase do
    Micro.jump o.address
  | call => atBase do
    pushCounter
    Micro.jump o.address
  | callPage => atBase do
    pushCounter
    Micro.jump (Word.ofBytes 0xFF (Word.low o.address))
  | callTable n => atBase do
    pushCounter
    jumpVector (callVector n)
  | softwareBreak => atBase do
    pushCounter
    Micro.push (← get).psw.toByte
    modifyFlags fun psw => { psw with interrupt := false, brk := true }
    jumpVector breakVector
  | ret => atBase do
    Micro.jump (← popWord)
  | retInterrupt => atBase do
    let psw ← Micro.pop
    modifyFlags fun _ => Flags.ofByte psw
    Micro.jump (← popWord)
  | push r => atBase do
    Micro.push ((← get).get r)
  | pushFlags => atBase do
    Micro.push (← get).psw.toByte
  | pop r => atBase do
    let value ← Micro.pop
    modify fun now => now.set r value
  | popFlags => atBase do
    let psw ← Micro.pop
    modifyFlags fun _ => Flags.ofByte psw
  | load r => atBase do
    assign r (← readCell o)
  | store r probe => atBase do
    if probe then
      let _ ← readCell o
    writeCell o ((← get).get r)
  | transfer source target => atBase do
    let value := (← get).get source
    if target = .sp then
      modify fun r => { r with sp := value }
    else
      assign target value
  | move probe => atBase do
    if probe then
      let _ ← readCell o
    writeCell o (← readSource o)
  | setFlags which => atBase do
    modifyFlags fun psw => psw.union which
  | clearFlags which => atBase do
    modifyFlags fun psw => psw.diff which
  | invertCarry => atBase do
    modifyFlags fun psw => { psw with carry := !psw.carry }
  | nop => return 0
  | sleep | stop => atBase do
    modify fun r => { r with pc := r.pc - 1 }
  | branch c => do
    branchIf (c.holds (← get).psw) o
  | branchBit bit on => do
    let value ← readCell o
    branchIf (value.getLsbD bit.toNat == on) o
  | branchDifferent => do
    let value ← readCell o
    branchIf ((← get).a != value) o
  | branchCount => do
    let value := (← readCell o) - 1
    writeCell o value
    branchIf (value != 0) o
  | branchCountY => do
    modify fun r => { r with y := r.y - 1 }
    branchIf ((← get).y != 0) o

end Operation

/-- All of an instruction after its opcode: the operands, then the
operation. It yields the cycles beyond the base count. -/
def Instruction.perform (instruction : Instruction) : Micro Nat := do
  let operands ← instruction.mode.resolve
  instruction.operation.execute operands

end Spc700
