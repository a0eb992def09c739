import Spc700.Registers

/-!
# Instructions

An instruction is an addressing mode, which says where the operands are, an operation, which says
what is done with them, and the number of cycles that it takes when no branch is taken. The
operands that the opcode itself holds (a bit number, a vector number) are part of the operation.
-/

namespace Spc700

/-- How the operand bytes after an opcode name what it works on. The
assembler's notation stands at the end of each line. -/
inductive AddressingMode where
  /-- no operand -/
  | implied
  /-- a displacement, `r` -/
  | relative
  /-- a cell of the direct page, `d` -/
  | direct
  /-- a cell and a displacement, `d, r` -/
  | directRelative
  /-- an address, `!a` -/
  | absolute
  /-- the cell that X names, `(X)` -/
  | indirectX
  /-- the address held at an indexed cell, `[d+X]` -/
  | directXPointer
  /-- the operand byte itself, `#i` -/
  | immediate
  /-- an indexed cell, `d+X` -/
  | directX
  /-- an indexed address, `!a+X` -/
  | absoluteX
  /-- an indexed address, `!a+Y` -/
  | absoluteY
  /-- the address held at a cell, indexed, `[d]+Y` -/
  | directPointerY
  /-- two cells, `dd, ds` -/
  | directDirect
  /-- the cells that X and Y name, `(X), (Y)` -/
  | indirectXY
  /-- a cell and an operand byte, `d, #i` -/
  | directImmediate
  /-- an indexed cell, `d+Y` -/
  | directY
  /-- one bit of a cell, `m.b` -/
  | absoluteBit
  /-- an indexed cell and a displacement, `d+X, r` -/
  | directXRelative
  /-- the address held at an indexed address, `[!a+X]` -/
  | absoluteXPointer
  /-- the cell that X names, and X moved on, `(X)+` -/
  | indirectXIncrement
deriving DecidableEq, Repr

/-- When a conditional branch is taken. -/
inductive Condition where
  | plus
  | minus
  | overflowClear
  | overflowSet
  | carryClear
  | carrySet
  | notEqual
  | equal
deriving DecidableEq, Repr

/-- Whether a condition holds of the flags. -/
def Condition.holds : Condition → Flags → Bool
  | plus, f => !f.negative
  | minus, f => f.negative
  | overflowClear, f => !f.overflow
  | overflowSet, f => f.overflow
  | carryClear, f => !f.carry
  | carrySet, f => f.carry
  | notEqual, f => !f.zero
  | equal, f => f.zero

/-- Bitwise combination of two bytes. -/
inductive Logic where
  | or
  | and
  | eor
deriving DecidableEq, Repr

/-- Addition with carry and subtraction with borrow. -/
inductive Arithmetic where
  | adc
  | sbc
deriving DecidableEq, Repr

/-- Shifts, which bring in a zero, and rotations, which bring in the carry. -/
inductive Shift where
  | asl
  | lsr
  | rol
  | ror
deriving DecidableEq, Repr

/-- Counting up or down by one. -/
inductive Step where
  | inc
  | dec
deriving DecidableEq, Repr

/-- How a bit of memory changes the carry flag. -/
inductive CarryBit where
  | or1
  | or1Not
  | and1
  | and1Not
  | eor1
  | mov1
deriving DecidableEq, Repr

/-- What an instruction does with its operands. -/
inductive Operation where
  /-- the accumulator and a cell, into the accumulator -/
  | logic (f : Logic)
  /-- a cell and a source cell, into the cell -/
  | logicMemory (f : Logic)
  | arithmetic (f : Arithmetic)
  | arithmeticMemory (f : Arithmetic)
  | compare (r : Register)
  | compareMemory
  | shift (f : Shift)
  | shiftAccumulator (f : Shift)
  | step (f : Step)
  | stepRegister (f : Step) (r : Register)
  | exchangeNibbles
  /-- a word of memory into Y and A -/
  | loadWord
  | storeWord
  | stepWord (f : Step)
  | arithmeticWord (f : Arithmetic)
  | compareWord
  | multiply
  | divide
  | adjustAddition
  | adjustSubtraction
  /-- one bit of a cell set or cleared -/
  | writeBit (bit : BitNumber) (on : Bool)
  /-- the accumulator's bits set or cleared in a cell -/
  | writeBits (on : Bool)
  | carryBit (f : CarryBit)
  | invertBit
  | storeCarry
  | branch (c : Condition)
  | branchBit (bit : BitNumber) (on : Bool)
  /-- a branch if the accumulator and a cell differ -/
  | branchDifferent
  /-- a branch if a cell, counted down by one, is not zero -/
  | branchCount
  | branchCountY
  | branchAlways
  | jump
  | call
  /-- a call into the last page -/
  | callPage
  /-- a call through one of sixteen vectors -/
  | callTable (n : BitVec 4)
  | softwareBreak
  | ret
  | retInterrupt
  | push (r : Register)
  | pushFlags
  | pop (r : Register)
  | popFlags
  | load (r : Register)
  /-- a register into a cell, which is read first if `probe` is set -/
  | store (r : Register) (probe : Bool)
  | transfer (source target : Register)
  /-- a source cell into a cell, which is read first if `probe` is set -/
  | move (probe : Bool)
  | setFlags (which : Flags)
  | clearFlags (which : Flags)
  | invertCarry
  | nop
  | sleep
  | stop
deriving DecidableEq, Repr

/-- What an opcode stands for. -/
structure Instruction where
  mode : AddressingMode
  cycles : Nat
  operation : Operation
deriving DecidableEq, Repr

end Spc700
