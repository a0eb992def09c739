import Spc700.Instruction.Basic
import Spc700.Microprogram.Basic

/-!
# Operands

An addressing mode takes the operand bytes that follow the opcode and makes operands of them:
addresses to work on, a displacement for a branch, a bit number. Nothing is read here from the
addresses that come out; only the two bytes of an address that is itself held in memory are.
-/

namespace Spc700

/-- What an addressing mode hands to an operation. A mode fills in what it has and
leaves the rest at zero. -/
structure Operands where
  /-- the cell worked on: of two cells the one written, of a word the low byte -/
  address : Word := 0
  /-- the other cell of an operation on two -/
  source : Word := 0
  /-- the high byte of a word -/
  highAddress : Word := 0
  /-- how far a branch goes -/
  displacement : Word := 0
  /-- which bit of the cell -/
  bit : BitNumber := 0
deriving DecidableEq, Repr

open Micro

namespace AddressingMode

/-- The address held in two neighbouring cells of the direct page. The second cell of the last one
is the first of the page. -/
def directPointer (offset : Byte) : Micro Word := do
  let r ← get
  readWord .pointer (r.directAddress offset) (r.directAddress (offset + 1))

/-- The next operand byte as a cell of the direct page. -/
def directCell : Micro Word := do
  let offset ← fetchOperand
  return (← get).directAddress offset

/-- The next operand byte and an index as a cell of the direct page, in which the sum wraps. -/
def indexedCell (index : Registers → Byte) : Micro Word := do
  let offset ← fetchOperand
  let r ← get
  return r.directAddress (offset + index r)

/-- The next two operand bytes and an index as an address. -/
def indexedWord (index : Registers → Byte) : Micro Word := do
  let base ← fetchWord
  let r ← get
  return base + (index r).setWidth 16

/-- The operands of a mode, read from the program counter on. -/
def resolve : AddressingMode → Micro Operands
  | implied => return {}
  | relative => return { displacement := ← fetchDisplacement }
  | direct => do
    let offset ← fetchOperand
    let r ← get
    return { address := r.directAddress offset, highAddress := r.directAddress (offset + 1) }
  | directRelative => do
    let address ← directCell
    let displacement ← fetchDisplacement
    return { address, displacement }
  | absolute => return { address := ← fetchWord }
  | indirectX => do
    let r ← get
    return { address := r.directAddress r.x }
  | directXPointer => do
    let offset ← fetchOperand
    return { address := ← directPointer (offset + (← get).x) }
  | immediate => return { address := ← Micro.immediate }
  | directX => return { address := ← indexedCell Registers.x }
  | absoluteX => return { address := ← indexedWord Registers.x }
  | absoluteY => return { address := ← indexedWord Registers.y }
  | directPointerY => do
    let base ← directPointer (← fetchOperand)
    return { address := base + (← get).y.setWidth 16 }
  | directDirect => do
    let source ← directCell
    let address ← directCell
    return { address, source }
  | indirectXY => do
    let r ← get
    return { address := r.directAddress r.x, source := r.directAddress r.y }
  | directImmediate => do
    let source ← Micro.immediate
    let address ← directCell
    return { address, source }
  | directY => return { address := ← indexedCell Registers.y }
  | absoluteBit => do
    let word ← fetchWord
    return { address := word &&& 0x1FFF, bit := word.extractLsb' 13 3 }
  | directXRelative => do
    let address ← indexedCell Registers.x
    let displacement ← fetchDisplacement
    return { address, displacement }
  | absoluteXPointer => do
    let pointer ← indexedWord Registers.x
    return { address := ← readWord .pointer pointer (pointer + 1) }
  | indirectXIncrement => do
    let r ← get
    set { r with x := r.x + 1 }
    return { address := r.directAddress r.x }

end AddressingMode

end Spc700
