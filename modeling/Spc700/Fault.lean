import Spc700.Text.Numeral

/-!
# Faults

An instruction that has begun and that the bus does not let finish ends in a fault: which opcode
it was, where the opcode stood and why it stopped. The text of a fault is `Fault.text`.
-/

namespace Spc700

/-- An instruction that could not be completed. -/
structure Fault where
  opcode : Byte
  pc : Word
  detail : String
deriving DecidableEq, Repr

/-- A fault as one line of text, the free part last. -/
def Fault.text (f : Fault) : String :=
  "opcode $" ++ Numeral.hexByte f.opcode ++ " at $" ++ Numeral.hexWord f.pc ++
  " faulted: " ++ f.detail

/-- What happens after a fault: the processor goes on, or stops until it is reset. -/
inductive FaultPolicy where
  | skip
  | halt
deriving DecidableEq, Repr

/-- The policy's name. -/
def FaultPolicy.name : FaultPolicy → String
  | skip => "Skip"
  | halt => "Halt"

end Spc700
