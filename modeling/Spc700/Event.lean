import Spc700.Fault
import Spc700.Instruction.Matrix
import Spc700.Instruction.Name

/-!
# Events

What the processor reports while it runs. `Event.text` writes an event as one line: how grave it
is (`Event.level`), then what happened (`Event.message`).
-/

namespace Spc700

/-- Something worth a line in the log. -/
inductive Event where
  /-- a reset, and where the program starts -/
  | reset (pc : Word)
  /-- an opcode that was read at an address, and the registers just after -/
  | began (address : Word) (opcode : Byte) (registers : Registers)
  /-- a fault after which the processor goes on -/
  | skipped (fault : Fault)
  /-- a fault that halted the processor -/
  | halted (fault : Fault)
deriving DecidableEq, Repr

/-- How grave an event is. -/
inductive Level where
  | error
  | warn
  | info
  | trace
deriving DecidableEq, Repr

/-- The level's name, with which a line begins. -/
def Level.name : Level → String
  | error => "ERROR"
  | warn => "WARN"
  | info => "INFO"
  | trace => "TRACE"

/-- The listing of an instruction that begins. -/
def traceText (address : Word) (opcode : Byte) (registers : Registers) : String :=
  let instruction := decode opcode
  "$" ++ Numeral.hexWord address ++ ": " ++ Numeral.hexByte opcode ++ " " ++
    instruction.operation.name ++ " " ++ instruction.mode.name ++ " | " ++ registers.text

namespace Event

/-- The level at which an event is reported. -/
def level : Event → Level
  | reset _ => .info
  | began _ _ _ => .trace
  | skipped _ => .error
  | halted _ => .warn

/-- What is said of an event. -/
def message : Event → String
  | reset pc => "SPC reset, PC set to: $" ++ Numeral.hexWord pc
  | began address opcode registers => traceText address opcode registers
  | skipped fault => "Skipping instruction: " ++ fault.text
  | halted fault => "Halting: " ++ fault.text

/-- An event as a line of the log. -/
def text (event : Event) : String := event.level.name ++ " " ++ event.message

end Event

end Spc700
