import Spc700.Event
import Spc700.Proofs.Text.Name
import Spc700.Proofs.Text.Reading

/-!
# Lines of the log

A line is read back as what it shows of its event, its level first (`Line.ofText?_text`). The line
of an instruction that begins shows where it was fetched, the opcode, the operation and the mode
that the opcode stands for, and all registers (`Listing.ofText?_traceText`). So no two events have
the same line (`Event.text_injective`).
-/

namespace Spc700

open Form

/-! ## Listings -/

/-- What the listing of an instruction shows. -/
structure Listing where
  address : Word
  opcode : Byte
  operation : Operation
  mode : AddressingMode
  registers : Registers
deriving DecidableEq, Repr

namespace Listing

/-- How a listing begins: where the opcode is, and the opcode. -/
def form : Form (Word × Byte) :=
  (hexWord.labelled "$").seq ((hexByte.labelled ": ").followedBy " ")

/-- The listing that a text shows. The name of an operation may have blanks and bars in it, so the
registers and the mode are cut off from the end. -/
def ofText? (s : String) : Option Listing := do
  let ((address, opcode), rest) ← form.split? s
  let (names, registers) ← cutLast? '|' rest.toList
  -- A blank stands on each side of the bar.
  let (operation, mode) ← cutLast? ' ' names.dropLast
  return {
    address, opcode
    operation := ← Operation.ofName? (String.ofList operation)
    mode := ← AddressingMode.ofName? (String.ofList mode)
    registers := ← Registers.ofText? (String.ofList (registers.drop 1)) }

/-- The listing of an instruction that begins: of the operation and the mode that its opcode stands
for, the names show all but what the opcode itself holds. -/
def ofBegan (address : Word) (opcode : Byte) (registers : Registers) : Listing where
  address := address
  opcode := opcode
  operation := (decode opcode).operation.plain
  mode := (decode opcode).mode
  registers := registers

theorem bar_not_mem_registers (registers : Registers) : '|' ∉ registers.text.toList := by
  have hdigits : ∀ base places n, 0 < base → base ≤ 16 → '|' ∉ Numeral.digits base places n := by
    intro base places n hpos hle hmem
    have hdigit := List.all_eq_true.mp (Numeral.all_digits hpos hle places n) '|' hmem
    simp [Numeral.isDigit] at hdigit
  unfold Registers.text
  simp [Numeral.hexByte, Numeral.hexWord, Numeral.binaryByte, hdigits]

theorem blank_not_mem_mode (mode : AddressingMode) : ' ' ∉ mode.name.toList := by
  cases mode <;> decide

/-- **The listing of an instruction is read as it was written.** -/
theorem ofText?_traceText (address : Word) (opcode : Byte) (registers : Registers) :
    ofText? (traceText address opcode registers) = some (ofBegan address opcode registers) := by
  let operation := (decode opcode).operation
  let mode := (decode opcode).mode
  let names := operation.name.toList ++ ' ' :: mode.name.toList
  let rest := operation.name ++ (" " ++ (mode.name ++ (" | " ++ registers.text)))
  have hplace : form.split? (traceText address opcode registers) =
      some ((address, opcode), rest) := by
    rw [split?_eq_some_iff]
    unfold traceText
    simp [form, rest, operation, mode, String.append_assoc]
  have hregisters : cutLast? '|' rest.toList =
      some (names ++ [' '], ' ' :: registers.text.toList) := by
    have hrest : rest.toList = (names ++ [' ']) ++ '|' :: ' ' :: registers.text.toList := by
      simp [rest, names]
    rw [hrest]
    apply cutLast?_append
    simp [bar_not_mem_registers]
  have hnames : cutLast? ' ' names = some (operation.name.toList, mode.name.toList) :=
    cutLast?_append (blank_not_mem_mode mode)
  have hread : Registers.ofText? registers.text = some registers :=
    Registers.ofText?_eq_some_iff.mpr rfl
  simp [ofText?, hplace, hregisters, hnames, hread, Operation.ofName?_name,
    AddressingMode.ofName?_name, ofBegan, operation, mode]

end Listing

/-! ## Lines -/

/-- The level that a name stands for. -/
def Level.ofName? : String → Option Level
  | "ERROR" => some error
  | "WARN" => some warn
  | "INFO" => some info
  | "TRACE" => some trace
  | _ => none

theorem Level.ofName?_name (level : Level) : ofName? level.name = some level := by
  cases level <;> rfl

/-- What a line shows. -/
inductive Line where
  /-- a reset, and where the program starts -/
  | info (pc : Word)
  /-- an instruction that begins -/
  | trace (listing : Listing)
  /-- a fault after which the processor goes on -/
  | error (fault : Fault)
  /-- a fault that halted the processor -/
  | warn (fault : Fault)
deriving DecidableEq, Repr

namespace Line

/-- The level of a line. -/
def level : Line → Level
  | info _ => .info
  | trace _ => .trace
  | error _ => .error
  | warn _ => .warn

/-- The event that a line reports. -/
def event : Line → Event
  | info pc => .reset pc
  | trace listing => .began listing.address listing.opcode listing.registers
  | error fault => .skipped fault
  | warn fault => .halted fault

/-- The line that a text shows, by its level. -/
def ofText? (s : String) : Option Line := do
  let (level, message) ← cut? ' ' s.toList
  let message := String.ofList message
  match ← Level.ofName? (String.ofList level) with
  | .info => ((hexWord.labelled "SPC reset, PC set to: $").ofText? message).map info
  | .trace => (Listing.ofText? message).map trace
  | .error => do
    let (_, detail) ← (label "Skipping instruction: ").split? message
    (Fault.ofText? detail).map error
  | .warn => do
    let (_, detail) ← (label "Halting: ").split? message
    (Fault.ofText? detail).map warn

end Line

/-- What the line of an event shows. -/
def Event.line : Event → Line
  | reset pc => .info pc
  | began address opcode registers => .trace (.ofBegan address opcode registers)
  | skipped fault => .error fault
  | halted fault => .warn fault

/-- **The line of an event is read as what it shows.** -/
theorem Line.ofText?_text (event : Event) : ofText? event.text = some event.line := by
  have hlevel : ' ' ∉ event.level.name.toList := by
    cases event.level <;> decide
  have htext : event.text.toList = event.level.name.toList ++ ' ' :: event.message.toList := by
    simp [Event.text]
  unfold ofText?
  rw [htext, cut?_append hlevel]
  simp only [Option.bind_eq_bind, Option.bind_some, String.ofList_toList, Level.ofName?_name]
  cases event with
  | reset pc =>
    have hread : (hexWord.labelled "SPC reset, PC set to: $").ofText? (Event.reset pc).message =
        some pc := ofText?_eq_some_iff.mpr rfl
    simp [Event.level, Event.line, hread]
  | began address opcode registers =>
    have hread : Listing.ofText? (Event.began address opcode registers).message =
        some (.ofBegan address opcode registers) :=
      Listing.ofText?_traceText address opcode registers
    simp [Event.level, Event.line, hread]
  | skipped fault =>
    have hsplit : (label "Skipping instruction: ").split? (Event.skipped fault).message =
        some ((), fault.text) := split?_eq_some_iff.mpr rfl
    simp [Event.level, Event.line, hsplit, Fault.ofText?_eq_some_iff]
  | halted fault =>
    have hsplit : (label "Halting: ").split? (Event.halted fault).message =
        some ((), fault.text) := split?_eq_some_iff.mpr rfl
    simp [Event.level, Event.line, hsplit, Fault.ofText?_eq_some_iff]

/-- The level of an event is the level of its line. -/
theorem Event.level_line (event : Event) : event.line.level = event.level := by
  cases event <;> rfl

theorem Event.event_line (event : Event) : event.line.event = event := by
  cases event <;> rfl

/-- **No two events have the same line.** -/
theorem Event.text_injective {event event' : Event} (h : event.text = event'.text) :
    event = event' := by
  have hline : event.line = event'.line := by
    apply Option.some.inj
    rw [← Line.ofText?_text, ← Line.ofText?_text, h]
  rw [← event.event_line, hline, event'.event_line]

end Spc700
