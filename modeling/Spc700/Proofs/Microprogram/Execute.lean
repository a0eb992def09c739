import Spc700.Microprogram.Execute
import Spc700.Proofs.Microprogram.Operands

/-!
# Carrying out operations

Two facts about every operation, whatever is read: it asks for all its accesses with the program
counter where the operands left it (`Operation.every_execute_pc`), so jumps come last; and it takes
cycles beyond the base count exactly if it is a conditional branch that is taken
(`Operation.every_execute_extra`). `Instruction.every_perform` puts them together with forming
the operands, for everything that comes after the opcode.
-/

namespace Spc700

open Micro

namespace Operation

/-- The cycles beyond the base count that a conditional branch takes. -/
def penalty (taken : Bool) : Nat := if taken then 2 else 0

/-! ## The steps that operations share -/

section

variable {Q : List (Exchange Registers) → Unit → Registers → Prop} {r : Registers}
  {o : Operands}

@[simp]
theorem every_assign {n : Register} {value : Byte} :
    Every Q (assign n value) r ↔ Q [] () ((r.set n value).describe value) := Iff.rfl

@[simp]
theorem every_writeCell {value : Byte} :
    Every Q (writeCell o value) r ↔ Q [writing r .data o.address value] () r := Iff.rfl

@[simp]
theorem every_writeCellWord {value : Word} :
    Every Q (writeCellWord o value) r ↔
      Q [writing r .data o.address (Word.low value),
        writing r .data o.highAddress (Word.high value)] () r := Iff.rfl

@[simp]
theorem every_readCell {Q : List (Exchange Registers) → Byte → Registers → Prop} :
    Every Q (readCell o) r ↔ ∀ byte, Q [reading r .data o.address byte] byte r := Iff.rfl

@[simp]
theorem every_readSource {Q : List (Exchange Registers) → Byte → Registers → Prop} :
    Every Q (readSource o) r ↔ ∀ byte, Q [reading r .data o.source byte] byte r := Iff.rfl

@[simp]
theorem every_readCellWord {Q : List (Exchange Registers) → Word → Registers → Prop} :
    Every Q (readCellWord o) r ↔
      ∀ low high, Q [reading r .data o.address low, reading r .data o.highAddress high]
        (Word.ofBytes high low) r :=
  every_readWord

@[simp]
theorem every_atBase {Q : List (Exchange Registers) → Nat → Registers → Prop}
    {program : Micro Unit} :
    Every Q (atBase program) r ↔ Every (fun es _ r' => Q es 0 r') program r := by
  simp [atBase]

@[simp]
theorem every_branchIf {Q : List (Exchange Registers) → Nat → Registers → Prop} {taken : Bool} :
    Every Q (branchIf taken o) r ↔
      Q [] (penalty taken) (if taken then { r with pc := r.pc + o.displacement } else r) := by
  cases taken <;> simp [branchIf, penalty]

end

/-! ## Where the program counter stands -/

/-- The exchange is one that an operation may ask for when the program counter stands at `pc`. -/
def Asks (pc : Word) (e : Exchange Registers) : Prop :=
  e.now.pc = pc ∧ (e.purpose = .data ∨ e.purpose = .stack ∨ e.purpose = .vector)

/-- **No access comes after a jump**: an operation moves the program counter after its last
exchange. -/
theorem every_execute_pc (operation : Operation) (o : Operands) (r : Registers) :
    Every (fun es _ _ => ∀ e ∈ es, Asks r.pc e) (operation.execute o) r := by
  -- Every operation is a row of steps that the rules know. What is left says of each exchange which
  -- registers it was asked for in, and none of the steps before it touched the program counter.
  cases operation <;> simp [execute, Asks, reading, writing, Registers.describe, or_imp,
    forall_and]

/-! ## What a taken branch costs -/

/-- The first data byte that goes over the bus, zero if there is none. -/
def datum (es : List (Exchange Registers)) : Byte :=
  match es.find? (fun e => e.purpose = .data) with
  | some e => e.byte
  | none => 0

/-- Whether the operation is a conditional branch whose condition holds, of the registers that it
finds and the byte that it reads. -/
def taken (operation : Operation) (r : Registers) (byte : Byte) : Bool :=
  match operation with
  | branch c => c.holds r.psw
  | branchBit bit on => byte.getLsbD bit.toNat == on
  | branchDifferent => r.a != byte
  | branchCount => byte - 1 != 0
  | branchCountY => r.y - 1 != 0
  | _ => false

/-- **An operation takes longer than its base count** exactly if it is a conditional branch that is
taken. -/
theorem every_execute_extra (operation : Operation) (o : Operands) (r : Registers) :
    Every (fun es extra _ => extra = penalty (operation.taken r (datum es)))
      (operation.execute o) r := by
  cases operation with
  | branch c => simp [execute, taken]
  | branchBit bit on => simp [execute, taken, datum, reading]
  | branchDifferent => simp [execute, taken, datum, reading]
  | branchCount =>
    -- The cell is written back before the branch, but what decides is the byte that was read.
    simp only [execute, every_bind, every_readCell, every_writeCell, every_branchIf]
    intro byte
    rfl
  | branchCountY =>
    simp only [execute, every_bind, every_modify, every_get, every_branchIf]
    rfl
  | _ => simp [execute, taken, penalty]

/-- Forming operands asks for no data, so the datum is one of the operation's. -/
theorem datum_append {mode : AddressingMode} {r : Registers} {es : List (Exchange Registers)}
    (h : ∀ e ∈ es, mode.Forms r e) (es' : List (Exchange Registers)) :
    datum (es ++ es') = datum es' := by
  have hnone : es.find? (fun e => e.purpose = .data) = none := by
    rw [List.find?_eq_none]
    intro e he
    rcases (h e he).2 with ⟨hp, -⟩ | ⟨hp, -⟩ <;> simp [hp]
  unfold datum
  rw [List.find?_append, hnone, Option.none_or]

/-- A condition does not look at the program counter. -/
theorem taken_advance (operation : Operation) (r : Registers) (count : Nat) (byte : Byte) :
    operation.taken (r.advance count) byte = operation.taken r byte := by
  cases operation <;> rfl

/-- A condition looks at no register that forming operands changes. -/
theorem taken_index (operation : Operation) (mode : AddressingMode) (r : Registers) (count : Nat)
    (byte : Byte) :
    operation.taken ((mode.index r).advance count) byte = operation.taken r byte := by
  rw [taken_advance]
  unfold AddressingMode.index
  split
  · cases operation <;> rfl
  · rfl

end Operation

/-- **All of an instruction after its opcode**, from the registers after the opcode: its exchanges
form the operands or are the operation's, which come with the program counter behind the
instruction; and it takes longer than its base count exactly if it is a conditional branch that is
taken. -/
theorem Instruction.every_perform (instruction : Instruction) (r : Registers) :
    Every (fun es extra _ =>
      (∀ e ∈ es, instruction.mode.Forms r e ∨
        Operation.Asks (r.advance instruction.mode.operandBytes).pc e) ∧
      extra = Operation.penalty (instruction.operation.taken r (Operation.datum es)))
      instruction.perform r := by
  unfold perform
  refine Every.bind (instruction.mode.every_resolve r) ?_
  intro es o r' hresolve
  obtain ⟨hforms, rfl⟩ := hresolve
  have hasks := instruction.operation.every_execute_pc o
    ((instruction.mode.index r).advance instruction.mode.operandBytes)
  have hextra := instruction.operation.every_execute_extra o
    ((instruction.mode.index r).advance instruction.mode.operandBytes)
  refine (hasks.and hextra).imp ?_
  intro es' extra r'' hboth
  obtain ⟨hasks, hextra⟩ := hboth
  -- Forming the operands may have moved X on, which neither the program counter nor a condition
  -- depends on.
  rw [AddressingMode.index_advance_pc] at hasks
  rw [Operation.taken_index] at hextra
  constructor
  · intro e he
    rcases List.mem_append.mp he with he | he
    · exact .inl (hforms e he)
    · exact .inr (hasks e he)
  · rw [Operation.datum_append hforms]
    exact hextra

end Spc700
