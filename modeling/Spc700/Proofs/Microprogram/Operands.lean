import Spc700.Microprogram.Operands
import Spc700.Proofs.Microprogram.Rules

/-!
# Forming operands

`AddressingMode.every_resolve` says all that later proofs need of the twenty modes: which accesses
forming operands may ask for and in which state, and which registers it leaves. Operand bytes are
read at the program counter, each before it is passed, and pointer bytes once all operand bytes
have been passed. Nothing else is read and nothing is written.
-/

namespace Spc700

open Micro

namespace AddressingMode

/-- How many operand bytes follow the opcode. -/
def operandBytes : AddressingMode → Nat
  | implied | indirectX | indirectXY | indirectXIncrement => 0
  | relative | direct | directXPointer | immediate | directX | directPointerY | directY => 1
  | directRelative | absolute | absoluteX | absoluteY | directDirect | directImmediate
  | absoluteBit | directXRelative | absoluteXPointer => 2

/-- The registers as the mode leaves them, the program counter apart: one mode moves X on. -/
def index (mode : AddressingMode) (r : Registers) : Registers :=
  if mode = indirectXIncrement then { r with x := r.x + 1 } else r

theorem index_advance_pc (mode : AddressingMode) (r : Registers) (count : Nat) :
    ((mode.index r).advance count).pc = (r.advance count).pc := by
  unfold index
  split <;> rfl

/-- The exchange is one by which operands of the mode are formed from the registers `r`. -/
def Forms (mode : AddressingMode) (r : Registers) (e : Exchange Registers) : Prop :=
  e.direction = .read ∧
    ((e.purpose = .operand ∧ e.address = e.now.pc ∧
        ∃ count < mode.operandBytes, e.now = r.advance count) ∨
      (e.purpose = .pointer ∧ e.now = r.advance mode.operandBytes))

section

variable {mode : AddressingMode} {r : Registers} {count : Nat}

theorem forms_first (h : 0 < mode.operandBytes) (byte : Byte) :
    mode.Forms r (reading r .operand r.pc byte) :=
  ⟨rfl, .inl ⟨rfl, rfl, 0, h, r.advance_zero.symm⟩⟩

theorem forms_operand (h : count < mode.operandBytes) (byte : Byte) :
    mode.Forms r (reading (r.advance count) .operand (r.advance count).pc byte) :=
  ⟨rfl, .inl ⟨rfl, rfl, count, h, rfl⟩⟩

theorem forms_pointer (h : mode.operandBytes = count) (address : Word) (byte : Byte) :
    mode.Forms r (reading (r.advance count) .pointer address byte) :=
  ⟨rfl, .inr ⟨rfl, congrArg r.advance h.symm⟩⟩

end

/-! ## The steps that modes share -/

section

variable {Q : List (Exchange Registers) → Word → Registers → Prop} {r : Registers}

@[simp]
theorem every_fetchWord :
    Every Q fetchWord r ↔
      ∀ low high, Q [reading r .operand r.pc low,
        reading (r.advance 1) .operand (r.advance 1).pc high] (Word.ofBytes high low)
          (r.advance 2) := by
  simp [fetchWord]

@[simp]
theorem every_fetchDisplacement :
    Every Q fetchDisplacement r ↔
      ∀ byte, Q [reading r .operand r.pc byte] (Word.ofSigned byte) (r.advance 1) := by
  simp [fetchDisplacement]

@[simp]
theorem every_immediate : Every Q Micro.immediate r ↔ Q [] r.pc (r.advance 1) := Iff.rfl

@[simp]
theorem every_directCell :
    Every Q directCell r ↔
      ∀ byte, Q [reading r .operand r.pc byte] (r.directAddress byte) (r.advance 1) := Iff.rfl

@[simp]
theorem every_indexedCell {index : Registers → Byte} :
    Every Q (indexedCell index) r ↔
      ∀ byte, Q [reading r .operand r.pc byte]
        (r.directAddress (byte + index (r.advance 1))) (r.advance 1) := Iff.rfl

@[simp]
theorem every_indexedWord {index : Registers → Byte} :
    Every Q (indexedWord index) r ↔
      ∀ low high, Q [reading r .operand r.pc low,
        reading (r.advance 1) .operand (r.advance 1).pc high]
          (Word.ofBytes high low + (index (r.advance 2)).setWidth 16) (r.advance 2) := by
  simp [indexedWord]

@[simp]
theorem every_directPointer {offset : Byte} :
    Every Q (directPointer offset) r ↔
      ∀ low high, Q [reading r .pointer (r.directAddress offset) low,
        reading r .pointer (r.directAddress (offset + 1)) high] (Word.ofBytes high low) r := by
  simp [directPointer]

end

/-- **What forming operands does**, whatever is read: every exchange is of the mode's forms, and
the program counter has passed the operand bytes. -/
theorem every_resolve (mode : AddressingMode) (r : Registers) :
    Every (fun es _ r' => (∀ e ∈ es, mode.Forms r e) ∧
      r' = (mode.index r).advance mode.operandBytes) mode.resolve r := by
  -- One case for each of the twenty modes. The rules turn a mode into its row of exchanges, and
  -- each exchange is of one of the three forms, with the number of bytes left to `decide`.
  cases mode <;>
    simp (disch := decide) [resolve, operandBytes, index, forms_first, forms_operand, forms_pointer,
      or_imp, forall_and]

end AddressingMode

/-- How many bytes an instruction takes, its opcode included. -/
def Instruction.length (instruction : Instruction) : Nat := 1 + instruction.mode.operandBytes

end Spc700
