import Spc700.Proofs.Machine.Completion

/-!
# Forms of one operation

Six operations of two operands come in a form on the accumulator and a cell and in a form on two
cells (`Binary`), and six of one operand in a form on the accumulator and a form on a cell
(`Unary`). Each form is a program of its own, with its own order of accesses and its own moment at
which the flags are set. What they leave is the same: what the form on memory does to its cell, the
form on the accumulator does to A (`Machine.Mirrors`), and `Machine.memory_forms` says so of all of
them.
-/

namespace Spc700

/-! ## The two families -/

/-- An operation of two operands with a form on the accumulator and one on two cells. -/
inductive Binary where
  | logic (f : Logic)
  | arithmetic (f : Arithmetic)
  | compare
deriving DecidableEq, Repr

/-- An operation of one operand with a form on the accumulator and one on a cell. -/
inductive Unary where
  | shift (f : Shift)
  | step (f : Step)
deriving DecidableEq, Repr

namespace Binary

/-- The form on the accumulator. -/
def accumulator : Binary → Operation
  | logic f => .logic f
  | arithmetic f => .arithmetic f
  | compare => .compare .a

/-- The form on two cells. -/
def memory : Binary → Operation
  | logic f => .logicMemory f
  | arithmetic f => .arithmeticMemory f
  | compare => .compareMemory

/-- What is left in the first operand, and the flags. A comparison leaves the operand as it is. -/
def apply : Binary → Byte → Byte → Flags → Byte × Flags
  | logic f, x, y, psw => (f.apply x y, psw.describe (f.apply x y))
  | arithmetic f, x, y, psw => f.apply x y psw
  | compare, x, y, psw => (x, Alu.compare x y psw)

end Binary

namespace Unary

/-- The form on the accumulator. -/
def accumulator : Unary → Operation
  | shift f => .shiftAccumulator f
  | step f => .stepRegister f .a

/-- The form on a cell. -/
def memory : Unary → Operation
  | shift f => .shift f
  | step f => .step f

/-- What is left in the operand, and the flags. -/
def apply : Unary → Byte → Flags → Byte × Flags
  | shift f, x, psw => f.apply x psw
  | step f, x, psw => (f.apply x, psw.describe (f.apply x))

end Unary

/-! ## In the opcode matrix -/

/-- The modes of an instruction on two cells. -/
def AddressingMode.pairs : List AddressingMode := [.directDirect, .directImmediate, .indirectXY]

/-- A form on two cells is there in each of the three modes, and in no other. -/
theorem decode_binary (g : Binary) :
    (∀ opcode : Byte, (decode opcode).operation = g.memory →
      (decode opcode).mode ∈ AddressingMode.pairs) ∧
    ∀ mode ∈ AddressingMode.pairs, ∃ opcode : Byte,
      (decode opcode).operation = g.memory ∧ (decode opcode).mode = mode := by
  cases g with
  | logic f => cases f <;> decide +kernel
  | arithmetic f => cases f <;> decide +kernel
  | compare => decide +kernel

/-- The cells of an instruction on two cells, first the one that is worked on. Of two operand bytes
the second names it; the first names the source or is the source itself. -/
def Ram.cellPair (ram : Ram) (r : Registers) : Word × Word :=
  match (ram.instructionAt r.pc).mode with
  | .directDirect =>
    (r.directAddress (ram.read (r.pc + 2)), r.directAddress (ram.read (r.pc + 1)))
  | .directImmediate => (r.directAddress (ram.read (r.pc + 2)), r.pc + 1)
  | .indirectXY => (r.directAddress r.x, r.directAddress r.y)
  | _ => (0, 0)

theorem Ram.cellPair_eq {ram : Ram} {r : Registers} {g : Binary}
    (h : (ram.instructionAt r.pc).operation = g.memory) :
    ram.cellPair r = ((ram.operandsAt r).address, (ram.operandsAt r).source) := by
  have hmode := (decode_binary g).1 _ h
  simp only [AddressingMode.pairs, List.mem_cons, List.not_mem_nil, or_false] at hmode
  rcases hmode with hmode | hmode | hmode <;>
    rw [cellPair, Ram.operandsAt_eq hmode, instructionAt, hmode] <;> rfl

namespace Machine

variable {m m' : Machine (Recorded Ram)}

/-! ## What each form leaves -/

section

variable {g : Binary}

theorem completes_accumulator (h : m.instruction.operation = g.accumulator) :
    m.Completes 0
      { m.passed with
        a := (g.apply m.passed.a (m.ram.read m.operands.address) m.passed.psw).1
        psw := (g.apply m.passed.a (m.ram.read m.operands.address) m.passed.psw).2 } m.ram := by
  apply completes_of_run
  rw [h]
  cases g <;> rfl

theorem alters_memory (h : m.instruction.operation = g.memory) :
    m.Alters
      (g.apply (m.ram.read m.operands.address) (m.ram.read m.operands.source) m.passed.psw).2
      m.operands.address
      (g.apply (m.ram.read m.operands.address) (m.ram.read m.operands.source) m.passed.psw).1 := by
  cases g with
  | logic f | arithmetic f =>
    apply alters_of_run
    rw [h]
    rfl
  | compare =>
    -- Nothing is written, which leaves the cell with the byte that it has.
    have hcompletes : m.Completes 0
        { m.passed with
          psw := Alu.compare (m.ram.read m.operands.address) (m.ram.read m.operands.source)
            m.passed.psw } m.ram := by
      apply completes_of_run
      rw [h]
      rfl
    refine ⟨hcompletes.ok, hcompletes.registers, ?_⟩
    intro address
    rw [hcompletes.ram]
    split
    next heq =>
      subst heq
      rfl
    next => rfl

end

section

variable {g : Unary}

theorem completes_unary_accumulator (h : m.instruction.operation = g.accumulator) :
    m.Completes 0
      { m.passed with
        a := (g.apply m.passed.a m.passed.psw).1
        psw := (g.apply m.passed.a m.passed.psw).2 } m.ram := by
  apply completes_of_run
  rw [h]
  cases g <;> rfl

theorem alters_unary_memory (h : m.instruction.operation = g.memory) :
    m.Alters (g.apply (m.ram.read m.operands.address) m.passed.psw).2 m.operands.address
      (g.apply (m.ram.read m.operands.address) m.passed.psw).1 := by
  apply alters_of_run
  rw [h]
  cases g <;> rfl

end

/-! ## Both forms at once -/

/-- What the machine `m` does to a cell, the machine `m'` does to its accumulator: both instructions
are completed and leave the same flags and the same byte. The accumulator of `m` and all other cells
stay as they are. -/
structure Mirrors (m m' : Machine (Recorded Ram)) (cell : Word) : Prop where
  ok : (m.execute Ram.bus.recorded).1 = .ok () ∧ (m'.execute Ram.bus.recorded).1 = .ok ()
  psw : m.next.processor.registers.psw = m'.next.processor.registers.psw
  byte : m.next.ram.read cell = m'.next.processor.registers.a
  a : m.next.processor.registers.a = m.processor.registers.a
  others : ∀ address, address ≠ cell → m.next.ram.read address = m.ram.read address

/-- Two forms that leave the same. -/
theorem Alters.mirrors {extra : Nat} {result : Byte × Flags} {cell : Word} {ram : Ram}
    (h : m.Alters result.2 cell result.1)
    (h' : m'.Completes extra { m'.passed with a := result.1, psw := result.2 } ram) :
    m.Mirrors m' cell where
  ok := ⟨h.ok, h'.ok⟩
  psw := by rw [h.psw_eq, h'.registers]
  byte := by rw [h.read_cell, h'.registers]
  a := h.a_eq
  others _ hne := h.read_of_ne hne

/-- **Memory forms agree with accumulator forms** on flat memory.

* Let one machine face a form on two cells and another the form on the accumulator, with the byte of
  the first cell in A, the byte of the second as its operand, and the same flags. Then what the one
  leaves in the cell the other leaves in A, with the same flags, whether or not the cells are
  the same and wherever they are, the code included. A comparison writes nothing.
* Forms on two cells are there in each of the three modes that name two cells.
* The same holds of the form on a cell and the form on A of an operation of one operand. -/
theorem memory_forms :
    (∀ {g : Binary} {m m' : Machine (Recorded Ram)} {target source : Word},
      m.instruction.operation = g.memory → m'.instruction.operation = g.accumulator →
      m.ram.cellPair m.processor.registers = (target, source) →
      m'.processor.registers.a = m.ram.read target →
      m'.ram.read m'.operands.address = m.ram.read source →
      m'.processor.registers.psw = m.processor.registers.psw →
      m.Mirrors m' target ∧ (g = .compare → ∀ a ∈ m.accesses, a.direction = .read)) ∧
    (∀ g : Binary, ∀ mode ∈ AddressingMode.pairs, ∃ opcode : Byte,
      (decode opcode).operation = g.memory ∧ (decode opcode).mode = mode) ∧
    (∀ {g : Unary} {m m' : Machine (Recorded Ram)},
      m.instruction.operation = g.memory → m'.instruction.operation = g.accumulator →
      m'.processor.registers.a = m.ram.read m.operands.address →
      m'.processor.registers.psw = m.processor.registers.psw →
      m.Mirrors m' m.operands.address) := by
  refine ⟨?_, fun g => (decode_binary g).2, ?_⟩
  · intro g m m' target source h h' hcells ha hsource hpsw
    obtain ⟨rfl, rfl⟩ := Prod.mk.inj ((Ram.cellPair_eq h).symm.trans hcells)
    have hmemory := alters_memory h
    have haccumulator := completes_accumulator h'
    rw [passed_a, passed_psw, ha, hsource, hpsw] at haccumulator
    rw [passed_psw] at hmemory
    refine ⟨hmemory.mirrors haccumulator, ?_⟩
    rintro rfl
    apply accesses_of_plan
    rw [h]
    decide
  · intro g m m' h h' ha hpsw
    have hmemory := alters_unary_memory h
    have haccumulator := completes_unary_accumulator h'
    rw [passed_a, passed_psw, ha, hpsw] at haccumulator
    rw [passed_psw] at hmemory
    exact hmemory.mirrors haccumulator

/-- A subtraction of an immediate byte from itself, which leaves the borrow in the byte's place,
and a rotation of a byte in the second page. -/
theorem memory_forms_of_ram :
    let ram := (Ram.zero.load 0x0010 [0xB8, 0x05, 0x11]).load 0x0200 [0xA8, 0x05, 0x6B, 0x30, 0x7C]
    let m := onRam { a := 0x33, pc := 0x0010 } ram
    let m' := onRam { a := 0x05, pc := 0x0200 } ram
    let psw : Flags := { directPage := true, carry := true }
    let ror := onRam { pc := 0x0202, psw } (ram.write 0x0130 0x81)
    let ror' := onRam { a := 0x81, pc := 0x0204, psw } ram
    m.instruction.operation = Binary.memory (.arithmetic .sbc) ∧
    m'.instruction.operation = Binary.accumulator (.arithmetic .sbc) ∧
    m.ram.cellPair m.processor.registers = (0x0011, 0x0011) ∧
    m'.processor.registers.a = m.ram.read 0x0011 ∧
    m'.ram.read m'.operands.address = m.ram.read 0x0011 ∧
    m'.processor.registers.psw = m.processor.registers.psw ∧
    m.Mirrors m' 0x0011 ∧
    ror.instruction.operation = Unary.memory (.shift .ror) ∧
    ror'.instruction.operation = Unary.accumulator (.shift .ror) ∧
    ror'.processor.registers.a = ror.ram.read ror.operands.address ∧
    ror'.processor.registers.psw = ror.processor.registers.psw ∧
    ror.Mirrors ror' 0x0130 := by
  intro ram m m' psw ror ror'
  have hoperations : m.instruction.operation = Binary.memory (.arithmetic .sbc) ∧
      m'.instruction.operation = Binary.accumulator (.arithmetic .sbc) := by decide +kernel
  have hcells : m.ram.cellPair m.processor.registers = (0x0011, 0x0011) := by decide +kernel
  have hbytes : m'.processor.registers.a = m.ram.read 0x0011 ∧
      m'.ram.read m'.operands.address = m.ram.read 0x0011 := by decide +kernel
  have hflags : m'.processor.registers.psw = m.processor.registers.psw ∧
      ror'.processor.registers.psw = ror.processor.registers.psw := by decide +kernel
  have hrotations : ror.instruction.operation = Unary.memory (.shift .ror) ∧
      ror'.instruction.operation = Unary.accumulator (.shift .ror) := by decide +kernel
  have hcell : ror.operands.address = 0x0130 := by decide +kernel
  have ha : ror'.processor.registers.a = ror.ram.read ror.operands.address := by decide +kernel
  obtain ⟨hbinary, -, hunary⟩ := memory_forms
  have hmirrors := (hbinary hoperations.1 hoperations.2 hcells hbytes.1 hbytes.2 hflags.1).1
  have hmirrors' := hunary hrotations.1 hrotations.2 ha hflags.2
  rw [hcell] at hmirrors'
  exact ⟨hoperations.1, hoperations.2, hcells, hbytes.1, hbytes.2, hflags.1, hmirrors,
    hrotations.1, hrotations.2, ha, hflags.2, hmirrors'⟩

end Machine

end Spc700
