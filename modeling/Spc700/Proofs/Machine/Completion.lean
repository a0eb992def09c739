import Spc700.Proofs.Machine.Operands

/-!
# What the next instruction leaves on flat memory

Flat memory answers every read by itself, so on it the next instruction is a computation: its
operation, run on the operands that memory has (`Ram.operandsAt`), from registers that have passed
the instruction (`Machine.passed`). `Machine.completes_of_run` says so once for every operation.
What a single operation leaves is then found by running it, which is a matter of unfolding.
-/

namespace Spc700

open Micro

/-! ## Dialogues with flat memory -/

/-- A way through a dialogue that flat memory grants is the one that it goes. -/
theorem Dialogue.run_ram_of_admits {ρ α : Type} {d : Dialogue ρ α} {es : List (Exchange ρ)}
    {result result' : α} {ram ram₁ ram₂ : Ram} (hd : d.Admits es result)
    (hg : Ram.bus.GrantsAll es ram ram₁) (hrun : d.run Ram.bus ram = (.ok result', ram₂)) :
    result = result' ∧ ram₁ = ram₂ := by
  have hsame := (run_of_grantsAll hd hg).symm.trans hrun
  exact ⟨Except.ok.inj (Prod.mk.inj hsame).1, (Prod.mk.inj hsame).2⟩

/-- **A branch**, taken if `P` holds, makes no access. -/
theorem Operation.run_branchIf {σ : Type} (bus : Bus σ) {taken : Bool} {P : Prop} [Decidable P]
    (h : taken = true ↔ P) (o : Operands) (r : Registers) (host : σ) :
    ((branchIf taken o).run r).run bus host =
      (.ok (if P then 2 else 0, { r with pc := if P then r.pc + o.displacement else r.pc }),
        host) := by
  by_cases hP : P
  · rw [if_pos hP, if_pos hP, h.mpr hP]
    rfl
  · rw [if_neg hP, if_neg hP, Bool.eq_false_iff.mpr (mt h.mp hP)]
    rfl

namespace Machine

/-- A machine on flat memory with nothing on its record. -/
def onRam (registers : Registers) (ram : Ram) : Machine (Recorded Ram) :=
  { processor := { registers }, host := { host := ram } }

theorem ram_onRam (registers : Registers) (ram : Ram) : (onRam registers ram).ram = ram := rfl

theorem instruction_of_read {m : Machine (Recorded Ram)} {opcode : Byte}
    (h : m.ram.read m.processor.registers.pc = opcode) : m.instruction = decode opcode :=
  congrArg decode h

/-! ## What an operation finds -/

/-- The operands of the next instruction. -/
def operands (m : Machine (Recorded Ram)) : Operands := m.ram.operandsAt m.processor.registers

/-- The registers that the operation of the next instruction finds: the program counter has passed
the instruction, and one addressing mode has moved X on. -/
def passed (m : Machine (Recorded Ram)) : Registers :=
  (m.instruction.mode.index (m.processor.registers.advance 1)).advance
    m.instruction.mode.operandBytes

section

variable (m : Machine (Recorded Ram))

theorem exists_passed : ∃ x pc, m.passed = { m.processor.registers with x, pc } :=
  m.instruction.mode.exists_index_advance _ _

@[simp]
theorem passed_psw : m.passed.psw = m.processor.registers.psw := by
  obtain ⟨x, pc, hpassed⟩ := m.exists_passed
  rw [hpassed]

@[simp]
theorem passed_a : m.passed.a = m.processor.registers.a := by
  obtain ⟨x, pc, hpassed⟩ := m.exists_passed
  rw [hpassed]

@[simp]
theorem passed_y : m.passed.y = m.processor.registers.y := by
  obtain ⟨x, pc, hpassed⟩ := m.exists_passed
  rw [hpassed]

/-- One mode apart, only the program counter has moved. -/
theorem passed_eq (h : m.instruction.mode ≠ .indirectXIncrement) :
    m.passed = m.processor.registers.advance m.instruction.length := by
  rw [passed, AddressingMode.index, if_neg h, Registers.advance_advance, Instruction.length]

theorem passed_pc : m.passed.pc =
    m.processor.registers.pc + BitVec.ofNat 16 m.instruction.length := by
  rw [passed, AddressingMode.index_advance_pc, Registers.advance_advance, Registers.advance_pc,
    Instruction.length]

end

/-! ## Operands by the mode -/

/-- The cell of the direct page that the byte behind the opcode names. -/
def directCell (m : Machine (Recorded Ram)) : Word :=
  m.processor.registers.directAddress (m.ram.read (m.processor.registers.pc + 1))

/-- The cell above it. Above the last cell of the page is the first. -/
def directCellAbove (m : Machine (Recorded Ram)) : Word :=
  m.processor.registers.directAddress (m.ram.read (m.processor.registers.pc + 1) + 1)

theorem operands_of_direct {m : Machine (Recorded Ram)} (h : m.instruction.mode = .direct) :
    m.operands = { address := m.directCell, highAddress := m.directCellAbove } := by
  rw [operands, Ram.operandsAt_eq h]
  rfl

theorem operands_of_directRelative {m : Machine (Recorded Ram)}
    (h : m.instruction.mode = .directRelative) :
    m.operands =
      { address := m.directCell
        displacement := Word.ofSigned (m.ram.read (m.processor.registers.pc + 2)) } := by
  rw [operands, Ram.operandsAt_eq h]
  rfl

theorem operands_of_relative {m : Machine (Recorded Ram)} (h : m.instruction.mode = .relative) :
    m.operands =
      { displacement := Word.ofSigned (m.ram.read (m.processor.registers.pc + 1)) } := by
  rw [operands, Ram.operandsAt_eq h]
  rfl

theorem directCell_ne_directCellAbove (m : Machine (Recorded Ram)) :
    m.directCell ≠ m.directCellAbove := by
  intro h
  have hlow := congrArg Word.low h
  simp [directCell, directCellAbove, Registers.directAddress] at hlow

/-! ## What it leaves -/

/-- The next instruction is completed, takes `extra` cycles beyond its base count, and leaves these
registers and this memory. -/
structure Completes (m : Machine (Recorded Ram)) (extra : Nat) (registers : Registers) (ram : Ram) :
    Prop where
  ok : (m.execute Ram.bus.recorded).1 = .ok ()
  registers : m.next.processor.registers = registers
  ram : m.next.ram = ram
  cyclesLeft : m.next.processor.cyclesLeft = m.instruction.cycles + extra

/-- **The next instruction is its operation**, run on the operands that memory has. -/
theorem completes_of_run {m : Machine (Recorded Ram)} {extra : Nat} {registers : Registers}
    {ram : Ram}
    (h : ((m.instruction.operation.execute m.operands).run m.passed).run Ram.bus m.ram =
      (.ok (extra, registers), ram)) :
    m.Completes extra registers ram := by
  obtain ⟨hok, es, extra', hq, hg, -, hcycles⟩ := m.next_of_every
    (m.instruction.every_perform_execute (m.processor.registers.advance 1)
      (Q := fun o r es extra r' =>
        ((m.instruction.operation.execute o).run r).Admits es (extra, r'))
      fun o r => Dialogue.every_iff.mpr fun es result hd => hd)
  obtain ⟨forming, acting, rfl, hplanned, hd⟩ := hq
  obtain ⟨ram₁, hforming, hacting⟩ := Bus.grantsAll_append hg
  rw [m.operands_of_planned hplanned hforming] at hd
  obtain ⟨-, rfl⟩ := Ram.byte_of_grantsAll hforming hplanned.reads
  obtain ⟨hresult, hram⟩ := Dialogue.run_ram_of_admits hd hacting h
  obtain ⟨rfl, hregisters⟩ := Prod.mk.inj hresult
  exact ⟨hok, hregisters, hram, hcycles⟩

/-- The next instruction is completed and changes the flags and one cell. -/
structure Alters (m : Machine (Recorded Ram)) (psw : Flags) (cell : Word) (byte : Byte) : Prop where
  ok : (m.execute Ram.bus.recorded).1 = .ok ()
  registers : m.next.processor.registers = { m.passed with psw }
  read : ∀ address, m.next.ram.read address = if cell = address then byte else m.ram.read address

section

variable {m : Machine (Recorded Ram)} {psw : Flags} {cell : Word} {byte : Byte}

theorem alters_of_run
    (h : ((m.instruction.operation.execute m.operands).run m.passed).run Ram.bus m.ram =
      (.ok (0, { m.passed with psw }), m.ram.write cell byte)) :
    m.Alters psw cell byte where
  ok := (completes_of_run h).ok
  registers := (completes_of_run h).registers
  read address := by rw [(completes_of_run h).ram, Ram.read_write]

theorem Alters.psw_eq (h : m.Alters psw cell byte) : m.next.processor.registers.psw = psw := by
  rw [h.registers]

theorem Alters.a_eq (h : m.Alters psw cell byte) :
    m.next.processor.registers.a = m.processor.registers.a := by
  rw [h.registers]
  exact m.passed_a

theorem Alters.read_cell (h : m.Alters psw cell byte) : m.next.ram.read cell = byte := by
  rw [h.read, if_pos rfl]

theorem Alters.read_of_ne (h : m.Alters psw cell byte) {address : Word} (hne : address ≠ cell) :
    m.next.ram.read address = m.ram.read address := by
  rw [h.read, if_neg hne.symm]

end

/-- **An instruction whose plan only reads** makes no write. -/
theorem accesses_of_plan {m : Machine (Recorded Ram)}
    (h : ∀ v ∈ m.instruction.operation.plan, v.direction = .read) :
    ∀ a ∈ m.accesses, a.direction = .read := by
  obtain ⟨-, es, extra, ⟨forming, acting, rfl, hplanned⟩, -, haccesses⟩ :=
    m.execute_of_every (m.instruction.every_perform_plan _)
  have hacting : ∀ e ∈ acting, e.direction = .read := by
    intro e he
    have hrequest := List.mem_map_of_mem (f := Exchange.request) he
    rw [hplanned.acts] at hrequest
    obtain ⟨v, hv, hvisit⟩ := List.mem_map.mp hrequest
    exact (congrArg Request.direction hvisit).symm.trans (h v hv)
  rw [haccesses, List.forall_mem_cons, List.forall_mem_map, List.forall_mem_append]
  exact ⟨rfl, hplanned.reads, hacting⟩

end Machine

end Spc700
