import Spc700.Proofs.Machine.Computation
import Spc700.Proofs.Machine.Memory

/-!
# Operands in flat memory

On flat memory the instruction at the program counter and the operands that it forms are functions
of the memory and the registers (`Ram.operandsAt`). In a mode that reads no address from memory they
depend on the cells of the code only, so they can be told from the memory before a program has run,
if nothing has been written over its code since (`Ram.operandsAt_congr`).

`Machine.operands_of_planned` says that the next instruction forms those operands.
-/

namespace Spc700

open Micro

/-! ## Exchanges, one part after the other -/

theorem Bus.grantsAll_append {σ ρ : Type} {bus : Bus σ} {es es' : List (Exchange ρ)}
    {host host' : σ} (h : bus.GrantsAll (es ++ es') host host') :
    ∃ between, bus.GrantsAll es host between ∧ bus.GrantsAll es' between host' := by
  induction es generalizing host with
  | nil => exact ⟨host, rfl, h⟩
  | cons e es ih =>
    obtain ⟨next, hfirst, hrest⟩ := h
    obtain ⟨between, hes, hes'⟩ := ih hrest
    exact ⟨between, ⟨next, hfirst, hes⟩, hes'⟩

namespace Ram

/-- Exchanges that only read find what memory holds and leave it. -/
theorem byte_of_grantsAll {es : List (Exchange Registers)} {ram ram' : Ram}
    (h : Ram.bus.GrantsAll es ram ram') (hreads : ∀ e ∈ es, e.direction = .read) :
    (∀ e ∈ es, e.byte = ram.read e.address) ∧ ram' = ram := by
  have hgranted : ∀ a ∈ es.map Exchange.granted, a.direction = .read :=
    List.forall_mem_map.mpr hreads
  constructor
  · intro e he
    exact Option.some.inj (value_of_grantsAll h hgranted _ (List.mem_map_of_mem he))
  · rw [replay_of_grantsAll h, replay_of_reads hgranted]

/-! ## Instructions in memory -/

/-- The instruction at an address. -/
def instructionAt (ram : Ram) (pc : Word) : Instruction := decode (ram.read pc)

/-- The cells of the instruction at an address. -/
def code (ram : Ram) (pc : Word) : List Word :=
  (List.range (ram.instructionAt pc).length).map fun i => pc + BitVec.ofNat 16 i

/-- The operand bytes that are read behind the opcode at an address. -/
def operandBytes (ram : Ram) (pc : Word) : List Byte :=
  (ram.instructionAt pc).mode.fetched.map fun i => ram.read (pc + BitVec.ofNat 16 (1 + i))

/-- The operands of the instruction at the program counter. -/
def operandsAt (ram : Ram) (r : Registers) : Operands :=
  (ram.instructionAt r.pc).mode.operands (r.advance 1)
    (ram.operandBytes r.pc ++
      ((ram.instructionAt r.pc).mode.pointerCells (r.advance 1) (ram.operandBytes r.pc)).map
        ram.read)

section

variable {ram ram' : Ram} {pc : Word}

/-- The operands by the mode alone: it makes them of the bytes behind the opcode, and of those of a
pointer that they name. -/
theorem operandsAt_eq {r : Registers} {mode : AddressingMode}
    (h : (ram.instructionAt r.pc).mode = mode) :
    ram.operandsAt r =
      let bytes := mode.fetched.map fun i => ram.read (r.pc + BitVec.ofNat 16 (1 + i))
      mode.operands (r.advance 1)
        (bytes ++ (mode.pointerCells (r.advance 1) bytes).map ram.read) := by
  subst h
  rfl

theorem mem_code {i : Nat} (h : i < (ram.instructionAt pc).length) :
    pc + BitVec.ofNat 16 i ∈ ram.code pc :=
  List.mem_map.mpr ⟨i, List.mem_range.mpr h, rfl⟩

theorem instructionAt_congr (h : ∀ address ∈ ram.code pc, ram'.read address = ram.read address) :
    ram'.instructionAt pc = ram.instructionAt pc := by
  have hopcode := h (pc + BitVec.ofNat 16 0) (mem_code (Nat.lt_add_right _ Nat.one_pos))
  rw [BitVec.add_zero] at hopcode
  rw [instructionAt, hopcode, instructionAt]

theorem code_congr (h : ∀ address ∈ ram.code pc, ram'.read address = ram.read address) :
    ram'.code pc = ram.code pc := by
  rw [code, instructionAt_congr h, code]

theorem operandBytes_congr (h : ∀ address ∈ ram.code pc, ram'.read address = ram.read address) :
    ram'.operandBytes pc = ram.operandBytes pc := by
  rw [operandBytes, instructionAt_congr h, operandBytes]
  refine List.map_congr_left fun i hi => h _ (mem_code ?_)
  have hlt := List.mem_range.mp (List.mem_of_mem_drop hi)
  exact Nat.add_lt_add_left hlt 1

/-- **The operands depend on the code only**, in a mode that reads no address from memory. -/
theorem operandsAt_congr {r : Registers}
    (h : ∀ address ∈ ram.code r.pc, ram'.read address = ram.read address)
    (hmode :
      (ram.instructionAt r.pc).mode.pointerCells (r.advance 1) (ram.operandBytes r.pc) = []) :
    ram'.operandsAt r = ram.operandsAt r := by
  rw [operandsAt, instructionAt_congr h, operandBytes_congr h, operandsAt, hmode]
  rfl

end

end Ram

namespace Machine

variable (m : Machine (Recorded Ram))

/-- **Forming operands on flat memory** makes those that memory has. -/
theorem operands_of_planned {ram' : Ram} {forming acting : List (Exchange Registers)}
    (hplanned : m.instruction.Planned (m.processor.registers.advance 1) forming acting)
    (hg : Ram.bus.GrantsAll forming m.ram ram') :
    m.instruction.mode.operands (m.processor.registers.advance 1) (forming.map Exchange.byte) =
      m.ram.operandsAt m.processor.registers := by
  let r := m.processor.registers.advance 1
  let bytes := m.ram.operandBytes m.processor.registers.pc
  have hread : forming.map Exchange.byte =
      (forming.map Exchange.request).map fun request => m.ram.read request.address := by
    rw [List.map_map]
    exact List.map_congr_left (Ram.byte_of_grantsAll hg hplanned.reads).1
  have hfetched : bytes = m.instruction.mode.fetched.map fun i =>
      m.ram.read (r.pc + BitVec.ofNat 16 i) := by
    refine List.map_congr_left fun i _ => congrArg m.ram.read ?_
    exact congrArg Registers.pc (m.processor.registers.advance_advance 1 i).symm
  have hforming : forming.map Exchange.byte = bytes ++
      (m.instruction.mode.pointerCells r (forming.map Exchange.byte)).map m.ram.read := by
    refine hread.trans ?_
    rw [hfetched, hplanned.forms, AddressingMode.requests, List.map_append, List.map_map,
      List.map_map]
    rfl
  have hlength : bytes.length = m.instruction.mode.fetched.length := List.length_map _
  have hpointer : m.instruction.mode.pointerCells r (forming.map Exchange.byte) =
      m.instruction.mode.pointerCells r bytes := by
    rw [hforming, AddressingMode.pointerCells_append _ _ hlength]
  rw [hforming, hpointer]
  rfl

end Machine

end Spc700
