import Spc700.Proofs.Microprogram.Execute

/-!
# Plans

Which accesses an instruction makes, in which order and where, is settled before any data goes over
the bus. Forming operands reads the operand bytes and, in three modes, the two bytes of a pointer
(`AddressingMode.every_resolve_requests`), and makes of these bytes what `AddressingMode.operands`
says. An operation has a plan, a list of visits to places that are named by its operands
(`Operation.plan`), and it keeps to that plan whatever it reads (`Operation.every_execute_plan`).
`Instruction.every_perform_plan` puts the two together.
-/

namespace Spc700

/-! ## Requests -/

/-- What is asked of a bus in one access, without the byte: which way and where. -/
structure Request where
  direction : Direction
  address : Word
deriving DecidableEq, Repr

/-- What an exchange asks for. -/
def Exchange.request {ρ : Type} (e : Exchange ρ) : Request := ⟨e.direction, e.address⟩

@[simp]
theorem Exchange.request_reading (now : Registers) (purpose : Purpose) (address : Word)
    (byte : Byte) : (Micro.reading now purpose address byte).request = ⟨.read, address⟩ := rfl

@[simp]
theorem Exchange.request_writing (now : Registers) (purpose : Purpose) (address : Word)
    (byte : Byte) : (Micro.writing now purpose address byte).request = ⟨.write, address⟩ := rfl

@[simp]
theorem Exchange.byte_reading (now : Registers) (purpose : Purpose) (address : Word)
    (byte : Byte) : (Micro.reading now purpose address byte).byte = byte := rfl

/-- What a recorded access asked for. -/
def Access.request (a : Access) : Request := ⟨a.direction, a.address⟩

@[simp]
theorem Exchange.request_granted {ρ : Type} (e : Exchange ρ) : e.granted.request = e.request := rfl

/-- The address that a value of the stack pointer stands for. -/
def stackCell (sp : Byte) : Word := Word.ofBytes 1 sp

@[simp]
theorem Registers.stackAddress_eq (r : Registers) : r.stackAddress = stackCell r.sp := rfl

/-! ## Registers further on -/

namespace Registers

variable (r : Registers) (count : Nat)

theorem advance_pc : (r.advance count).pc = r.pc + BitVec.ofNat 16 count := rfl

@[simp]
theorem advance_x : (r.advance count).x = r.x := rfl

@[simp]
theorem advance_y : (r.advance count).y = r.y := rfl

@[simp]
theorem advance_sp : (r.advance count).sp = r.sp := rfl

@[simp]
theorem directAddress_advance (offset : Byte) :
    (r.advance count).directAddress offset = r.directAddress offset := rfl

end Registers

open Micro

/-! ## Operands -/

namespace AddressingMode

/-- How many operand bytes are left to the operation: an immediate byte is data. -/
def immediateBytes : AddressingMode → Nat
  | immediate | directImmediate => 1
  | _ => 0

/-- The operand bytes that are read to form the operands, by their distance from the first. An
immediate byte comes first and is passed over. -/
def fetched (mode : AddressingMode) : List Nat :=
  (List.range mode.operandBytes).drop mode.immediateBytes

/-- The two cells that hold the address of the operand, the low byte in the first, in the modes
that read it from memory. `bytes` are the operand bytes that were read. -/
def pointerCells (mode : AddressingMode) (r : Registers) (bytes : List Byte) : List Word :=
  match mode, bytes with
  | directXPointer, offset :: _ =>
    [r.directAddress (offset + r.x), r.directAddress (offset + r.x + 1)]
  | directPointerY, offset :: _ => [r.directAddress offset, r.directAddress (offset + 1)]
  | absoluteXPointer, low :: high :: _ =>
    [Word.ofBytes high low + r.x.setWidth 16, Word.ofBytes high low + r.x.setWidth 16 + 1]
  | _, _ => []

/-- What forming operands asks for, from registers `r` that stand behind the opcode. -/
def requests (mode : AddressingMode) (r : Registers) (bytes : List Byte) : List Request :=
  (mode.fetched.map fun i => ⟨.read, r.pc + BitVec.ofNat 16 i⟩) ++
    (mode.pointerCells r bytes).map fun address => ⟨.read, address⟩

/-- The operands that a mode makes of the registers and of the bytes that it reads. -/
def operands (mode : AddressingMode) (r : Registers) (bytes : List Byte) : Operands :=
  match mode, bytes with
  | relative, [displacement] => { displacement := Word.ofSigned displacement }
  | direct, [offset] =>
    { address := r.directAddress offset, highAddress := r.directAddress (offset + 1) }
  | directRelative, [offset, displacement] =>
    { address := r.directAddress offset, displacement := Word.ofSigned displacement }
  | absolute, [low, high] => { address := Word.ofBytes high low }
  | indirectX, _ | indirectXIncrement, _ => { address := r.directAddress r.x }
  | directXPointer, [_, low, high] => { address := Word.ofBytes high low }
  | immediate, _ => { address := r.pc }
  | directX, [offset] => { address := r.directAddress (offset + r.x) }
  | absoluteX, [low, high] => { address := Word.ofBytes high low + r.x.setWidth 16 }
  | absoluteY, [low, high] => { address := Word.ofBytes high low + r.y.setWidth 16 }
  | directPointerY, [_, low, high] => { address := Word.ofBytes high low + r.y.setWidth 16 }
  | directDirect, [source, target] =>
    { address := r.directAddress target, source := r.directAddress source }
  | indirectXY, _ => { address := r.directAddress r.x, source := r.directAddress r.y }
  | directImmediate, [target] => { address := r.directAddress target, source := r.pc }
  | directY, [offset] => { address := r.directAddress (offset + r.y) }
  | absoluteBit, [low, high] =>
    { address := Word.ofBytes high low &&& 0x1FFF
      bit := (Word.ofBytes high low).extractLsb' 13 3 }
  | directXRelative, [offset, displacement] =>
    { address := r.directAddress (offset + r.x), displacement := Word.ofSigned displacement }
  | absoluteXPointer, [_, _, low, high] => { address := Word.ofBytes high low }
  | _, _ => {}

/-- How many accesses it takes to form the operands. -/
def accessCount (mode : AddressingMode) : Nat :=
  match mode with
  | directXPointer | directPointerY | absoluteXPointer => mode.fetched.length + 2
  | _ => mode.fetched.length

/-- **What forming operands asks for**, and what it makes of the bytes. -/
theorem every_resolve_requests (mode : AddressingMode) (r : Registers) :
    Every (fun es o _ =>
      es.map Exchange.request = mode.requests r (es.map Exchange.byte) ∧
      es.length = mode.accessCount ∧
      o = mode.operands r (es.map Exchange.byte)) mode.resolve r := by
  cases mode <;>
    simp [resolve, requests, accessCount, operands, pointerCells, fetched, operandBytes,
      immediateBytes, Registers.advance_pc, List.range_succ]

end AddressingMode

/-! ## Operations -/

/-- A place that an operation visits, named by its operands and the stack pointer it finds. -/
inductive Place where
  /-- the cell worked on -/
  | cell
  /-- the other cell of an operation on two -/
  | source
  /-- the high byte of a word -/
  | highCell
  /-- where the stack pointer points after a number of pushes -/
  | pushed (count : Nat)
  /-- the top of the stack after a number of pops -/
  | popped (count : Nat)
  /-- a cell that the instruction names by itself -/
  | fixed (address : Word)
deriving DecidableEq, Repr

/-- The address of a place. -/
def Place.address (o : Operands) (sp : Byte) : Place → Word
  | cell => o.address
  | source => o.source
  | highCell => o.highAddress
  | pushed count => stackCell (sp - BitVec.ofNat 8 count)
  | popped count => stackCell (sp + 1 + BitVec.ofNat 8 count)
  | fixed address => address

/-- One access of an operation: which way, and to which of its places. -/
structure Visit where
  direction : Direction
  place : Place
deriving DecidableEq, Repr

/-- What a visit asks for. -/
def Visit.request (o : Operands) (sp : Byte) (v : Visit) : Request :=
  ⟨v.direction, v.place.address o sp⟩

namespace Operation

/-- The first pushes of an operation, as many as are counted. -/
def pushVisits (count : Nat) : List Visit :=
  (List.range count).map fun i => ⟨.write, .pushed i⟩

/-- The first pops of an operation. -/
def popVisits (count : Nat) : List Visit :=
  (List.range count).map fun i => ⟨.read, .popped i⟩

/-- The two bytes of a vector. -/
def vectorVisits (vector : Word) : List Visit :=
  [⟨.read, .fixed vector⟩, ⟨.read, .fixed (vector + 1)⟩]

/-- How many bytes an operation pushes. -/
def pushes : Operation → Nat
  | push _ | pushFlags => 1
  | call | callPage | callTable _ => 2
  | softwareBreak => 3
  | _ => 0

/-- How many bytes an operation pops. -/
def pops : Operation → Nat
  | pop _ | popFlags => 1
  | ret => 2
  | retInterrupt => 3
  | _ => 0

/-- The accesses of an operation in order. A store reads its cell before it
writes it, if it probes it at all. -/
def plan (operation : Operation) : List Visit :=
  match operation with
  | logic _ | arithmetic _ | compare _ | carryBit _ | branchBit _ _ | branchDifferent | load _ =>
    [⟨.read, .cell⟩]
  | logicMemory _ => [⟨.read, .cell⟩, ⟨.read, .source⟩, ⟨.write, .cell⟩]
  | arithmeticMemory _ => [⟨.read, .source⟩, ⟨.read, .cell⟩, ⟨.write, .cell⟩]
  | compareMemory => [⟨.read, .cell⟩, ⟨.read, .source⟩]
  | shift _ | step _ | writeBit _ _ | writeBits _ | invertBit | storeCarry | branchCount
  | store _ true => [⟨.read, .cell⟩, ⟨.write, .cell⟩]
  | store _ false => [⟨.write, .cell⟩]
  | move true => [⟨.read, .cell⟩, ⟨.read, .source⟩, ⟨.write, .cell⟩]
  | move false => [⟨.read, .source⟩, ⟨.write, .cell⟩]
  | loadWord | arithmeticWord _ | compareWord => [⟨.read, .cell⟩, ⟨.read, .highCell⟩]
  | storeWord => [⟨.read, .cell⟩, ⟨.write, .cell⟩, ⟨.write, .highCell⟩]
  | stepWord _ =>
    [⟨.read, .cell⟩, ⟨.read, .highCell⟩, ⟨.write, .cell⟩, ⟨.write, .highCell⟩]
  | callTable n => pushVisits operation.pushes ++ vectorVisits (callVector n)
  | softwareBreak => pushVisits operation.pushes ++ vectorVisits breakVector
  | call | callPage | push _ | pushFlags => pushVisits operation.pushes
  | ret | retInterrupt | pop _ | popFlags => popVisits operation.pops
  | _ => []

/-- **An operation keeps to its plan**, whatever it reads. -/
theorem every_execute_plan (operation : Operation) (o : Operands) (r : Registers) :
    Every (fun es _ _ => es.map Exchange.request = operation.plan.map (Visit.request o r.sp))
      (operation.execute o) r := by
  cases operation with
  | store n probe => cases probe <;> simp [execute, plan, Visit.request, Place.address]
  | move probe => cases probe <;> simp [execute, plan, Visit.request, Place.address]
  | softwareBreak =>
    have htwo : r.sp - 1#8 - 1#8 = r.sp - 2#8 := by bv_omega
    simp [execute, plan, Visit.request, Place.address, pushVisits, vectorVisits, pushes,
      List.range_succ, htwo]
  | retInterrupt =>
    have htwo : r.sp + 1#8 + 1#8 + 1#8 = r.sp + 1#8 + 2#8 := by bv_omega
    simp [execute, plan, Visit.request, Place.address, popVisits, pops, List.range_succ, htwo]
  | _ => simp [execute, plan, Visit.request, Place.address, pushVisits, popVisits, vectorVisits,
      pushes, pops, List.range_succ]

end Operation

/-! ## Instructions -/

theorem AddressingMode.index_sp (mode : AddressingMode) (r : Registers) :
    (mode.index r).sp = r.sp := by
  unfold index
  split <;> rfl

namespace Instruction

/-- The exchanges of an instruction after its opcode, those that form the operands and those of
the operation, from registers `r` that stand behind the opcode. -/
structure Planned (instruction : Instruction) (r : Registers)
    (forming acting : List (Exchange Registers)) : Prop where
  forms : forming.map Exchange.request = instruction.mode.requests r (forming.map Exchange.byte)
  length_forming : forming.length = instruction.mode.accessCount
  acts : acting.map Exchange.request = instruction.operation.plan.map
    (Visit.request (instruction.mode.operands r (forming.map Exchange.byte)) r.sp)

/-- **Every way through an instruction keeps to its plan**, and what holds of its operation, from
all operands and registers, holds of the operation from those that the mode has made. -/
theorem every_perform_execute (instruction : Instruction) (r : Registers)
    {Q : Operands → Registers → List (Exchange Registers) → Nat → Registers → Prop}
    (hQ : ∀ o r, Every (Q o r) (instruction.operation.execute o) r) :
    Every (fun es extra r' => ∃ forming acting, es = forming ++ acting ∧
      instruction.Planned r forming acting ∧
      Q (instruction.mode.operands r (forming.map Exchange.byte))
        ((instruction.mode.index r).advance instruction.mode.operandBytes) acting extra r')
      instruction.perform r := by
  unfold perform
  refine Every.bind ((instruction.mode.every_resolve r).and
    (instruction.mode.every_resolve_requests r)) ?_
  intro forming o r' hresolve
  obtain ⟨⟨-, rfl⟩, hforming, hlength, rfl⟩ := hresolve
  refine ((instruction.operation.every_execute_plan _ _).and (hQ _ _)).imp ?_
  intro acting extra r'' hboth
  obtain ⟨hacting, hq⟩ := hboth
  rw [Registers.advance_sp, AddressingMode.index_sp] at hacting
  exact ⟨forming, acting, rfl, ⟨hforming, hlength, hacting⟩, hq⟩

/-- The same of what does not speak of cycles. -/
theorem every_perform_acting (instruction : Instruction) (r : Registers)
    {Q : Operands → Registers → List (Exchange Registers) → Registers → Prop}
    (hQ : ∀ o r, Every (fun es _ r' => Q o r es r') (instruction.operation.execute o) r) :
    Every (fun es _ r' => ∃ forming acting, es = forming ++ acting ∧
      instruction.Planned r forming acting ∧
      Q (instruction.mode.operands r (forming.map Exchange.byte))
        ((instruction.mode.index r).advance instruction.mode.operandBytes) acting r')
      instruction.perform r :=
  instruction.every_perform_execute r (Q := fun o r es _ r' => Q o r es r') hQ

theorem every_perform_plan (instruction : Instruction) (r : Registers) :
    Every (fun es _ _ => ∃ forming acting, es = forming ++ acting ∧
      instruction.Planned r forming acting) instruction.perform r := by
  refine (instruction.every_perform_acting r (Q := fun _ _ _ _ => True) ?_).imp ?_
  · intro o r'
    exact (instruction.operation.every_execute_plan o r').imp fun _ _ _ _ => trivial
  · intro es extra r' h
    obtain ⟨forming, acting, hes, hplanned, -⟩ := h
    exact ⟨forming, acting, hes, hplanned⟩

/-- How many accesses an instruction makes, the read of its opcode included. -/
def accessCount (instruction : Instruction) : Nat :=
  1 + instruction.mode.accessCount + instruction.operation.plan.length

/-- The number of exchanges after the opcode is the same on every way. -/
theorem Planned.length_add {instruction : Instruction} {r : Registers}
    {forming acting : List (Exchange Registers)} (h : instruction.Planned r forming acting) :
    1 + (forming ++ acting).length = instruction.accessCount := by
  have hacting : acting.length = instruction.operation.plan.length := by
    simpa using congrArg List.length h.acts
  rw [List.length_append, h.length_forming, hacting, accessCount, Nat.add_assoc]

end Instruction

end Spc700
