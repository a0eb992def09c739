import Spc700.Proofs.Machine.Sequence

/-!
# Instructions that compute

What arithmetic instructions leave behind, whatever host they run on. An instruction that works on
a byte or a word of memory ends with reading it, so its operand is what went over the bus last
(`Machine.operand`, `Machine.operandWord`) and no address is named. Instructions on registers alone
need no more of the bus than their opcode.

* `Machine.nextOn_of_every`: what holds of every way through an operation holds of the next
  instruction, on a bus that refuses nothing.
* `Machine.nextOn_arithmetic`, `Machine.nextOn_arithmeticWord`, `Machine.nextOn_compareWord`: sums,
  differences and comparisons.
* `Machine.nextOn_multiply`, `Machine.nextOn_divide`, `Machine.nextOn_adjustment`: computations on
  registers, on any bus.
-/

namespace Spc700

open Micro

variable {σ : Type}

/-- Forming operands changes X and the program counter at most. -/
theorem AddressingMode.exists_index_advance (mode : AddressingMode) (r : Registers) (count : Nat) :
    ∃ x pc, (mode.index r).advance count = { r with x, pc } := by
  unfold index
  split <;> exact ⟨_, _, rfl⟩

/-- Forming operands only reads. -/
theorem Instruction.Planned.reads {instruction : Instruction} {r : Registers}
    {forming acting : List (Exchange Registers)} (h : instruction.Planned r forming acting) :
    ∀ e ∈ forming, e.direction = .read := by
  intro e he
  have hrequest : e.request ∈ instruction.mode.requests r (forming.map Exchange.byte) := by
    rw [← h.forms]
    exact List.mem_map_of_mem he
  rcases List.mem_append.mp hrequest with hfetch | hpointer
  · obtain ⟨i, -, hi⟩ := List.mem_map.mp hfetch
    exact (congrArg Request.direction hi).symm
  · obtain ⟨address, -, haddress⟩ := List.mem_map.mp hpointer
    exact (congrArg Request.direction haddress).symm

/-- A product, a division and the two decimal adjustments work on registers alone. -/
theorem decode_mode_of_silent : ∀ opcode : Byte,
    (decode opcode).operation ∈ [.multiply, .divide, .adjustAddition, .adjustSubtraction] →
      (decode opcode).mode = .implied := by
  decide +kernel

namespace Arithmetic

/-- The operation that puts a sum or a difference of decimal digits right. -/
def adjustment : Arithmetic → Operation
  | adc => .adjustAddition
  | sbc => .adjustSubtraction

/-- What that operation makes of the accumulator. -/
def adjust : Arithmetic → Byte → Flags → Byte × Flags
  | adc => Alu.adjustAddition
  | sbc => Alu.adjustSubtraction

end Arithmetic

namespace Machine

/-! ## The next instruction on a bus -/

/-- The machine after its next instruction, on any bus. -/
def nextOn (bus : Bus σ) (m : Machine σ) : Machine σ := (m.execute bus).2

/-- The opcode that the machine reads next is one of the operation. -/
def Faces (bus : Bus σ) (operation : Operation) (m : Machine σ) : Prop :=
  ∃ opcode host, bus.read m.processor.registers.pc m.host = (.ok opcode, host) ∧
    (decode opcode).operation = operation

/-- The accesses that the next instruction adds to the record. -/
def accessesOn (bus : Bus σ) (m : Machine (Recorded σ)) : List Access :=
  (m.nextOn bus.recorded).host.accesses.toList.drop m.host.accesses.size

/-- The bytes that go over the bus in the next instruction, the first one first. -/
def bytes (bus : Bus σ) (m : Machine (Recorded σ)) : List Byte :=
  (m.accessesOn bus).filterMap Access.value

/-- The operand of an instruction that ends with reading a byte. -/
def operand (bus : Bus σ) (m : Machine (Recorded σ)) : Byte := (m.bytes bus).getLastD 0

/-- The operand of an instruction that ends with reading a word, its low byte first. -/
def operandWord (bus : Bus σ) (m : Machine (Recorded σ)) : Word :=
  Word.ofBytes (m.operand bus) ((m.bytes bus).dropLast.getLastD 0)

section

variable {bus : Bus σ} {m : Machine (Recorded σ)} {operation : Operation}

/-- **What an operation does, the next instruction does**, from registers that forming the
operands has left as they were but for X and the program counter. What stands before it in the
record is reads. -/
theorem nextOn_of_every (hbus : bus.GrantsEverything) (hm : m.Faces bus.recorded operation)
    {Q : Registers → List (Exchange Registers) → Registers → Prop}
    (hQ : ∀ o r, Every (fun es _ r' => Q r es r') (operation.execute o) r) :
    (m.execute bus.recorded).1 = .ok () ∧ ∃ before es x pc,
      m.accessesOn bus = before ++ es.map Exchange.granted ∧
      (∀ a ∈ before, a.direction = .read) ∧
      Q { m.processor.registers with x, pc } es (m.nextOn bus.recorded).processor.registers := by
  obtain ⟨opcode, host₀, es, extra, registers, host₁, hread, hd, hg⟩ :=
    exists_admits_of_grantsEverything hbus m.processor.registers m.host.host
  obtain ⟨opcode', host', hread', rfl⟩ := hm
  obtain rfl : opcode = opcode' := by
    have hrecorded := recorded_read_opcode hread
    exact Except.ok.inj (Prod.mk.inj (hrecorded.symm.trans hread')).1
  have hacting := (decode opcode).every_perform_acting (m.processor.registers.advance 1)
    (Q := fun _ => Q) hQ
  obtain ⟨forming, acting, rfl, hplanned, hq⟩ := Dialogue.every_iff.mp hacting es _ hd
  have hexecute := execute_recorded hread hd hg
  have hnext : m.nextOn bus.recorded = _ := congrArg Prod.snd hexecute
  obtain ⟨x, pc, hindex⟩ := (decode opcode).mode.exists_index_advance
    (m.processor.registers.advance 1) (decode opcode).mode.operandBytes
  rw [hindex] at hq
  refine ⟨congrArg Prod.fst hexecute, m.opening opcode :: forming.map Exchange.granted, acting,
    x, pc, ?_, ?_, ?_⟩
  · have haccesses : (m.nextOn bus.recorded).host.accesses = m.host.accesses ++
        (m.opening opcode :: (forming ++ acting).map Exchange.granted).toArray :=
      congrArg (fun m => m.host.accesses) hnext
    simp [accessesOn, haccesses]
  · rw [List.forall_mem_cons, List.forall_mem_map]
    exact ⟨rfl, hplanned.reads⟩
  · rw [hnext]
    exact hq

/-! ## Sums, differences and comparisons -/

/-- The byte that goes over the bus last is the operand. -/
theorem operand_eq {before : List Access} {es : List (Exchange Registers)} (front : List Byte)
    {byte : Byte} (h : m.accessesOn bus = before ++ es.map Exchange.granted)
    (hes : es.map Exchange.byte = front ++ [byte]) : m.operand bus = byte := by
  rw [operand, bytes, h, List.filterMap_append, Traffic.filterMap_value_granted, hes,
    ← List.append_assoc, List.getLastD_concat]

/-- The two bytes that go over the bus last are the word, its low byte first. -/
theorem operandWord_eq {before : List Access} {es : List (Exchange Registers)} {low high : Byte}
    (h : m.accessesOn bus = before ++ es.map Exchange.granted)
    (hes : es.map Exchange.byte = [low, high]) :
    m.operandWord bus = Word.ofBytes high low := by
  have hlow : (m.bytes bus).dropLast = before.filterMap Access.value ++ [low] := by
    rw [bytes, h, List.filterMap_append, Traffic.filterMap_value_granted, hes,
      List.append_cons, List.dropLast_concat]
  rw [operandWord, operand_eq [low] h hes, hlow, List.getLastD_concat]

/-- **A sum or a difference** of the accumulator and a byte. -/
theorem nextOn_arithmetic (hbus : bus.GrantsEverything) {f : Arithmetic}
    (hm : m.Faces bus.recorded (.arithmetic f)) :
    (m.execute bus.recorded).1 = .ok () ∧
      ((m.nextOn bus.recorded).processor.registers.a,
          (m.nextOn bus.recorded).processor.registers.psw) =
        f.apply m.processor.registers.a (m.operand bus) m.processor.registers.psw := by
  obtain ⟨hok, before, es, x, pc, haccesses, -, byte, hes, happly⟩ := nextOn_of_every hbus hm
    (Q := fun r es r' => ∃ byte, es.map Exchange.byte = [byte] ∧
      (r'.a, r'.psw) = f.apply r.a byte r.psw) (by simp [Operation.execute])
  rw [operand_eq [] haccesses hes]
  exact ⟨hok, happly⟩

/-- **A sum or a difference** of Y and A and a word. -/
theorem nextOn_arithmeticWord (hbus : bus.GrantsEverything) {f : Arithmetic}
    (hm : m.Faces bus.recorded (.arithmeticWord f)) :
    (m.execute bus.recorded).1 = .ok () ∧
      ((m.nextOn bus.recorded).processor.registers.ya,
          (m.nextOn bus.recorded).processor.registers.psw) =
        f.applyWord m.processor.registers.ya (m.operandWord bus) m.processor.registers.psw := by
  obtain ⟨hok, before, es, x, pc, haccesses, -, low, high, hes, happly⟩ := nextOn_of_every hbus hm
    (Q := fun r es r' => ∃ low high, es.map Exchange.byte = [low, high] ∧
      (r'.ya, r'.psw) = f.applyWord r.ya (Word.ofBytes high low) r.psw) (by
        simp only [Operation.execute, Operation.every_atBase, Operation.every_readCellWord,
          every_bind, every_get, every_compute, every_modify]
        intro o r low high
        exact ⟨low, high, rfl, congrArg (·, _) (Registers.ya_setYa _ _)⟩)
  rw [operandWord_eq haccesses hes]
  exact ⟨hok, happly⟩

/-- **A comparison** of Y and A with a word changes flags only, and it writes nothing. -/
theorem nextOn_compareWord (hbus : bus.GrantsEverything)
    (hm : m.Faces bus.recorded .compareWord) :
    (m.execute bus.recorded).1 = .ok () ∧
      (m.nextOn bus.recorded).processor.registers.ya = m.processor.registers.ya ∧
      (m.nextOn bus.recorded).processor.registers.psw =
        Alu.compare m.processor.registers.ya (m.operandWord bus) m.processor.registers.psw ∧
      ∀ a ∈ m.accessesOn bus, a.direction = .read := by
  obtain ⟨hok, before, es, x, pc, haccesses, hbefore, ⟨low, high, hes, hya, hpsw⟩, hreads⟩ :=
    nextOn_of_every hbus hm
      (Q := fun r es r' => (∃ low high, es.map Exchange.byte = [low, high] ∧ r'.ya = r.ya ∧
        r'.psw = Alu.compare r.ya (Word.ofBytes high low) r.psw) ∧
        ∀ e ∈ es, e.direction = .read) (by
          simp only [Operation.execute, Operation.every_atBase, Operation.every_readCellWord,
            every_bind, every_get, every_modifyFlags]
          intro o r low high
          exact ⟨⟨low, high, rfl, rfl, rfl⟩, by simp [reading]⟩)
  rw [operandWord_eq haccesses hes]
  refine ⟨hok, hya, hpsw, ?_⟩
  rw [haccesses, List.forall_mem_append, List.forall_mem_map]
  exact ⟨hbefore, hreads⟩

end

/-! ## Computations on registers -/

section

variable {bus : Bus σ} {m : Machine σ}

/-- An operation that makes no access, of an instruction without operands, comes to its end on
any bus. -/
theorem nextOn_of_implied {operation : Operation} {extra : Nat} {registers : Registers}
    (hm : m.Faces bus operation)
    (hmode : ∀ opcode, (decode opcode).operation = operation → (decode opcode).mode = .implied)
    (hrun : (operation.execute {}).run (m.processor.registers.advance 1) =
      .done (extra, registers)) :
    (m.execute bus).1 = .ok () ∧ (m.nextOn bus).processor.registers = registers := by
  obtain ⟨opcode, host, hread, rfl⟩ := hm
  have hdialogue : (decode opcode).dialogue m.processor.registers = .done (extra, registers) := by
    rw [← hrun, Instruction.dialogue, Instruction.perform, hmode opcode rfl]
    rfl
  have hexecute : m.execute bus = (.ok (), m.completed opcode extra registers host) :=
    execute_of_ok hread (by rw [hdialogue]; rfl)
  rw [nextOn, hexecute]
  exact ⟨rfl, rfl⟩

/-- **A product** of Y and A. -/
theorem nextOn_multiply (hm : m.Faces bus .multiply) :
    (m.execute bus).1 = .ok () ∧
      ((m.nextOn bus).processor.registers.ya, (m.nextOn bus).processor.registers.psw) =
        Alu.multiply m.processor.registers.y m.processor.registers.a
          m.processor.registers.psw := by
  obtain ⟨hok, hregisters⟩ := nextOn_of_implied hm
    (fun opcode h => decode_mode_of_silent opcode (by simp [h])) rfl
  rw [hregisters]
  exact ⟨hok, congrArg (·, _) (Registers.ya_setYa _ _)⟩

/-- **A division** of Y and A by X. -/
theorem nextOn_divide (hm : m.Faces bus .divide) :
    (m.execute bus).1 = .ok () ∧
      (((m.nextOn bus).processor.registers.a, (m.nextOn bus).processor.registers.y),
          (m.nextOn bus).processor.registers.psw) =
        Alu.divide m.processor.registers.ya m.processor.registers.x m.processor.registers.psw := by
  obtain ⟨hok, hregisters⟩ := nextOn_of_implied hm
    (fun opcode h => decode_mode_of_silent opcode (by simp [h])) rfl
  rw [hregisters]
  exact ⟨hok, rfl⟩

/-- **A decimal adjustment** of the accumulator. -/
theorem nextOn_adjustment {f : Arithmetic} (hm : m.Faces bus f.adjustment) :
    (m.execute bus).1 = .ok () ∧
      ((m.nextOn bus).processor.registers.a, (m.nextOn bus).processor.registers.psw) =
        f.adjust m.processor.registers.a m.processor.registers.psw := by
  let r := m.processor.registers.advance 1
  have hmode : ∀ opcode, (decode opcode).operation = f.adjustment →
      (decode opcode).mode = .implied := by
    intro opcode h
    apply decode_mode_of_silent
    cases f <;> simp [h, Arithmetic.adjustment]
  have hrun : (f.adjustment.execute {}).run r =
      .done (0, { r with a := (f.adjust r.a r.psw).1, psw := (f.adjust r.a r.psw).2 }) := by
    cases f <;> rfl
  obtain ⟨hok, hregisters⟩ := nextOn_of_implied hm hmode hrun
  rw [hregisters]
  exact ⟨hok, rfl⟩

end

/-- A host that answers reads from a tape, with zero behind its end, and forgets what is
written. -/
def tapeBus : Bus (List Byte) where
  read _ tape := (.ok (tape.headD 0), tape.tail)
  write _ _ tape := (.ok (), tape)

theorem tapeBus_grantsEverything : tapeBus.GrantsEverything :=
  ⟨fun _ _ => ⟨_, _, rfl⟩, fun _ _ _ => ⟨_, rfl⟩⟩

/-- A machine that is about to read a tape. -/
def onTape (registers : Registers) (tape : List Byte) : Machine (Recorded (List Byte)) :=
  { processor := { registers }, host := { host := tape } }

end Machine

end Spc700
