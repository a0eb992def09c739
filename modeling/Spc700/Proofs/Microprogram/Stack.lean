import Spc700.Instruction.Matrix
import Spc700.Proofs.Microprogram.Plan

/-!
# Pushes and pops

Ten operations use the stack. Six push, from one to three bytes, and four pop. What they push is
read off the registers they find (`Operation.pushed`), and what they have popped is read off the
registers they leave (`Operation.popped`).

* `Instruction.every_perform_pushed`: a pushing instruction writes its bytes from the stack pointer
  down and writes nothing else.
* `Instruction.every_perform_popped`: a popping instruction reads its bytes from above the stack
  pointer up and writes nothing.

No opcode pops into the stack pointer, and none that uses the stack moves X on while it forms its
operands (`decode_usesStack`); of such instructions the two would not hold.
-/

namespace Spc700

open Micro

/-- The accesses by which bytes are pushed, from a value of the stack pointer. -/
def pushAccesses (sp : Byte) : List Byte → List Access
  | [] => []
  | byte :: bytes =>
    { direction := .write, address := stackCell sp, value := some byte } ::
      pushAccesses (sp - 1) bytes

/-- The accesses by which bytes are popped, from a value of the stack pointer. -/
def popAccesses (sp : Byte) : List Byte → List Access
  | [] => []
  | byte :: bytes =>
    { direction := .read, address := stackCell (sp + 1), value := some byte } ::
      popAccesses (sp + 1) bytes

namespace Operation

/-- The bytes that an operation pushes, in order. `r` are the registers that
it finds, with the program counter behind the instruction. -/
def pushed (operation : Operation) (r : Registers) : List Byte :=
  match operation with
  | push n => [r.get n]
  | pushFlags => [r.psw.toByte]
  | call | callPage | callTable _ => [Word.high r.pc, Word.low r.pc]
  | softwareBreak => [Word.high r.pc, Word.low r.pc, r.psw.toByte]
  | _ => []

/-- The bytes that an operation has popped, in order. `r` are the registers
that it leaves. -/
def popped (operation : Operation) (r : Registers) : List Byte :=
  match operation with
  | pop n => [r.get n]
  | popFlags => [r.psw.toByte]
  | ret => [Word.low r.pc, Word.high r.pc]
  | retInterrupt => [r.psw.toByte, Word.low r.pc, Word.high r.pc]
  | _ => []

@[simp]
theorem length_pushed (operation : Operation) (r : Registers) :
    (operation.pushed r).length = operation.pushes := by
  cases operation <;> rfl

@[simp]
theorem length_popped (operation : Operation) (r : Registers) :
    (operation.popped r).length = operation.pops := by
  cases operation <;> rfl

/-- No operation both pushes and pops. -/
theorem pushes_or_pops_eq_zero (operation : Operation) :
    operation.pushes = 0 ∨ operation.pops = 0 := by
  cases operation <;> first | exact .inl rfl | exact .inr rfl

/-- The operation pushes or pops. -/
def UsesStack (operation : Operation) : Prop := operation.pushes ≠ 0 ∨ operation.pops ≠ 0

instance (operation : Operation) : Decidable operation.UsesStack :=
  inferInstanceAs (Decidable (_ ∨ _))

/-- **What a pushing operation does to the stack**: the pushes come first, and a vector may be read
behind them. -/
theorem every_execute_pushed {operation : Operation} (h : operation.pushes ≠ 0) (o : Operands)
    (r : Registers) :
    Every (fun es _ r' =>
      es.map Exchange.granted =
        pushAccesses r.sp (operation.pushed r) ++ (es.drop operation.pushes).map Exchange.granted ∧
      (∀ e ∈ es.drop operation.pushes, e.direction = .read) ∧
      r'.sp = r.sp - BitVec.ofNat 8 operation.pushes) (operation.execute o) r := by
  -- Several pushes take the stack pointer down one by one.
  have htwo : r.sp - 1#8 - 1#8 = r.sp - 2#8 := by bv_omega
  have hthree : r.sp - 2#8 - 1#8 = r.sp - 3#8 := by bv_omega
  cases operation <;>
    simp [execute, pushed, pushes, pushAccesses, Exchange.granted, reading, writing, htwo, hthree]
      at h ⊢

/-- **What a popping operation does to the stack.** The bytes can be read off the registers that it
leaves, all of them. -/
theorem every_execute_popped {operation : Operation} (h : operation.pops ≠ 0)
    (hsp : operation ≠ pop .sp) (o : Operands) (r : Registers) :
    Every (fun es _ r' =>
      es.map Exchange.granted = popAccesses r.sp (operation.popped r') ∧
      r'.sp = r.sp + BitVec.ofNat 8 operation.pops) (operation.execute o) r := by
  have htwo : r.sp + 1#8 + 1#8 = r.sp + 2#8 := by bv_omega
  have hthree : r.sp + 2#8 + 1#8 = r.sp + 3#8 := by bv_omega
  cases operation with
  | pop n =>
    cases n with
    | sp => exact absurd rfl hsp
    | _ => simp [execute, popped, pops, popAccesses, Exchange.granted, reading, Registers.set,
        Registers.get]
  | _ =>
    simp [execute, popped, pops, popAccesses, Exchange.granted, reading, htwo, hthree] at h ⊢

end Operation

/-! ## Instructions -/

/-- An instruction that uses the stack forms its operands without moving X on, and pops into no
stack pointer. -/
theorem decode_usesStack : ∀ opcode : Byte, (decode opcode).operation.UsesStack →
    (decode opcode).mode ≠ .indirectXIncrement ∧ (decode opcode).operation ≠ .pop .sp := by
  decide +kernel

theorem direction_of_mem_pushAccesses {bytes : List Byte} {sp : Byte} {a : Access}
    (h : a ∈ pushAccesses sp bytes) : a.direction = .write := by
  induction bytes generalizing sp with
  | nil => exact absurd h List.not_mem_nil
  | cons byte bytes ih =>
    rcases List.mem_cons.mp h with rfl | h
    · rfl
    · exact ih h

theorem direction_of_mem_popAccesses {bytes : List Byte} {sp : Byte} {a : Access}
    (h : a ∈ popAccesses sp bytes) : a.direction = .read := by
  induction bytes generalizing sp with
  | nil => exact absurd h List.not_mem_nil
  | cons byte bytes ih =>
    rcases List.mem_cons.mp h with rfl | h
    · rfl
    · exact ih h

namespace Instruction

/-- Forming the operands of an instruction that uses the stack reads, and moves the program
counter. -/
theorem every_resolve_usesStack (opcode : Byte) (h : (decode opcode).operation.UsesStack)
    (r : Registers) :
    Every (fun es _ r' => (∀ a ∈ es.map Exchange.granted, a.direction = .read) ∧
      r' = r.advance (decode opcode).mode.operandBytes) (decode opcode).mode.resolve r := by
  refine ((decode opcode).mode.every_resolve r).imp ?_
  intro es o r' hresolve
  obtain ⟨hforms, rfl⟩ := hresolve
  refine ⟨?_, by rw [AddressingMode.index, if_neg (decode_usesStack opcode h).1]⟩
  intro a ha
  obtain ⟨e, he, rfl⟩ := List.mem_map.mp ha
  exact (hforms e he).1

/-- **What a pushing instruction does after its opcode**: it pushes, and apart from that it only
reads. -/
theorem every_perform_pushed (opcode : Byte) (h : (decode opcode).operation.pushes ≠ 0)
    (r : Registers) :
    Every (fun es _ r' => ∃ before after,
      es.map Exchange.granted = before ++ pushAccesses r.sp ((decode opcode).operation.pushed
        (r.advance (decode opcode).mode.operandBytes)) ++ after ∧
      (∀ a ∈ before ++ after, a.direction = .read) ∧
      r'.sp = r.sp - BitVec.ofNat 8 (decode opcode).operation.pushes)
      (decode opcode).perform r := by
  unfold perform
  refine Every.bind (every_resolve_usesStack opcode (.inl h) r) ?_
  intro forming o r' hresolve
  obtain ⟨hforming, rfl⟩ := hresolve
  refine (Operation.every_execute_pushed h o _).imp ?_
  intro acting extra r'' hexecute
  obtain ⟨hacting, hvector, hsp⟩ := hexecute
  refine ⟨forming.map Exchange.granted,
    (acting.drop (decode opcode).operation.pushes).map Exchange.granted, ?_, ?_, hsp⟩
  · rw [List.map_append, hacting, List.append_assoc]
    rfl
  · intro a ha
    rcases List.mem_append.mp ha with ha | ha
    · exact hforming a ha
    · obtain ⟨e, he, rfl⟩ := List.mem_map.mp ha
      exact hvector e he

/-- **What a popping instruction does after its opcode**: it pops last, and all that it does is
read. -/
theorem every_perform_popped (opcode : Byte) (h : (decode opcode).operation.pops ≠ 0)
    (r : Registers) :
    Every (fun es _ r' => ∃ before,
      es.map Exchange.granted = before ++ popAccesses r.sp ((decode opcode).operation.popped r') ∧
      (∀ a ∈ es.map Exchange.granted, a.direction = .read) ∧
      r'.sp = r.sp + BitVec.ofNat 8 (decode opcode).operation.pops)
      (decode opcode).perform r := by
  unfold perform
  refine Every.bind (every_resolve_usesStack opcode (.inr h) r) ?_
  intro forming o r' hresolve
  obtain ⟨hforming, rfl⟩ := hresolve
  refine (Operation.every_execute_popped h (decode_usesStack opcode (.inr h)).2 o _).imp ?_
  intro acting extra r'' hexecute
  obtain ⟨hacting, hsp⟩ := hexecute
  refine ⟨forming.map Exchange.granted, ?_, ?_, hsp⟩
  · rw [List.map_append, hacting]
    rfl
  · intro a ha
    rw [List.map_append, hacting] at ha
    rcases List.mem_append.mp ha with ha | ha
    · exact hforming a ha
    · exact direction_of_mem_popAccesses ha

/-- A software break sets one flag and clears another once it has pushed them all. -/
theorem every_perform_softwareBreak (opcode : Byte)
    (h : (decode opcode).operation = .softwareBreak) (r : Registers) :
    Every (fun _ _ r' => r'.psw = { r.psw with interrupt := false, brk := true })
      (decode opcode).perform r := by
  have huses : (decode opcode).operation.UsesStack := by
    rw [h]
    decide
  unfold perform
  refine Every.bind (every_resolve_usesStack opcode huses r) ?_
  intro forming o r' hresolve
  obtain ⟨-, rfl⟩ := hresolve
  rw [h]
  simp [Operation.execute, Registers.advance]

end Instruction

end Spc700
