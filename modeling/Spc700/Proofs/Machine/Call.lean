import Spc700.Proofs.Machine.Stack

/-!
# Calls and returns

There are four ways to call, of three sizes, and two ways to return. A call pushes the address
behind it, a software break the flags too, and a return takes from the stack what its call has put
there: `Machine.return_of_call`. What happens in between does not matter, as long as the stack
pointer comes back and the cells that the call wrote are left alone.
-/

namespace Spc700

/-- The ways to call. -/
inductive Call where
  /-- at an address -/
  | address
  /-- in the last page -/
  | page
  /-- through the table of vectors -/
  | table (n : BitVec 4)
  /-- by a software break -/
  | software
deriving DecidableEq, Repr

namespace Call

/-- The operation of a call. -/
def operation : Call → Operation
  | address => .call
  | page => .callPage
  | table n => .callTable n
  | software => .softwareBreak

/-- The operation by which a call is returned from. -/
def answer : Call → Operation
  | software => .retInterrupt
  | _ => .ret

/-- How many bytes a call takes in the program. -/
def length : Call → Nat
  | address => 3
  | page => 2
  | table _ | software => 1

theorem pushes_ne_zero (c : Call) : c.operation.pushes ≠ 0 := by
  cases c <;> exact Nat.succ_ne_zero _

/-- A return pops as many bytes as its call pushes. -/
theorem pops_answer (c : Call) : c.answer.pops = c.operation.pushes := by
  cases c <;> rfl

end Call

/-- Every opcode of a call has the call's length. -/
theorem decode_call (c : Call) : ∀ opcode : Byte,
    (decode opcode).operation = c.operation → (decode opcode).length = c.length := by
  cases c with
  | table n =>
    revert n
    decide +kernel
  | _ => decide +kernel

namespace Machine

/-! ## What a call leaves to its return -/

/-- What a call leaves to its return is still there: the stack pointer and the cells that the call
wrote. -/
structure Awaits (m m' : Machine (Recorded Ram)) : Prop where
  sp : m'.processor.registers.sp = m.next.processor.registers.sp
  cells : ∀ a ∈ m.accesses, a.direction = .write → a.value = some (m'.ram.read a.address)

section

variable {m m' : Machine (Recorded Ram)} {c : Call}

/-- The bytes of the call are on the stack. -/
theorem Awaits.keeps (h : m.Awaits m') (hpushes : m.instruction.operation.pushes ≠ 0) :
    m'.Keeps m.processor.registers.sp m.pushed.reverse := by
  obtain ⟨hsp, before, after, haccesses, -⟩ := next_of_pushes hpushes
  constructor
  case sp =>
    have hlength : m.pushed.reverse.length = m.instruction.operation.pushes := by simp [pushed]
    rw [h.sp, hsp, hlength]
  case holds =>
    have hcells : ∀ a ∈ pushAccesses m.processor.registers.sp m.pushed,
        a.value = some (m'.ram.read a.address) := by
      intro a ha
      refine h.cells a ?_ (direction_of_mem_pushAccesses ha)
      rw [haccesses]
      exact List.mem_append_left _ (List.mem_append_right _ ha)
    have hempty : m'.ram.Holds m.processor.registers.sp [] := trivial
    have hall := hempty.of_pushAccesses m.pushed
    rw [List.length_nil, BitVec.sub_zero, List.append_nil] at hall
    exact hall hcells

/-- **A return pops what its call has pushed**, the other way round. -/
theorem Awaits.popped_eq (h : m.Awaits m') (hcall : m.instruction.operation = c.operation)
    (hreturn : m'.instruction.operation = c.answer) : m'.popped = m.pushed.reverse := by
  have hpushes : m.instruction.operation.pushes ≠ 0 := hcall ▸ c.pushes_ne_zero
  have hlength : m.pushed.reverse.length = m'.instruction.operation.pops := by
    rw [hreturn, c.pops_answer, ← hcall]
    simp [pushed]
  rw [(h.keeps hpushes).popped_eq (Nat.le_of_eq hlength.symm), ← hlength, List.take_length]

theorem Awaits.sp_eq (h : m.Awaits m') (hcall : m.instruction.operation = c.operation)
    (hreturn : m'.instruction.operation = c.answer) :
    m'.next.processor.registers.sp = m.processor.registers.sp := by
  have hpushes : m.instruction.operation.pushes ≠ 0 := hcall ▸ c.pushes_ne_zero
  have hpops : m'.instruction.operation.pops = m.instruction.operation.pushes := by
    rw [hreturn, c.pops_answer, hcall]
  obtain ⟨hdown, -⟩ := next_of_pushes hpushes
  obtain ⟨hup, -⟩ := next_of_pops (hpops ▸ hpushes)
  rw [hup, hpops, h.sp, hdown, BitVec.sub_add_cancel]

theorem Awaits.pc_eq (h : m.Awaits m') (hcall : m.instruction.operation = c.operation)
    (hreturn : m'.instruction.operation = c.answer) :
    m'.next.processor.registers.pc = m.processor.registers.pc + BitVec.ofNat 16 c.length := by
  have hpopped := h.popped_eq hcall hreturn
  rw [popped, pushed, hcall, hreturn] at hpopped
  rw [← decode_call c m.opcode hcall, ← Registers.advance_pc]
  cases c with
  | software =>
    obtain ⟨-, hlow, hhigh⟩ : _ ∧ _ ∧ _ := by
      simpa [Call.operation, Call.answer, Operation.popped, Operation.pushed] using hpopped
    exact Word.eq_of_low_high hlow hhigh
  | _ =>
    obtain ⟨hlow, hhigh⟩ : _ ∧ _ := by
      simpa [Call.operation, Call.answer, Operation.popped, Operation.pushed] using hpopped
    exact Word.eq_of_low_high hlow hhigh

theorem Awaits.psw_eq (h : m.Awaits m') (hcall : m.instruction.operation = .softwareBreak)
    (hreturn : m'.instruction.operation = .retInterrupt) :
    m'.next.processor.registers.psw = m.processor.registers.psw := by
  have hpopped := h.popped_eq (c := .software) hcall hreturn
  rw [popped, pushed, hcall, hreturn] at hpopped
  exact Flags.eq_of_toByte (List.cons.inj hpopped).1

/-- A software break sets one flag and clears another. -/
theorem next_of_softwareBreak (hcall : m.instruction.operation = .softwareBreak) :
    m.next.processor.registers.psw =
      { m.processor.registers.psw with interrupt := false, brk := true } := by
  obtain ⟨-, es, extra, hpsw, -⟩ :=
    m.execute_of_every (Instruction.every_perform_softwareBreak m.opcode hcall _)
  exact hpsw

end

/-- **Every return finds its call.** Let the machine `m` call on flat memory, from any state, and
let `m'` be any later state in which the stack pointer is where the call has left it and the cells
that the call wrote hold what it wrote; nothing else of the two is related. Then the return that
answers the call goes on behind the call with the stack pointer from before it, and a software
break gets all its flags back, though it has changed two. -/
theorem return_of_call {m m' : Machine (Recorded Ram)} {c : Call}
    (hcall : m.instruction.operation = c.operation)
    (hreturn : m'.instruction.operation = c.answer) (hawaits : m.Awaits m') :
    (m.execute Ram.bus.recorded).1 = .ok () ∧ (m'.execute Ram.bus.recorded).1 = .ok () ∧
    m'.next.processor.registers.pc = m.processor.registers.pc + BitVec.ofNat 16 c.length ∧
    m'.next.processor.registers.sp = m.processor.registers.sp ∧
    (c = .software →
      m.next.processor.registers.psw =
        { m.processor.registers.psw with interrupt := false, brk := true } ∧
      m'.next.processor.registers.psw = m.processor.registers.psw) := by
  refine ⟨m.execute_ram, m'.execute_ram, hawaits.pc_eq hcall hreturn,
    hawaits.sp_eq hcall hreturn, ?_⟩
  rintro rfl
  exact ⟨next_of_softwareBreak hcall, hawaits.psw_eq hcall hreturn⟩

/-- A software break whose three bytes go round the end of the page, and another machine on which
they have been left alone. -/
theorem return_of_call_around_page :
    let m : Machine (Recorded Ram) :=
      { processor := { registers :=
          { sp := 0x01, pc := 0x0200, psw := { interrupt := true, carry := true } } }
        host := { host := Ram.zero.load 0x0200 [0x0F] } }
    let m' : Machine (Recorded Ram) :=
      { processor := { registers := { a := 0x55, sp := 0xFE, pc := 0x0300 } }
        host := { host :=
          ((Ram.zero.load 0x0300 [0x7F]).load 0x0100 [0x01, 0x02]).write 0x01FF 0x05 } }
    m.instruction.operation = Call.software.operation ∧
    m'.instruction.operation = Call.software.answer ∧ m.Awaits m' ∧
    (m.execute Ram.bus.recorded).1 = .ok () ∧ (m'.execute Ram.bus.recorded).1 = .ok () ∧
    m'.next.processor.registers.pc =
      m.processor.registers.pc + BitVec.ofNat 16 Call.software.length ∧
    m'.next.processor.registers.sp = m.processor.registers.sp ∧
    (Call.software = .software →
      m.next.processor.registers.psw =
        { m.processor.registers.psw with interrupt := false, brk := true } ∧
      m'.next.processor.registers.psw = m.processor.registers.psw) := by
  intro m m'
  have hbreak : m.instruction = decode 0x0F := by
    apply congrArg decode
    simp [opcode, ram, m, Ram.load, Ram.read_write]
  have hreturn : m'.instruction = decode 0x7F := by
    apply congrArg decode
    simp [opcode, ram, m', Ram.load, Ram.read_write]
  have hpushes : m.instruction.operation.pushes ≠ 0 := by
    rw [hbreak]
    decide
  have hpushed : m.pushed = [0x02, 0x01, 0x05] := by
    rw [pushed, hbreak]
    decide
  have hawaits : m.Awaits m' := by
    constructor
    case sp =>
      rw [(next_of_pushes hpushes).1, hbreak]
      decide
    case cells =>
      intro a ha hw
      have hkept : ∀ a ∈ pushAccesses 0x01 [0x02, 0x01, 0x05],
          a.value = some (m'.ram.read a.address) := by
        simp [pushAccesses, stackCell, Word.ofBytes, m', ram, Ram.load, Ram.read_write]
      exact hkept a (hpushed ▸ mem_pushAccesses hpushes ha hw)
  have hcall : m.instruction.operation = Call.software.operation := congrArg _ hbreak
  have hanswer : m'.instruction.operation = Call.software.answer := congrArg _ hreturn
  exact ⟨hcall, hanswer, hawaits, return_of_call hcall hanswer hawaits⟩

end Machine

end Spc700
