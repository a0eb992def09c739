import Spc700.Proofs.Machine.Memory
import Spc700.Proofs.Microprogram.Stack

/-!
# The stack in memory

The stack is the second page of memory, 256 cells that the stack pointer goes round. On flat memory
it is a list: `Ram.Holds` says that memory holds a list of bytes below the cell where the stack
began, and an instruction puts bytes in front of the list or takes them off it (`Machine.behind`).

* `Machine.Keeps.next`: one instruction that minds the stack keeps it.
* `Machine.stack_lifo`: over a run of instructions, what is popped is what a list would give.
-/

namespace Spc700

theorem stackCell_inj {x y : Byte} : stackCell x = stackCell y ↔ x = y := by
  constructor
  · intro h
    simpa [stackCell] using congrArg Word.low h
  · rintro rfl
    rfl

theorem toNat_stackCell (x : Byte) : (stackCell x).toNat = 256 + x.toNat :=
  Word.toNat_ofBytes 1 x

/-- A stack that is no longer than the page uses no cell twice. -/
theorem stackCell_ne {base : Byte} {i j : Nat} (hij : i < j) (hj : j < 256) :
    stackCell (base - BitVec.ofNat 8 j) ≠ stackCell (base - BitVec.ofNat 8 i) := by
  rw [Ne, stackCell_inj]
  bv_omega

/-- The stack never leaves its page. -/
theorem stackCell_mem_page (x : Byte) : 0x0100 ≤ stackCell x ∧ stackCell x ≤ 0x01FF := by
  have := toNat_stackCell x
  bv_omega

theorem sub_ofNat_succ (base : Byte) (n : Nat) :
    base - BitVec.ofNat 8 (n + 1) = base - BitVec.ofNat 8 n - 1 := by
  bv_omega

theorem exists_of_mem_pushAccesses {bytes : List Byte} {sp : Byte} {a : Access}
    (h : a ∈ pushAccesses sp bytes) :
    ∃ i < bytes.length, a.address = stackCell (sp - BitVec.ofNat 8 i) := by
  induction bytes generalizing sp with
  | nil => exact absurd h List.not_mem_nil
  | cons byte bytes ih =>
    rcases List.mem_cons.mp h with rfl | h
    · exact ⟨0, Nat.succ_pos _, by rw [BitVec.sub_zero]⟩
    · obtain ⟨i, hi, haddress⟩ := ih h
      have hdown : sp - 1 - BitVec.ofNat 8 i = sp - BitVec.ofNat 8 (i + 1) := by bv_omega
      exact ⟨i + 1, Nat.succ_lt_succ hi, by rw [haddress, hdown]⟩

/-! ## Lists in memory -/

namespace Ram

/-- Memory holds the bytes on a stack that began at `base`, the top one
first. -/
def Holds (ram : Ram) (base : Byte) : List Byte → Prop
  | [] => True
  | byte :: bytes =>
    ram.read (stackCell (base - BitVec.ofNat 8 bytes.length)) = byte ∧ ram.Holds base bytes

namespace Holds

variable {ram ram' : Ram} {base : Byte} {stack : List Byte}

/-- A stack is held by its own cells only. -/
theorem congr (h : ram.Holds base stack)
    (hcells : ∀ i < stack.length, ram'.read (stackCell (base - BitVec.ofNat 8 i)) =
      ram.read (stackCell (base - BitVec.ofNat 8 i))) : ram'.Holds base stack := by
  induction stack with
  | nil => trivial
  | cons byte stack ih =>
    refine ⟨(hcells _ (Nat.lt_succ_self _)).trans h.1, ih h.2 ?_⟩
    intro i hi
    exact hcells i (Nat.lt_succ_of_lt hi)

theorem drop (h : ram.Holds base stack) (n : Nat) : ram.Holds base (stack.drop n) := by
  induction n generalizing stack with
  | zero => exact h
  | succ n ih =>
    cases stack with
    | nil => trivial
    | cons byte stack => exact ih h.2

theorem push (h : ram.Holds base stack) (hroom : stack.length < 256) (byte : Byte) :
    (ram.write (stackCell (base - BitVec.ofNat 8 stack.length)) byte).Holds base
      (byte :: stack) := by
  refine ⟨by rw [read_write, if_pos rfl], h.congr ?_⟩
  -- Up to the full page, the cell below the stack is none of the stack's own.
  intro i hi
  rw [read_write, if_neg (stackCell_ne hi hroom)]

/-- **Bytes that are pushed** lie on the stack, the last one on top, as long as the page has room
for them. -/
theorem replay_push (bytes : List Byte) (h : ram.Holds base stack)
    (hroom : stack.length + bytes.length ≤ 256) :
    (ram.replay (pushAccesses (base - BitVec.ofNat 8 stack.length) bytes)).Holds base
      (bytes.reverse ++ stack) := by
  -- The stack is general in the induction: each byte is put on the one that those before it left.
  induction bytes generalizing ram stack with
  | nil => exact h
  | cons byte bytes ih =>
    rw [List.length_cons] at hroom
    have hrest := ih (h.push (by omega) byte) (by rw [List.length_cons]; omega)
    rw [List.length_cons, sub_ofNat_succ] at hrest
    rw [List.reverse_cons, List.append_assoc]
    exact hrest

/-- Bytes that were pushed on a stack are still on it if their cells still hold them. -/
theorem of_pushAccesses (bytes : List Byte) (h : ram.Holds base stack)
    (hkept : ∀ a ∈ pushAccesses (base - BitVec.ofNat 8 stack.length) bytes,
      a.value = some (ram.read a.address)) : ram.Holds base (bytes.reverse ++ stack) := by
  induction bytes generalizing stack with
  | nil => exact h
  | cons byte bytes ih =>
    rw [pushAccesses, List.forall_mem_cons, ← sub_ofNat_succ] at hkept
    have hpush : ram.Holds base (byte :: stack) := ⟨(Option.some.inj hkept.1).symm, h⟩
    rw [List.reverse_cons, List.append_assoc]
    exact ih hpush hkept.2

/-- **Bytes that are popped** are the top of the stack. -/
theorem eq_take (bytes : List Byte) (h : ram.Holds base stack)
    (henough : bytes.length ≤ stack.length)
    (hread : ∀ a ∈ popAccesses (base - BitVec.ofNat 8 stack.length) bytes,
      a.value = some (ram.read a.address)) : bytes = stack.take bytes.length := by
  induction bytes generalizing stack with
  | nil => rfl
  | cons byte bytes ih =>
    cases stack with
    | nil => exact absurd henough (Nat.not_succ_le_zero _)
    | cons top stack =>
      have hup : base - BitVec.ofNat 8 (top :: stack).length + 1 =
          base - BitVec.ofNat 8 stack.length := by
        rw [List.length_cons, sub_ofNat_succ, BitVec.sub_add_cancel]
      rw [popAccesses, List.forall_mem_cons, hup] at hread
      have htop : byte = top := (Option.some.inj hread.1).trans h.1
      rw [List.length_cons, List.take_succ_cons, htop,
        ← ih h.2 (Nat.le_of_succ_le_succ henough) hread.2]

end Holds

end Ram

/-! ## Instructions that use the stack -/

namespace Machine

/-- The bytes that the next instruction pushes, in order. -/
def pushed (m : Machine (Recorded Ram)) : List Byte :=
  m.instruction.operation.pushed (m.processor.registers.advance m.instruction.length)

/-- The bytes that the next instruction pops, in order, as the registers
that it leaves show them. -/
def popped (m : Machine (Recorded Ram)) : List Byte :=
  m.instruction.operation.popped m.next.processor.registers

/-- What becomes of a stack in the next instruction. -/
def behind (m : Machine (Recorded Ram)) (stack : List Byte) : List Byte :=
  m.pushed.reverse ++ stack.drop m.instruction.operation.pops

section

variable {m : Machine (Recorded Ram)} {base : Byte} {stack : List Byte}

theorem length_behind :
    (m.behind stack).length =
      m.instruction.operation.pushes + (stack.length - m.instruction.operation.pops) := by
  simp [behind, pushed]

theorem behind_of_pushes_eq_zero (h : m.instruction.operation.pushes = 0) :
    m.behind stack = stack.drop m.instruction.operation.pops := by
  have hpushed : m.pushed = [] := List.eq_nil_of_length_eq_zero (by simp [pushed, h])
  rw [behind, hpushed]
  rfl

/-- A pushing instruction. -/
theorem next_of_pushes (h : m.instruction.operation.pushes ≠ 0) :
    m.next.processor.registers.sp =
      m.processor.registers.sp - BitVec.ofNat 8 m.instruction.operation.pushes ∧
    ∃ before after,
      m.accesses = before ++ pushAccesses m.processor.registers.sp m.pushed ++ after ∧
      ∀ a ∈ before ++ after, a.direction = .read := by
  obtain ⟨-, es, extra, ⟨before, after, hpush, hreads, hsp⟩, -, haccesses⟩ :=
    m.execute_of_every (Instruction.every_perform_pushed m.opcode h _)
  refine ⟨hsp, m.opening m.opcode :: before, after, ?_, ?_⟩
  · rw [Registers.advance_advance] at hpush
    rw [haccesses, hpush]
    rfl
  · exact List.forall_mem_cons.mpr ⟨rfl, hreads⟩

/-- A popping instruction. -/
theorem next_of_pops (h : m.instruction.operation.pops ≠ 0) :
    m.next.processor.registers.sp =
      m.processor.registers.sp + BitVec.ofNat 8 m.instruction.operation.pops ∧
    m.next.ram = m.ram ∧ (∀ a ∈ m.accesses, a.direction = .read) ∧
    ∀ a ∈ popAccesses m.processor.registers.sp m.popped,
      a.value = some (m.ram.read a.address) := by
  obtain ⟨-, es, extra, ⟨before, hpop, hreads, hsp⟩, hg, haccesses⟩ :=
    m.execute_of_every (Instruction.every_perform_popped m.opcode h _)
  have hall : ∀ a ∈ m.accesses, a.direction = .read := by
    rw [haccesses]
    exact List.forall_mem_cons.mpr ⟨rfl, hreads⟩
  refine ⟨hsp, ?_, hall, ?_⟩
  · rw [next_ram, Ram.replay_of_reads hall]
  · intro a ha
    apply Ram.value_of_grantsAll hg hreads
    rw [hpop]
    exact List.mem_append_right _ ha

/-- What a pushing instruction writes are its pushes. -/
theorem mem_pushAccesses (h : m.instruction.operation.pushes ≠ 0) {a : Access}
    (ha : a ∈ m.accesses) (hw : a.direction = .write) :
    a ∈ pushAccesses m.processor.registers.sp m.pushed := by
  obtain ⟨-, before, after, haccesses, hreads⟩ := next_of_pushes h
  have hother : a ∉ before ++ after := fun hmem => by simp [hreads a hmem] at hw
  rw [List.mem_append, not_or] at hother
  rw [haccesses, List.mem_append, List.mem_append] at ha
  exact (ha.resolve_right hother.2).resolve_left hother.1

/-! ## A stack is kept -/

/-- The machine has a stack that began at `base`. -/
structure Keeps (m : Machine (Recorded Ram)) (base : Byte) (stack : List Byte) : Prop where
  sp : m.processor.registers.sp = base - BitVec.ofNat 8 stack.length
  holds : m.ram.Holds base stack

/-- The next instruction minds a stack that began at `base`: if it uses the
stack, it takes it neither below zero bytes nor above 256; if it does not, it leaves the stack
pointer and all that lies on the stack alone. -/
structure Minds (m : Machine (Recorded Ram)) (base : Byte) (stack : List Byte) : Prop where
  enough : m.instruction.operation.pops ≤ stack.length
  room : stack.length + m.instruction.operation.pushes ≤ 256
  sp : ¬ m.instruction.operation.UsesStack →
    m.next.processor.registers.sp = m.processor.registers.sp
  cells : ¬ m.instruction.operation.UsesStack → ∀ a ∈ m.accesses, a.direction = .write →
    ∀ i < stack.length, a.address ≠ stackCell (base - BitVec.ofNat 8 i)

/-- What uses the stack minds it within its bounds. -/
theorem Minds.of_usesStack (huses : m.instruction.operation.UsesStack)
    (henough : m.instruction.operation.pops ≤ stack.length)
    (hroom : stack.length + m.instruction.operation.pushes ≤ 256) : m.Minds base stack :=
  ⟨henough, hroom, absurd huses, absurd huses⟩

/-- What is popped is the top of the stack. -/
theorem Keeps.popped_eq (h : m.Keeps base stack)
    (henough : m.instruction.operation.pops ≤ stack.length) :
    m.popped = stack.take m.instruction.operation.pops := by
  have hlength : m.popped.length = m.instruction.operation.pops := Operation.length_popped _ _
  by_cases hpops : m.instruction.operation.pops = 0
  · rw [hpops] at hlength ⊢
    exact List.eq_nil_of_length_eq_zero hlength
  · obtain ⟨-, -, -, hread⟩ := next_of_pops hpops
    rw [h.sp] at hread
    rw [← hlength] at henough ⊢
    exact h.holds.eq_take m.popped henough hread

/-- A stack that is pushed on. -/
theorem Keeps.push (h : m.Keeps base stack)
    (hpushes : m.instruction.operation.pushes ≠ 0)
    (hroom : stack.length + m.instruction.operation.pushes ≤ 256) :
    m.next.Keeps base (m.behind stack) := by
  obtain ⟨hsp, before, after, haccesses, hreads⟩ := next_of_pushes hpushes
  have hbehind : m.behind stack = m.pushed.reverse ++ stack := by
    rw [behind, m.instruction.operation.pushes_or_pops_eq_zero.resolve_left hpushes]
    rfl
  have hlength : m.pushed.length = m.instruction.operation.pushes := Operation.length_pushed _ _
  rw [List.forall_mem_append] at hreads
  constructor
  case sp =>
    rw [hsp, h.sp, hbehind, List.length_append, List.length_reverse, hlength]
    bv_omega
  case holds =>
    rw [next_ram, haccesses, Ram.replay_append, Ram.replay_append,
      Ram.replay_of_reads hreads.1, Ram.replay_of_reads hreads.2, h.sp, hbehind]
    exact h.holds.replay_push m.pushed (by rwa [hlength])

/-- A stack that is popped. -/
theorem Keeps.pop (h : m.Keeps base stack) (hpops : m.instruction.operation.pops ≠ 0)
    (henough : m.instruction.operation.pops ≤ stack.length) :
    m.next.Keeps base (m.behind stack) := by
  obtain ⟨hsp, hram, -, -⟩ := next_of_pops hpops
  have hpushes := m.instruction.operation.pushes_or_pops_eq_zero.resolve_right hpops
  rw [behind_of_pushes_eq_zero hpushes]
  constructor
  case sp =>
    rw [hsp, h.sp, List.length_drop]
    bv_omega
  case holds =>
    rw [hram]
    exact h.holds.drop _

/-- **One instruction that minds the stack keeps it**, with its own bytes pushed or popped. -/
theorem Keeps.next (h : m.Keeps base stack) (hminds : m.Minds base stack) :
    m.next.Keeps base (m.behind stack) := by
  by_cases hpushes : m.instruction.operation.pushes = 0
  · by_cases hpops : m.instruction.operation.pops = 0
    · -- The instruction does not use the stack, so only what it minds is known of it.
      have hother : ¬ m.instruction.operation.UsesStack := by
        simp [Operation.UsesStack, hpushes, hpops]
      rw [behind_of_pushes_eq_zero hpushes, hpops, List.drop_zero]
      refine ⟨(hminds.sp hother).trans h.sp, h.holds.congr ?_⟩
      intro i hi
      rw [next_ram]
      exact Ram.read_replay fun a ha hw => hminds.cells hother a ha hw i hi
    · exact h.pop hpops hminds.enough
  · exact h.push hpushes hminds.room

/-- **What an instruction that uses the stack writes** goes to cells of the stack that it leaves. -/
theorem Keeps.exists_stackCell (h : m.Keeps base stack)
    (huses : m.instruction.operation.UsesStack) {a : Access} (ha : a ∈ m.accesses)
    (hw : a.direction = .write) :
    ∃ i < (m.behind stack).length, a.address = stackCell (base - BitVec.ofNat 8 i) := by
  by_cases hpushes : m.instruction.operation.pushes = 0
  · obtain ⟨-, -, hreads, -⟩ := next_of_pops (huses.resolve_left (not_not_intro hpushes))
    simp [hreads a ha] at hw
  · obtain ⟨i, hi, haddress⟩ := exists_of_mem_pushAccesses (mem_pushAccesses hpushes ha hw)
    have hlength : m.pushed.length = m.instruction.operation.pushes := Operation.length_pushed _ _
    have hpops := m.instruction.operation.pushes_or_pops_eq_zero.resolve_left hpushes
    refine ⟨stack.length + i, ?_, ?_⟩
    · rw [length_behind, hpops]
      omega
    · rw [haddress, h.sp, BitVec.ofNat_add, BitVec.sub_sub]

end

/-! ## Runs -/

/-- What lies on the stack a number of instructions later, if it was empty. -/
def stackAfter (m : Machine (Recorded Ram)) : Nat → List Byte
  | 0 => []
  | k + 1 => (m.nth k).behind (m.stackAfter k)

/-- A run of instructions that all mind the stack keeps it. -/
theorem keeps_nth {m : Machine (Recorded Ram)} {k : Nat}
    (hminds : ∀ j < k, (m.nth j).Minds m.processor.registers.sp (m.stackAfter j)) :
    (m.nth k).Keeps m.processor.registers.sp (m.stackAfter k) := by
  induction k with
  | zero => exact ⟨(BitVec.sub_zero _).symm, trivial⟩
  | succ k ih =>
    have hbefore := ih fun j hj => hminds j (Nat.lt_succ_of_lt hj)
    exact hbefore.next (hminds k k.lt_succ_self)

/-- **The stack is last in, first out.** Let a run of instructions on flat memory, from any state,
mind the stack that begins where the stack pointer stands at first: it holds from 0 to 256 bytes,
and what neither pushes nor pops leaves it alone. Then the stack pointer is always as far below its
first value as the stack is deep, every pop returns the top of the stack, and a push writes to cells
of the stack, which all lie in the second page of memory, whatever the flags. -/
theorem stack_lifo (m : Machine (Recorded Ram)) (k : Nat)
    (hminds : ∀ j < k, (m.nth j).Minds m.processor.registers.sp (m.stackAfter j)) :
    (∀ j ≤ k, (m.nth j).processor.registers.sp =
      m.processor.registers.sp - BitVec.ofNat 8 (m.stackAfter j).length) ∧
    ∀ j < k, ((m.nth j).execute Ram.bus.recorded).1 = .ok () ∧
      (m.nth j).popped = (m.stackAfter j).take (m.nth j).instruction.operation.pops ∧
      ((m.nth j).instruction.operation.UsesStack →
        ∀ a ∈ (m.nth j).accesses, a.direction = .write →
          (∃ i < (m.stackAfter (j + 1)).length,
            a.address = stackCell (m.processor.registers.sp - BitVec.ofNat 8 i)) ∧
          0x0100 ≤ a.address ∧ a.address ≤ 0x01FF) := by
  have hkeeps : ∀ j ≤ k, (m.nth j).Keeps m.processor.registers.sp (m.stackAfter j) :=
    fun j hj => keeps_nth fun i hi => hminds i (Nat.lt_of_lt_of_le hi hj)
  refine ⟨fun j hj => (hkeeps j hj).sp, ?_⟩
  intro j hj
  have hnow := hkeeps j (Nat.le_of_lt hj)
  refine ⟨(m.nth j).execute_ram, hnow.popped_eq (hminds j hj).enough, ?_⟩
  intro huses a ha hw
  obtain ⟨i, hi, haddress⟩ := hnow.exists_stackCell huses ha hw
  refine ⟨⟨i, hi, haddress⟩, ?_⟩
  rw [haddress]
  exact stackCell_mem_page _

/-- A byte pushed from the bottom of the page, whence the stack goes on at the top, and popped. -/
theorem stack_lifo_of_ram :
    let m : Machine (Recorded Ram) :=
      { processor := { registers := { a := 0x41, pc := 0x0200 } }
        host := { host := Ram.zero.load 0x0200 [0x2D, 0xCE] } }
    (∀ j < 2, (m.nth j).Minds m.processor.registers.sp (m.stackAfter j)) ∧
    (∀ j ≤ 2, (m.nth j).processor.registers.sp =
      m.processor.registers.sp - BitVec.ofNat 8 (m.stackAfter j).length) ∧
    ∀ j < 2, ((m.nth j).execute Ram.bus.recorded).1 = .ok () ∧
      (m.nth j).popped = (m.stackAfter j).take (m.nth j).instruction.operation.pops ∧
      ((m.nth j).instruction.operation.UsesStack →
        ∀ a ∈ (m.nth j).accesses, a.direction = .write →
          (∃ i < (m.stackAfter (j + 1)).length,
            a.address = stackCell (m.processor.registers.sp - BitVec.ofNat 8 i)) ∧
          0x0100 ≤ a.address ∧ a.address ≤ 0x01FF) := by
  intro m
  have hfirst : m.opcode = 0x2D := by simp [opcode, ram, m, Ram.load, Ram.read_write]
  have hread : Ram.bus.read m.processor.registers.pc m.host.host = (.ok 0x2D, m.ram) :=
    congrArg (fun byte => (Except.ok byte, m.ram)) hfirst
  have hd : ((decode 0x2D).dialogue m.processor.registers).Admits _
      (0, { a := 0x41, sp := 0xFF, pc := 0x0201 }) := .write (.done _)
  have hnext := congrArg Prod.snd (execute_recorded hread hd ⟨_, rfl, rfl⟩)
  have hsecond : (m.nth 1).opcode = 0xCE := by
    show m.next.opcode = _
    rw [next, hnext]
    show (m.ram.write (stackCell 0) 0x41).read 0x0201 = _
    have hcell : stackCell 0 ≠ 0x0201 := by decide
    rw [Ram.read_write, if_neg hcell]
    simp [ram, m, Ram.load, Ram.read_write]
  have hminds : ∀ j < 2, (m.nth j).Minds m.processor.registers.sp (m.stackAfter j) := by
    intro j hj
    obtain rfl | rfl : j = 0 ∨ j = 1 := by omega
    · have hpush : (m.nth 0).instruction = decode 0x2D := congrArg decode hfirst
      apply Minds.of_usesStack <;> rw [hpush] <;> decide
    · have hpop : (m.nth 1).instruction = decode 0xCE := congrArg decode hsecond
      have hdepth : (m.stackAfter 1).length = 1 := by
        show (m.behind []).length = 1
        rw [length_behind, instruction, hfirst]
        rfl
      apply Minds.of_usesStack <;> simp only [hpop, hdepth] <;> decide
  exact ⟨hminds, stack_lifo m 2 hminds⟩

end Machine

end Spc700
