import Spc700.Instruction.Matrix
import Spc700.Proofs.Microprogram.Stack

/-!
# What an instruction leaves alone

Two tables say what an operation can change: `Operation.changes` lists the registers beside the
program counter, `Operation.changedFlags` is a set of flags. Whatever is not in them an operation
keeps, with all operands and whatever it reads (`Operation.every_execute_get`,
`Operation.every_execute_flags`).

The tables go by operation. `Instruction.Frame` reads the other way, register by register and flag
by flag: which instructions can change it. `Instruction.every_perform_frame` says it of every
opcode.
-/

namespace Spc700

/-! ## Flags outside a set -/

namespace Flags

/-- The flags that any result sets. -/
def ofResult : Flags := { negative := true, zero := true }

/-- The flags that a comparison, a shift or a decimal adjustment sets. -/
def ofComparison : Flags := { negative := true, zero := true, carry := true }

/-- The flags that a sum sets. -/
def ofSum : Flags :=
  { negative := true, overflow := true, halfCarry := true, zero := true, carry := true }

/-- The flags that a quotient sets. -/
def ofQuotient : Flags := { negative := true, overflow := true, halfCarry := true, zero := true }

section

variable (f : Flags)

@[simp]
theorem diff_describe {w : Nat} (result : BitVec w) :
    (f.describe result).diff ofResult = f.diff ofResult := by
  simp [describe, ofResult, diff, zipWith]

@[simp]
theorem diff_compare {w : Nat} (x y : BitVec w) :
    (Alu.compare x y f).diff ofComparison = f.diff ofComparison := by
  simp [Alu.compare, describe, ofComparison, diff, zipWith]

@[simp]
theorem diff_addCarry {w : Nat} (x y : BitVec w) (carry : Bool) :
    (Alu.addCarry x y carry f).2.diff ofSum = f.diff ofSum := by
  simp [Alu.addCarry, describe, ofSum, diff, zipWith]

@[simp]
theorem diff_arithmetic (operation : Arithmetic) (x y : Byte) :
    (operation.apply x y f).2.diff ofSum = f.diff ofSum := by
  cases operation
  · exact f.diff_addCarry x y f.carry
  · exact f.diff_addCarry x (~~~y) f.carry

@[simp]
theorem diff_arithmeticWord (operation : Arithmetic) (x y : Word) :
    (operation.applyWord x y f).2.diff ofSum = f.diff ofSum := by
  cases operation
  · exact f.diff_addCarry x y false
  · exact f.diff_addCarry x (~~~y) true

@[simp]
theorem diff_shift (operation : Shift) (x : Byte) :
    (operation.apply x f).2.diff ofComparison = f.diff ofComparison := by
  cases operation <;>
    simp [Shift.apply, Alu.shiftLeft, Alu.shiftRight, describe, ofComparison, diff, zipWith]

@[simp]
theorem diff_multiply (x y : Byte) : (Alu.multiply x y f).2.diff ofResult = f.diff ofResult :=
  f.diff_describe _

@[simp]
theorem diff_divide (dividend : Word) (divisor : Byte) :
    (Alu.divide dividend divisor f).2.diff ofQuotient = f.diff ofQuotient := by
  simp [Alu.divide, describe, ofQuotient, diff, zipWith]

@[simp]
theorem diff_adjustAddition (x : Byte) :
    (Alu.adjustAddition x f).2.diff ofComparison = f.diff ofComparison := by
  simp [Alu.adjustAddition, describe, ofComparison, diff, zipWith]

@[simp]
theorem diff_adjustSubtraction (x : Byte) :
    (Alu.adjustSubtraction x f).2.diff ofComparison = f.diff ofComparison := by
  simp [Alu.adjustSubtraction, describe, ofComparison, diff, zipWith]

@[simp]
theorem diff_union (which : Flags) : (f.union which).diff which = f.diff which := by
  have hbit : ∀ a b : Bool, ((a || b) && !b) = (a && !b) := by decide
  simp [union, diff, zipWith, hbit]

@[simp]
theorem diff_diff (which : Flags) : (f.diff which).diff which = f.diff which := by
  simp [diff, zipWith]

@[simp]
theorem diff_empty : f.diff {} = f := by
  simp [diff, zipWith]

@[simp]
theorem diff_all : f.diff all = {} := by
  simp [all, diff, zipWith]

end

/-- A flag that has changed is one of the set outside of which nothing has changed. `flag` is any
of the eight. -/
theorem flag_of_ne {flag : Flags → Bool} {f f' which : Flags}
    (hflag : ∀ g h : Flags, flag (g.diff h) = (flag g && !flag h))
    (hkept : f'.diff which = f.diff which) (hne : flag f' ≠ flag f) : flag which = true := by
  have h := congrArg flag hkept
  rw [hflag, hflag] at h
  cases hwhich : flag which with
  | true => rfl
  | false =>
    rw [hwhich, Bool.not_false, Bool.and_true, Bool.and_true] at h
    exact absurd h hne

end Flags

/-- The data registers do not depend on the program counter and the flags. -/
@[simp]
theorem Registers.get_mk (r : Registers) (pc : Word) (psw : Flags) (n : Register) :
    ({ r with pc, psw } : Registers).get n = r.get n := by
  cases n <;> rfl

open Micro

/-! ## Operations -/

namespace Operation

/-- The registers that an operation can change, but for the program
counter. -/
def changes : Operation → List Register
  | logic _ | arithmetic _ | shiftAccumulator _ | exchangeNibbles | adjustAddition
  | adjustSubtraction => [.a]
  | loadWord | arithmeticWord _ | multiply | divide => [.a, .y]
  | branchCountY => [.y]
  | stepRegister _ n | load n | transfer _ n => [n]
  | pop n => [.sp, n]
  | push _ | pushFlags | popFlags | call | callPage | callTable _ | softwareBreak | ret
  | retInterrupt => [.sp]
  | _ => []

/-- The flags that an operation can change. -/
def changedFlags : Operation → Flags
  | logic _ | logicMemory _ | step _ | stepRegister _ _ | exchangeNibbles | loadWord | stepWord _
  | multiply | writeBits _ | load _ => Flags.ofResult
  | transfer _ target => if target = .sp then {} else Flags.ofResult
  | compare _ | compareMemory | compareWord | shift _ | shiftAccumulator _ | adjustAddition
  | adjustSubtraction => Flags.ofComparison
  | arithmetic _ | arithmeticMemory _ | arithmeticWord _ => Flags.ofSum
  | divide => Flags.ofQuotient
  | carryBit _ | invertCarry => { carry := true }
  | setFlags which | clearFlags which => which
  | softwareBreak => { brk := true, interrupt := true }
  | popFlags | retInterrupt => Flags.all
  | _ => {}

/-- **A register that is not listed keeps its byte.** -/
theorem every_execute_get (operation : Operation) {n : Register} (hn : n ∉ operation.changes)
    (o : Operands) (r : Registers) :
    Every (fun _ _ r' => r'.get n = r.get n) (operation.execute o) r := by
  cases operation with
  -- The operation names a register of its own, so there is a case for each pair of the two.
  | stepRegister f target | load target | pop target | transfer source target =>
    cases n <;> cases target <;>
      simp [execute, changes, Registers.get, Registers.set, Registers.describe] at hn ⊢
  -- It has registers that it always changes.
  | logic _ | arithmetic _ | shiftAccumulator _ | exchangeNibbles | adjustAddition
  | adjustSubtraction | loadWord | arithmeticWord _ | multiply | divide | branchCountY | push _
  | pushFlags | popFlags | call | callPage | callTable _ | softwareBreak | ret | retInterrupt =>
    cases n <;>
      simp [execute, changes, Registers.describe, Registers.get, Registers.set, Registers.setYa,
        apply_ite Registers.a, apply_ite Registers.x, apply_ite Registers.sp] at hn ⊢
  -- It changes the program counter and the flags at most.
  | _ => simp [execute, Registers.describe, apply_ite (Registers.get · n)]

/-- **Flags that are not in the set stay as they are.** -/
theorem every_execute_flags (operation : Operation) (o : Operands) (r : Registers) :
    Every (fun _ _ r' =>
      r'.psw.diff operation.changedFlags = r.psw.diff operation.changedFlags)
      (operation.execute o) r := by
  cases operation with
  | transfer source target =>
    cases target <;> simp [execute, changedFlags, Registers.describe]
  | softwareBreak | carryBit f | invertCarry =>
    simp [execute, changedFlags, Flags.diff, Flags.zipWith]
  | _ =>
    simp [execute, changedFlags, Registers.describe, Registers.setYa, apply_ite Registers.psw]

/-- A transfer into the stack pointer. -/
theorem every_execute_transfer (n : Register) (o : Operands) (r : Registers) :
    Every (fun _ _ r' => r'.sp = r.get n) ((transfer n .sp).execute o) r := by
  simp [execute]

/-- **Where the stack pointer goes**, in every operation that does not load it. -/
theorem every_execute_sp {operation : Operation}
    (h : operation.UsesStack ∨ .sp ∉ operation.changes) (hpop : operation ≠ .pop .sp)
    (o : Operands) (r : Registers) :
    Every (fun _ _ r' =>
      r'.sp = r.sp - BitVec.ofNat 8 operation.pushes + BitVec.ofNat 8 operation.pops)
      (operation.execute o) r := by
  by_cases hpushes : operation.pushes = 0
  · by_cases hpops : operation.pops = 0
    · have hkeeps : .sp ∉ operation.changes := by
        apply h.resolve_left
        simp [UsesStack, hpushes, hpops]
      refine (operation.every_execute_get hkeeps o r).imp ?_
      intro es extra r' hsp
      rw [hpushes, hpops]
      simpa [Registers.get] using hsp
    · refine (every_execute_popped hpops hpop o r).imp ?_
      intro es extra r' hpopped
      rw [hpushes, BitVec.sub_zero]
      exact hpopped.2
  · refine (every_execute_pushed hpushes o r).imp ?_
    intro es extra r' hpushed
    rw [operation.pushes_or_pops_eq_zero.resolve_left hpushes, BitVec.add_zero]
    exact hpushed.2.2

/-! ## Which operations change what -/

/-- The operations that load X or count it. -/
def settersOfX : List Operation :=
  [.load .x, .transfer .a .x, .transfer .sp .x, .pop .x, .stepRegister .inc .x,
    .stepRegister .dec .x]

/-- The operations that load Y, compute it or count it. -/
def settersOfY : List Operation :=
  [.load .y, .transfer .a .y, .pop .y, .stepRegister .inc .y, .stepRegister .dec .y, .loadWord,
    .arithmeticWord .adc, .arithmeticWord .sbc, .multiply, .divide, .branchCountY]

/-- The operations that get all flags from the stack. -/
def restorers : List Operation := [.popFlags, .retInterrupt]

/-- The sums and differences, of bytes and of words. -/
def sums : List Operation :=
  [.arithmetic .adc, .arithmetic .sbc, .arithmeticMemory .adc, .arithmeticMemory .sbc,
    .arithmeticWord .adc, .arithmeticWord .sbc]

/-- The comparisons, of bytes and of words. -/
def comparisons : List Operation :=
  [.compare .a, .compare .x, .compare .y, .compareMemory, .compareWord]

/-- The shifts and rotations, of a cell and of the accumulator. -/
def shifts : List Operation :=
  [.shift .asl, .shift .lsr, .shift .rol, .shift .ror, .shiftAccumulator .asl,
    .shiftAccumulator .lsr, .shiftAccumulator .rol, .shiftAccumulator .ror]

/-- The operations on the carry and a bit of memory that change the
carry. -/
def carryBits : List Operation :=
  [.carryBit .or1, .carryBit .or1Not, .carryBit .and1, .carryBit .and1Not, .carryBit .eor1,
    .carryBit .mov1]

/-- Stores, moves, branches, jumps, calls and the return from them, pushes, pops of a register, the
load of the stack pointer, writes of single bits, and what does nothing: the operations that keep
all flags. -/
def keepsFlags : Operation → Bool
  | store _ _ | storeWord | move _ => true
  | branch _ | branchBit _ _ | branchDifferent | branchCount | branchCountY | branchAlways => true
  | jump | call | callPage | callTable _ | ret => true
  | push _ | pushFlags | pop _ | transfer _ .sp => true
  | writeBit _ _ | invertBit | storeCarry => true
  | nop | sleep | stop => true
  | _ => false

theorem changedFlags_of_keepsFlags {operation : Operation} (h : operation.keepsFlags = true) :
    operation.changedFlags = {} := by
  cases operation with
  | transfer source target => cases target <;> first | rfl | cases h
  | _ => first | rfl | cases h

end Operation

/-! ## In the opcode matrix -/

section

open Operation

/-- Which instructions change the stack pointer and the index registers. The load of the stack
pointer neither moves X on nor uses the stack. -/
theorem decode_changes : ∀ opcode : Byte,
    (.sp ∈ (decode opcode).operation.changes →
      (decode opcode).operation.UsesStack ∨ (decode opcode).operation = .transfer .x .sp) ∧
    (.x ∈ (decode opcode).operation.changes →
      (decode opcode).mode ≠ .indirectXIncrement ∧ (decode opcode).operation ∈ settersOfX) ∧
    (.y ∈ (decode opcode).operation.changes → (decode opcode).operation ∈ settersOfY) ∧
    ((decode opcode).operation = .transfer .x .sp → (decode opcode).mode = .implied) := by
  decide +kernel

/-- Which instructions change a flag beside the negative and the zero flag. The overflow and the
half carry flag are changed by the same ones. -/
theorem decode_changedFlags : ∀ opcode : Byte,
    ((decode opcode).operation.changedFlags.directPage = true → (decode opcode).operation ∈
      [.setFlags { directPage := true }, .clearFlags { directPage := true }] ++ restorers) ∧
    ((decode opcode).operation.changedFlags.brk = true →
      (decode opcode).operation ∈ .softwareBreak :: restorers) ∧
    ((decode opcode).operation.changedFlags.interrupt = true → (decode opcode).operation ∈
      [.setFlags { interrupt := true }, .clearFlags { interrupt := true }, .softwareBreak] ++
        restorers) ∧
    ((decode opcode).operation.changedFlags.overflow = true ∨
        (decode opcode).operation.changedFlags.halfCarry = true → (decode opcode).operation ∈
      sums ++ [.divide, .clearFlags { overflow := true, halfCarry := true }] ++ restorers) ∧
    ((decode opcode).operation.changedFlags.carry = true → (decode opcode).operation ∈
      sums ++ comparisons ++ shifts ++ carryBits ++
        [.adjustAddition, .adjustSubtraction, .setFlags { carry := true },
          .clearFlags { carry := true }, .invertCarry] ++ restorers) := by
  decide +kernel

end

/-! ## Instructions -/

namespace Instruction

open Operation

/-- What an instruction that finds the registers `r` and leaves `r'` keeps: it
is said of each register and each flag which instructions can change it, and by how much where
that does not depend on data. -/
structure Frame (instruction : Instruction) (r r' : Registers) : Prop where
  /-- the stack pointer goes down with each push and up with each pop, or takes X -/
  sp : r'.sp = if instruction.operation = .transfer .x .sp then r.x
    else r.sp - BitVec.ofNat 8 instruction.operation.pushes +
      BitVec.ofNat 8 instruction.operation.pops
  /-- one mode moves X on -/
  xIncrement : instruction.mode = .indirectXIncrement → r'.x = r.x + 1
  x : r'.x ≠ r.x → instruction.mode = .indirectXIncrement ∨ instruction.operation ∈ settersOfX
  y : r'.y ≠ r.y → instruction.operation ∈ settersOfY
  directPage : r'.psw.directPage ≠ r.psw.directPage → instruction.operation ∈
    [.setFlags { directPage := true }, .clearFlags { directPage := true }] ++ restorers
  brk : r'.psw.brk ≠ r.psw.brk → instruction.operation ∈ .softwareBreak :: restorers
  interrupt : r'.psw.interrupt ≠ r.psw.interrupt → instruction.operation ∈
    [.setFlags { interrupt := true }, .clearFlags { interrupt := true }, .softwareBreak] ++
      restorers
  overflow : r'.psw.overflow ≠ r.psw.overflow → instruction.operation ∈
    sums ++ [.divide, .clearFlags { overflow := true, halfCarry := true }] ++ restorers
  halfCarry : r'.psw.halfCarry ≠ r.psw.halfCarry → instruction.operation ∈
    sums ++ [.divide, .clearFlags { overflow := true, halfCarry := true }] ++ restorers
  carry : r'.psw.carry ≠ r.psw.carry → instruction.operation ∈
    sums ++ comparisons ++ shifts ++ carryBits ++
      [.adjustAddition, .adjustSubtraction, .setFlags { carry := true },
        .clearFlags { carry := true }, .invertCarry] ++ restorers
  /-- all eight flags, the negative and the zero flag among them -/
  flags : instruction.operation.keepsFlags = true → r'.psw = r.psw

/-- A frame says nothing of the program counter. -/
theorem Frame.of_advance {instruction : Instruction} {r r' : Registers} {n : Nat}
    (h : instruction.Frame (r.advance n) r') : instruction.Frame r r' :=
  ⟨h.sp, h.xIncrement, h.x, h.y, h.directPage, h.brk, h.interrupt, h.overflow, h.halfCarry,
    h.carry, h.flags⟩

/-- A register that the operation does not list is as the operands left it. -/
theorem every_perform_get (instruction : Instruction) {n : Register}
    (hn : n ∉ instruction.operation.changes) (r : Registers) :
    Every (fun _ _ r' => r'.get n = (instruction.mode.index r).get n) instruction.perform r := by
  refine (instruction.every_perform_acting r
    fun o r => instruction.operation.every_execute_get hn o r).imp ?_
  intro es extra r' h
  obtain ⟨-, -, -, -, hget⟩ := h
  rw [hget]
  cases n <;> rfl

theorem every_perform_flags (instruction : Instruction) (r : Registers) :
    Every (fun _ _ r' => r'.psw.diff instruction.operation.changedFlags =
      r.psw.diff instruction.operation.changedFlags) instruction.perform r := by
  refine (instruction.every_perform_acting r
    fun o r => instruction.operation.every_execute_flags o r).imp ?_
  intro es extra r' h
  obtain ⟨-, -, -, -, hflags⟩ := h
  rw [hflags]
  unfold AddressingMode.index
  split <;> rfl

theorem every_perform_sp (opcode : Byte) (r : Registers) :
    Every (fun _ _ r' => r'.sp = if (decode opcode).operation = .transfer .x .sp then r.x
      else r.sp - BitVec.ofNat 8 (decode opcode).operation.pushes +
        BitVec.ofNat 8 (decode opcode).operation.pops) (decode opcode).perform r := by
  by_cases htransfer : (decode opcode).operation = .transfer .x .sp
  · have hmode := (decode_changes opcode).2.2.2 htransfer
    refine ((decode opcode).every_perform_acting r
      (Q := fun _ r _ r' => r'.sp = r.x) ?_).imp ?_
    · intro o r
      rw [htransfer]
      exact every_execute_transfer .x o r
    · intro es extra r' h
      obtain ⟨-, -, -, -, hsp⟩ := h
      rw [if_pos htransfer, hsp, hmode]
      rfl
  · have huses : (decode opcode).operation.UsesStack ∨
        .sp ∉ (decode opcode).operation.changes := by
      by_cases hchanges : .sp ∈ (decode opcode).operation.changes
      · exact .inl (((decode_changes opcode).1 hchanges).resolve_right htransfer)
      · exact .inr hchanges
    have hpop : (decode opcode).operation ≠ .pop .sp := by
      intro heq
      have hstack : (decode opcode).operation.UsesStack := by
        rw [heq]
        decide
      exact (decode_usesStack opcode hstack).2 heq
    refine ((decode opcode).every_perform_acting r
      fun o r => every_execute_sp huses hpop o r).imp ?_
    intro es extra r' h
    obtain ⟨-, -, -, -, hsp⟩ := h
    rw [Registers.advance_sp, AddressingMode.index_sp] at hsp
    rw [if_neg htransfer]
    exact hsp

/-- **What every instruction leaves alone**, from registers that stand behind its opcode. -/
theorem every_perform_frame (opcode : Byte) (r : Registers) :
    Every (fun _ _ r' => (decode opcode).Frame r r') (decode opcode).perform r := by
  -- A register that the operation does not list is known once the mode is, so X comes in two
  -- cases; what has changed in the flags is in the operation's set.
  have hget : ∀ n, Every (fun _ _ r' => n ∉ (decode opcode).operation.changes →
      r'.get n = ((decode opcode).mode.index r).get n) (decode opcode).perform r := by
    intro n
    by_cases hn : n ∈ (decode opcode).operation.changes
    · exact (every_perform_flags _ r).imp fun _ _ _ _ h => absurd hn h
    · exact ((decode opcode).every_perform_get hn r).imp fun _ _ _ h _ => h
  refine ((((every_perform_sp opcode r).and (hget .x)).and (hget .y)).and
    ((decode opcode).every_perform_flags r)).imp ?_
  intro es extra r' h
  obtain ⟨⟨⟨hsp, hx⟩, hy⟩, hflags⟩ := h
  obtain ⟨-, hsetsX, hsetsY, -⟩ := decode_changes opcode
  obtain ⟨hdirectPage, hbrk, hinterrupt, hoverflow, hcarry⟩ := decode_changedFlags opcode
  constructor
  case sp => exact hsp
  case xIncrement =>
    intro hmode
    have hkeeps : .x ∉ (decode opcode).operation.changes := fun hmem => (hsetsX hmem).1 hmode
    have hnext := hx hkeeps
    rw [hmode] at hnext
    exact hnext
  case x =>
    intro hne
    by_cases hmem : .x ∈ (decode opcode).operation.changes
    · exact .inr (hsetsX hmem).2
    · left
      apply Decidable.byContradiction
      intro hmode
      have hsame := hx hmem
      rw [AddressingMode.index, if_neg hmode] at hsame
      exact hne hsame
  case y =>
    intro hne
    apply hsetsY
    apply Decidable.byContradiction
    intro hmem
    have hsame := hy hmem
    unfold AddressingMode.index at hsame
    split at hsame
    · exact hne hsame
    · exact hne hsame
  case directPage =>
    intro hne
    exact hdirectPage (Flags.flag_of_ne (fun _ _ => rfl) hflags hne)
  case brk =>
    intro hne
    exact hbrk (Flags.flag_of_ne (fun _ _ => rfl) hflags hne)
  case interrupt =>
    intro hne
    exact hinterrupt (Flags.flag_of_ne (fun _ _ => rfl) hflags hne)
  case overflow =>
    intro hne
    exact hoverflow (.inl (Flags.flag_of_ne (fun _ _ => rfl) hflags hne))
  case halfCarry =>
    intro hne
    exact hoverflow (.inr (Flags.flag_of_ne (fun _ _ => rfl) hflags hne))
  case carry =>
    intro hne
    exact hcarry (Flags.flag_of_ne (fun _ _ => rfl) hflags hne)
  case flags =>
    intro hkeeps
    rw [changedFlags_of_keepsFlags hkeeps, Flags.diff_empty, Flags.diff_empty] at hflags
    exact hflags

end Instruction

end Spc700
