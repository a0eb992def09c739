import Spc700.Proofs.Alu.Checked

/-!
# Operations with arithmetic that traps

The operations that add, multiply, divide or shift, carried out with the arithmetic of `Checked`,
which can have no result. The microprogram of such an operation then stops. The other operations
wrap or only move bits.

`Checked.computes_perform` says that no instruction comes to stop in this way, and that each does
to the registers and to the bus what it does with `Alu`.
-/

namespace Spc700.Checked

variable {α β : Type}

/-! ## Microprograms that can stop -/

/-- A result that may not be there. -/
def trap (x : Option α) : OptionT Micro α := OptionT.mk (pure x)

/-- `Micro.compute`, with arithmetic that may have no result. -/
def compute (f : Flags → Option (α × Flags)) : OptionT Micro α := do
  let r ← get
  let (result, psw) ← trap (f r.psw)
  set { r with psw }
  return result

/-- `Micro.modifyFlags`, with arithmetic that may have no result. -/
def modifyFlags (f : Flags → Option Flags) : OptionT Micro Unit :=
  compute fun psw => do return ((), ← f psw)

/-- The sum or the difference of two bytes, with the carry flag as the carry. -/
def arithmetic : Arithmetic → Byte → Byte → Flags → Option (Byte × Flags)
  | .adc, x, y, f => addCarry x y f.carry f
  | .sbc, x, y, f => addCarry x (~~~y) f.carry f

/-- The sum or the difference of two words. -/
def arithmeticWord : Arithmetic → Word → Word → Flags → Option (Word × Flags)
  | .adc, x, y, f => addCarry x y false f
  | .sbc, x, y, f => addCarry x (~~~y) true f

/-- A microprogram that takes no cycles beyond the base count. -/
def atBase (program : OptionT Micro Unit) : OptionT Micro Nat := do
  program
  return 0

open Operation in
/-- The microprogram of an opcode's operation. What the opcode itself holds is
computed from the opcode. -/
def execute (opcode : Byte) (o : Operands) : OptionT Micro Nat :=
  match (decode opcode).operation with
  | .arithmetic f => atBase do
    let operand ← readCell o
    let result ← compute (arithmetic f (← get).a operand)
    modify fun r => { r with a := result }
  | .arithmeticMemory f => atBase do
    let source ← readSource o
    let target ← readCell o
    writeCell o (← compute (arithmetic f target source))
  | .compare r => atBase do
    let operand ← readCell o
    let value := (← get).get r
    modifyFlags (compare value operand)
  | .compareMemory => atBase do
    let target ← readCell o
    let source ← readSource o
    modifyFlags (compare target source)
  | .arithmeticWord f => atBase do
    let operand ← readCellWord o
    let result ← compute (arithmeticWord f (← get).ya operand)
    modify fun r => r.setYa result
  | .compareWord => atBase do
    let operand ← readCellWord o
    let value := (← get).ya
    modifyFlags (compare value operand)
  | .multiply => atBase do
    let r ← get
    let product ← compute (multiply r.y r.a)
    modify fun r => r.setYa product
  | .divide => atBase do
    let r ← get
    let (quotient, remainder) ← compute (divide r.ya r.x)
    modify fun r => { r with a := quotient, y := remainder }
  | .writeBit _ on => atBase do
    let value ← readCell o
    writeCell o (putBits (← trap (opcodeMask opcode)) on value)
  | .branchBit _ on => do
    let value ← readCell o
    branchIf ((value &&& (← trap (opcodeMask opcode)) != 0) == on) o
  | .carryBit f => atBase do
    let value ← readCell o
    let bit ← trap (testBit value o.bit.toNat)
    Micro.modifyFlags fun psw => { psw with carry := f.apply psw.carry bit }
  | .invertBit => atBase do
    let value ← readCell o
    writeCell o (value ^^^ (← trap (bit 8 o.bit.toNat)))
  | .storeCarry => atBase do
    let value ← readCell o
    writeCell o (putBits (← trap (bit 8 o.bit.toNat)) (← get).psw.carry value)
  | .callTable _ => atBase do
    Micro.pushCounter
    Micro.jumpVector (← trap (callVector opcode))
  | operation => operation.execute o

/-- All of an instruction after its opcode. -/
def perform (opcode : Byte) : OptionT Micro Nat := do
  let operands ← (decode opcode).mode.resolve
  execute opcode operands

/-! ## Nothing stops -/

/-- The first microprogram never stops, and is the second. -/
def Computes (p : OptionT Micro α) (q : Micro α) : Prop := p.run = some <$> q

section

variable {p : OptionT Micro α} {q : Micro α}

theorem computes_lift (q : Micro α) : Computes (liftM q) q := rfl

theorem Computes.bind {f : α → OptionT Micro β} {g : α → Micro β} (hp : Computes p q)
    (hf : ∀ a, Computes (f a) (g a)) : Computes (p >>= f) (q >>= g) := by
  have hf' : ∀ a, (f a).run = some <$> g a := hf
  have hp' : p.run = some <$> q := hp
  show (p >>= f).run = some <$> (q >>= g)
  simp [hp', hf']

theorem Computes.lift_bind {q : Micro α} {f : α → OptionT Micro β} {g : α → Micro β}
    (hf : ∀ a, Computes (f a) (g a)) : Computes (liftM q >>= f) (q >>= g) :=
  .bind (computes_lift q) hf

theorem Computes.trap_bind {x : Option α} {a : α} {f : α → OptionT Micro β} {q : Micro β}
    (hx : x = some a) (hf : Computes (f a) q) : Computes (trap x >>= f) q := by
  subst hx
  exact hf

theorem computes_pure (a : α) : Computes (pure a : OptionT Micro α) (pure a) := rfl

theorem Computes.atBase {p : OptionT Micro Unit} {q : Micro Unit} (hp : Computes p q) :
    Computes (atBase p) (Operation.atBase q) :=
  hp.bind fun _ => computes_pure 0

/-- **Arithmetic that always has a result does not stop a microprogram.** -/
theorem computes_compute {f : Flags → Option (α × Flags)} {g : Flags → α × Flags}
    (h : ∀ psw, f psw = some (g psw)) : Computes (compute f) (Micro.compute g) := by
  funext r
  have htrap : trap (f r.psw) = pure (g r.psw) := by
    rw [h]
    rfl
  show StateT.run (OptionT.run do
    let (result, psw) ← trap (f r.psw)
    set { r with psw }
    return result) r = _
  rw [htrap]
  rfl

theorem computes_modifyFlags {f : Flags → Option Flags} {g : Flags → Flags}
    (h : ∀ psw, f psw = some (g psw)) : Computes (modifyFlags f) (Micro.modifyFlags g) :=
  computes_compute (g := fun psw => ((), g psw)) fun psw => by rw [h]; rfl

end

/-! ## What an opcode holds -/

/-- The vector of a table call is in the table, at the place that its opcode numbers. -/
theorem callVector_eq : ∀ opcode : Byte, ∀ n : BitVec 4,
    (decode opcode).operation = .callTable n →
      callVector opcode = some (Operation.callVector n) := by
  decide +kernel

theorem opcodeMask_of_writeBit : ∀ (opcode : Byte) (bit : BitNumber) (on : Bool),
    (decode opcode).operation = .writeBit bit on →
      opcodeMask opcode = some (Operation.bitMask bit) := by
  decide +kernel

theorem opcodeMask_of_branchBit : ∀ (opcode : Byte) (bit : BitNumber) (on : Bool),
    (decode opcode).operation = .branchBit bit on →
      opcodeMask opcode = some (Operation.bitMask bit) := by
  decide +kernel

theorem and_bitMask_ne_zero (value : Byte) (bit : BitNumber) :
    (value &&& Operation.bitMask bit != 0) = value.getLsbD bit.toNat := by
  have htest : testBit value bit.toNat = some (value.getLsbD bit.toNat) := testBit_of_lt bit.isLt
  rw [testBit, bit_of_lt bit.isLt] at htest
  exact Option.some.inj htest

/-- An operand that numbers a bit in its top three bits. -/
theorem bit_of_word (word : Word) :
    bit 8 (word >>> 13).toNat = some (Operation.bitMask (word.extractLsb' 13 3)) := by
  have hword := word.isLt
  have hnumber : (word >>> 13).toNat = (word.extractLsb' 13 3).toNat := by
    rw [BitVec.extractLsb'_toNat, BitVec.toNat_ushiftRight]
    refine (Nat.mod_eq_of_lt ?_).symm
    rw [Nat.shiftRight_eq_div_pow]
    omega
  rw [hnumber]
  exact bit_of_lt (word.extractLsb' 13 3).isLt

/-! ## Operations -/

theorem arithmetic_eq (f : Arithmetic) (x y : Byte) (psw : Flags) :
    arithmetic f x y psw = some (f.apply x y psw) := by
  cases f <;> exact addCarry_eq (by decide) ..

theorem arithmeticWord_eq (f : Arithmetic) (x y : Word) (psw : Flags) :
    arithmeticWord f x y psw = some (f.applyWord x y psw) := by
  cases f <;> exact addCarry_eq (by decide) ..

/-- **No operation comes to stop.** -/
theorem computes_execute (opcode : Byte) (o : Operands) :
    Computes (execute opcode o) ((decode opcode).operation.execute o) := by
  unfold execute
  generalize hop : (decode opcode).operation = operation
  cases operation with
  | arithmetic f =>
    refine .atBase ?_
    refine .lift_bind fun operand => ?_
    refine .lift_bind fun r => ?_
    exact .bind (computes_compute (arithmetic_eq f r.a operand)) fun result => computes_lift _
  | arithmeticMemory f =>
    refine .atBase ?_
    refine .lift_bind fun source => ?_
    refine .lift_bind fun target => ?_
    exact .bind (computes_compute (arithmetic_eq f target source)) fun result => computes_lift _
  | compare r =>
    refine .atBase ?_
    refine .lift_bind fun operand => ?_
    refine .lift_bind fun now => ?_
    exact computes_modifyFlags (compare_eq (by decide) (now.get r) operand)
  | compareMemory =>
    refine .atBase ?_
    refine .lift_bind fun target => ?_
    refine .lift_bind fun source => ?_
    exact computes_modifyFlags (compare_eq (by decide) target source)
  | arithmeticWord f =>
    refine .atBase ?_
    refine .lift_bind fun operand => ?_
    refine .lift_bind fun r => ?_
    exact .bind (computes_compute (arithmeticWord_eq f r.ya operand)) fun result => computes_lift _
  | compareWord =>
    refine .atBase ?_
    refine .lift_bind fun operand => ?_
    refine .lift_bind fun r => ?_
    exact computes_modifyFlags (compare_eq (by decide) r.ya operand)
  | multiply =>
    refine .atBase ?_
    refine .lift_bind fun r => ?_
    exact .bind (computes_compute (multiply_eq r.y r.a)) fun product => computes_lift _
  | divide =>
    refine .atBase ?_
    refine .lift_bind fun r => ?_
    exact .bind (computes_compute (divide_eq r.ya r.x)) fun result => computes_lift _
  | writeBit b on =>
    refine .atBase ?_
    refine .lift_bind fun value => ?_
    exact .trap_bind (opcodeMask_of_writeBit opcode b on hop) (computes_lift _)
  | branchBit b on =>
    refine .lift_bind fun value => ?_
    refine .trap_bind (opcodeMask_of_branchBit opcode b on hop) ?_
    rw [and_bitMask_ne_zero]
    exact computes_lift _
  | carryBit f =>
    refine .atBase ?_
    refine .lift_bind fun value => ?_
    exact .trap_bind (testBit_of_lt o.bit.isLt) (computes_lift _)
  | invertBit =>
    refine .atBase ?_
    refine .lift_bind fun value => ?_
    exact .trap_bind (bit_of_lt o.bit.isLt) (computes_lift _)
  | storeCarry =>
    refine .atBase ?_
    refine .lift_bind fun value => ?_
    refine .trap_bind (bit_of_lt o.bit.isLt) ?_
    exact .lift_bind fun r => computes_lift _
  | callTable n =>
    refine .atBase ?_
    refine .lift_bind fun _ => ?_
    exact .trap_bind (callVector_eq opcode n hop) (computes_lift _)
  | _ => exact computes_lift _

/-- **No instruction comes to stop.** It does what it does with `Alu`. -/
theorem computes_perform (opcode : Byte) : Computes (perform opcode) (decode opcode).perform :=
  .lift_bind fun o => computes_execute opcode o

end Spc700.Checked
