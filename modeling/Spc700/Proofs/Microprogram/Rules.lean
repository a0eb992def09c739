import Spc700.Microprogram.Basic
import Spc700.Proofs.Dialogue.Exchange

/-!
# Rules for microprograms

`Micro.Every` speaks of all ways through a microprogram: the exchanges, what it yields and the
registers it leaves. There is one rule for each step that a microprogram is made of. The rules are
equivalences, so a statement about a microprogram becomes one about the bytes that are read.
-/

namespace Spc700

/-! ## The program counter -/

/-- The registers with the program counter some bytes further on. -/
def Registers.advance (r : Registers) (count : Nat) : Registers :=
  { r with pc := r.pc + BitVec.ofNat 16 count }

@[simp]
theorem Registers.advance_zero (r : Registers) : r.advance 0 = r := by
  simp [advance]

@[simp]
theorem Registers.advance_advance (r : Registers) (n k : Nat) :
    (r.advance n).advance k = r.advance (n + k) := by
  simp [advance, BitVec.add_assoc, BitVec.ofNat_add]

namespace Micro

variable {α β : Type} {r : Registers}

/-- Every way through the microprogram from the registers `r` satisfies `Q`, with what it yields
and the registers it leaves. -/
def Every (Q : List (Exchange Registers) → α → Registers → Prop) (p : Micro α) (r : Registers) :
    Prop :=
  (p.run r).Every fun es x => Q es x.1 x.2

theorem Every.imp {Q Q' : List (Exchange Registers) → α → Registers → Prop} {p : Micro α}
    (h : Every Q p r) (himp : ∀ es a r', Q es a r' → Q' es a r') : Every Q' p r :=
  Dialogue.Every.imp h fun es x => himp es x.1 x.2

theorem Every.and {Q Q' : List (Exchange Registers) → α → Registers → Prop} {p : Micro α}
    (h : Every Q p r) (h' : Every Q' p r) :
    Every (fun es a r' => Q es a r' ∧ Q' es a r') p r :=
  Dialogue.Every.and h h'

/-- A microprogram satisfies `Q` if its two parts do, each with its own exchanges. -/
theorem Every.bind {Q : List (Exchange Registers) → α → Registers → Prop}
    {Q' : List (Exchange Registers) → β → Registers → Prop} {p : Micro α} {f : α → Micro β}
    (hp : Every Q p r)
    (hf : ∀ es a r', Q es a r' → Every (fun es' b r'' => Q' (es ++ es') b r'') (f a) r') :
    Every Q' (p >>= f) r := by
  refine (Dialogue.every_bind (p.run r) _).mpr ?_
  exact hp.imp fun es a r' h => hf es a r' h

section

variable {Q : List (Exchange Registers) → α → Registers → Prop}

/-! ## Steps of the registers -/

@[simp]
theorem every_bind {Q : List (Exchange Registers) → β → Registers → Prop} {p : Micro α}
    {f : α → Micro β} :
    Every Q (p >>= f) r ↔
      Every (fun es a r' => Every (fun es' b r'' => Q (es ++ es') b r'') (f a) r') p r :=
  Dialogue.every_bind (p.run r) _

@[simp]
theorem every_pure {a : α} : Every Q (pure a) r ↔ Q [] a r := Iff.rfl

@[simp]
theorem every_map {Q : List (Exchange Registers) → β → Registers → Prop} {p : Micro α}
    {f : α → β} : Every Q (f <$> p) r ↔ Every (fun es a r' => Q es (f a) r') p r := by
  rw [← bind_pure_comp, every_bind]
  simp only [every_pure, List.append_nil]

@[simp]
theorem every_get {Q : List (Exchange Registers) → Registers → Registers → Prop} :
    Every Q get r ↔ Q [] r r := Iff.rfl

variable {Q : List (Exchange Registers) → Unit → Registers → Prop}

@[simp]
theorem every_set {r' : Registers} : Every Q (set r') r ↔ Q [] () r' := Iff.rfl

@[simp]
theorem every_modify {f : Registers → Registers} : Every Q (modify f) r ↔ Q [] () (f r) := Iff.rfl

@[simp]
theorem every_modifyFlags {f : Flags → Flags} :
    Every Q (modifyFlags f) r ↔ Q [] () { r with psw := f r.psw } := Iff.rfl

@[simp]
theorem every_describe {w : Nat} {result : BitVec w} :
    Every Q (describe result) r ↔ Q [] () (r.describe result) := Iff.rfl

@[simp]
theorem every_ite {c : Prop} [Decidable c] {p q : Micro Unit} :
    Every Q (if c then p else q) r ↔ if c then Every Q p r else Every Q q r := by
  split <;> rfl

@[simp]
theorem every_jump {target : Word} : Every Q (jump target) r ↔ Q [] () { r with pc := target } :=
  Iff.rfl

end

@[simp]
theorem every_compute {Q : List (Exchange Registers) → α → Registers → Prop}
    {f : Flags → α × Flags} :
    Every Q (compute f) r ↔ Q [] (f r.psw).1 { r with psw := (f r.psw).2 } := Iff.rfl

/-! ## Accesses -/

/-- The exchange of a read made in the state `now`. -/
def reading (now : Registers) (purpose : Purpose) (address : Word) (byte : Byte) :
    Exchange Registers :=
  { now, purpose, direction := .read, address, byte }

/-- The exchange of a write made in the state `now`. -/
def writing (now : Registers) (purpose : Purpose) (address : Word) (byte : Byte) :
    Exchange Registers :=
  { now, purpose, direction := .write, address, byte }

section

variable {Q : List (Exchange Registers) → Byte → Registers → Prop} {purpose : Purpose}

@[simp]
theorem every_read {address : Word} :
    Every Q (read purpose address) r ↔ ∀ byte, Q [reading r purpose address byte] byte r := Iff.rfl

@[simp]
theorem every_fetch :
    Every Q (fetch purpose) r ↔
      ∀ byte, Q [reading r purpose r.pc byte] byte (r.advance 1) := Iff.rfl

@[simp]
theorem every_fetchOperand :
    Every Q fetchOperand r ↔
      ∀ byte, Q [reading r .operand r.pc byte] byte (r.advance 1) := Iff.rfl

@[simp]
theorem every_pop :
    Every Q pop r ↔
      let r' := { r with sp := r.sp + 1 }
      ∀ byte, Q [reading r' .stack r'.stackAddress byte] byte r' := Iff.rfl

end

/-! ## Steps made of several accesses -/

@[simp]
theorem every_readWord {Q : List (Exchange Registers) → Word → Registers → Prop}
    {purpose : Purpose} {lowAddress highAddress : Word} :
    Every Q (readWord purpose lowAddress highAddress) r ↔
      ∀ low high, Q [reading r purpose lowAddress low, reading r purpose highAddress high]
        (Word.ofBytes high low) r := by
  simp [readWord]

@[simp]
theorem every_popWord {Q : List (Exchange Registers) → Word → Registers → Prop} :
    Every Q popWord r ↔
      let r' := { r with sp := r.sp + 1 }
      let r'' := { r with sp := r.sp + 1 + 1 }
      ∀ low high, Q [reading r' .stack r'.stackAddress low, reading r'' .stack r''.stackAddress high]
        (Word.ofBytes high low) r'' := by
  simp [popWord]

section

variable {Q : List (Exchange Registers) → Unit → Registers → Prop}

@[simp]
theorem every_write {purpose : Purpose} {address : Word} {value : Byte} :
    Every Q (write purpose address value) r ↔ Q [writing r purpose address value] () r := Iff.rfl

@[simp]
theorem every_push {value : Byte} :
    Every Q (push value) r ↔
      Q [writing r .stack r.stackAddress value] () { r with sp := r.sp - 1 } := Iff.rfl

@[simp]
theorem every_pushCounter :
    Every Q pushCounter r ↔
      let r' := { r with sp := r.sp - 1 }
      Q [writing r .stack r.stackAddress (Word.high r.pc),
        writing r' .stack r'.stackAddress (Word.low r.pc)] () { r with sp := r.sp - 1 - 1 } :=
  Iff.rfl

@[simp]
theorem every_jumpVector {vector : Word} :
    Every Q (jumpVector vector) r ↔
      ∀ low high, Q [reading r .vector vector low, reading r .vector (vector + 1) high] ()
        { r with pc := Word.ofBytes high low } := by
  simp [jumpVector]

end

end Micro

end Spc700
