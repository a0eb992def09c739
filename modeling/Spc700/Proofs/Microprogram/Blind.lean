import Spc700.Microprogram.Execute

/-!
# Flags that are not looked at

The break and the interrupt flag are set, cleared, saved and restored, and nothing is decided by
them. `Registers.mask` clears both. A microprogram is `Blind` if it goes on masked registers as it
goes on the registers themselves, once the registers that it carries along are masked too:
the same requests, and the same yield. What saves all flags as a byte is not blind; all else is.

* `Dialogue.image_bind`: a dialogue and what follows it are masked one after the other.
* `Instruction.perform_blind`: every instruction that does not save the flags is blind.
-/

namespace Spc700

variable {ρ ρ' σ α β α' β' : Type}

/-! ## Dialogues under a change of state -/

namespace Dialogue

/-- The dialogue with the states of the asking side and the yield changed. The requests stay. -/
def image (f : ρ → ρ') (g : α → α') : Dialogue ρ α → Dialogue ρ' α'
  | done result => done (g result)
  | read now purpose address next => read (f now) purpose address fun byte => (next byte).image f g
  | write now purpose address value next => write (f now) purpose address value (next.image f g)

theorem image_bind (d : Dialogue ρ α) {f : ρ → ρ'} {g : α → α'} {g' : β → β'}
    {k : α → Dialogue ρ β} {k' : α' → Dialogue ρ' β'} (hk : ∀ a, (k a).image f g' = k' (g a)) :
    (d.bind k).image f g' = (d.image f g).bind k' := by
  induction d with
  | done result => exact hk result
  | read now purpose address next ih => exact congrArg (read (f now) purpose address) (funext ih)
  | write now purpose address value next ih =>
    exact congrArg (write (f now) purpose address value) ih

/-- The bus does not see the states of the asking side. -/
theorem run_image (bus : Bus σ) (d : Dialogue ρ α) (f : ρ → ρ') (g : α → α') (host : σ) :
    (d.image f g).run bus host =
      match d.run bus host with
      | (.ok result, host) => (.ok (g result), host)
      | (.error { state, error }, host) => (.error { state := f state, error }, host) := by
  induction d generalizing host with
  | done result => rfl
  | read now purpose address next ih =>
    rcases h : bus.read address host with ⟨error | byte, host'⟩
    · simp only [image, run, h]
    · simp only [image, run, h, ih]
  | write now purpose address value next ih =>
    rcases h : bus.write address value host with ⟨error | _, host'⟩
    · simp only [image, run, h]
    · simp only [image, run, h, ih]

end Dialogue

/-! ## Masked registers -/

/-- The flags without the break and the interrupt flag. -/
def Flags.mask (f : Flags) : Flags := { f with brk := false, interrupt := false }

/-- The registers with the break and the interrupt flag cleared. -/
def Registers.mask (r : Registers) : Registers := { r with psw := r.psw.mask }

namespace Micro

/-- A microprogram from the registers `r`, with all registers that it carries along masked. -/
def view (program : Micro α) (r : Registers) : Dialogue Registers (α × Registers) :=
  (program.run r).image Registers.mask fun (result, r') => (result, r'.mask)

/-- Masking the registers changes nothing that can be seen of the microprogram but those two
flags. -/
def Blind (program : Micro α) : Prop := ∀ r, program.view r.mask = program.view r

theorem Blind.view_eq {program : Micro α} (h : program.Blind) {r r' : Registers}
    (hr : r.mask = r'.mask) : program.view r = program.view r' := by
  rw [← h r, ← h r', hr]

/-- **Blind programs in a row are blind.** -/
theorem Blind.bind {program : Micro α} {next : α → Micro β} (h : program.Blind)
    (hnext : ∀ a, (next a).Blind) : (program >>= next).Blind := by
  intro r
  -- What follows sees the registers masked, on either side.
  have hrest : ∀ a : α × Registers,
      ((next a.1).run a.2).image Registers.mask (fun (b, r') => (b, r'.mask)) =
        (next a.1).view a.2.mask :=
    fun a => (hnext a.1 a.2).symm
  have hsplit : ∀ r, (program >>= next).view r =
      (program.view r).bind fun a => (next a.1).view a.2 :=
    fun r => Dialogue.image_bind (program.run r) hrest
  rw [hsplit, hsplit, h r]

theorem blind_read (purpose : Purpose) (address : Word) : (Micro.read purpose address).Blind :=
  fun _ => rfl

theorem blind_write (purpose : Purpose) (address : Word) (value : Byte) :
    (Micro.write purpose address value).Blind :=
  fun _ => rfl

/-- A program that looks at registers which masking keeps. -/
theorem blind_get_bind (look : Registers → α) {next : α → Micro β}
    (hlook : ∀ r, look r.mask = look r) (hnext : ∀ a, (next a).Blind) :
    (do next (look (← get))).Blind := by
  intro r
  show (next (look r.mask)).view r.mask = (next (look r)).view r
  rw [hlook]
  exact hnext (look r) r

end Micro

open Micro

/-! ## Instructions -/

theorem AddressingMode.resolve_blind (mode : AddressingMode) : mode.resolve.Blind := by
  intro r
  cases mode <;> rfl

theorem Operation.branchIf_blind (taken : Bool) (o : Operands) : (branchIf taken o).Blind := by
  intro r
  cases taken <;> rfl

/-- The operations that save all flags as one byte. -/
def Operation.savesFlags : Operation → Bool
  | pushFlags | softwareBreak => true
  | _ => false

/-- **An operation that does not save the flags is blind.** -/
theorem Operation.execute_blind {operation : Operation} (h : operation.savesFlags = false)
    (o : Operands) : (operation.execute o).Blind := by
  cases operation with
  | pushFlags | softwareBreak => cases h
  -- Branches: what the condition is computed from is not masked.
  | branch c =>
    refine blind_get_bind (fun r => c.holds r.psw) ?_ fun taken => branchIf_blind taken o
    intro r
    cases c <;> rfl
  | branchBit bit on => exact (blind_read _ _).bind fun value => branchIf_blind _ o
  | branchDifferent =>
    refine (blind_read _ _).bind fun value => ?_
    exact blind_get_bind (fun r => r.a != value) (fun r => rfl) fun taken =>
      branchIf_blind taken o
  | branchCount =>
    exact (blind_read _ _).bind fun value => (blind_write _ _ _).bind fun _ => branchIf_blind _ o
  | branchCountY =>
    have hcount : (modify fun r => { r with y := r.y - 1 } : Micro Unit).Blind := fun r => rfl
    exact hcount.bind fun _ =>
      blind_get_bind (fun r => r.y != 0) (fun r => rfl) fun taken => branchIf_blind taken o
  -- A register, or a function of the flags, that the operation names.
  | compare n | push n | load n | pop n =>
    intro r
    cases n <;> rfl
  | arithmetic f | arithmeticMemory f | shift f | shiftAccumulator f | arithmeticWord f =>
    intro r
    cases f <;> rfl
  | stepRegister f n =>
    intro r
    cases n <;> rfl
  | store n probe =>
    intro r
    cases n <;> cases probe <;> rfl
  | move probe =>
    intro r
    cases probe <;> rfl
  | transfer source target =>
    intro r
    cases source <;> cases target <;> rfl
  | _ =>
    intro r
    rfl

/-- **An instruction that does not save the flags is blind.** -/
theorem Instruction.perform_blind {instruction : Instruction}
    (h : instruction.operation.savesFlags = false) : instruction.perform.Blind :=
  instruction.mode.resolve_blind.bind fun o => Operation.execute_blind h o

end Spc700
