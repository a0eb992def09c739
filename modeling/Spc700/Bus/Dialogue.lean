import Spc700.Bus.Basic

/-!
# Dialogues with a bus

What an instruction does to the bus is a dialogue: it asks for an access, waits for the answer,
and goes on with it, until it is done. A dialogue is data and names no bus; `Dialogue.run` holds it
with one. Each request carries what has happened on the asking side so far, so that a refusal
leaves exactly that.

Main statements: `Dialogue.run_bind` (a dialogue followed by another is run in that order, and the
first refusal ends both) and the instance of `LawfulMonad`.
-/

namespace Spc700

/-- What the processor makes an access for. The bus does not see it. -/
inductive Purpose where
  /-- the opcode -/
  | opcode
  /-- a byte after the opcode that says where the operands are -/
  | operand
  /-- a byte of an address that is held in memory -/
  | pointer
  /-- the operand itself, a byte held after the opcode included -/
  | data
  /-- a push or a pop -/
  | stack
  /-- a byte of the address of a reset, break or call routine -/
  | vector
deriving DecidableEq, Repr

/-- A finite exchange with a bus that yields an `α`. At each request, `now` is
the state of the asking side. -/
inductive Dialogue (ρ α : Type) : Type where
  | done (result : α)
  | read (now : ρ) (purpose : Purpose) (address : Word) (next : Byte → Dialogue ρ α)
  | write (now : ρ) (purpose : Purpose) (address : Word) (value : Byte) (next : Dialogue ρ α)

/-- Where a refused access left the asking side. -/
structure Interruption (ρ : Type) where
  state : ρ
  error : BusError

namespace Dialogue

variable {ρ σ α β γ : Type}

/-- A dialogue whose result says how to go on. -/
def bind : Dialogue ρ α → (α → Dialogue ρ β) → Dialogue ρ β
  | done result, f => f result
  | read now purpose address next, f => read now purpose address fun byte => (next byte).bind f
  | write now purpose address value next, f => write now purpose address value (next.bind f)

instance : Monad (Dialogue ρ) where
  pure := done
  bind := bind

theorem bind_done (d : Dialogue ρ α) : d.bind done = d := by
  induction d with
  | done result => rfl
  | read now purpose address next ih => exact congrArg (read now purpose address) (funext ih)
  | write now purpose address value next ih => exact congrArg (write now purpose address value) ih

theorem bind_bind (d : Dialogue ρ α) (f : α → Dialogue ρ β) (g : β → Dialogue ρ γ) :
    (d.bind f).bind g = d.bind fun a => (f a).bind g := by
  induction d with
  | done result => rfl
  | read now purpose address next ih => exact congrArg (read now purpose address) (funext ih)
  | write now purpose address value next ih => exact congrArg (write now purpose address value) ih

instance : LawfulMonad (Dialogue ρ) :=
  LawfulMonad.mk' (Dialogue ρ) bind_done (fun _ _ => rfl) bind_bind

/-- The dialogue held with a bus, from a state of the host to the next. -/
def run (bus : Bus σ) : Dialogue ρ α → σ → Except (Interruption ρ) α × σ
  | done result, host => (.ok result, host)
  | read now _ address next, host =>
    match bus.read address host with
    | (.ok byte, host) => (next byte).run bus host
    | (.error error, host) => (.error { state := now, error }, host)
  | write now _ address value next, host =>
    match bus.write address value host with
    | (.ok (), host) => next.run bus host
    | (.error error, host) => (.error { state := now, error }, host)

theorem run_bind (bus : Bus σ) (d : Dialogue ρ α) (f : α → Dialogue ρ β) (host : σ) :
    (d >>= f).run bus host =
      match d.run bus host with
      | (.ok result, host) => (f result).run bus host
      | (.error interruption, host) => (.error interruption, host) := by
  show (d.bind f).run bus host = _
  induction d generalizing host with
  | done result => rfl
  | read now purpose address next ih =>
    rcases h : bus.read address host with ⟨_ | byte, host'⟩
    · simp [bind, run, h]
    · simp [bind, run, h, ih]
  | write now purpose address value next ih =>
    rcases h : bus.write address value host with ⟨_ | _, host'⟩
    · simp [bind, run, h]
    · simp [bind, run, h, ih]

end Dialogue

end Spc700
