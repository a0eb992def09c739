import Spc700.Machine.Run

/-!
# What a host does with its machine

A host clocks its machine, resets it, loads its registers, sets its policy and uses the bus and its
own memory as it likes. `HostAction` has a case for each, and `Machine.after` is the machine after
any sequence of them. An action that fails is over, and the next one finds the machine as the
failure left it.
-/

namespace Spc700

variable {σ : Type}

/-- One thing that a host does. Whatever it does to its own memory, past the bus, is a `change`. -/
inductive HostAction (σ : Type) where
  | tick
  | clock (cycles : Nat)
  | reset
  | restore (registers : Registers)
  | setPolicy (policy : FaultPolicy)
  | read (address : Word)
  | write (address : Word) (value : Byte)
  | change (f : σ → σ)

/-- What an access by the host comes to: a refusal is not the processor's. -/
def stopped {α : Type} : Except BusError α × Machine σ → Except Stop Unit × Machine σ
  | (.ok _, m) => (.ok (), m)
  | (.error error, m) => (.error (.refused error), m)

/-- How an action ends, and in which machine. -/
def HostAction.perform (bus : Bus σ) (m : Machine σ) : HostAction σ →
    Except Stop Unit × Machine σ
  | tick => m.tick bus
  | clock cycles => m.clock bus cycles
  | reset => stopped (m.reset bus)
  | restore registers => (.ok (), m.restore registers)
  | setPolicy policy => (.ok (), m.setPolicy policy)
  | read address => stopped (m.read bus address)
  | write address value => stopped (m.write bus address value)
  | change f => (.ok (), m.modifyHost f)

theorem stopped_machine {α : Type} (answer : Except BusError α × Machine σ) :
    (stopped answer).2 = answer.2 := by
  rcases answer with ⟨error | value, m⟩ <;> rfl

namespace Machine

variable {bus : Bus σ} {m : Machine σ}

/-- The machine after a sequence of actions. -/
def after (bus : Bus σ) : List (HostAction σ) → Machine σ → Machine σ
  | [], m => m
  | action :: actions, m => after bus actions (action.perform bus m).2

/-! ## Resets -/

/-- Both bytes of the reset vector can be read. -/
def CanReset (bus : Bus σ) (m : Machine σ) : Prop :=
  ∃ low high host host', bus.read Micro.resetVector m.host = (.ok low, host) ∧
    bus.read (Micro.resetVector + 1) host = (.ok high, host')

/-- A reset succeeds if and only if its vector can be read. -/
theorem reset_ok_iff : (m.reset bus).1 = .ok () ↔ m.CanReset bus := by
  constructor
  · intro h
    rcases hl : bus.read Micro.resetVector m.host with ⟨error | low, host⟩
    · simp only [reset, converse, Micro.run_reset, Dialogue.run, hl, reduceCtorEq] at h
    · rcases hh : bus.read (Micro.resetVector + 1) host with ⟨error | high, host'⟩
      · simp only [reset, converse, Micro.run_reset, Dialogue.run, hl, hh, reduceCtorEq] at h
      · exact ⟨low, high, host, host', hl, hh⟩
  · rintro ⟨low, high, host, host', hl, hh⟩
    rw [reset_of_vector hl hh]

/-- A reset that fails changes registers only. -/
theorem reset_of_not_canReset (h : ¬ m.CanReset bus) :
    ∃ error, (m.reset bus).1 = .error error ∧ (m.reset bus).2.processor =
      { m.processor with registers := { pc := m.processor.registers.pc } } := by
  rcases hreset : m.reset bus with ⟨error | _, m'⟩
  · exact ⟨error, rfl, reset_of_error hreset⟩
  · exact absurd (reset_ok_iff.mp (by rw [hreset])) h

/-! ## Accesses by the host -/

theorem read_processor (address : Word) : (m.read bus address).2.processor = m.processor := by
  obtain ⟨processor, host⟩ := m
  rfl

theorem write_processor (address : Word) (value : Byte) :
    (m.write bus address value).2.processor = m.processor := by
  obtain ⟨processor, host⟩ := m
  rfl

theorem modifyHost_processor (f : σ → σ) : (m.modifyHost f).processor = m.processor := by
  obtain ⟨processor, host⟩ := m
  rfl

end Machine

end Spc700
