import Spc700.Machine.Run
import Spc700.Proofs.Microprogram.Execute

/-!
# What one cycle does

A cycle either finds the processor halted, or waits, or begins an instruction. An instruction that
begins is either completed or cut at the first exchange that the bus refuses, unless its opcode
cannot be read at all. `Machine.Cycle` has a case for each, with the exchanges that took place and
the machine that is left, and `Machine.tick_cycle` says that there is no other. What a cycle keeps
is proved by cases on it; no later proof opens `Machine.tick`.
-/

namespace Spc700

variable {σ : Type}

/-- All of an instruction after its opcode, from registers that stand on the opcode. -/
def Instruction.dialogue (instruction : Instruction) (r : Registers) :
    Dialogue Registers (Nat × Registers) :=
  instruction.perform.run (r.advance 1)

namespace Machine

/-- The processor is about to fetch an opcode. -/
def Ready (m : Machine σ) : Prop := m.processor.halted = none ∧ m.processor.cyclesLeft = 0

/-- The machine once an opcode has been read: the opcode is reported, the count is loaded and the
program counter has passed the opcode. -/
def begun (m : Machine σ) (opcode : Byte) (host : σ) : Machine σ where
  processor :=
    { m.processor with
      registers := m.processor.registers.advance 1
      cyclesLeft := (decode opcode).cycles
      log := m.processor.log.push
        (.began m.processor.registers.pc opcode (m.processor.registers.advance 1)) }
  host

/-- The machine after the whole instruction. -/
def completed (m : Machine σ) (opcode : Byte) (extra : Nat) (registers : Registers) (host : σ) :
    Machine σ :=
  (m.begun opcode host).modify fun p =>
    { p with registers, cyclesLeft := p.cyclesLeft + extra }

/-- The machine after an instruction that was cut at an exchange: the registers stay as they were
when the exchange was asked for. -/
def cut (m : Machine σ) (opcode : Byte) (e : Exchange Registers) (host : σ) : Machine σ :=
  (m.begun opcode host).modify fun p => { p with registers := e.now }

/-- The fault of an instruction that the bus did not let finish. -/
def fault (m : Machine σ) (opcode : Byte) (error : BusError) : Fault where
  opcode
  pc := m.processor.registers.pc
  detail := error.detail

/-! ## Running microprograms -/

section

variable {bus : Bus σ} {m : Machine σ} {host : σ} {α : Type} {program : Micro α}

theorem converse_of_ok {result : α} {registers : Registers}
    (h : (program.run m.processor.registers).run bus m.host = (.ok (result, registers), host)) :
    m.converse bus program =
      (.ok result, { processor := { m.processor with registers }, host }) := by
  obtain ⟨processor, host₀⟩ := m
  simp only [converse, h]

theorem converse_of_error {state : Registers} {error : BusError}
    (h : (program.run m.processor.registers).run bus m.host = (.error { state, error }, host)) :
    m.converse bus program =
      (.error error, { processor := { m.processor with registers := state }, host }) := by
  obtain ⟨processor, host₀⟩ := m
  simp only [converse, h]

end

/-! ## One instruction -/

section

variable {bus : Bus σ} {m : Machine σ} {opcode : Byte} {host host' : σ}

theorem run_fetch (r : Registers) :
    (Micro.fetch .opcode).run r =
      .read r .opcode r.pc fun byte => .done (byte, r.advance 1) := rfl

theorem execute_of_unread {error : BusError}
    (hread : bus.read m.processor.registers.pc m.host = (.error error, host)) :
    m.execute bus = (.error (.refused error), { m with host }) := by
  have hfetch : m.converse bus (Micro.fetch .opcode) = (.error error, { m with host }) := by
    apply converse_of_error
    simp only [run_fetch, Dialogue.run, hread]
  simp only [execute, hfetch]

theorem converse_fetch (hread : bus.read m.processor.registers.pc m.host = (.ok opcode, host)) :
    m.converse bus (Micro.fetch .opcode) =
      (.ok opcode, { processor :=
        { m.processor with registers := m.processor.registers.advance 1 }, host }) := by
  apply converse_of_ok
  simp only [run_fetch, Dialogue.run, hread]

/-- The steps by which an instruction is begun, in the order in which `Machine.execute` takes
them. -/
theorem modify_report_eq_begun (m : Machine σ) (opcode : Byte) (host : σ) :
    (report (.began m.processor.registers.pc opcode (m.processor.registers.advance 1))
      { processor := { m.processor with registers := m.processor.registers.advance 1 }
        host }).modify (fun p => { p with cyclesLeft := (decode opcode).cycles }) =
      m.begun opcode host := rfl

theorem execute_of_ok (hread : bus.read m.processor.registers.pc m.host = (.ok opcode, host))
    {extra : Nat} {registers : Registers}
    (hrun : ((decode opcode).dialogue m.processor.registers).run bus host =
      (.ok (extra, registers), host')) :
    m.execute bus = (.ok (), m.completed opcode extra registers host') := by
  have hrest : (m.begun opcode host).converse bus (decode opcode).perform =
      (.ok extra, { processor := { (m.begun opcode host).processor with registers }, host := host' }) :=
    converse_of_ok hrun
  simp only [execute, converse_fetch hread, modify_report_eq_begun, hrest]
  rfl

theorem execute_of_error (hread : bus.read m.processor.registers.pc m.host = (.ok opcode, host))
    {e : Exchange Registers} {error : BusError}
    (hrun : ((decode opcode).dialogue m.processor.registers).run bus host =
      (.error { state := e.now, error }, host')) :
    m.execute bus = (.error (.fault (m.fault opcode error)), m.cut opcode e host') := by
  have hrest : (m.begun opcode host).converse bus (decode opcode).perform =
      (.error error,
        { processor := { (m.begun opcode host).processor with registers := e.now },
          host := host' }) :=
    converse_of_error hrun
  simp only [execute, converse_fetch hread, modify_report_eq_begun, hrest]
  rfl

/-- **Every instruction ends in one of three ways**: its opcode cannot be read, or it is completed,
or it is cut at the first exchange that the bus refuses. -/
theorem execute_cases (bus : Bus σ) (m : Machine σ) :
    (∃ error host, bus.read m.processor.registers.pc m.host = (.error error, host) ∧
      m.execute bus = (.error (.refused error), { m with host })) ∨
    (∃ opcode es extra registers host₀ host₁,
      bus.read m.processor.registers.pc m.host = (.ok opcode, host₀) ∧
      ((decode opcode).dialogue m.processor.registers).Admits es (extra, registers) ∧
      bus.GrantsAll es host₀ host₁ ∧
      m.execute bus = (.ok (), m.completed opcode extra registers host₁)) ∨
    (∃ opcode before e after result error host₀ host₁ host₂,
      bus.read m.processor.registers.pc m.host = (.ok opcode, host₀) ∧
      ((decode opcode).dialogue m.processor.registers).Admits (before ++ e :: after) result ∧
      bus.GrantsAll before host₀ host₁ ∧ bus.Refuses e host₁ error host₂ ∧
      m.execute bus = (.error (.fault (m.fault opcode error)), m.cut opcode e host₂)) := by
  rcases hread : bus.read m.processor.registers.pc m.host with ⟨error | opcode, host₀⟩
  · exact .inl ⟨error, host₀, rfl, execute_of_unread hread⟩
  · rcases Dialogue.run_cases bus ((decode opcode).dialogue m.processor.registers) host₀ with
      ⟨es, ⟨extra, registers⟩, host₁, hd, hg, hrun⟩ |
      ⟨before, e, after, result, host₁, error, host₂, hd, hg, hr, hrun⟩
    · exact .inr (.inl ⟨opcode, es, extra, registers, host₀, host₁, rfl, hd, hg,
        execute_of_ok hread hrun⟩)
    · exact .inr (.inr ⟨opcode, before, e, after, result, error, host₀, host₁, host₂, rfl, hd, hg,
        hr, execute_of_error hread hrun⟩)

end

/-! ## Handling a fault -/

theorem handle_of_skip {m : Machine σ} (fault : Fault) (h : m.processor.policy = .skip) :
    m.handle fault = (.ok (), (m.report (.skipped fault)).wait) := by
  simp only [handle, h]

theorem handle_of_halt {m : Machine σ} (fault : Fault) (h : m.processor.policy = .halt) :
    m.handle fault =
      (.error (.fault fault),
        (m.report (.halted fault)).modify fun p => { p with halted := some fault }) := by
  simp only [handle, h]

/-- Whatever the policy, handling a fault keeps the registers, the policy and the host. -/
theorem handle_frame (m : Machine σ) (fault : Fault) :
    (m.handle fault).2.processor.registers = m.processor.registers ∧
      (m.handle fault).2.processor.policy = m.processor.policy ∧
      (m.handle fault).2.host = m.host := by
  rcases hpolicy : m.processor.policy
  · rw [handle_of_skip fault hpolicy]
    exact ⟨rfl, hpolicy, rfl⟩
  · rw [handle_of_halt fault hpolicy]
    exact ⟨rfl, hpolicy, rfl⟩

/-! ## One cycle -/

section

variable {bus : Bus σ} {m : Machine σ} {opcode : Byte} {host host₀ host₁ host₂ : σ}
  {before after es : List (Exchange Registers)} {e : Exchange Registers} {error : BusError}

theorem tick_of_ready (hready : m.Ready) :
    m.tick bus =
      match m.execute bus with
      | (.ok (), m') => (.ok (), m'.wait)
      | (.error (.fault fault), m') => m'.handle fault
      | (.error (.refused error), m') => (.error (.refused error), m') := by
  obtain ⟨hhalted, hcycles⟩ := hready
  unfold tick
  rw [hhalted]
  exact if_pos hcycles

/-- The cycle of an opcode that cannot be read. -/
theorem tick_of_unread (hready : m.Ready)
    (hread : bus.read m.processor.registers.pc m.host = (.error error, host)) :
    m.tick bus = (.error (.refused error), { m with host }) := by
  rw [tick_of_ready hready, execute_of_unread hread]

/-- The cycle that completes an instruction. -/
theorem tick_of_grantsAll {extra : Nat} {registers : Registers} (hready : m.Ready)
    (hread : bus.read m.processor.registers.pc m.host = (.ok opcode, host))
    (hd : ((decode opcode).dialogue m.processor.registers).Admits es (extra, registers))
    (hg : bus.GrantsAll es host host₁) :
    m.tick bus = (.ok (), (m.completed opcode extra registers host₁).wait) := by
  rw [tick_of_ready hready, execute_of_ok hread (Dialogue.run_of_grantsAll hd hg)]

/-- The cycle of an instruction that is cut. -/
theorem tick_of_refuses {result : Nat × Registers} (hready : m.Ready)
    (hread : bus.read m.processor.registers.pc m.host = (.ok opcode, host₀))
    (hd : ((decode opcode).dialogue m.processor.registers).Admits (before ++ e :: after) result)
    (hg : bus.GrantsAll before host₀ host₁) (hr : bus.Refuses e host₁ error host₂) :
    m.tick bus = (m.cut opcode e host₂).handle (m.fault opcode error) := by
  rw [tick_of_ready hready, execute_of_error hread (Dialogue.run_of_refuses hd hg hr)]

end

/-- How a cycle can end, and in which machine. -/
inductive Cycle (bus : Bus σ) (m : Machine σ) : Except Stop Unit → Machine σ → Prop where
  /-- a halted processor does nothing -/
  | halted {fault : Fault} (hhalted : m.processor.halted = some fault) :
      Cycle bus m (.error (.fault fault)) m
  /-- the instruction under way takes another cycle -/
  | waiting (hhalted : m.processor.halted = none) (hcycles : m.processor.cyclesLeft ≠ 0) :
      Cycle bus m (.ok ()) m.wait
  /-- the opcode cannot be read -/
  | unread {error : BusError} {host : σ} (hready : m.Ready)
      (hread : bus.read m.processor.registers.pc m.host = (.error error, host)) :
      Cycle bus m (.error (.refused error)) { m with host }
  /-- an instruction is completed -/
  | completed {opcode : Byte} {es : List (Exchange Registers)} {extra : Nat}
      {registers : Registers} {host₀ host₁ : σ} (hready : m.Ready)
      (hread : bus.read m.processor.registers.pc m.host = (.ok opcode, host₀))
      (hd : ((decode opcode).dialogue m.processor.registers).Admits es (extra, registers))
      (hg : bus.GrantsAll es host₀ host₁) :
      Cycle bus m (.ok ()) (m.completed opcode extra registers host₁).wait
  /-- an instruction is cut at an exchange and the policy decides -/
  | refused {opcode : Byte} {before after : List (Exchange Registers)} {e : Exchange Registers}
      {result : Nat × Registers} {error : BusError} {host₀ host₁ host₂ : σ} (hready : m.Ready)
      (hread : bus.read m.processor.registers.pc m.host = (.ok opcode, host₀))
      (hd : ((decode opcode).dialogue m.processor.registers).Admits (before ++ e :: after) result)
      (hg : bus.GrantsAll before host₀ host₁) (hr : bus.Refuses e host₁ error host₂) :
      Cycle bus m ((m.cut opcode e host₂).handle (m.fault opcode error)).1
        ((m.cut opcode e host₂).handle (m.fault opcode error)).2

/-- **Every cycle is of one of these kinds.** -/
theorem tick_cycle (bus : Bus σ) (m : Machine σ) :
    Cycle bus m (m.tick bus).1 (m.tick bus).2 := by
  rcases hhalted : m.processor.halted with _ | fault
  · by_cases hcycles : m.processor.cyclesLeft = 0
    · have hready : m.Ready := ⟨hhalted, hcycles⟩
      rcases hread : bus.read m.processor.registers.pc m.host with ⟨error | opcode, host₀⟩
      · rw [tick_of_unread hready hread]
        exact .unread hready hread
      · -- The instruction goes as the dialogue with the bus goes: to its end, or up to a refusal.
        rcases Dialogue.run_cases bus ((decode opcode).dialogue m.processor.registers) host₀ with
          ⟨es, ⟨extra, registers⟩, host₁, hd, hg, -⟩ |
          ⟨before, e, after, result, host₁, error, host₂, hd, hg, hr, -⟩
        · rw [tick_of_grantsAll hready hread hd hg]
          exact .completed hready hread hd hg
        · rw [tick_of_refuses hready hread hd hg hr]
          exact .refused hready hread hd hg hr
    · rw [tick_of_waiting bus hhalted hcycles]
      exact .waiting hhalted hcycles
  · rw [tick_of_halted bus hhalted]
    exact .halted hhalted

end Machine

end Spc700
