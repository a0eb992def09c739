import Spc700.Proofs.Machine.Policy
import Spc700.Proofs.Microprogram.Blind

/-!
# Machines that differ in two flags

The break and the interrupt flag are kept for the program and mean nothing to the processor. Two
machines that differ in them only stay so, cycle by cycle, and do the same to the host, as long as
neither saves its flags to memory. The flags may also become the same again, when all of them are
loaded from the stack.

* `Machine.converse_alike`, `Machine.execute_alike`, `Machine.tick_alike`: a microprogram that is
  blind, an instruction that does not save the flags, and a cycle that begins none that does.
* `Machine.elapse_alike`: two machines over any number of cycles.

The log is left out: an event shows all registers, these flags among them.
-/

namespace Spc700

variable {σ α : Type}

namespace Machine

/-- Two machines that differ in the break flag, the interrupt flag and the log at most. -/
structure Alike (m m' : Machine σ) : Prop where
  registers : m.processor.registers.mask = m'.processor.registers.mask
  cyclesLeft : m.processor.cyclesLeft = m'.processor.cyclesLeft
  policy : m.processor.policy = m'.processor.policy
  halted : m.processor.halted = m'.processor.halted
  host : m.host = m'.host

/-- The next cycle begins an instruction that saves all flags as a byte. -/
structure SavesFlags (bus : Bus σ) (m : Machine σ) : Prop where
  ready : m.Ready
  opcode : ∃ opcode host, bus.read m.processor.registers.pc m.host = (.ok opcode, host) ∧
    (decode opcode).operation.savesFlags = true

namespace Alike

variable {m m' : Machine σ}

theorem pc (h : m.Alike m') : m.processor.registers.pc = m'.processor.registers.pc := by
  show m.processor.registers.mask.pc = m'.processor.registers.mask.pc
  rw [h.registers]

theorem begun (h : m.Alike m') (opcode : Byte) (host : σ) :
    (m.begun opcode host).Alike (m'.begun opcode host) where
  registers := congrArg (Registers.advance · 1) h.registers
  cyclesLeft := rfl
  policy := h.policy
  halted := h.halted
  host := rfl

theorem addCycles (h : m.Alike m') (extra : Nat) :
    (m.modify fun p => { p with cyclesLeft := p.cyclesLeft + extra }).Alike
      (m'.modify fun p => { p with cyclesLeft := p.cyclesLeft + extra }) where
  registers := h.registers
  cyclesLeft := congrArg (· + extra) h.cyclesLeft
  policy := h.policy
  halted := h.halted
  host := h.host

theorem wait (h : m.Alike m') : m.wait.Alike m'.wait where
  registers := h.registers
  cyclesLeft := congrArg (· - 1) h.cyclesLeft
  policy := h.policy
  halted := h.halted
  host := h.host

theorem handle (h : m.Alike m') (fault : Fault) :
    (m.handle fault).1 = (m'.handle fault).1 ∧ (m.handle fault).2.Alike (m'.handle fault).2 := by
  rcases hpolicy : m.processor.policy
  · rw [handle_of_skip fault hpolicy, handle_of_skip fault (h.policy ▸ hpolicy)]
    exact ⟨rfl, Alike.wait ⟨h.registers, h.cyclesLeft, h.policy, h.halted, h.host⟩⟩
  · rw [handle_of_halt fault hpolicy, handle_of_halt fault (h.policy ▸ hpolicy)]
    exact ⟨rfl, h.registers, h.cyclesLeft, h.policy, rfl, h.host⟩

end Alike

variable {bus : Bus σ} {m m' : Machine σ}

/-! ## One instruction -/

/-- **A blind program does the same on machines that are alike.** -/
theorem converse_alike (bus : Bus σ) {program : Micro α} (hblind : program.Blind) (h : m.Alike m') :
    (m.converse bus program).1 = (m'.converse bus program).1 ∧
      (m.converse bus program).2.Alike (m'.converse bus program).2 := by
  obtain ⟨processor, host⟩ := m
  obtain ⟨processor', host'⟩ := m'
  obtain ⟨hregisters, hcyclesLeft, hpolicy, hhalted, rfl⟩ := h
  have hview := congrArg (Dialogue.run bus · host) (hblind.view_eq hregisters)
  simp only [Micro.view, Dialogue.run_image] at hview
  -- Both runs end the same way, since they are the same once masked.
  rcases hrun : (program.run processor.registers).run bus host with
    ⟨⟨state, error⟩ | ⟨result, registers⟩, after⟩ <;>
  rcases hrun' : (program.run processor'.registers).run bus host with
    ⟨⟨state', error'⟩ | ⟨result', registers'⟩, after'⟩ <;>
  rw [hrun, hrun'] at hview <;>
  simp only [Prod.mk.injEq, Except.ok.injEq, Except.error.injEq, Interruption.mk.injEq,
    reduceCtorEq, false_and] at hview
  case error.error =>
    obtain ⟨⟨hstate, rfl⟩, rfl⟩ := hview
    rw [converse_of_error hrun, converse_of_error hrun']
    exact ⟨rfl, hstate, hcyclesLeft, hpolicy, hhalted, rfl⟩
  case ok.ok =>
    obtain ⟨⟨rfl, hmasked⟩, rfl⟩ := hview
    rw [converse_of_ok hrun, converse_of_ok hrun']
    exact ⟨rfl, hmasked, hcyclesLeft, hpolicy, hhalted, rfl⟩

/-- An instruction once its opcode has been read. -/
theorem execute_of_read {opcode : Byte} {host : σ}
    (hread : bus.read m.processor.registers.pc m.host = (.ok opcode, host)) :
    m.execute bus =
      match (m.begun opcode host).converse bus (decode opcode).perform with
      | (.ok extra, m') => (.ok (), m'.modify fun p => { p with cyclesLeft := p.cyclesLeft + extra })
      | (.error error, m') => (.error (.fault (m.fault opcode error)), m') := by
  simp only [execute, converse_fetch hread, modify_report_eq_begun]
  rfl

/-- **An instruction that does not save the flags does the same on machines that are alike.** -/
theorem execute_alike (bus : Bus σ) (h : m.Alike m')
    (hsaves : ∀ opcode host, bus.read m.processor.registers.pc m.host = (.ok opcode, host) →
      (decode opcode).operation.savesFlags = false) :
    (m.execute bus).1 = (m'.execute bus).1 ∧ (m.execute bus).2.Alike (m'.execute bus).2 := by
  have hsame : bus.read m'.processor.registers.pc m'.host =
      bus.read m.processor.registers.pc m.host := by
    rw [h.pc, h.host]
  rcases hread : bus.read m.processor.registers.pc m.host with ⟨error | opcode, host⟩
  · rw [execute_of_unread hread, execute_of_unread (hsame.trans hread)]
    exact ⟨rfl, h.registers, h.cyclesLeft, h.policy, h.halted, rfl⟩
  · have hblind := Instruction.perform_blind (hsaves opcode host hread)
    have hperform := converse_alike bus hblind (h.begun opcode host)
    rw [execute_of_read hread, execute_of_read (hsame.trans hread)]
    rcases hrun : (m.begun opcode host).converse bus (decode opcode).perform with ⟨outcome, after⟩
    rcases hrun' : (m'.begun opcode host).converse bus (decode opcode).perform with
      ⟨outcome', after'⟩
    rw [hrun, hrun'] at hperform
    obtain ⟨houtcome, halike⟩ := hperform
    obtain rfl : outcome = outcome' := houtcome
    rcases outcome with error | extra
    · refine ⟨?_, halike⟩
      show Except.error (Stop.fault (m.fault opcode error)) = .error (.fault (m'.fault opcode error))
      unfold fault
      rw [h.pc]
    · exact ⟨rfl, halike.addCycles extra⟩

/-! ## Cycles -/

/-- **A cycle that does not begin to save the flags does the same on machines that are alike.** -/
theorem tick_alike (h : m.Alike m') (hsaves : ¬ m.SavesFlags bus) :
    (m.tick bus).1 = (m'.tick bus).1 ∧ (m.tick bus).2.Alike (m'.tick bus).2 := by
  rcases hhalted : m.processor.halted with _ | fault
  · have hhalted' : m'.processor.halted = none := h.halted ▸ hhalted
    by_cases hcycles : m.processor.cyclesLeft = 0
    · have hready : m.Ready := ⟨hhalted, hcycles⟩
      have hready' : m'.Ready := ⟨hhalted', h.cyclesLeft ▸ hcycles⟩
      have hexecute := execute_alike bus h fun opcode host hread => by
        cases hsave : (decode opcode).operation.savesFlags with
        | false => rfl
        | true => exact absurd ⟨hready, opcode, host, hread, hsave⟩ hsaves
      rw [tick_of_ready hready, tick_of_ready hready']
      rcases hrun : m.execute bus with ⟨outcome, after⟩
      rcases hrun' : m'.execute bus with ⟨outcome', after'⟩
      rw [hrun, hrun'] at hexecute
      obtain ⟨houtcome, halike⟩ := hexecute
      obtain rfl : outcome = outcome' := houtcome
      rcases outcome with (fault | error) | _
      · exact halike.handle fault
      · exact ⟨rfl, halike⟩
      · exact ⟨rfl, halike.wait⟩
    · have hcycles' : m'.processor.cyclesLeft ≠ 0 := h.cyclesLeft ▸ hcycles
      rw [tick_of_waiting bus hhalted hcycles, tick_of_waiting bus hhalted' hcycles']
      exact ⟨rfl, h.wait⟩
  · have hhalted' : m'.processor.halted = some fault := h.halted ▸ hhalted
    rw [tick_of_halted bus hhalted, tick_of_halted bus hhalted']
    exact ⟨rfl, h⟩

/-- **The break and the interrupt flag are never consulted.** Let two machines differ in these
flags only, and let a record of all accesses be kept. Over any number of cycles none of which
begins to save the flags, they differ in these flags only, so that the processors have the same
registers, the same count and the same halt and the hosts have seen the same accesses, and each
cycle ends alike in both. -/
theorem elapse_alike (bus : Bus σ) {m m' : Machine (Recorded σ)} {n : Nat} (h : m.Alike m')
    (hsaves : ∀ i < n, ¬ (m.elapse bus.recorded i).SavesFlags bus.recorded) :
    (∀ i ≤ n, (m.elapse bus.recorded i).Alike (m'.elapse bus.recorded i)) ∧
      ∀ i < n, ((m.elapse bus.recorded i).tick bus.recorded).1 =
        ((m'.elapse bus.recorded i).tick bus.recorded).1 := by
  have halike : ∀ i ≤ n, (m.elapse bus.recorded i).Alike (m'.elapse bus.recorded i) := by
    intro i
    induction i with
    | zero => exact fun _ => h
    | succ i ih =>
      intro hi
      exact (tick_alike (ih (Nat.le_of_succ_le hi)) (hsaves i hi)).2
  refine ⟨halike, ?_⟩
  intro i hi
  exact (tick_alike (halike i (Nat.le_of_lt hi)) (hsaves i hi)).1

/-- A host that answers each read with a pop of the flags. -/
def restoringBus : Bus Unit where
  read _ host := (.ok 0x8E, host)
  write _ _ host := (.ok (), host)

/-- Two machines one of which has the break and the interrupt flag set, while the flags are loaded
from the stack: then they have the same flags. -/
theorem elapse_alike_of_restoringBus :
    let m : Machine (Recorded Unit) :=
      { processor := { registers := { psw := { brk := true, interrupt := true } } }
        host := { host := () } }
    let m' : Machine (Recorded Unit) := { processor := {}, host := { host := () } }
    m.Alike m' ∧ (∀ i < 5, ¬ (m.elapse restoringBus.recorded i).SavesFlags restoringBus.recorded) ∧
      (m.elapse restoringBus.recorded 5).processor.registers.psw =
        (m'.elapse restoringBus.recorded 5).processor.registers.psw ∧
      (∀ i ≤ 5, (m.elapse restoringBus.recorded i).Alike (m'.elapse restoringBus.recorded i)) ∧
      ∀ i < 5, ((m.elapse restoringBus.recorded i).tick restoringBus.recorded).1 =
        ((m'.elapse restoringBus.recorded i).tick restoringBus.recorded).1 := by
  intro m m'
  have halike : m.Alike m' := ⟨rfl, rfl, rfl, rfl, rfl⟩
  have hsaves : ∀ i < 5,
      ¬ (m.elapse restoringBus.recorded i).SavesFlags restoringBus.recorded := by
    rintro i - ⟨-, opcode, host, hread, hsave⟩
    obtain rfl : 0x8E = opcode := Except.ok.inj (Prod.mk.inj hread).1
    exact absurd hsave (by decide)
  exact ⟨halike, hsaves, by decide, elapse_alike restoringBus halike hsaves⟩

end Machine

end Spc700
