import Spc700.Proofs.Machine.Cycle
import Spc700.Proofs.Microprogram.Frame

/-!
# What a completed instruction leaves alone

`Instruction.Frame` for the machine: between the registers on which an instruction begins and those
that it leaves, whatever the host does on an access (`Machine.execute_frame`). Only an instruction
that is completed is framed as a whole. One that is cut leaves the registers as they stood at the
refused exchange, with pushes done that its frame counts together with those still to come.
-/

namespace Spc700

variable {σ : Type}

namespace Machine

/-- **A completed instruction keeps to its frame**: of the registers beside the program counter and
of the flags it has changed those only that its opcode can change. -/
theorem execute_frame {bus : Bus σ} {m m' : Machine σ} (h : m.execute bus = (.ok (), m')) :
    ∃ opcode host, bus.read m.processor.registers.pc m.host = (.ok opcode, host) ∧
      (decode opcode).Frame m.processor.registers m'.processor.registers := by
  rcases execute_cases bus m with ⟨error, host, hread, hexecute⟩ |
    ⟨opcode, es, extra, registers, host₀, host₁, hread, hd, hg, hexecute⟩ |
    ⟨opcode, before, e, after, result, error, host₀, host₁, host₂, hread, hd, hg, hr, hexecute⟩
  · rw [hexecute] at h
    cases h
  · rw [hexecute] at h
    obtain rfl : m.completed opcode extra registers host₁ = m' := (Prod.mk.inj h).2
    refine ⟨opcode, host₀, hread, ?_⟩
    have hframe := Instruction.every_perform_frame opcode (m.processor.registers.advance 1)
    exact (Dialogue.every_iff.mp hframe es (extra, registers) hd).of_advance
  · rw [hexecute] at h
    cases h

/-- A host that answers each read with a push of the flags and forgets what is written. -/
def pushingBus : Bus Unit where
  read _ host := (.ok 0x0D, host)
  write _ _ host := (.ok (), host)

/-- A push with the stack pointer at the foot of its page: the pointer goes round to the top, and
the flags stay. -/
theorem execute_frame_of_pushingBus :
    let m : Machine Unit :=
      { processor := { registers := { psw := { carry := true } } }, host := () }
    ∃ m', m.execute pushingBus = (.ok (), m') ∧
      m'.processor.registers = { sp := 0xFF, pc := 1, psw := { carry := true } } ∧
      ∃ host, pushingBus.read 0 m.host = (.ok 0x0D, host) ∧
        (decode 0x0D).Frame m.processor.registers m'.processor.registers := by
  intro m
  have hexecute : m.execute pushingBus = (.ok (), (m.execute pushingBus).2) := rfl
  obtain ⟨opcode, host, hread, hframe⟩ := execute_frame hexecute
  obtain rfl : 0x0D = opcode := Except.ok.inj (Prod.mk.inj hread).1
  exact ⟨_, hexecute, rfl, host, hread, hframe⟩

end Machine

end Spc700
