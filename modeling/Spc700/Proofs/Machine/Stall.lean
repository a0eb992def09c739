import Spc700.Proofs.Machine.Loop

/-!
# Instructions that stall

Two instructions wait for an interrupt, and nothing interrupts this processor. Each takes the
program counter back to itself, so it is fetched again every three cycles, and that is all that
ever happens: `Machine.stalls`.
-/

namespace Spc700.Machine

/-- All that a stalling instruction does after it was fetched is to take the program counter back
over its opcode. -/
theorem dialogue_of_stall {opcode : Byte} (h : opcode = 0xEF ∨ opcode = 0xFF) (r : Registers) :
    (decode opcode).dialogue r = .done (0, r) := by
  have hback : { r.advance 1 with pc := (r.advance 1).pc - 1 } = r := by
    have hpc : (r.advance 1).pc - 1 = r.pc := BitVec.add_sub_cancel _ _
    rw [hpc]
    rfl
  rcases h with rfl | rfl <;> exact congrArg (fun r => Dialogue.done (0, r)) hback

/-- The machine `m` has become `m'`, with so many cycles to wait, and has done nothing but to fetch
the opcode at its program counter so many times. -/
structure Stalled (m : Machine (Recorded Ram)) (fetches left : Nat) (m' : Machine (Recorded Ram)) :
    Prop where
  halted : m'.processor.halted = none
  policy : m'.processor.policy = m.processor.policy
  cyclesLeft : m'.processor.cyclesLeft = left
  registers : m'.processor.registers = m.processor.registers
  ram : m'.ram = m.ram
  accesses : m'.host.accesses = m.host.accesses ++ Array.replicate fetches (m.opening m.opcode)

section

variable {m m' : Machine (Recorded Ram)} {fetches : Nat}

theorem next_of_stall (h : m.opcode = 0xEF ∨ m.opcode = 0xFF) :
    m.next = m.completed m.opcode 0 m.processor.registers
      { host := m.ram, accesses := m.host.accesses.push (m.opening m.opcode) } := by
  have hread : Ram.bus.recorded.read m.processor.registers.pc m.host = (.ok m.opcode,
      { host := m.ram, accesses := m.host.accesses.push (m.opening m.opcode) }) :=
    recorded_read_opcode rfl
  refine congrArg Prod.snd (execute_of_ok hread ?_)
  rw [dialogue_of_stall h]
  rfl

/-- **One more fetch.** -/
theorem Stalled.next (h : m.Stalled fetches 0 m') (hopcode : m.opcode = 0xEF ∨ m.opcode = 0xFF) :
    m'.next.processor.cyclesLeft = 3 ∧
      ∀ left, m.Stalled (fetches + 1) left
        (m'.next.modify fun p => { p with cyclesLeft := left }) := by
  have hsame : m'.opcode = m.opcode := by
    rw [opcode, h.registers, h.ram, opcode]
  have hopening : m'.opening m'.opcode = m.opening m.opcode := by
    rw [hsame, opening, h.registers, opening]
  have hnext := next_of_stall (hsame ▸ hopcode)
  rw [hnext]
  constructor
  · show (decode m'.opcode).cycles + 0 = 3
    rw [hsame]
    rcases hopcode with hopcode | hopcode <;>
      · rw [hopcode]
        rfl
  · refine fun left => ⟨h.halted, h.policy, rfl, h.registers, h.ram, ?_⟩
    show m'.host.accesses.push (m'.opening m'.opcode) = _
    rw [hopening, h.accesses, Array.replicate_succ, Array.append_push]

/-- **Any number of cycles.** The instruction is fetched once every three of them. -/
theorem clock_of_stall (hready : m.Ready) (hopcode : m.opcode = 0xEF ∨ m.opcode = 0xFF) (n : Nat) :
    ∃ m', m.clock Ram.bus.recorded n = (.ok (), m') ∧
      m.Stalled ((n + 2) / 3) ((3 - n % 3) % 3) m' := by
  have hstart : m.Stalled 0 0 m :=
    ⟨hready.1, rfl, hready.2, rfl, rfl, (Array.append_empty).symm⟩
  obtain ⟨m', hclock, hm'⟩ : ∃ m', m.clock Ram.bus.recorded (3 * (n / 3)) = (.ok (), m') ∧
      m.Stalled (n / 3) 0 m' :=
    clock_of_passes (I := fun k => m.Stalled k 0) hstart (n / 3) fun k _ m' hm' =>
      ⟨⟨hm'.halted, hm'.cyclesLeft⟩, (hm'.next hopcode).1, (hm'.next hopcode).2 0⟩
  have hready' : m'.Ready := ⟨hm'.halted, hm'.cyclesLeft⟩
  obtain ⟨hcycles, hnext⟩ := hm'.next hopcode
  -- The cycles that are left over are within one more pass.
  have hsplit : 3 * (n / 3) + n % 3 = n := Nat.div_add_mod n 3
  rcases Nat.eq_zero_or_pos (n % 3) with hzero | hpos
  · have hfetches : (n + 2) / 3 = n / 3 := by omega
    have hwhole : 3 * (n / 3) = n := by omega
    rw [hwhole] at hclock
    rw [hfetches, hzero]
    exact ⟨m', hclock, hm'⟩
  · have hfetches : (n + 2) / 3 = n / 3 + 1 := by omega
    have hleft : (3 - n % 3) % 3 = 3 - n % 3 := by omega
    have hrest := clock_within_next hready' hpos (by omega)
    rw [hcycles] at hrest
    have hboth := clock_add Ram.bus.recorded (3 * (n / 3)) (n % 3) m
    rw [hclock, hsplit] at hboth
    rw [hfetches, hleft]
    exact ⟨_, hboth.trans hrest, hnext _⟩

end

/-- **A stalling instruction stalls for good.** Whatever the policy, and wherever on flat memory the
instruction stands, any number of cycles leaves the registers and the memory as they were. The only
accesses are reads of the opcode: one in the first cycle, and one in every third cycle after it. -/
theorem stalls {m : Machine (Recorded Ram)} (hready : m.Ready)
    (hopcode : m.opcode = 0xEF ∨ m.opcode = 0xFF) (n : Nat) :
    ∃ m', m.clock Ram.bus.recorded n = (.ok (), m') ∧
      m.Stalled ((n + 2) / 3) ((3 - n % 3) % 3) m' ∧
      (m'.tick Ram.bus.recorded).2.host.accesses =
        if n % 3 = 0 then m'.host.accesses.push (m.opening m.opcode) else m'.host.accesses := by
  obtain ⟨m', hclock, hm'⟩ := clock_of_stall hready hopcode n
  obtain ⟨m'', hclock', hm''⟩ := clock_of_stall hready hopcode (n + 1)
  refine ⟨m', hclock, hm', ?_⟩
  have htick : (m'.tick Ram.bus.recorded).2 = m'' := by
    rw [clock_add, hclock] at hclock'
    rcases h : m'.tick Ram.bus.recorded with ⟨stop | _, after⟩
    · simp [clock, h] at hclock'
    · simpa [clock, h] using hclock'
  rw [htick, hm''.accesses, hm'.accesses]
  split
  next hzero =>
    have hfetches : (n + 1 + 2) / 3 = (n + 2) / 3 + 1 := by omega
    rw [hfetches, Array.replicate_succ, Array.append_push]
  next hne =>
    have hfetches : (n + 1 + 2) / 3 = (n + 2) / 3 := by omega
    rw [hfetches]

/-- A hundred cycles on the last cell of memory. -/
theorem stalls_of_ram :
    let m := onRam { pc := 0xFFFF } (Ram.zero.write 0xFFFF 0xFF)
    m.Ready ∧ m.opcode = 0xFF ∧
    ∃ m', m.clock Ram.bus.recorded 100 = (.ok (), m') ∧ m.Stalled 34 2 m' ∧
      (m'.tick Ram.bus.recorded).2.host.accesses = m'.host.accesses := by
  intro m
  have hopcode : m.ram.read 0xFFFF = 0xFF := by simp [m, ram_onRam, Ram.read_write]
  exact ⟨⟨rfl, rfl⟩, hopcode, stalls ⟨rfl, rfl⟩ (.inr hopcode) 100⟩

end Spc700.Machine
