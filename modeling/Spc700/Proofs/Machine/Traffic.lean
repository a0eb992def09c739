import Spc700.Proofs.Machine.Refusal
import Spc700.Proofs.Microprogram.Order

/-!
# How much goes over the bus

An opcode settles how many accesses its instruction makes, and it takes at least as many cycles. A
cycle in which an instruction is carried out makes all its accesses at once, so over a run the
accesses are paid for by the cycles and by what the count still holds.

* `Machine.execute_recorded`: what is recorded of an instruction that is completed.
* `Machine.tick_accesses_le`: what one cycle pays for.
* `Machine.clock_accesses_le`: no more than one access a cycle, over any run.
-/

namespace Spc700

variable {σ : Type}

/-! ## Buses that refuse nothing -/

/-- A bus that refuses nothing still refuses nothing when a record is kept. -/
theorem Bus.GrantsEverything.recorded {bus : Bus σ} (hbus : bus.GrantsEverything) :
    bus.recorded.GrantsEverything := by
  constructor
  · rintro address ⟨host, accesses⟩
    obtain ⟨byte, host', hread⟩ := hbus.1 address host
    refine ⟨byte, Recorded.push host' accesses .read address (some byte), ?_⟩
    rw [Bus.recorded_read, hread]
    rfl
  · rintro address value ⟨host, accesses⟩
    obtain ⟨host', hwrite⟩ := hbus.2 address value host
    refine ⟨Recorded.push host' accesses .write address (some value), ?_⟩
    rw [Bus.recorded_write, hwrite]
    rfl

namespace Machine

/-- On a bus that refuses nothing every instruction goes one of its ways to the end. -/
theorem exists_admits_of_grantsEverything {bus : Bus σ} (hbus : bus.GrantsEverything)
    (r : Registers) (host : σ) :
    ∃ opcode host₀ es extra registers host₁, bus.read r.pc host = (.ok opcode, host₀) ∧
      ((decode opcode).dialogue r).Admits es (extra, registers) ∧
      bus.GrantsAll es host₀ host₁ := by
  obtain ⟨opcode, host₀, hread⟩ := hbus.1 r.pc host
  have hd := Dialogue.admits_transcript bus.filled ((decode opcode).dialogue r) host₀
  have hg := Dialogue.grantsAll_transcript bus.filled ((decode opcode).dialogue r) host₀
  rw [Bus.toBus_filled hbus] at hg
  exact ⟨opcode, host₀, _, _, _, _, hread, hd, hg⟩

/-- On a bus that refuses nothing no cycle fails. -/
theorem tick_of_grantsEverything {bus : Bus σ} (hbus : bus.GrantsEverything) {m : Machine σ}
    (hhalted : m.processor.halted = none) :
    ∃ m', m.tick bus = (.ok (), m') ∧ m'.processor.halted = none := by
  by_cases hcycles : m.processor.cyclesLeft = 0
  · obtain ⟨opcode, host₀, es, extra, registers, host₁, hread, hd, hg⟩ :=
      exists_admits_of_grantsEverything hbus m.processor.registers m.host
    exact ⟨_, tick_of_grantsAll ⟨hhalted, hcycles⟩ hread hd hg, hhalted⟩
  · exact ⟨_, tick_of_waiting bus hhalted hcycles, hhalted⟩

theorem clock_of_grantsEverything {bus : Bus σ} (hbus : bus.GrantsEverything) {m : Machine σ}
    (hhalted : m.processor.halted = none) (n : Nat) : ∃ m', m.clock bus n = (.ok (), m') := by
  induction n generalizing m with
  | zero => exact ⟨m, rfl⟩
  | succ n ih =>
    obtain ⟨m', htick, hhalted'⟩ := tick_of_grantsEverything hbus hhalted
    simpa only [clock, htick] using ih hhalted'

/-! ## One instruction -/

section

variable {bus : Bus σ} {m : Machine (Recorded σ)} {opcode : Byte} {host₀ host₁ : σ}
  {es : List (Exchange Registers)} {extra : Nat} {registers : Registers}

/-- What an instruction that is completed leaves behind, with its record. -/
theorem execute_recorded
    (hread : bus.read m.processor.registers.pc m.host.host = (.ok opcode, host₀))
    (hd : ((decode opcode).dialogue m.processor.registers).Admits es (extra, registers))
    (hg : bus.GrantsAll es host₀ host₁) :
    m.execute bus.recorded = (.ok (), m.completed opcode extra registers
      { host := host₁
        accesses := m.host.accesses ++ (m.opening opcode :: es.map Exchange.granted).toArray }) := by
  have hrun := Dialogue.run_of_grantsAll hd
    (Bus.recorded_grantsAll bus es (m.host.accesses.push (m.opening opcode)) hg)
  rw [execute_of_ok (recorded_read_opcode hread) hrun]
  simp

/-- The exchanges of an instruction that is completed keep to its plan. -/
theorem exists_planned {r : Registers} {result : Nat × Registers}
    (hd : ((decode opcode).dialogue r).Admits es result) :
    ∃ forming acting, es = forming ++ acting ∧
      (decode opcode).Planned (r.advance 1) forming acting :=
  Dialogue.every_iff.mp ((decode opcode).every_perform_plan _) es _ hd

end

end Machine

/-! ## The number of accesses -/

namespace Bus

theorem size_recorded_read (bus : Bus σ) (address : Word) (state : Recorded σ) :
    (bus.recorded.read address state).2.accesses.size = state.accesses.size + 1 := by
  rw [recorded_read]
  exact Array.size_push _

theorem size_recorded_write (bus : Bus σ) (address : Word) (value : Byte) (state : Recorded σ) :
    (bus.recorded.write address value state).2.accesses.size = state.accesses.size + 1 := by
  rw [recorded_write]
  exact Array.size_push _

section

variable {bus : Bus σ} {e : Exchange Registers} {es : List (Exchange Registers)}
  {state state' : Recorded σ}

theorem size_of_grants (h : bus.recorded.Grants e state state') :
    state'.accesses.size = state.accesses.size + 1 := by
  unfold Grants at h
  split at h
  · simpa [h] using bus.size_recorded_read e.address state
  · simpa [h] using bus.size_recorded_write e.address e.byte state

theorem size_of_refuses {error : BusError} (h : bus.recorded.Refuses e state error state') :
    state'.accesses.size = state.accesses.size + 1 := by
  unfold Refuses at h
  split at h
  · simpa [h] using bus.size_recorded_read e.address state
  · simpa [h] using bus.size_recorded_write e.address e.byte state

theorem size_of_grantsAll (h : bus.recorded.GrantsAll es state state') :
    state'.accesses.size = state.accesses.size + es.length := by
  induction es generalizing state with
  | nil =>
    obtain rfl : state' = state := h
    rfl
  | cons e es ih =>
    obtain ⟨between, hfirst, hrest⟩ := h
    rw [ih hrest, size_of_grants hfirst, List.length_cons]
    omega

end

end Bus

namespace Machine

section

variable {bus : Bus σ} {m m' : Machine (Recorded σ)} {opcode : Byte}
  {es : List (Exchange Registers)} {result : Nat × Registers}

/-- Every way through an instruction has as many exchanges as its opcode says. -/
theorem length_of_admits {r : Registers}
    (hd : ((decode opcode).dialogue r).Admits es result) :
    1 + es.length = (decode opcode).accessCount := by
  obtain ⟨forming, acting, rfl, hplanned⟩ := exists_planned hd
  exact hplanned.length_add

/-- The read of an opcode is one access. -/
theorem size_of_read_opcode {host₀ : Recorded σ}
    (hread : bus.recorded.read m.processor.registers.pc m.host = (.ok opcode, host₀)) :
    host₀.accesses.size = m.host.accesses.size + 1 := by
  simpa [hread] using bus.size_recorded_read m.processor.registers.pc m.host

/-- **A cycle that succeeds pays for its accesses**: it has one of its own, and what it makes beyond
that is on the count. -/
theorem tick_accesses_le (hok : (m.tick bus.recorded).1 = .ok ()) :
    (m.tick bus.recorded).2.host.accesses.size + m.processor.cyclesLeft ≤
      m.host.accesses.size + 1 + (m.tick bus.recorded).2.processor.cyclesLeft := by
  have hcycle := tick_cycle bus.recorded m
  generalize (m.tick bus.recorded).1 = outcome at hcycle hok
  generalize (m.tick bus.recorded).2 = m' at hcycle ⊢
  cases hcycle with
  | halted hhalted => exact absurd hok (by simp)
  | waiting hhalted hcycles =>
    show m.host.accesses.size + m.processor.cyclesLeft ≤
      m.host.accesses.size + 1 + (m.processor.cyclesLeft - 1)
    omega
  | unread hready hread => exact absurd hok (by simp)
  | @completed opcode es extra registers host₀ host₁ hready hread hd hg =>
    have hopening := size_of_read_opcode hread
    have hrest := Bus.size_of_grantsAll hg
    have hcount := length_of_admits hd
    have hle := decode_accessCount_le opcode
    have hcycles := hready.2
    show host₁.accesses.size + m.processor.cyclesLeft ≤
      m.host.accesses.size + 1 + ((decode opcode).cycles + extra - 1)
    omega
  | @refused opcode before after e result error host₀ host₁ host₂ hready hread hd hg hr =>
    -- Only a fault that is skipped lets the cycle succeed, and it leaves the base count.
    rcases hpolicy : m.processor.policy
    · have hopening := size_of_read_opcode hread
      have hrest := Bus.size_of_grantsAll hg
      have hlast := Bus.size_of_refuses hr
      have hcount := length_of_admits hd
      have hle := decode_accessCount_le opcode
      have hcycles := hready.2
      rw [handle_of_skip (m := m.cut opcode e host₂) _ hpolicy]
      show host₂.accesses.size + m.processor.cyclesLeft ≤
        m.host.accesses.size + 1 + ((decode opcode).cycles - 1)
      rw [List.length_append, List.length_cons] at hcount
      omega
    · rw [handle_of_halt (m := m.cut opcode e host₂) _ hpolicy] at hok
      exact absurd hok (by simp)

/-- A run of cycles that succeeds pays for its accesses. -/
theorem clock_accesses_add_le {n : Nat} (h : m.clock bus.recorded n = (.ok (), m')) :
    m'.host.accesses.size + m.processor.cyclesLeft ≤
      m.host.accesses.size + n + m'.processor.cyclesLeft := by
  induction n generalizing m with
  | zero =>
    obtain rfl : m = m' := (Prod.mk.inj h).2
    omega
  | succ n ih =>
    rcases htick : m.tick bus.recorded with ⟨stop | u, between⟩
    · simp [clock, htick] at h
    · have hrest : between.clock bus.recorded n = (.ok (), m') := by
        simpa only [clock, htick] using h
      have hok : (m.tick bus.recorded).1 = .ok () := by rw [htick]
      have hfirst := tick_accesses_le hok
      have hafter := ih hrest
      simp only [htick] at hfirst
      omega

end

/-- **No more than one access a cycle.** An opcode says how many accesses its instruction makes, the
read of the opcode included; it makes that many in every state and on every bus that refuses
nothing, and they are no more than the opcode's cycles. On any bus, refusals included, cycles that
succeed make one access each at most, but for those that the count at their end still has to pay
for and those that the count at their start had paid for already. -/
theorem clock_accesses_le :
    (∀ opcode : Byte, (decode opcode).accessCount ≤ (decode opcode).cycles) ∧
    (∀ {σ : Type} {bus : Bus σ} {m : Machine (Recorded σ)} {opcode : Byte} {host : σ},
      bus.GrantsEverything →
      bus.read m.processor.registers.pc m.host.host = (.ok opcode, host) →
      (m.execute bus.recorded).1 = .ok () ∧
      (m.execute bus.recorded).2.host.accesses.size =
        m.host.accesses.size + (decode opcode).accessCount) ∧
    (∀ {σ : Type} {bus : Bus σ} {m m' : Machine (Recorded σ)} {n : Nat},
      m.clock bus.recorded n = (.ok (), m') →
      m'.host.accesses.size + m.processor.cyclesLeft ≤
        m.host.accesses.size + n + m'.processor.cyclesLeft) := by
  refine ⟨decode_accessCount_le, ?_, fun h => clock_accesses_add_le h⟩
  intro σ bus m opcode host hbus hread
  obtain ⟨opcode', host₀, es, extra, registers, host₁, hread', hd, hg⟩ :=
    exists_admits_of_grantsEverything hbus m.processor.registers m.host.host
  obtain ⟨hopcode, -⟩ := Prod.mk.inj (hread.symm.trans hread')
  obtain rfl : opcode = opcode' := Except.ok.inj hopcode
  have hcount := length_of_admits hd
  rw [execute_recorded hread' hd hg]
  refine ⟨rfl, ?_⟩
  have hnew : (m.opening opcode :: es.map Exchange.granted).toArray.size = 1 + es.length := by
    simp [Nat.add_comm]
  show (m.host.accesses ++ (m.opening opcode :: es.map Exchange.granted).toArray).size = _
  rw [Array.size_append, hnew, hcount]

/-- A move of an immediate byte to a cell, which has an access for each of its cycles. -/
theorem clock_accesses_le_of_ram :
    let m : Machine (Recorded Ram) :=
      { processor := { registers := { pc := 0x0200 } }
        host := { host := Ram.zero.load 0x0200 [0x8F, 0x12, 0x34] } }
    (decode 0x8F).accessCount ≤ (decode 0x8F).cycles ∧
    Ram.bus.GrantsEverything ∧
    Ram.bus.read m.processor.registers.pc m.host.host = (.ok 0x8F, m.host.host) ∧
    ((m.execute Ram.bus.recorded).1 = .ok () ∧
      (m.execute Ram.bus.recorded).2.host.accesses.size =
        m.host.accesses.size + (decode 0x8F).accessCount) ∧
    ∃ m', m.clock Ram.bus.recorded 5 = (.ok (), m') ∧
      m'.host.accesses.size + m.processor.cyclesLeft ≤
        m.host.accesses.size + 5 + m'.processor.cyclesLeft := by
  intro m
  have hread : Ram.bus.read m.processor.registers.pc m.host.host = (.ok 0x8F, m.host.host) := by
    simp [m, Ram.bus, Ram.load, Ram.read_write]
  obtain ⟨m', hclock⟩ := clock_of_grantsEverything Ram.grantsEverything.recorded
    (m := m) rfl 5
  exact ⟨clock_accesses_le.1 0x8F, Ram.grantsEverything, hread,
    clock_accesses_le.2.1 Ram.grantsEverything hread, m', hclock, clock_accesses_le.2.2 hclock⟩

end Machine

end Spc700
