import Spc700.Proofs.Dialogue.Granting
import Spc700.Proofs.Machine.Cycle

/-!
# Cycles and whole instructions

On a bus that refuses nothing a machine can be run without a clock: one whole instruction after
the other, each with its cost in cycles. `Course` is how far such a run has got. The clocked
machine keeps pace with it: after as many cycles as the first instructions cost it stands where the
run stands after them, and on the way it stands where the run stands after the instruction last
begun, with the rest of that instruction's cost still to be waited for.

* `Machine.execute_reached`: an instruction of the machine is a step of the run.
* `Machine.clock_pace`: the two after any number of cycles.
-/

namespace Spc700

variable {σ : Type}

/-- The cycles that an instruction takes from registers `r` if its exchanges are `es`: its base
count, and more if it is a conditional branch whose condition holds. -/
def Instruction.cost (instruction : Instruction) (r : Registers)
    (es : List (Exchange Registers)) : Nat :=
  instruction.cycles + Operation.penalty (instruction.operation.taken r (Operation.datum es))

theorem decode_cycles_pos : ∀ opcode : Byte, 0 < (decode opcode).cycles := by
  decide +kernel

/-! ## Running without a clock -/

/-- How far a run of whole instructions has got. -/
structure Course (σ : Type) where
  registers : Registers
  host : σ
  log : Array Event

namespace Course

variable (g : GrantingBus σ)

/-- The opcode that is next. -/
def opcode (c : Course σ) : Byte := (g.read c.registers.pc c.host).1

/-- What passes after the opcode. -/
def transcript (c : Course σ) : Transcript Registers (Nat × Registers) σ :=
  ((decode (c.opcode g)).dialogue c.registers).transcript g (g.read c.registers.pc c.host).2

/-- What the next instruction costs. -/
def cost (c : Course σ) : Nat :=
  (decode (c.opcode g)).cost c.registers (c.transcript g).exchanges

/-- One whole instruction. -/
def step (c : Course σ) : Course σ where
  registers := (c.transcript g).result.2
  host := (c.transcript g).host
  log := c.log.push (.began c.registers.pc (c.opcode g) (c.registers.advance 1))

/-- A number of whole instructions. -/
def after : Nat → Course σ → Course σ
  | 0, c => c
  | k + 1, c => after k (c.step g)

/-- What that number of instructions costs, all in all. -/
def elapsed : Nat → Course σ → Nat
  | 0, _ => 0
  | k + 1, c => c.cost g + elapsed k (c.step g)

theorem cost_pos (c : Course σ) : 0 < c.cost g := by
  have hcycles := decode_cycles_pos (c.opcode g)
  unfold cost Instruction.cost
  omega

theorem after_succ (k : Nat) (c : Course σ) : after g (k + 1) c = (after g k c).step g := by
  induction k generalizing c with
  | zero => rfl
  | succ k ih => exact ih (c.step g)

theorem le_elapsed (k : Nat) (c : Course σ) : k ≤ elapsed g k c := by
  induction k generalizing c with
  | zero => exact Nat.zero_le _
  | succ k ih =>
    have hcost := c.cost_pos g
    have hrest := ih (c.step g)
    simp only [elapsed]
    omega

end Course

namespace Machine

/-- The machine `m` when it has got as far as `c`, with so many cycles to wait. -/
def reached (m : Machine σ) (c : Course σ) (cyclesLeft : Nat) : Machine σ where
  processor := { m.processor with registers := c.registers, cyclesLeft, log := c.log }
  host := c.host

/-- Where a machine starts from. -/
def course (m : Machine σ) : Course σ where
  registers := m.processor.registers
  host := m.host
  log := m.processor.log

/-! ## One instruction -/

section

variable {g : GrantingBus σ} {m : Machine σ} {c : Course σ}

/-- **An instruction of the machine is a step of the run**, and it loads the count with its
cost. -/
theorem execute_reached (left : Nat) :
    (m.reached c left).execute g.toBus = (.ok (), m.reached (c.step g) (c.cost g)) := by
  have hread : g.toBus.read (m.reached c left).processor.registers.pc (m.reached c left).host =
      (.ok (c.opcode g), (g.read c.registers.pc c.host).2) := rfl
  have hrun := Dialogue.run_toBus g ((decode (c.opcode g)).dialogue c.registers)
    (g.read c.registers.pc c.host).2
  have hadmits := Dialogue.admits_transcript g ((decode (c.opcode g)).dialogue c.registers)
    (g.read c.registers.pc c.host).2
  -- The microprogram says how many cycles it takes more than its base count.
  have hextra := (Dialogue.every_iff.mp
    ((decode (c.opcode g)).every_perform (c.registers.advance 1)) _ _ hadmits).2
  rw [Operation.taken_advance] at hextra
  rw [execute_of_ok hread hrun]
  show (_, completed _ _ _ _ _) = _
  rw [hextra]
  rfl

/-- The cycle in which an instruction is executed. -/
theorem tick_reached (hhalted : m.processor.halted = none) :
    (m.reached c 0).tick g.toBus = (.ok (), m.reached (c.step g) (c.cost g - 1)) := by
  have hready : (m.reached c 0).Ready := ⟨hhalted, rfl⟩
  rw [tick_of_ready hready, execute_reached]
  rfl

/-- Cycles of waiting. -/
theorem clock_waiting (bus : Bus σ) (hhalted : m.processor.halted = none) (c : Course σ)
    (n left : Nat) (hle : n ≤ left) :
    (m.reached c left).clock bus n = (.ok (), m.reached c (left - n)) := by
  induction n generalizing left with
  | zero => rfl
  | succ n ih =>
    have hwaiting : (m.reached c left).processor.cyclesLeft ≠ 0 := by
      show left ≠ 0
      omega
    have htick : (m.reached c left).tick bus = (.ok (), m.reached c (left - 1)) :=
      tick_of_waiting bus hhalted hwaiting
    have hrest := ih (left - 1) (by omega)
    have hleft : left - 1 - n = left - (n + 1) := by omega
    rw [hleft] at hrest
    simp only [clock, htick, hrest]

/-- Cycles within one instruction: the first executes it, the others wait. -/
theorem clock_within (hhalted : m.processor.halted = none) (n : Nat) (hpos : 0 < n)
    (hle : n ≤ c.cost g) :
    (m.reached c 0).clock g.toBus n = (.ok (), m.reached (c.step g) (c.cost g - n)) := by
  obtain ⟨n, rfl⟩ := Nat.exists_eq_succ_of_ne_zero (Nat.ne_of_gt hpos)
  have hrest := clock_waiting g.toBus hhalted (c.step g) n (c.cost g - 1) (by omega)
  have hleft : c.cost g - 1 - n = c.cost g - (n + 1) := by omega
  rw [hleft] at hrest
  simp only [clock, tick_reached hhalted, hrest]

/-- All cycles of one instruction. -/
theorem clock_cost (g : GrantingBus σ) (hhalted : m.processor.halted = none) (c : Course σ) :
    (m.reached c 0).clock g.toBus (c.cost g) = (.ok (), m.reached (c.step g) 0) := by
  have hwhole := clock_within hhalted (c.cost g) (c.cost_pos g) (Nat.le_refl _)
  rwa [Nat.sub_self] at hwhole

/-! ## Runs -/

/-- As many cycles as whole instructions cost are those instructions. -/
theorem clock_elapsed (hhalted : m.processor.halted = none) (k : Nat) (c : Course σ) :
    (m.reached c 0).clock g.toBus (Course.elapsed g k c) =
      (.ok (), m.reached (Course.after g k c) 0) := by
  -- The first instruction is taken off, so the run is followed from any point.
  induction k generalizing c with
  | zero => rfl
  | succ k ih =>
    rw [Course.elapsed, clock_add, clock_cost g hhalted]
    exact ih (c.step g)

/-- Any other number of cycles ends within an instruction. -/
theorem clock_between (hhalted : m.processor.halted = none) {n k : Nat} (hpos : 0 < n)
    (hle : n ≤ Course.elapsed g k c) :
    ∃ j < k, Course.elapsed g j c < n ∧ n ≤ Course.elapsed g (j + 1) c ∧
      (m.reached c 0).clock g.toBus n =
        (.ok (), m.reached (Course.after g (j + 1) c) (Course.elapsed g (j + 1) c - n)) := by
  induction k generalizing c n with
  | zero =>
    have hle' : n ≤ 0 := hle
    omega
  | succ k ih =>
    by_cases hfirst : n ≤ c.cost g
    · exact ⟨0, k.succ_pos, hpos, hfirst, clock_within hhalted n hpos hfirst⟩
    · -- The first instruction is over; the rest of the cycles is for those behind it.
      obtain ⟨rest, rfl⟩ : ∃ rest, n = c.cost g + rest := ⟨n - c.cost g, by omega⟩
      have hrest : rest ≤ Course.elapsed g k (c.step g) := Nat.le_of_add_le_add_left hle
      obtain ⟨j, hj, hlow, hhigh, hclock⟩ := ih (c := c.step g) (n := rest) (by omega) hrest
      refine ⟨j + 1, Nat.succ_lt_succ hj, Nat.add_lt_add_left hlow _,
        Nat.add_le_add_left hhigh _, ?_⟩
      rw [clock_add, clock_cost g hhalted]
      show (m.reached (c.step g) 0).clock g.toBus rest = _
      rw [hclock, ← Nat.add_sub_add_left (c.cost g)]
      rfl

theorem reached_course (hready : m.Ready) : m.reached m.course 0 = m := by
  obtain ⟨⟨registers, cyclesLeft, policy, halted, log⟩, host⟩ := m
  obtain ⟨-, rfl⟩ := hready
  rfl

/-- A run of cycles never halts the processor. -/
theorem clock_not_halted (hhalted : m.processor.halted = none) (n : Nat) :
    ((m.reached c 0).clock g.toBus n).2.processor.halted = none := by
  rcases Nat.eq_zero_or_pos n with rfl | hpos
  · exact hhalted
  · obtain ⟨j, -, -, -, hclock⟩ := clock_between hhalted hpos (Course.le_elapsed g n c)
    rw [hclock]
    exact hhalted

end

/-- **The clocked machine keeps pace with whole instructions.** On a bus that refuses nothing,
and with a record of all accesses kept: the steps of the run are the machine's own instructions;
as many cycles as `k` of them cost are those instructions; any number of cycles on the way leaves
the machine behind the instruction last begun, with what has not yet elapsed of its cost on the
count; and a cycle that finds the count above zero takes one off it and changes nothing else. -/
theorem clock_pace {bus : Bus σ} (hbus : bus.GrantsEverything) {m : Machine (Recorded σ)}
    (hready : m.Ready) :
    let g := bus.filled.recorded
    (∀ k, (m.reached (Course.after g k m.course) 0).execute bus.recorded =
      (.ok (), m.reached (Course.after g (k + 1) m.course)
        ((Course.after g k m.course).cost g))) ∧
    (∀ k, m.clock bus.recorded (Course.elapsed g k m.course) =
      (.ok (), m.reached (Course.after g k m.course) 0)) ∧
    (∀ k n, 0 < n → n ≤ Course.elapsed g k m.course →
      ∃ j < k, Course.elapsed g j m.course < n ∧ n ≤ Course.elapsed g (j + 1) m.course ∧
        m.clock bus.recorded n = (.ok (), m.reached (Course.after g (j + 1) m.course)
          (Course.elapsed g (j + 1) m.course - n))) ∧
    ∀ n m', m.clock bus.recorded n = (.ok (), m') → m'.processor.cyclesLeft ≠ 0 →
      m.clock bus.recorded (n + 1) = (.ok (), m'.wait) := by
  intro g
  have hrecorded : bus.recorded = g.toBus := by
    rw [GrantingBus.toBus_recorded, Bus.toBus_filled hbus]
  have hstart := reached_course hready
  rw [hrecorded]
  refine ⟨?_, ?_, ?_, ?_⟩
  · intro k
    rw [Course.after_succ]
    exact execute_reached 0
  · intro k
    have helapsed := clock_elapsed (g := g) hready.1 k m.course
    rwa [hstart] at helapsed
  · intro k n hpos hle
    have hbetween := clock_between (g := g) hready.1 hpos hle
    rwa [hstart] at hbetween
  · intro n m' hclock hwaiting
    have hhalted := clock_not_halted (g := g) (c := m.course) hready.1 n
    rw [hstart, hclock] at hhalted
    rw [clock_add, hclock]
    simp only [clock, tick_of_waiting _ hhalted hwaiting]

/-- A branch to itself in flat memory, which refuses nothing. -/
theorem clock_pace_of_ram :
    let m : Machine (Recorded Ram) :=
      { processor := { registers := { pc := 0x0200 } }
        host := { host := Ram.zero.load 0x0200 [0x10, 0xFE] } }
    let g := Ram.bus.filled.recorded
    (∀ k, (m.reached (Course.after g k m.course) 0).execute Ram.bus.recorded =
      (.ok (), m.reached (Course.after g (k + 1) m.course)
        ((Course.after g k m.course).cost g))) ∧
    (∀ k, m.clock Ram.bus.recorded (Course.elapsed g k m.course) =
      (.ok (), m.reached (Course.after g k m.course) 0)) ∧
    (∀ k n, 0 < n → n ≤ Course.elapsed g k m.course →
      ∃ j < k, Course.elapsed g j m.course < n ∧ n ≤ Course.elapsed g (j + 1) m.course ∧
        m.clock Ram.bus.recorded n = (.ok (), m.reached (Course.after g (j + 1) m.course)
          (Course.elapsed g (j + 1) m.course - n))) ∧
    ∀ n m', m.clock Ram.bus.recorded n = (.ok (), m') → m'.processor.cyclesLeft ≠ 0 →
      m.clock Ram.bus.recorded (n + 1) = (.ok (), m'.wait) :=
  clock_pace Ram.grantsEverything ⟨rfl, rfl⟩

end Machine

end Spc700
