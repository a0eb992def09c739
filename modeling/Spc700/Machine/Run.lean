import Spc700.Machine.Basic

/-!
# Running

The machine runs cycle by cycle. A cycle on which the count stands at zero carries out a whole
instruction and loads the count with what the instruction takes; every cycle then counts down by
one. A fault ends its instruction; the policy says whether the processor goes on or halts.

* `Machine.tick_of_halted`: a halted processor does nothing.
* `Machine.tick_of_waiting`: a cycle that only waits changes the count and nothing else.
* `Machine.clock_add`: a run of cycles is the runs of its parts, one after the other.
-/

namespace Spc700.Machine

variable {σ : Type}

/-- One whole instruction: the opcode is read, the count is loaded with
the base count, and the microprogram is run. A branch that is taken adds to the count. -/
def execute (bus : Bus σ) (m : Machine σ) : Except Stop Unit × Machine σ :=
  let address := m.processor.registers.pc
  match m.converse bus (Micro.fetch .opcode) with
  | (.error error, m) => (.error (.refused error), m)
  | (.ok opcode, m) =>
    let instruction := decode opcode
    let m := m.report (.began address opcode m.processor.registers)
    let m := m.modify fun p => { p with cyclesLeft := instruction.cycles }
    match m.converse bus instruction.perform with
    | (.ok extra, m) =>
      (.ok (), m.modify fun p => { p with cyclesLeft := p.cyclesLeft + extra })
    | (.error error, m) =>
      (.error (.fault { opcode, pc := address, detail := error.detail }), m)

/-- The machine after one cycle of waiting. -/
def wait (m : Machine σ) : Machine σ :=
  m.modify fun p => { p with cyclesLeft := p.cyclesLeft - 1 }

/-- The machine after a fault, as the policy wants it. -/
def handle (fault : Fault) (m : Machine σ) : Except Stop Unit × Machine σ :=
  match m.processor.policy with
  | .skip => (.ok (), (m.report (.skipped fault)).wait)
  | .halt =>
    (.error (.fault fault),
      (m.report (.halted fault)).modify fun p => { p with halted := some fault })

/-- One cycle. -/
def tick (bus : Bus σ) (m : Machine σ) : Except Stop Unit × Machine σ :=
  match m.processor.halted with
  | some fault => (.error (.fault fault), m)
  | none =>
    if m.processor.cyclesLeft = 0 then
      match m.execute bus with
      | (.ok (), m) => (.ok (), m.wait)
      | (.error (.fault fault), m) => m.handle fault
      | (.error (.refused error), m) => (.error (.refused error), m)
    else
      (.ok (), m.wait)

/-- A number of cycles, up to the first that stops the machine. -/
def clock (bus : Bus σ) : Nat → Machine σ → Except Stop Unit × Machine σ
  | 0, m => (.ok (), m)
  | cycles + 1, m =>
    match m.tick bus with
    | (.ok (), m) => clock bus cycles m
    | (.error stop, m) => (.error stop, m)

theorem tick_of_halted (bus : Bus σ) {m : Machine σ} {fault : Fault}
    (h : m.processor.halted = some fault) : m.tick bus = (.error (.fault fault), m) := by
  simp [tick, h]

theorem tick_of_waiting (bus : Bus σ) {m : Machine σ} (h : m.processor.halted = none)
    (hc : m.processor.cyclesLeft ≠ 0) : m.tick bus = (.ok (), m.wait) := by
  simp [tick, h, hc]

theorem clock_add (bus : Bus σ) (n k : Nat) (m : Machine σ) :
    m.clock bus (n + k) =
      match m.clock bus n with
      | (.ok (), m) => m.clock bus k
      | (.error stop, m) => (.error stop, m) := by
  induction n generalizing m with
  | zero => simp [clock]
  | succ n ih =>
    rw [Nat.succ_add]
    rcases h : m.tick bus with ⟨stop | _, m'⟩
    · simp [clock, h]
    · simp [clock, h, ih]

/-! ## Whole instructions -/

/-- The cycles that are left of the instruction under way. -/
def finish (bus : Bus σ) (m : Machine σ) : Except Stop Unit × Machine σ :=
  m.clock bus m.processor.cyclesLeft

/-- What is left of the instruction under way, then all cycles of the next one, which are counted. -/
def runInstruction (bus : Bus σ) (m : Machine σ) : Except Stop Nat × Machine σ :=
  match m.finish bus with
  | (.error stop, m) => (.error stop, m)
  | (.ok (), m) =>
    match m.tick bus with
    | (.error stop, m) => (.error stop, m)
    | (.ok (), m) =>
      let rest := m.processor.cyclesLeft
      match m.clock bus rest with
      | (.error stop, m) => (.error stop, m)
      | (.ok (), m) => (.ok (rest + 1), m)

/-- What a run of instructions has got to: the cycles and the registers of each instruction that
was completed, and what stopped the machine if anything did. -/
structure Progress where
  completed : Array (Nat × Registers) := #[]
  stop : Option Stop := none
deriving DecidableEq, Repr

/-- A number of instructions, after those that have been completed already. -/
def runFrom (bus : Bus σ) (completed : Array (Nat × Registers)) :
    Nat → Machine σ → Progress × Machine σ
  | 0, m => ({ completed }, m)
  | count + 1, m =>
    match m.runInstruction bus with
    | (.error stop, m) => ({ completed, stop := some stop }, m)
    | (.ok cycles, m) => runFrom bus (completed.push (cycles, m.processor.registers)) count m

/-- A number of instructions, up to the first that stops the machine. -/
def runInstructions (bus : Bus σ) (count : Nat) (m : Machine σ) : Progress × Machine σ :=
  runFrom bus #[] count m

end Spc700.Machine
