import Spc700.Proofs.Machine.Latch
import Spc700.Proofs.Machine.Traffic

/-!
# The cycle count

The count is loaded when an opcode has been read and counted down by one at the end of every cycle
that succeeds. It is never counted down from zero, and what a host can see of it is at most eleven,
whatever the host does and whatever its bus refuses: the longest instruction takes twelve cycles,
asks for nothing after its opcode, and has its first cycle behind it when the host sees the count.

* `Machine.tick_cyclesLeft_add_one`: what a cycle that succeeds counts down from.
* `Machine.Reachable.cyclesLeft_le`: the bound, from a processor's construction on.
* `Machine.Settles`, `Machine.Turns`: the two parts of a host's loop over one instruction.
* `Machine.counted_of_reachable`: all of it together, and that the loop ends.
-/

namespace Spc700

variable {σ : Type}

/-! ## In the opcode matrix -/

/-- The operation is a conditional branch. -/
def Operation.canBranch : Operation → Bool
  | branch _ | branchBit _ _ | branchDifferent | branchCount | branchCountY => true
  | _ => false

theorem Operation.canBranch_of_taken {operation : Operation} {r : Registers} {byte : Byte}
    (h : operation.taken r byte = true) : operation.canBranch = true := by
  cases operation <;> first | rfl | cases h

/-- How long instructions take: a conditional branch leaves room for what it takes when it is taken,
and the longest instruction asks for nothing after its opcode. -/
theorem decode_cycles : ∀ opcode : Byte,
    2 ≤ (decode opcode).cycles ∧ (decode opcode).cycles ≤ 12 ∧
    ((decode opcode).operation.canBranch = true → (decode opcode).cycles ≤ 6) ∧
    (1 < (decode opcode).accessCount → (decode opcode).cycles ≤ 11) := by
  decide +kernel

/-- A taken branch does not make its instruction longer than the longest. -/
theorem decode_cycles_add_penalty_le (opcode : Byte) (r : Registers) (byte : Byte) :
    (decode opcode).cycles + Operation.penalty ((decode opcode).operation.taken r byte) ≤ 12 := by
  obtain ⟨-, hle, hbranch, -⟩ := decode_cycles opcode
  unfold Operation.penalty
  split
  · rename_i htaken
    have hshort := hbranch (Operation.canBranch_of_taken htaken)
    omega
  · exact hle

/-- The event that stands for an instruction in the log. -/
def Event.IsBegan : Event → Bool
  | began _ _ _ => true
  | _ => false

namespace Machine

variable {bus : Bus σ} {m m₁ : Machine σ}

/-! ## One instruction -/

/-- The machine `m` has read an opcode and become `m₁`: the instruction has been reported, and the
count has been loaded with at least two cycles and no more than `most`. -/
structure Loads (m m₁ : Machine σ) (most : Nat) : Prop where
  two_le : 2 ≤ m₁.processor.cyclesLeft
  le_most : m₁.processor.cyclesLeft ≤ most
  began : m₁.processor.log.countP Event.IsBegan = m.processor.log.countP Event.IsBegan + 1

/-- What an instruction that is completed loads the count with. -/
theorem loads_of_ok (h : m.execute bus = (.ok (), m₁)) : m.Loads m₁ 12 := by
  rcases execute_cases bus m with ⟨error, host, hread, hexecute⟩ |
    ⟨opcode, es, extra, registers, host₀, host₁, hread, hd, hg, hexecute⟩ |
    ⟨opcode, before, e, after, result, error, host₀, host₁, host₂, hread, hd, hg, hr, hexecute⟩
  · rw [hexecute] at h
    cases h
  · rw [hexecute] at h
    obtain rfl := (Prod.mk.inj h).2
    have htwo := (decode_cycles opcode).1
    have hextra : extra = Operation.penalty _ :=
      (Dialogue.every_iff.mp ((decode opcode).every_perform _) es _ hd).2
    refine ⟨Nat.le_trans htwo (Nat.le_add_right _ _), ?_, Array.countP_push_of_pos rfl⟩
    show (decode opcode).cycles + extra ≤ 12
    rw [hextra]
    exact decode_cycles_add_penalty_le opcode _ _
  · rw [hexecute] at h
    cases h

/-- What an instruction that is cut has loaded the count with: it is not the longest, which has
nothing to be cut at. -/
theorem loads_of_fault {f : Fault} (h : m.execute bus = (.error (.fault f), m₁)) :
    m.Loads m₁ 11 := by
  rcases execute_cases bus m with ⟨error, host, hread, hexecute⟩ |
    ⟨opcode, es, extra, registers, host₀, host₁, hread, hd, hg, hexecute⟩ |
    ⟨opcode, before, e, after, result, error, host₀, host₁, host₂, hread, hd, hg, hr, hexecute⟩
  · rw [hexecute] at h
    cases h
  · rw [hexecute] at h
    cases h
  · rw [hexecute] at h
    obtain rfl := (Prod.mk.inj h).2
    have hlength := length_of_admits hd
    rw [List.length_append, List.length_cons] at hlength
    have hlong : 1 < (decode opcode).accessCount := by omega
    obtain ⟨htwo, -, -, hle⟩ := decode_cycles opcode
    exact ⟨htwo, hle hlong, Array.countP_push_of_pos rfl⟩

/-- An opcode that cannot be read changes nothing of the processor. -/
theorem processor_of_refused {error : BusError}
    (h : m.execute bus = (.error (.refused error), m₁)) :
    m₁.processor = m.processor ∧
      ∃ host, bus.read m.processor.registers.pc m.host = (.error error, host) := by
  rcases execute_cases bus m with ⟨error', host, hread, hexecute⟩ |
    ⟨opcode, es, extra, registers, host₀, host₁, hread, hd, hg, hexecute⟩ |
    ⟨opcode, before, e, after, result, error', host₀, host₁, host₂, hread, hd, hg, hr, hexecute⟩
  · rw [hexecute] at h
    obtain rfl : error' = error := Stop.refused.inj (Except.error.inj (Prod.mk.inj h).1)
    obtain rfl := (Prod.mk.inj h).2
    exact ⟨rfl, host, hread⟩
  · rw [hexecute] at h
    cases h
  · rw [hexecute] at h
    cases h

/-! ## One cycle -/

/-- A cycle that begins an instruction and succeeds takes one off what the instruction loaded. -/
theorem tick_of_ready_of_ok (hready : m.Ready) (hok : (m.tick bus).1 = .ok ()) :
    m.Loads (m.execute bus).2 12 ∧
      (m.tick bus).2.processor.cyclesLeft + 1 = (m.execute bus).2.processor.cyclesLeft ∧
      (m.tick bus).2.processor.log.countP Event.IsBegan =
        m.processor.log.countP Event.IsBegan + 1 := by
  rw [tick_of_ready hready] at hok ⊢
  rcases hexecute : m.execute bus with ⟨(f | error) | _, m₁⟩
  · have hloads := loads_of_fault hexecute
    have htwo := hloads.two_le
    rw [hexecute] at hok
    have hhandle : (m₁.handle f).1 = .ok () := hok
    -- Only a fault that is skipped lets the cycle succeed.
    rcases hpolicy : m₁.processor.policy
    · show m.Loads m₁ 12 ∧ (m₁.handle f).2.processor.cyclesLeft + 1 = _ ∧
        (m₁.handle f).2.processor.log.countP Event.IsBegan = _
      rw [handle_of_skip f hpolicy]
      refine ⟨⟨htwo, Nat.le_succ_of_le hloads.le_most, hloads.began⟩, ?_, ?_⟩
      · show m₁.processor.cyclesLeft - 1 + 1 = m₁.processor.cyclesLeft
        omega
      · exact (Array.countP_push_of_neg (by simp [Event.IsBegan])).trans hloads.began
    · rw [handle_of_halt f hpolicy] at hhandle
      cases hhandle
  · rw [hexecute] at hok
    cases hok
  · have hloads := loads_of_ok hexecute
    have htwo := hloads.two_le
    refine ⟨hloads, ?_, hloads.began⟩
    show m₁.processor.cyclesLeft - 1 + 1 = m₁.processor.cyclesLeft
    omega

/-- **What a cycle counts down from.** The count after a cycle that succeeds is one less than what
the instruction loaded it with, or than it was if the cycle only waited; that was not zero. -/
theorem tick_cyclesLeft_add_one (hok : (m.tick bus).1 = .ok ()) :
    (m.tick bus).2.processor.cyclesLeft + 1 =
      if m.processor.cyclesLeft = 0 then (m.execute bus).2.processor.cyclesLeft
      else m.processor.cyclesLeft := by
  rcases hhalted : m.processor.halted with _ | f
  · by_cases hcycles : m.processor.cyclesLeft = 0
    · rw [if_pos hcycles]
      exact (tick_of_ready_of_ok ⟨hhalted, hcycles⟩ hok).2.1
    · rw [if_neg hcycles, tick_of_waiting bus hhalted hcycles]
      show m.processor.cyclesLeft - 1 + 1 = m.processor.cyclesLeft
      omega
  · rw [tick_of_halted bus hhalted] at hok
    cases hok

/-- A cycle keeps the bound. -/
theorem tick_cyclesLeft_le (h : m.processor.cyclesLeft ≤ 11) :
    (m.tick bus).2.processor.cyclesLeft ≤ 11 := by
  rcases hhalted : m.processor.halted with _ | f
  · by_cases hcycles : m.processor.cyclesLeft = 0
    · rw [tick_of_ready ⟨hhalted, hcycles⟩]
      rcases hexecute : m.execute bus with ⟨(f | error) | _, m₁⟩
      · have hle := (loads_of_fault hexecute).le_most
        show (m₁.handle f).2.processor.cyclesLeft ≤ 11
        -- A fault that halts leaves the whole base count, one that is skipped a cycle less.
        rcases hpolicy : m₁.processor.policy
        · rw [handle_of_skip f hpolicy]
          exact Nat.le_trans (Nat.sub_le _ 1) hle
        · rw [handle_of_halt f hpolicy]
          exact hle
      · show m₁.processor.cyclesLeft ≤ 11
        rw [(processor_of_refused hexecute).1]
        exact h
      · have hle := (loads_of_ok hexecute).le_most
        show m₁.processor.cyclesLeft - 1 ≤ 11
        omega
    · rw [tick_of_waiting bus hhalted hcycles]
      exact Nat.le_trans (Nat.sub_le _ 1) h
  · rw [tick_of_halted bus hhalted]
    exact h

/-- An opcode that cannot be read leaves the processor as it was, about to fetch it. -/
theorem tick_of_error_refused {error : BusError} (h : (m.tick bus).1 = .error (.refused error)) :
    m.Ready ∧ (m.tick bus).2.processor = m.processor ∧
      ∃ host, bus.read m.processor.registers.pc m.host = (.error error, host) := by
  rcases hhalted : m.processor.halted with _ | f
  · by_cases hcycles : m.processor.cyclesLeft = 0
    · have hready : m.Ready := ⟨hhalted, hcycles⟩
      rw [tick_of_ready hready] at h ⊢
      rcases hexecute : m.execute bus with ⟨(f | error') | _, m₁⟩
      · rw [hexecute] at h
        have hhandle : (m₁.handle f).1 = .error (.refused error) := h
        rcases hpolicy : m₁.processor.policy
        · rw [handle_of_skip f hpolicy] at hhandle
          cases hhandle
        · rw [handle_of_halt f hpolicy] at hhandle
          cases hhandle
      · rw [hexecute] at h
        obtain rfl : error' = error := Stop.refused.inj (Except.error.inj h)
        exact ⟨hready, processor_of_refused hexecute⟩
      · rw [hexecute] at h
        cases h
    · rw [tick_of_waiting bus hhalted hcycles] at h
      cases h
  · rw [tick_of_halted bus hhalted] at h
    cases h

/-! ## Whatever the host does -/

/-- A machine that a host can have: its processor was constructed, and then the host did what it
liked. -/
inductive Reachable (bus : Bus σ) : Machine σ → Prop where
  | powerOn {policy : FaultPolicy} {host : σ} {m : Machine σ}
      (h : powerOn bus policy host = (.ok (), m)) : Reachable bus m
  | perform {m : Machine σ} (action : HostAction σ) (h : Reachable bus m) :
      Reachable bus (action.perform bus m).2

theorem Reachable.after (h : m.Reachable bus) (actions : List (HostAction σ)) :
    (m.after bus actions).Reachable bus := by
  induction actions generalizing m with
  | nil => exact h
  | cons action actions ih => exact ih (h.perform action)

theorem clock_cyclesLeft_le (h : m.processor.cyclesLeft ≤ 11) (n : Nat) :
    (m.clock bus n).2.processor.cyclesLeft ≤ 11 := by
  induction n generalizing m with
  | zero => exact h
  | succ n ih =>
    have hfirst : (m.tick bus).2.processor.cyclesLeft ≤ 11 := tick_cyclesLeft_le h
    rcases htick : m.tick bus with ⟨stop | _, m'⟩
    · rw [htick] at hfirst
      simpa only [clock, htick] using hfirst
    · rw [htick] at hfirst
      simpa only [clock, htick] using ih hfirst

/-- A reset that reads its vector loads the count. -/
theorem reset_cyclesLeft (h : m.reset bus = (.ok (), m₁)) :
    m₁.processor.cyclesLeft = resetCycles := by
  obtain ⟨low, high, host, host', hl, hh⟩ := reset_ok_iff.mp (congrArg Prod.fst h)
  rw [reset_of_vector hl hh] at h
  rw [← (Prod.mk.inj h).2]

theorem perform_cyclesLeft_le (h : m.processor.cyclesLeft ≤ 11) (action : HostAction σ) :
    (action.perform bus m).2.processor.cyclesLeft ≤ 11 := by
  cases action with
  | tick => exact tick_cyclesLeft_le h
  | clock n => exact clock_cyclesLeft_le h n
  | reset =>
    rw [HostAction.perform, stopped_machine]
    rcases hreset : m.reset bus with ⟨error | _, m₁⟩
    · rw [reset_of_error hreset]
      exact h
    · rw [reset_cyclesLeft hreset]
      decide
  | restore registers => exact h
  | setPolicy policy => exact h
  | read address =>
    rw [HostAction.perform, stopped_machine, read_processor]
    exact h
  | write address value =>
    rw [HostAction.perform, stopped_machine, write_processor]
    exact h
  | change f =>
    rw [HostAction.perform, modifyHost_processor]
    exact h

/-- **The count is at most eleven**, whenever the host looks at it. -/
theorem Reachable.cyclesLeft_le (h : m.Reachable bus) : m.processor.cyclesLeft ≤ 11 := by
  induction h with
  | powerOn h =>
    rw [reset_cyclesLeft h]
    decide
  | perform action h ih => exact perform_cyclesLeft_le ih action

/-! ## A loop over one instruction -/

/-- A host's loop that goes through cycles until the count is at zero, or until one fails: how
many cycles it goes through, how the last of them ends, and in which machine. -/
inductive Settles (bus : Bus σ) : Machine σ → Nat → Except Stop Unit → Machine σ → Prop where
  | done {m : Machine σ} (hzero : m.processor.cyclesLeft = 0) : Settles bus m 0 (.ok ()) m
  | step {m m' m'' : Machine σ} {n : Nat} {outcome : Except Stop Unit}
      (hcycles : m.processor.cyclesLeft ≠ 0) (htick : m.tick bus = (.ok (), m'))
      (hrest : Settles bus m' n outcome m'') : Settles bus m (n + 1) outcome m''
  | stop {m m' : Machine σ} {stop : Stop} (hcycles : m.processor.cyclesLeft ≠ 0)
      (htick : m.tick bus = (.error stop, m')) : Settles bus m 1 (.error stop) m'

/-- The same loop, but it goes through one cycle before it looks at the count. -/
inductive Turns (bus : Bus σ) : Machine σ → Nat → Except Stop Unit → Machine σ → Prop where
  | step {m m' m'' : Machine σ} {n : Nat} {outcome : Except Stop Unit}
      (htick : m.tick bus = (.ok (), m')) (hrest : m'.Settles bus n outcome m'') :
      Turns bus m (n + 1) outcome m''
  | stop {m m' : Machine σ} {stop : Stop} (htick : m.tick bus = (.error stop, m')) :
      Turns bus m 1 (.error stop) m'

/-- The machine with nothing left to wait for. -/
def settled (m : Machine σ) : Machine σ := m.modify fun p => { p with cyclesLeft := 0 }

theorem settled_of_zero (h : m.processor.cyclesLeft = 0) : m.settled = m := by
  obtain ⟨⟨registers, cyclesLeft, policy, halted, log⟩, host⟩ := m
  obtain rfl : cyclesLeft = 0 := h
  rfl

/-- A running processor waits as often as the count says. -/
theorem settles_of_running (bus : Bus σ) (hhalted : m.processor.halted = none) :
    m.Settles bus m.processor.cyclesLeft (.ok ()) m.settled := by
  generalize hcount : m.processor.cyclesLeft = count
  induction count generalizing m with
  | zero =>
    rw [settled_of_zero hcount]
    exact .done hcount
  | succ count ih =>
    have hcycles : m.processor.cyclesLeft ≠ 0 := by omega
    have hwait : m.wait.processor.cyclesLeft = count := by
      show m.processor.cyclesLeft - 1 = count
      omega
    exact .step hcycles (tick_of_waiting bus hhalted hcycles) (ih hhalted hwait)

/-- **The first part of the loop ends** after no more cycles than the count says. If it does not
fail it has only counted down. -/
theorem exists_settles (bus : Bus σ) (m : Machine σ) :
    ∃ n outcome m', m.Settles bus n outcome m' ∧ n ≤ m.processor.cyclesLeft ∧
      (outcome = .ok () → m' = m.settled) := by
  rcases hhalted : m.processor.halted with _ | f
  · exact ⟨_, _, _, settles_of_running bus hhalted, Nat.le_refl _, fun _ => rfl⟩
  · by_cases hcycles : m.processor.cyclesLeft = 0
    · exact ⟨0, _, m, .done hcycles, Nat.zero_le _, fun _ => (settled_of_zero hcycles).symm⟩
    · refine ⟨1, _, m, .stop hcycles (tick_of_halted bus hhalted),
        Nat.one_le_iff_ne_zero.mpr hcycles, ?_⟩
      intro h
      cases h

/-- A cycle that succeeds leaves a running processor. -/
theorem tick_running (hok : (m.tick bus).1 = .ok ()) : (m.tick bus).2.processor.halted = none := by
  rcases hhalted : m.processor.halted with _ | f
  · rcases hafter : (m.tick bus).2.processor.halted with _ | f
    · rfl
    · have htick := (tick_halts hhalted hafter).tick
      rw [htick] at hok
      cases hok
  · rw [tick_of_halted bus hhalted] at hok
    cases hok

/-- **The second part of the loop ends** after no more cycles than the longest instruction takes.
If it does not fail it has executed one instruction, in its first cycle, and then counted down. -/
theorem exists_turns (bus : Bus σ) (hzero : m.processor.cyclesLeft = 0) :
    ∃ n outcome m', m.Turns bus n outcome m' ∧ n ≤ 12 ∧
      (outcome = .ok () → m' = (m.tick bus).2.settled ∧
        m'.processor.log.countP Event.IsBegan = m.processor.log.countP Event.IsBegan + 1) := by
  rcases htick : m.tick bus with ⟨stop | _, m₁⟩
  · refine ⟨1, _, m₁, .stop htick, by decide, ?_⟩
    intro h
    cases h
  · have hok : (m.tick bus).1 = .ok () := congrArg Prod.fst htick
    have hrunning := tick_running hok
    have hhalted : m.processor.halted = none := by
      rcases h : m.processor.halted with _ | f
      · rfl
      · rw [tick_of_halted bus h] at hok
        cases hok
    obtain ⟨hloads, hcycles, hbegan⟩ := tick_of_ready_of_ok ⟨hhalted, hzero⟩ hok
    have hmost := hloads.le_most
    rw [htick] at hrunning hcycles hbegan
    dsimp only at hrunning hcycles hbegan
    exact ⟨_, _, _, .step htick (settles_of_running bus hrunning), by omega, fun _ => ⟨rfl, hbegan⟩⟩

/-- The first part of the loop is what `Machine.finish` does, and if it does not fail it goes
through as many cycles as the count says. -/
theorem Settles.finish_eq {n : Nat} {outcome : Except Stop Unit} {m' : Machine σ}
    (h : m.Settles bus n outcome m') :
    m.finish bus = (outcome, m') ∧ (outcome = .ok () → n = m.processor.cyclesLeft) := by
  induction h with
  | done hzero =>
    unfold finish
    rw [hzero]
    exact ⟨rfl, fun _ => rfl⟩
  | @step m m' m'' n outcome hcycles htick hrest ih =>
    have hcount := tick_cyclesLeft_add_one (congrArg Prod.fst htick)
    rw [if_neg hcycles, htick] at hcount
    unfold finish at ih ⊢
    rw [← hcount]
    exact ⟨by simpa only [clock, htick] using ih.1, fun hok => congrArg (· + 1) (ih.2 hok)⟩
  | @stop m m' stop hcycles htick =>
    obtain ⟨count, hcount⟩ := Nat.exists_eq_succ_of_ne_zero hcycles
    unfold finish
    rw [hcount]
    refine ⟨by simp only [clock, htick], ?_⟩
    intro hok
    cases hok

/-- Both parts of the loop are what `Machine.runInstruction` does. -/
theorem Turns.runInstruction_eq {n k : Nat} {outcome : Except Stop Unit} {m₂ : Machine σ}
    (hfirst : m.Settles bus n (.ok ()) m₁) (hsecond : m₁.Turns bus k outcome m₂) :
    m.runInstruction bus = (outcome.map fun _ => k, m₂) := by
  unfold runInstruction
  rw [hfirst.finish_eq.1]
  cases hsecond with
  | step htick hrest =>
    obtain ⟨hfinish, hcount⟩ := hrest.finish_eq
    unfold finish at hfinish
    simp only [htick, hfinish]
    rcases outcome with stop | _
    · rfl
    · rw [hcount rfl]
      rfl
  | stop htick =>
    simp only [htick]
    rfl

/-- The loop over one instruction comes to an end: in its first part after at most eleven cycles
and in its second after at most twelve. If no cycle fails, the first part has only counted down,
and the second has executed one instruction. -/
def LoopEnds (bus : Bus σ) (m : Machine σ) : Prop :=
  ∃ n₁ outcome₁ m₁, m.Settles bus n₁ outcome₁ m₁ ∧ n₁ ≤ 11 ∧
    (∀ stop, outcome₁ = .error stop → m.runInstruction bus = (.error stop, m₁)) ∧
    (outcome₁ = .ok () → m₁ = m.settled ∧
      ∃ n₂ outcome₂ m₂, m₁.Turns bus n₂ outcome₂ m₂ ∧ n₂ ≤ 12 ∧
        m.runInstruction bus = (outcome₂.map fun _ => n₂, m₂) ∧
        (outcome₂ = .ok () → m₂ = (m₁.tick bus).2.settled ∧
          m₂.processor.log.countP Event.IsBegan = m₁.processor.log.countP Event.IsBegan + 1))

theorem loopEnds (bus : Bus σ) (hle : m.processor.cyclesLeft ≤ 11) : m.LoopEnds bus := by
  obtain ⟨n₁, outcome₁, m₁, hfirst, hn₁, hsettled⟩ := exists_settles bus m
  refine ⟨n₁, outcome₁, m₁, hfirst, Nat.le_trans hn₁ hle, ?_, ?_⟩
  · rintro stop rfl
    unfold runInstruction
    rw [hfirst.finish_eq.1]
  · rintro rfl
    obtain rfl := hsettled rfl
    obtain ⟨n₂, outcome₂, m₂, hsecond, hn₂, hone⟩ := exists_turns (m := m.settled) bus rfl
    exact ⟨rfl, n₂, outcome₂, m₂, hsecond, hn₂, hsecond.runInstruction_eq hfirst, hone⟩

/-! ## All of it -/

/-- What holds of the count of a machine, and of its next cycle. -/
structure Counted (bus : Bus σ) (m : Machine σ) : Prop where
  le : m.processor.cyclesLeft ≤ 11
  /-- a cycle that succeeds counts down by one, and not from zero -/
  countdown : (m.tick bus).1 = .ok () → (m.tick bus).2.processor.cyclesLeft + 1 =
    if m.processor.cyclesLeft = 0 then (m.execute bus).2.processor.cyclesLeft
    else m.processor.cyclesLeft
  /-- an instruction that is completed, or skipped after a fault, is still to be waited for -/
  loaded : m.Ready → (m.tick bus).1 = .ok () →
    1 ≤ (m.tick bus).2.processor.cyclesLeft ∧ (m.tick bus).2.processor.cyclesLeft ≤ 11
  /-- an opcode that cannot be read leaves the processor as it was, about to fetch it -/
  unread : ∀ error, (m.tick bus).1 = .error (.refused error) →
    (∃ host, bus.read m.processor.registers.pc m.host = (.error error, host)) ∧
    m.processor.cyclesLeft = 0 ∧ (m.tick bus).2.processor = m.processor
  loop : m.LoopEnds bus

/-- **The count stays in bounds**, in every machine that a host can have and on every bus. So a
host that goes through cycles until the count is at zero, and then through at least one and on
until it is at zero again, comes to an end. -/
theorem counted_of_reachable {bus : Bus σ} {m : Machine σ} (hm : m.Reachable bus) :
    m.Counted bus := by
  have hle := hm.cyclesLeft_le
  constructor
  case le => exact hle
  case countdown => exact tick_cyclesLeft_add_one
  case loaded =>
    intro hready hok
    obtain ⟨hloads, hcount, -⟩ := tick_of_ready_of_ok hready hok
    have htwo := hloads.two_le
    exact ⟨by omega, tick_cyclesLeft_le hle⟩
  case unread =>
    intro error herror
    obtain ⟨hready, hprocessor, hread⟩ := tick_of_error_refused herror
    exact ⟨hread, hready.2, hprocessor⟩
  case loop => exact loopEnds bus hle

/-- A host that answers every read with the longest instruction and refuses all writes. -/
def divisionBus : Bus Unit where
  read _ host := (.ok 0x9E, host)
  write _ _ host := (.error .wordless, host)

/-- A division, which reaches the bound. -/
theorem counted_of_divisionBus :
    let m := (powerOn divisionBus .halt ()).2.after divisionBus [.restore { a := 1 }, .clock 7]
    m.Reachable divisionBus ∧ m.Ready ∧ (m.tick divisionBus).2.processor.cyclesLeft = 11 ∧
      m.Counted divisionBus := by
  intro m
  have hm : m.Reachable divisionBus := (Reachable.powerOn rfl).after _
  exact ⟨hm, ⟨rfl, rfl⟩, rfl, counted_of_reachable hm⟩

end Machine

end Spc700
