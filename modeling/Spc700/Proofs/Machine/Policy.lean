import Spc700.Proofs.Machine.Cycle

/-!
# Two policies

What the policy is can be seen only at a fault. Two machines that differ in nothing else go the
same way, cycle by cycle, until an instruction faults; in the cycle of the fault they still do the
same to the registers and to the host, and part in the outcome, the count, the halt and the last
event of the log.

* `Machine.execute_setPolicy`, `Machine.tick_setPolicy`: an instruction does not look at the
  policy, and neither does a cycle in which no instruction faults.
* `Machine.policies_agree`: the two machines over any number of cycles.
-/

namespace Spc700

variable {σ : Type}

namespace Machine

variable {bus : Bus σ} {m : Machine σ} {f : Fault} {policy : FaultPolicy} {n : Nat}

/-- The machine after a number of cycles. A cycle that fails is over, and the next one finds the
machine as the failure left it. -/
def elapse (bus : Bus σ) (m : Machine σ) : Nat → Machine σ
  | 0 => m
  | n + 1 => ((m.elapse bus n).tick bus).2

/-- The next cycle begins an instruction, and the instruction faults. -/
structure Faults (bus : Bus σ) (m : Machine σ) (f : Fault) : Prop where
  ready : m.Ready
  execute : (m.execute bus).1 = .error (.fault f)

/-- No instruction faults in the first cycles, as many as are counted. -/
def Faultless (bus : Bus σ) (m : Machine σ) (n : Nat) : Prop :=
  ∀ i < n, ∀ f, ¬ (m.elapse bus i).Faults bus f

theorem Faultless.of_succ (h : m.Faultless bus (n + 1)) : m.Faultless bus n :=
  fun i hi => h i (Nat.lt_succ_of_lt hi)

theorem Faultless.mono {k : Nat} (h : m.Faultless bus n) (hk : k ≤ n) : m.Faultless bus k :=
  fun i hi => h i (Nat.lt_of_lt_of_le hi hk)

/-! ## The policy and an instruction -/

theorem setPolicy_of_eq (h : m.processor.policy = policy) : m.setPolicy policy = m := by
  subst h
  rfl

/-- An instruction does not look at the policy. -/
theorem execute_setPolicy (policy : FaultPolicy) :
    (m.setPolicy policy).execute bus =
      ((m.execute bus).1, (m.execute bus).2.setPolicy policy) := by
  rcases execute_cases bus m with ⟨error, host, hread, hexecute⟩ |
    ⟨opcode, es, extra, registers, host₀, host₁, hread, hd, hg, hexecute⟩ |
    ⟨opcode, before, e, after, result, error, host₀, host₁, host₂, hread, hd, hg, hr, hexecute⟩
  · rw [hexecute, execute_of_unread (m := m.setPolicy policy) hread]
    rfl
  · rw [hexecute, execute_of_ok (m := m.setPolicy policy) hread (Dialogue.run_of_grantsAll hd hg)]
    rfl
  · rw [hexecute,
      execute_of_error (m := m.setPolicy policy) hread (Dialogue.run_of_refuses hd hg hr)]
    rfl

theorem faults_setPolicy : (m.setPolicy policy).Faults bus f ↔ m.Faults bus f := by
  constructor
  · rintro ⟨hready, hexecute⟩
    rw [execute_setPolicy] at hexecute
    exact ⟨hready, hexecute⟩
  · rintro ⟨hready, hexecute⟩
    refine ⟨hready, ?_⟩
    rw [execute_setPolicy]
    exact hexecute

/-- An instruction that faults has been read, and was cut at an exchange. -/
theorem Faults.exists_cut (h : m.Faults bus f) :
    ∃ host₀ e host error, bus.read m.processor.registers.pc m.host = (.ok f.opcode, host₀) ∧
      f = m.fault f.opcode error ∧ m.execute bus = (.error (.fault f), m.cut f.opcode e host) := by
  have hfault := h.execute
  rcases execute_cases bus m with ⟨error, host, hread, hexecute⟩ |
    ⟨opcode, es, extra, registers, host₀, host₁, hread, hd, hg, hexecute⟩ |
    ⟨opcode, before, e, after, result, error, host₀, host₁, host₂, hread, hd, hg, hr, hexecute⟩
  · rw [hexecute] at hfault
    cases hfault
  · rw [hexecute] at hfault
    cases hfault
  · rw [hexecute] at hfault ⊢
    obtain rfl : m.fault opcode error = f := Stop.fault.inj (Except.error.inj hfault)
    exact ⟨host₀, e, host₂, error, hread, rfl, rfl⟩

/-! ## The policy and a cycle -/

/-- **A cycle without a fault does not look at the policy.** -/
theorem tick_setPolicy (policy : FaultPolicy) (h : ∀ f, ¬ m.Faults bus f) :
    (m.setPolicy policy).tick bus = ((m.tick bus).1, (m.tick bus).2.setPolicy policy) := by
  rcases hhalted : m.processor.halted with _ | fault
  · by_cases hcycles : m.processor.cyclesLeft = 0
    · have hready : m.Ready := ⟨hhalted, hcycles⟩
      have hready' : (m.setPolicy policy).Ready := hready
      have hnone := fun f hexecute => h f ⟨hready, hexecute⟩
      rw [tick_of_ready hready, tick_of_ready hready', execute_setPolicy]
      -- Of the three ways in which the instruction can end, only a fault is handled.
      rcases hexecute : m.execute bus with ⟨(fault | error) | _, m'⟩
      · rw [hexecute] at hnone
        exact absurd rfl (hnone fault)
      · rfl
      · rfl
    · rw [tick_of_waiting bus hhalted hcycles,
        tick_of_waiting (m := m.setPolicy policy) bus hhalted hcycles]
      rfl
  · rw [tick_of_halted bus hhalted, tick_of_halted (m := m.setPolicy policy) bus hhalted]

/-- As long as no instruction faults, what is set as the policy stays the only difference. -/
theorem elapse_setPolicy (policy : FaultPolicy) (h : m.Faultless bus n) :
    (m.setPolicy policy).elapse bus n = (m.elapse bus n).setPolicy policy := by
  induction n with
  | zero => rfl
  | succ n ih =>
    show (((m.setPolicy policy).elapse bus n).tick bus).2 = _
    rw [ih h.of_succ, tick_setPolicy policy (h n n.lt_succ_self)]
    rfl

/-- A cycle that does not begin a fault leaves a running processor running, and does not end in
one. -/
theorem tick_of_not_faults (hhalted : m.processor.halted = none) (h : ∀ f, ¬ m.Faults bus f) :
    (m.tick bus).2.processor.halted = none ∧ ∀ f, (m.tick bus).1 ≠ .error (.fault f) := by
  have hcycle := tick_cycle bus m
  generalize (m.tick bus).1 = outcome at hcycle ⊢
  generalize (m.tick bus).2 = m' at hcycle ⊢
  cases hcycle with
  | halted hsome => simp [hhalted] at hsome
  | waiting _ _ => exact ⟨hhalted, by simp⟩
  | unread _ _ => exact ⟨hhalted, by simp⟩
  | completed _ _ _ _ => exact ⟨hhalted, by simp⟩
  | refused hready hread hd hg hr =>
    have hexecute := execute_of_error hread (Dialogue.run_of_refuses hd hg hr)
    exact absurd ⟨hready, congrArg Prod.fst hexecute⟩ (h _)

/-! ## Skipping -/

/-- The policy stays as it was set. -/
theorem tick_policy (bus : Bus σ) (m : Machine σ) :
    (m.tick bus).2.processor.policy = m.processor.policy := by
  have hcycle := tick_cycle bus m
  generalize (m.tick bus).1 = outcome at hcycle
  generalize (m.tick bus).2 = m' at hcycle ⊢
  cases hcycle with
  | refused _ _ _ _ _ => exact (handle_frame _ _).2.1
  | _ => rfl

/-- A cycle that finds the policy set to skip succeeds, unless it finds the processor halted or
cannot read the opcode; and it does not halt the processor. -/
theorem tick_of_skip (hhalted : m.processor.halted = none) (hpolicy : m.processor.policy = .skip) :
    (m.tick bus).2.processor.halted = none ∧ ∀ f, (m.tick bus).1 ≠ .error (.fault f) := by
  by_cases h : ∃ f, m.Faults bus f
  · obtain ⟨f, hfaults⟩ := h
    obtain ⟨host₀, e, host, error, -, -, hexecute⟩ := hfaults.exists_cut
    have hskip : (m.cut f.opcode e host).processor.policy = .skip := hpolicy
    rw [tick_of_ready hfaults.ready, hexecute]
    show ((m.cut f.opcode e host).handle f).2.processor.halted = none ∧
      ∀ f', ((m.cut f.opcode e host).handle f).1 ≠ .error (.fault f')
    rw [handle_of_skip f hskip]
    exact ⟨hhalted, by simp⟩
  · exact tick_of_not_faults hhalted (not_exists.mp h)

/-- Over any number of cycles a processor that skips is never halted. -/
theorem elapse_of_skip (bus : Bus σ) (hhalted : m.processor.halted = none)
    (hpolicy : m.processor.policy = .skip) (n : Nat) :
    (m.elapse bus n).processor.halted = none ∧ (m.elapse bus n).processor.policy = .skip := by
  induction n with
  | zero => exact ⟨hhalted, hpolicy⟩
  | succ n ih => exact ⟨(tick_of_skip ih.1 ih.2).1, (tick_policy bus _).trans ih.2⟩

/-! ## The first fault -/

/-- What comes of the cycle of a fault `f` that the machine `m` is about to begin, under the two
policies. -/
structure PartAt (bus : Bus σ) (m : Machine σ) (f : Fault)
    (skip halt : Except Stop Unit × Machine σ) : Prop where
  /-- the fault is that of the instruction that was next -/
  opcode : ∃ host, bus.read m.processor.registers.pc m.host = (.ok f.opcode, host)
  pc : f.pc = m.processor.registers.pc
  registers : halt.2.processor.registers = skip.2.processor.registers
  /-- the same accesses, with the same effects -/
  host : halt.2.host = skip.2.host
  skip_outcome : skip.1 = .ok ()
  skip_cyclesLeft : skip.2.processor.cyclesLeft = (decode f.opcode).cycles - 1
  skip_halted : skip.2.processor.halted = none
  skip_log : skip.2.processor.log = m.processor.log ++
    #[.began f.pc f.opcode (m.processor.registers.advance 1), .skipped f]
  /-- the fault, which comes last, is reported as an error -/
  skip_level : skip.2.processor.log.back?.map Event.level = some .error
  halt_outcome : halt.1 = .error (.fault f)
  halt_cyclesLeft : halt.2.processor.cyclesLeft = (decode f.opcode).cycles
  halt_halted : halt.2.processor.halted = some f
  halt_log : halt.2.processor.log = m.processor.log ++
    #[.began f.pc f.opcode (m.processor.registers.advance 1), .halted f]
  /-- and here as a warning -/
  halt_level : halt.2.processor.log.back?.map Event.level = some .warn

/-- **Where the policies part.** -/
theorem Faults.partAt (h : m.Faults bus f) :
    m.PartAt bus f ((m.setPolicy .skip).tick bus) ((m.setPolicy .halt).tick bus) := by
  obtain ⟨host₀, e, host, error, hread, hf, hexecute⟩ := h.exists_cut
  have hpc : f.pc = m.processor.registers.pc := congrArg Fault.pc hf
  have htick : ∀ policy, (m.setPolicy policy).tick bus =
      ((m.cut f.opcode e host).setPolicy policy).handle f := by
    intro policy
    rw [tick_of_ready (faults_setPolicy.mpr h).ready, execute_setPolicy, hexecute]
  rw [htick, htick, handle_of_skip f rfl, handle_of_halt f rfl]
  constructor
  case opcode => exact ⟨host₀, hread⟩
  case pc => exact hpc
  case registers => rfl
  case host => rfl
  case skip_outcome => rfl
  case skip_cyclesLeft => rfl
  case skip_halted => exact h.ready.1
  case skip_log =>
    rw [hpc]
    rfl
  case skip_level => exact congrArg (Option.map Event.level) Array.back?_push
  case halt_outcome => rfl
  case halt_cyclesLeft => rfl
  case halt_halted => rfl
  case halt_log =>
    rw [hpc]
    rfl
  case halt_level => exact congrArg (Option.map Event.level) Array.back?_push

/-- **The policies agree up to the first fault.** Let two machines differ in the policy only, let
neither be halted, and let a record of all accesses be kept. Over any number of cycles in which no
instruction faults they differ in the policy only, and each cycle ends alike in both: it succeeds,
or an opcode cannot be read. In the cycle of the first fault they part as `PartAt` says. A
processor that skips never fails with a fault, however long it runs. -/
theorem policies_agree (bus : Bus σ) {m : Machine (Recorded σ)}
    (hhalted : m.processor.halted = none) :
    let skip := (m.setPolicy .skip).elapse bus.recorded
    let halt := (m.setPolicy .halt).elapse bus.recorded
    (∀ n, (m.setPolicy .skip).Faultless bus.recorded n →
      halt n = (skip n).setPolicy .halt ∧
      ∀ i < n, ((halt i).tick bus.recorded).1 = ((skip i).tick bus.recorded).1 ∧
        (((skip i).tick bus.recorded).1 = .ok () ∨
          ∃ error, ((skip i).tick bus.recorded).1 = .error (.refused error))) ∧
    (∀ n f, (m.setPolicy .skip).Faultless bus.recorded n → (skip n).Faults bus.recorded f →
      (halt n).Faults bus.recorded f ∧
      (skip n).PartAt bus.recorded f ((skip n).tick bus.recorded) ((halt n).tick bus.recorded)) ∧
    ∀ n f, ((skip n).tick bus.recorded).1 ≠ .error (.fault f) := by
  intro skip halt
  have hskip := elapse_of_skip (m := m.setPolicy .skip) bus.recorded hhalted rfl
  have hagree : ∀ n, (m.setPolicy .skip).Faultless bus.recorded n →
      halt n = (skip n).setPolicy .halt :=
    fun n h => elapse_setPolicy (m := m.setPolicy .skip) .halt h
  refine ⟨?_, ?_, ?_⟩
  · intro n h
    refine ⟨hagree n h, ?_⟩
    intro i hi
    rw [hagree i (h.mono (Nat.le_of_lt hi)), tick_setPolicy .halt (h i hi)]
    refine ⟨rfl, ?_⟩
    rcases houtcome : ((skip i).tick bus.recorded).1 with (fault | error) | _
    · exact absurd houtcome ((tick_of_not_faults (hskip i).1 (h i hi)).2 fault)
    · exact .inr ⟨error, rfl⟩
    · exact .inl rfl
  · intro n f h hfaults
    have hpart := hfaults.partAt
    rw [hagree n h]
    -- The machine that skips has the policy already that the parting sets.
    have hsame : (skip n).setPolicy .skip = skip n := setPolicy_of_eq (hskip n).2
    rw [hsame] at hpart
    exact ⟨faults_setPolicy.mpr hfaults, hpart⟩
  · intro n
    exact (tick_of_skip (hskip n).1 (hskip n).2).2

/-- A host that answers each read with a push and counts the reads, and refuses all writes. -/
def readOnlyBus : Bus Nat where
  read _ reads := (.ok 0x2D, reads + 1)
  write _ _ reads := (.error (.message "read only"), reads)

/-- A push that waits for its turn and then cannot write. -/
theorem policies_agree_of_readOnlyBus :
    let m : Machine (Recorded Nat) :=
      { processor := { registers := { pc := 0x0200 }, cyclesLeft := 1 }, host := { host := 0 } }
    let f : Fault := { opcode := 0x2D, pc := 0x0200, detail := "read only" }
    let skip := (m.setPolicy .skip).elapse readOnlyBus.recorded
    let halt := (m.setPolicy .halt).elapse readOnlyBus.recorded
    (halt 1 = (skip 1).setPolicy .halt ∧
      ∀ i < 1, ((halt i).tick readOnlyBus.recorded).1 = ((skip i).tick readOnlyBus.recorded).1 ∧
        (((skip i).tick readOnlyBus.recorded).1 = .ok () ∨
          ∃ error, ((skip i).tick readOnlyBus.recorded).1 = .error (.refused error))) ∧
    ((halt 1).Faults readOnlyBus.recorded f ∧
      (skip 1).PartAt readOnlyBus.recorded f ((skip 1).tick readOnlyBus.recorded)
        ((halt 1).tick readOnlyBus.recorded)) ∧
    ∀ n f, ((skip n).tick readOnlyBus.recorded).1 ≠ .error (.fault f) := by
  intro m f skip halt
  have hagree := policies_agree readOnlyBus (m := m) rfl
  have hfaultless : (m.setPolicy .skip).Faultless readOnlyBus.recorded 1 := by
    rintro i hi f ⟨hready, -⟩
    obtain rfl : i = 0 := by omega
    exact absurd hready.2 (by decide)
  exact ⟨hagree.1 1 hfaultless, hagree.2.1 1 f hfaultless ⟨⟨rfl, rfl⟩, rfl⟩, hagree.2.2⟩

end Machine

end Spc700
