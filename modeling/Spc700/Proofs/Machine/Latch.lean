import Spc700.Bus.Bench
import Spc700.Proofs.Machine.Cycle
import Spc700.Proofs.Machine.Host

/-!
# The halt latch

A halted processor stays halted, whatever the host does with it, until a reset reads its whole
vector. Until then it does nothing and reports nothing. It comes to be halted in one way only: an
instruction faults in a cycle that finds the policy set to halt.

`Machine.Follows` is what every action keeps and every sequence of actions with it: the latch, and
that of the events it adds to the log only the last can be a warning.
-/

namespace Spc700

variable {σ : Type}

namespace Machine

variable {bus : Bus σ} {m m' m'' : Machine σ} {f : Fault}

/-- What was reported on the way from a machine to a later one: no warning but that of the halt
which the later one stands in, and nothing after it. -/
def Reports (m m' : Machine σ) (events : List Event) : Prop :=
  m'.processor.log = m.processor.log ++ events.toArray ∧
    ((∀ event ∈ events, event.level ≠ .warn) ∨
      ∃ before f, events = before ++ [.halted f] ∧ m'.processor.halted = some f ∧
        ∀ event ∈ before, event.level ≠ .warn)

/-- The second machine is one that the first can come to be without a reset. -/
structure Follows (m m' : Machine σ) : Prop where
  latched : ∀ f, m.processor.halted = some f →
    m'.processor.halted = some f ∧ m'.processor.log = m.processor.log
  reports : ∃ events, m.Reports m' events

namespace Follows

theorem refl (m : Machine σ) : m.Follows m where
  latched f h := ⟨h, rfl⟩
  reports := ⟨[], by simp, .inl (by simp)⟩

/-- An action that touches neither the halt nor the log. -/
theorem of_eq (hhalted : m'.processor.halted = m.processor.halted)
    (hlog : m'.processor.log = m.processor.log) : m.Follows m' where
  latched f h := ⟨hhalted.trans h, hlog⟩
  reports := ⟨[], by simp [hlog], .inl (by simp)⟩

theorem of_processor_eq (h : m'.processor = m.processor) : m.Follows m' :=
  of_eq (congrArg Processor.halted h) (congrArg Processor.log h)

/-- An action on a machine that is not halted. -/
theorem of_reports (events : List Event) (hhalted : m.processor.halted = none)
    (hevents : m.Reports m' events) : m.Follows m' where
  latched f h := by simp [hhalted] at h
  reports := ⟨events, hevents⟩

theorem trans (h : m.Follows m') (h' : m'.Follows m'') : m.Follows m'' where
  latched f hf := by
    obtain ⟨hf', hlog⟩ := h.latched f hf
    obtain ⟨hf'', hlog'⟩ := h'.latched f hf'
    exact ⟨hf'', hlog'.trans hlog⟩
  reports := by
    obtain ⟨events, hlog, hevents⟩ := h.reports
    rcases hevents with hnone | ⟨before, f, hbefore, hf, hnone⟩
    · obtain ⟨events', hlog', hevents'⟩ := h'.reports
      refine ⟨events ++ events', by simp [hlog', hlog], ?_⟩
      rcases hevents' with hnone' | ⟨before, f, rfl, hf, hnone'⟩
      · left
        intro event hevent
        exact (List.mem_append.mp hevent).elim (hnone event) (hnone' event)
      · refine .inr ⟨events ++ before, f, by simp, hf, ?_⟩
        intro event hevent
        exact (List.mem_append.mp hevent).elim (hnone event) (hnone' event)
    · -- The machine between is halted, so that nothing is added to its log.
      obtain ⟨hf', hlog'⟩ := h'.latched f hf
      exact ⟨events, hlog'.trans hlog, .inr ⟨before, f, hbefore, hf', hnone⟩⟩

end Follows

/-! ## Cycles -/

/-- The machine `m` halts in this cycle and becomes `m'`: it was about to fetch, its instruction
faulted, and the policy was to halt. -/
structure Halts (bus : Bus σ) (m : Machine σ) (f : Fault) (m' : Machine σ) : Prop where
  ready : m.Ready
  policy : m.processor.policy = .halt
  faults : (m.execute bus).1 = .error (.fault f)
  tick : m.tick bus = (.error (.fault f), m')

theorem tick_follows (bus : Bus σ) (m : Machine σ) : m.Follows (m.tick bus).2 := by
  have hcycle := tick_cycle bus m
  generalize (m.tick bus).1 = outcome at hcycle
  generalize (m.tick bus).2 = m' at hcycle
  cases hcycle with
  | halted _ => exact .refl m
  | waiting _ _ => exact .of_eq rfl rfl
  | unread _ _ => exact .of_eq rfl rfl
  | @completed opcode _ _ _ _ _ hready _ _ _ =>
    let began : Event := .began m.processor.registers.pc opcode (m.processor.registers.advance 1)
    refine .of_reports [began] hready.1 ⟨rfl, .inl ?_⟩
    simp [began, Event.level]
  | @refused opcode _ _ e _ error _ _ host hready _ _ _ _ =>
    let began : Event := .began m.processor.registers.pc opcode (m.processor.registers.advance 1)
    let fault := m.fault opcode error
    -- Both policies report the fault; only a halt must be the last event, and it is.
    rcases hpolicy : m.processor.policy
    · rw [handle_of_skip (m := m.cut opcode e host) fault hpolicy]
      refine .of_reports [began, .skipped fault] hready.1 ⟨?_, .inl ?_⟩
      · rfl
      · simp [began, Event.level]
    · rw [handle_of_halt (m := m.cut opcode e host) fault hpolicy]
      refine .of_reports [began, .halted fault] hready.1
        ⟨?_, .inr ⟨[began], fault, rfl, rfl, ?_⟩⟩
      · rfl
      · simp [began, Event.level]

/-- A cycle that leaves the processor halted, and did not find it so, halts it. -/
theorem tick_halts (hnone : m.processor.halted = none)
    (hsome : (m.tick bus).2.processor.halted = some f) : m.Halts bus f (m.tick bus).2 := by
  have hcycle := tick_cycle bus m
  rcases htick : m.tick bus with ⟨outcome, m'⟩
  rw [htick] at hcycle hsome
  dsimp only at hcycle hsome ⊢
  have hkept : m'.processor.halted ≠ m.processor.halted := by simp [hnone, hsome]
  cases hcycle with
  | halted _ => exact absurd rfl hkept
  | waiting _ _ => exact absurd rfl hkept
  | unread _ _ => exact absurd rfl hkept
  | completed _ _ _ _ => exact absurd rfl hkept
  | @refused opcode _ _ e _ error _ _ host hready hread hd hg hr =>
    let fault := m.fault opcode error
    rcases hpolicy : m.processor.policy
    · rw [handle_of_skip (m := m.cut opcode e host) fault hpolicy] at hkept
      exact absurd rfl hkept
    · rw [handle_of_halt (m := m.cut opcode e host) fault hpolicy] at hsome htick ⊢
      obtain rfl : fault = f := Option.some.inj hsome
      exact ⟨hready, hpolicy,
        congrArg Prod.fst (execute_of_error hread (Dialogue.run_of_refuses hd hg hr)), htick⟩

theorem clock_follows (bus : Bus σ) (n : Nat) (m : Machine σ) : m.Follows (m.clock bus n).2 := by
  induction n generalizing m with
  | zero => exact .refl m
  | succ n ih =>
    have htick := tick_follows bus m
    rcases h : m.tick bus with ⟨stop | _, m'⟩
    · simp only [clock, h]
      rwa [h] at htick
    · simp only [clock, h]
      rw [h] at htick
      exact htick.trans (ih m')

/-- A run of cycles that leaves the processor halted, and did not find it so, ends with the cycle
that halts it. -/
theorem clock_halts {n : Nat} (hnone : m.processor.halted = none)
    (hsome : (m.clock bus n).2.processor.halted = some f) :
    ∃ k < n, ∃ m₀, m.clock bus k = (.ok (), m₀) ∧ m₀.Halts bus f (m.clock bus n).2 ∧
      (m.clock bus n).1 = .error (.fault f) := by
  induction n generalizing m with
  | zero =>
    have hsome' : m.processor.halted = some f := hsome
    simp [hnone] at hsome'
  | succ n ih =>
    rcases htick : m.tick bus with ⟨stop | _, m'⟩
    · -- The first cycle stops the run, so it is the one that halts.
      have hclock : m.clock bus (n + 1) = (.error stop, m') := by simp only [clock, htick]
      rw [hclock] at hsome ⊢
      have hhalts := tick_halts (m := m) hnone (by rw [htick]; exact hsome)
      rw [htick] at hhalts
      have hstop : stop = .fault f := by
        have h := hhalts.tick
        rw [htick] at h
        simpa using h
      exact ⟨0, n.succ_pos, m, rfl, hhalts, congrArg Except.error hstop⟩
    · have hclock : m.clock bus (n + 1) = m'.clock bus n := by simp only [clock, htick]
      rw [hclock] at hsome ⊢
      have hnone' : m'.processor.halted = none := by
        rcases h : m'.processor.halted with _ | fault
        · rfl
        · -- A cycle that halts does not succeed.
          have hhalts := tick_halts (m := m) hnone (by rw [htick]; exact h)
          rw [htick] at hhalts
          have h := hhalts.tick
          rw [htick] at h
          simp at h
      obtain ⟨k, hk, m₀, hclock₀, hhalts⟩ := ih hnone' hsome
      refine ⟨k + 1, Nat.succ_lt_succ hk, m₀, ?_, hhalts⟩
      simp only [clock, htick, hclock₀]

theorem clock_of_halted (bus : Bus σ) (h : m.processor.halted = some f) (n : Nat) :
    m.clock bus (n + 1) = (.error (.fault f), m) := by
  simp only [clock, tick_of_halted bus h]

/-! ## Actions of the host -/

/-- No reset in the sequence succeeds. -/
def NoRestart (bus : Bus σ) : List (HostAction σ) → Machine σ → Prop
  | [], _ => True
  | action :: actions, m =>
    ¬ (action = .reset ∧ m.CanReset bus) ∧ NoRestart bus actions (action.perform bus m).2

variable {action : HostAction σ} {actions : List (HostAction σ)}

theorem halted_of_canReset (h : m.CanReset bus) :
    (HostAction.reset.perform bus m).2.processor.halted = none := by
  obtain ⟨low, high, host, host', hl, hh⟩ := h
  rw [HostAction.perform, stopped_machine, reset_of_vector hl hh]

theorem perform_follows (h : ¬ (action = .reset ∧ m.CanReset bus)) :
    m.Follows (action.perform bus m).2 := by
  cases action with
  | tick => exact tick_follows bus m
  | clock n => exact clock_follows bus n m
  | reset =>
    obtain ⟨error, -, hprocessor⟩ := reset_of_not_canReset fun hreset => h ⟨rfl, hreset⟩
    rw [HostAction.perform, stopped_machine]
    exact .of_eq (by rw [hprocessor]) (by rw [hprocessor])
  | restore registers => exact .of_eq rfl rfl
  | setPolicy policy => exact .of_eq rfl rfl
  | read address =>
    rw [HostAction.perform, stopped_machine]
    exact .of_processor_eq (read_processor address)
  | write address value =>
    rw [HostAction.perform, stopped_machine]
    exact .of_processor_eq (write_processor address value)
  | change g => exact .of_processor_eq (modifyHost_processor g)

theorem after_follows (h : m.NoRestart bus actions) : m.Follows (m.after bus actions) := by
  induction actions generalizing m with
  | nil => exact .refl m
  | cons action actions ih => exact (perform_follows h.1).trans (ih h.2)

/-- An action that leaves the processor halted, and did not find it so, ran cycles, the last of
which halts it. -/
theorem perform_halts (hnone : m.processor.halted = none)
    (hsome : (action.perform bus m).2.processor.halted = some f) :
    ∃ k m₀, m.clock bus k = (.ok (), m₀) ∧ m₀.Halts bus f (action.perform bus m).2 ∧
      (action.perform bus m).1 = .error (.fault f) ∧
      (action = .tick ∧ k = 0 ∨ ∃ n, action = .clock n ∧ k < n) := by
  have hkept : (action.perform bus m).2.processor.halted ≠ m.processor.halted := by
    simp [hnone, hsome]
  cases action with
  | tick =>
    have hhalts := tick_halts hnone hsome
    exact ⟨0, m, rfl, hhalts, congrArg Prod.fst hhalts.tick, .inl ⟨rfl, rfl⟩⟩
  | clock n =>
    obtain ⟨k, hk, m₀, hclock, hhalts, hstop⟩ := clock_halts hnone hsome
    exact ⟨k, m₀, hclock, hhalts, hstop, .inr ⟨n, rfl, hk⟩⟩
  | reset =>
    by_cases hreset : m.CanReset bus
    · rw [halted_of_canReset hreset] at hsome
      cases hsome
    · obtain ⟨error, -, hprocessor⟩ := reset_of_not_canReset hreset
      rw [HostAction.perform, stopped_machine, hprocessor] at hkept
      exact absurd rfl hkept
  | restore registers => exact absurd rfl hkept
  | setPolicy policy => exact absurd rfl hkept
  | read address =>
    rw [HostAction.perform, stopped_machine, read_processor] at hkept
    exact absurd rfl hkept
  | write address value =>
    rw [HostAction.perform, stopped_machine, write_processor] at hkept
    exact absurd rfl hkept
  | change g =>
    rw [HostAction.perform, modifyHost_processor] at hkept
    exact absurd rfl hkept

/-! ## The latch -/

/-- In what is reported on the way, there is at most one warning, and it is the last event. -/
theorem Reports.warn_last {events : List Event} (h : m.Reports m' events) :
    events.countP (·.level == .warn) ≤ 1 ∧
      ∀ before event after, events = before ++ event :: after → event.level = .warn →
        after = [] := by
  rcases h.2 with hnone | ⟨before, f, rfl, -, hnone⟩
  · constructor
    · rw [List.countP_eq_zero.mpr (by simpa using hnone)]
      exact Nat.zero_le 1
    · rintro before event after rfl hwarn
      exact absurd hwarn (hnone event (by simp))
  · constructor
    · rw [List.countP_append, List.countP_eq_zero.mpr (by simpa using hnone)]
      simp [Event.level]
    · intro before' event after heq hwarn
      rcases List.eq_nil_or_concat after with hnil | ⟨init, last, rfl⟩
      · exact hnil
      · -- A warning with an event behind it would be among those that are no warnings.
        have hinit : before = before' ++ event :: init := by
          have h : before ++ [.halted f] = (before' ++ event :: init) ++ [last] := by
            simpa using heq
          exact (List.append_inj' h rfl).1
        exact absurd hwarn (hnone event (by simp [hinit]))

/-- **The halt is a latch.** A halted processor stays halted and does nothing, through any actions
of the host among which no reset succeeds; of all actions only a reset that can read its vector
ends the halt. A processor comes to be halted only in a cycle that finds the policy set to halt
and whose instruction faults, and that cycle fails with the fault. So as long as no reset succeeds
at most one event is reported as a warning, and nothing after it. -/
theorem halt_latch (bus : Bus σ) :
    (∀ (m : Machine σ) (f : Fault) (actions : List (HostAction σ)),
      m.processor.halted = some f → m.NoRestart bus actions →
      let m' := m.after bus actions
      m'.processor.halted = some f ∧ m'.processor.log = m.processor.log ∧
      m'.tick bus = (.error (.fault f), m') ∧
      ∀ n, m'.clock bus (n + 1) = (.error (.fault f), m')) ∧
    (∀ (m : Machine σ) (f : Fault) (action : HostAction σ), m.processor.halted = some f →
      ((action.perform bus m).2.processor.halted ≠ some f ↔ action = .reset ∧ m.CanReset bus) ∧
      (action = .reset ∧ m.CanReset bus → (action.perform bus m).2.processor.halted = none)) ∧
    (∀ (m : Machine σ) (f : Fault) (action : HostAction σ), m.processor.halted = none →
      (action.perform bus m).2.processor.halted = some f →
      ∃ k m₀, m.clock bus k = (.ok (), m₀) ∧ m₀.Halts bus f (action.perform bus m).2 ∧
        (action.perform bus m).1 = .error (.fault f) ∧
        (action = .tick ∧ k = 0 ∨ ∃ n, action = .clock n ∧ k < n)) ∧
    (∀ (m : Machine σ) (actions : List (HostAction σ)), m.NoRestart bus actions →
      ∃ events : List Event,
        (m.after bus actions).processor.log = m.processor.log ++ events.toArray ∧
        events.countP (·.level == .warn) ≤ 1 ∧
        ∀ before event after, events = before ++ event :: after → event.level = .warn →
          after = []) := by
  refine ⟨?_, ?_, ?_, ?_⟩
  · intro m f actions hhalted hactions m'
    obtain ⟨hf, hlog⟩ := (after_follows hactions).latched f hhalted
    exact ⟨hf, hlog, tick_of_halted bus hf, clock_of_halted bus hf⟩
  · intro m f action hhalted
    refine ⟨⟨?_, ?_⟩, ?_⟩
    · intro hchanged
      by_cases hreset : action = .reset ∧ m.CanReset bus
      · exact hreset
      · exact absurd ((perform_follows hreset).latched f hhalted).1 hchanged
    · intro hreset
      obtain ⟨rfl, hvector⟩ := hreset
      rw [halted_of_canReset hvector]
      simp
    · intro hreset
      obtain ⟨rfl, hvector⟩ := hreset
      exact halted_of_canReset hvector
  · intro m f action hnone hsome
    exact perform_halts hnone hsome
  · intro m actions hactions
    obtain ⟨events, hevents⟩ := (after_follows hactions).reports
    exact ⟨events, hevents.1, hevents.warn_last⟩

/-- A policy set back, registers loaded and a reset that cannot read its vector do not end a
halt. -/
theorem halt_latch_of_failed_reset :
    let f : Fault := { opcode := 0x2D, pc := 0x0200, detail := "sealed" }
    let m : Machine Bench :=
      { processor := { policy := .halt, halted := some f }
        host :=
          { ram := Ram.zero
            tripwires := [{ address := 0xFFFE, direction := .read, error := .wordless }] } }
    let m' := m.after Bench.bus [.setPolicy .skip, .restore { pc := 0x0300 }, .reset, .clock 5]
    m'.processor.halted = some f ∧ m'.processor.log = m.processor.log ∧
      m'.tick Bench.bus = (.error (.fault f), m') ∧
      ∀ n, m'.clock Bench.bus (n + 1) = (.error (.fault f), m') := by
  intro f m
  refine (halt_latch Bench.bus).1 m f _ rfl ⟨by simp, by simp, ?_, by simp, trivial⟩
  -- The third action is the reset: its first vector byte cannot be read.
  intro hreset
  obtain ⟨-, low, high, host, host', hlow, -⟩ := hreset
  have hrefused : m.host.read 0xFFFE = (.error .wordless, m.host) := Bench.read_of_refusal rfl
  have hgranted : m.host.read 0xFFFE = (.ok low, host) := hlow
  cases hrefused.symm.trans hgranted

end Machine

end Spc700
