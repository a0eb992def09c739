import Mathlib.Data.List.Chain
import Spc700.Proofs.Machine.Host
import Spc700.Proofs.Machine.Policy
import Spc700.Proofs.Text.Line

/-!
# What the log says of a run

Whatever a host does, its processor runs cycles and is reset, and of both the log has exactly what
there is to say: an instruction that begins is reported before its operands are read, a fault right
behind its own instruction, and a reset once its vector has been read. `Machine.moments` lists the
cycles and the resets of a run, each with the machine that it finds, and `Moment.report` says of
each, from the bus and that machine, what is to be reported. `Machine.log_faithful` says that this
is all that the log has, in order and at the levels that it should have, and that its lines show it.
-/

namespace Spc700

variable {σ : Type}

/-! ## Kinds of events -/

namespace Event

/-- The fault that the event reports. -/
def fault? : Event → Option Fault
  | skipped fault | halted fault => some fault
  | _ => none

/-- The second event may come right behind the first: a fault comes behind the beginning of its
own instruction. -/
def Precedes (first second : Event) : Prop :=
  ∀ fault, second.fault? = some fault → ∃ registers, first = .began fault.pc fault.opcode registers

end Event

namespace FaultPolicy

/-- The event that reports a fault. -/
def event : FaultPolicy → Fault → Event
  | skip => .skipped
  | halt => .halted

/-- The line that shows it: an error if the processor goes on, a warning if it halts. -/
def line : FaultPolicy → Fault → Line
  | skip => .error
  | halt => .warn

theorem line_event (policy : FaultPolicy) (f : Fault) : (policy.event f).line = policy.line f := by
  cases policy <;> rfl

end FaultPolicy

namespace Machine

variable {bus : Bus σ} {m m' : Machine σ} {opcode : Byte} {f : Fault}

instance (m : Machine σ) : Decidable m.Ready := inferInstanceAs (Decidable (_ ∧ _))

/-- The opcode that a cycle fetches. There is none if the processor is halted or waits, or if the
bus refuses the read. -/
def fetched (bus : Bus σ) (m : Machine σ) : Option Byte :=
  if m.Ready then (bus.read m.processor.registers.pc m.host).1.toOption else none

/-- The fault of the instruction that a cycle begins. -/
def faulted (bus : Bus σ) (m : Machine σ) : Option Fault :=
  if m.Ready then
    match (m.execute bus).1 with
    | .error (.fault fault) => some fault
    | _ => none
  else none

/-- Where a reset has the program start. There is no such place if the bus refuses a byte of the
vector. -/
def restarted (bus : Bus σ) (m : Machine σ) : Option Word :=
  match m.reset bus with
  | (.ok (), m') => some m'.processor.registers.pc
  | (.error _, _) => none

end Machine

/-! ## Moments of a run -/

/-- Something that a processor goes through, with the machine that it finds. -/
inductive Moment (σ : Type) where
  | cycle (m : Machine σ)
  | reset (m : Machine σ)

namespace Moment

variable (bus : Bus σ)

/-- The instruction that begins: where it was fetched, what was fetched, and all registers as they
are then, with the program counter behind the opcode. -/
def began : Moment σ → Option Event
  | cycle m => (m.fetched bus).map fun opcode =>
    .began m.processor.registers.pc opcode (m.processor.registers.advance 1)
  | reset _ => none

/-- The fault of that instruction, as the policy has it reported. -/
def fault : Moment σ → Option Event
  | cycle m => (m.faulted bus).map m.processor.policy.event
  | reset _ => none

/-- A reset that succeeds, with the program counter that it loads. -/
def restart : Moment σ → Option Event
  | cycle _ => none
  | reset m => (m.restarted bus).map .reset

/-- All that is to be reported of a moment, in order. -/
def report (moment : Moment σ) : List Event :=
  (moment.began bus).toList ++ (moment.fault bus).toList ++ (moment.restart bus).toList

end Moment

namespace Machine

/-- The machines that the cycles of a run find, up to the first that stops it. -/
def cycles (bus : Bus σ) : Nat → Machine σ → List (Machine σ)
  | 0, _ => []
  | n + 1, m =>
    m :: match m.tick bus with
      | (.ok (), m') => cycles bus n m'
      | (.error _, _) => []

end Machine

/-- What the processor goes through in an action of the host. -/
def HostAction.moments (bus : Bus σ) (m : Machine σ) : HostAction σ → List (Moment σ)
  | tick => [.cycle m]
  | clock n => (m.cycles bus n).map .cycle
  | reset => [.reset m]
  | _ => []

namespace Machine

variable {bus : Bus σ} {m m' : Machine σ} {opcode : Byte} {f : Fault}

/-- What it goes through in a sequence of actions. -/
def moments (bus : Bus σ) : List (HostAction σ) → Machine σ → List (Moment σ)
  | [], _ => []
  | action :: actions, m => action.moments bus m ++ moments bus actions (action.perform bus m).2

/-! ## One cycle -/

theorem fetched_of_not_ready (h : ¬ m.Ready) : m.fetched bus = none := if_neg h

theorem faulted_of_not_ready (h : ¬ m.Ready) : m.faulted bus = none := if_neg h

theorem faulted_of_ready (h : m.Ready) :
    m.faulted bus =
      match (m.execute bus).1 with
      | .error (.fault fault) => some fault
      | _ => none :=
  if_pos h

theorem fetched_of_read {answer : Except BusError Byte} {host : σ} (hready : m.Ready)
    (hread : bus.read m.processor.registers.pc m.host = (answer, host)) :
    m.fetched bus = answer.toOption := by
  unfold fetched
  rw [if_pos hready, hread]

theorem faulted_eq_some_iff : m.faulted bus = some f ↔ m.Faults bus f := by
  unfold faulted
  constructor
  · intro h
    split at h
    · rename_i hready
      split at h
      · rename_i fault hexecute
        obtain rfl : fault = f := Option.some.inj h
        exact ⟨hready, hexecute⟩
      · cases h
    · cases h
  · rintro ⟨hready, hexecute⟩
    rw [if_pos hready, hexecute]

/-- An instruction that faults has been fetched, where the fault says. -/
theorem fetched_of_faulted (h : m.faulted bus = some f) :
    m.fetched bus = some f.opcode ∧ f.pc = m.processor.registers.pc := by
  have hfaults := faulted_eq_some_iff.mp h
  obtain ⟨host₀, e, host, error, hread, hf, -⟩ := hfaults.exists_cut
  exact ⟨fetched_of_read hfaults.ready hread, congrArg Fault.pc hf⟩

/-- What is reported of a cycle, once it is known what it fetches and whether that faults. -/
theorem report_cycle {opcode? : Option Byte} {fault? : Option Fault}
    (hfetched : m.fetched bus = opcode?) (hfaulted : m.faulted bus = fault?) :
    (Moment.cycle m).report bus =
      (opcode?.map fun opcode => Event.began m.processor.registers.pc opcode
        (m.processor.registers.advance 1)).toList ++
      (fault?.map m.processor.policy.event).toList := by
  subst hfetched
  subst hfaulted
  exact List.append_nil _

/-- **What a cycle adds to the log.** -/
theorem tick_log (bus : Bus σ) (m : Machine σ) :
    (m.tick bus).2.processor.log.toList =
      m.processor.log.toList ++ (Moment.cycle m).report bus := by
  have hcycle := tick_cycle bus m
  generalize (m.tick bus).1 = outcome at hcycle
  generalize (m.tick bus).2 = m' at hcycle ⊢
  cases hcycle with
  | halted hhalted =>
    have hready : ¬ m.Ready := fun h => by simp [h.1] at hhalted
    rw [report_cycle (fetched_of_not_ready hready) (faulted_of_not_ready hready)]
    exact (List.append_nil _).symm
  | waiting hhalted hcycles =>
    have hready : ¬ m.Ready := fun h => hcycles h.2
    rw [report_cycle (fetched_of_not_ready hready) (faulted_of_not_ready hready)]
    exact (List.append_nil _).symm
  | unread hready hread =>
    have hfaulted : m.faulted bus = none := by
      rw [faulted_of_ready hready, execute_of_unread hread]
    rw [report_cycle (fetched_of_read hready hread) hfaulted]
    exact (List.append_nil _).symm
  | completed hready hread hd hg =>
    have hfaulted : m.faulted bus = none := by
      rw [faulted_of_ready hready, execute_of_ok hread (Dialogue.run_of_grantsAll hd hg)]
    rw [report_cycle (fetched_of_read hready hread) hfaulted]
    exact Array.toList_push
  | @refused opcode _ _ e _ error _ _ host hready hread hd hg hr =>
    have hfaulted : m.faulted bus = some (m.fault opcode error) := by
      rw [faulted_of_ready hready, execute_of_error hread (Dialogue.run_of_refuses hd hg hr)]
    rw [report_cycle (fetched_of_read hready hread) hfaulted]
    -- The policy in force says which of the two events reports the fault.
    rcases hpolicy : m.processor.policy
    · rw [handle_of_skip (m := m.cut opcode e host) _ hpolicy]
      simp [cut, begun, report, modify, wait, FaultPolicy.event, Except.toOption]
    · rw [handle_of_halt (m := m.cut opcode e host) _ hpolicy]
      simp [cut, begun, report, modify, FaultPolicy.event, Except.toOption]

/-- A cycle that fetches nothing reports nothing. -/
theorem tick_log_of_unfetched (h : m.fetched bus = none) :
    (m.tick bus).2.processor.log = m.processor.log := by
  have hfaulted : m.faulted bus = none := by
    rcases hfaulted : m.faulted bus with _ | f
    · rfl
    · rw [(fetched_of_faulted hfaulted).1] at h
      cases h
  apply Array.toList_inj.mp
  rw [tick_log, report_cycle h hfaulted]
  exact List.append_nil _

/-! ## Resets -/

/-- **What a reset adds to the log.** -/
theorem reset_log (bus : Bus σ) (m : Machine σ) :
    (m.reset bus).2.processor.log.toList =
      m.processor.log.toList ++ (Moment.reset m).report bus := by
  show _ = m.processor.log.toList ++ ((m.restarted bus).map Event.reset).toList
  unfold restarted
  rcases hreset : m.reset bus with ⟨error | _, m'⟩
  · show m'.processor.log.toList = _
    rw [reset_of_error hreset]
    exact (List.append_nil _).symm
  · obtain ⟨low, high, host, host', hl, hh⟩ : m.CanReset bus :=
      reset_ok_iff.mp (congrArg Prod.fst hreset)
    rw [reset_of_vector hl hh] at hreset
    obtain rfl := (Prod.mk.inj hreset).2
    exact Array.toList_push

/-- A reset that fails reports nothing. -/
theorem reset_log_of_not_canReset (h : ¬ m.CanReset bus) :
    (m.reset bus).2.processor.log = m.processor.log := by
  obtain ⟨error, -, hprocessor⟩ := reset_of_not_canReset h
  rw [hprocessor]

/-- A processor that has been constructed has reported its reset. -/
theorem powerOn_log {policy : FaultPolicy} {host : σ}
    (h : powerOn bus policy host = (.ok (), m)) :
    m.processor.log.toList = [.reset m.processor.registers.pc] := by
  have hlog := reset_log bus { processor := { cyclesLeft := resetCycles, policy }, host }
  have hreset : reset bus { processor := { cyclesLeft := resetCycles, policy }, host } =
    (.ok (), m) := h
  rw [hreset] at hlog
  rw [hlog, Moment.report, Moment.restart, restarted, hreset]
  rfl

/-! ## A run -/

theorem clock_log (bus : Bus σ) (n : Nat) (m : Machine σ) :
    (m.clock bus n).2.processor.log.toList =
      m.processor.log.toList ++ ((m.cycles bus n).map Moment.cycle).flatMap (Moment.report bus) := by
  induction n generalizing m with
  | zero => exact (List.append_nil _).symm
  | succ n ih =>
    have htick := tick_log bus m
    rcases h : m.tick bus with ⟨stop | _, m'⟩
    · rw [h] at htick
      simp only [clock, cycles, h, List.map_cons, List.map_nil, List.flatMap_cons,
        List.flatMap_nil, List.append_nil]
      exact htick
    · rw [h] at htick
      simp only [clock, cycles, h, List.map_cons, List.flatMap_cons]
      rw [ih, htick, List.append_assoc]

/-- What an action of the host adds to the log. -/
theorem perform_log (bus : Bus σ) (action : HostAction σ) (m : Machine σ) :
    (action.perform bus m).2.processor.log.toList =
      m.processor.log.toList ++ (action.moments bus m).flatMap (Moment.report bus) := by
  cases action with
  | tick =>
    rw [HostAction.moments, List.flatMap_singleton]
    exact tick_log bus m
  | clock n => exact clock_log bus n m
  | reset =>
    rw [HostAction.moments, List.flatMap_singleton, HostAction.perform, stopped_machine]
    exact reset_log bus m
  | restore registers => exact (List.append_nil _).symm
  | setPolicy policy => exact (List.append_nil _).symm
  | read address =>
    rw [HostAction.perform, stopped_machine, read_processor]
    exact (List.append_nil _).symm
  | write address value =>
    rw [HostAction.perform, stopped_machine, write_processor]
    exact (List.append_nil _).symm
  | change g =>
    rw [HostAction.perform, modifyHost_processor]
    exact (List.append_nil _).symm

/-- **What a sequence of actions adds to the log**: the reports of all that the processor goes
through, and nothing else. -/
theorem after_log (bus : Bus σ) (actions : List (HostAction σ)) (m : Machine σ) :
    (m.after bus actions).processor.log.toList =
      m.processor.log.toList ++ (m.moments bus actions).flatMap (Moment.report bus) := by
  induction actions generalizing m with
  | nil => exact (List.append_nil _).symm
  | cons action actions ih =>
    show ((action.perform bus m).2.after bus actions).processor.log.toList =
      m.processor.log.toList ++ (action.moments bus m ++
        (action.perform bus m).2.moments bus actions).flatMap (Moment.report bus)
    rw [ih, perform_log, List.flatMap_append, List.append_assoc]

end Machine

/-! ## Levels in the reports -/

namespace Moment

/-- **What can be reported of a moment**: nothing, an instruction that begins, an instruction and
its fault, or a reset. -/
theorem report_cases (bus : Bus σ) (moment : Moment σ) :
    (moment.began bus = none ∧ moment.fault bus = none ∧ moment.restart bus = none) ∨
    (∃ address opcode registers, moment.began bus = some (.began address opcode registers) ∧
      moment.fault bus = none ∧ moment.restart bus = none) ∨
    (∃ (fault : Fault) (registers : Registers) (policy : FaultPolicy),
      moment.began bus = some (.began fault.pc fault.opcode registers) ∧
      moment.fault bus = some (policy.event fault) ∧ moment.restart bus = none) ∨
    (∃ pc, moment.began bus = none ∧ moment.fault bus = none ∧
      moment.restart bus = some (.reset pc)) := by
  cases moment with
  | cycle m =>
    rcases hfaulted : m.faulted bus with _ | f
    · rcases hfetched : m.fetched bus with _ | opcode
      · left
        simp [began, fault, restart, hfetched, hfaulted]
      · right; left
        simp [began, fault, restart, hfetched, hfaulted]
    · right; right; left
      obtain ⟨hfetched, hpc⟩ := Machine.fetched_of_faulted hfaulted
      refine ⟨f, m.processor.registers.advance 1, m.processor.policy, ?_⟩
      simp [began, fault, restart, hfetched, hfaulted, hpc]
  | reset m =>
    rcases hrestarted : m.restarted bus with _ | pc
    · left
      simp [began, fault, restart, hrestarted]
    · right; right; right
      simp [began, fault, restart, hrestarted]

/-- The traces of a report, its errors and warnings, and its informations each come from one part of
it. -/
theorem filter_report (bus : Bus σ) (moment : Moment σ) :
    (moment.report bus).filter (·.level == .trace) = (moment.began bus).toList ∧
      (moment.report bus).filter (fun event => event.level == .error || event.level == .warn) =
        (moment.fault bus).toList ∧
      (moment.report bus).filter (·.level == .info) = (moment.restart bus).toList := by
  rcases moment.report_cases bus with ⟨hb, hf, hr⟩ | ⟨address, opcode, registers, hb, hf, hr⟩ |
    ⟨f, registers, policy, hb, hf, hr⟩ | ⟨pc, hb, hf, hr⟩ <;>
  rw [report, hb, hf, hr]
  case inr.inr.inl =>
    cases policy
    · exact ⟨rfl, rfl, rfl⟩
    · exact ⟨rfl, rfl, rfl⟩
  all_goals exact ⟨rfl, rfl, rfl⟩

/-- The events of one kind, such as a level, over all that the processor goes through. -/
theorem filter_reports {bus : Bus σ} {kind : Event → Bool} {part : Moment σ → Option Event}
    (h : ∀ moment : Moment σ, (moment.report bus).filter kind = (part moment).toList)
    (moments : List (Moment σ)) :
    (moments.flatMap (report bus)).filter kind = moments.filterMap part := by
  rw [List.filter_flatMap, List.filterMap_eq_flatMap_toList]
  exact congrArg (moments.flatMap ·) (funext h)

/-- A report does not begin with a fault, and a fault in it comes behind its own instruction. -/
theorem report_isChain (bus : Bus σ) (moment : Moment σ) :
    (moment.report bus).IsChain Event.Precedes ∧
      ∀ event ∈ (moment.report bus).head?, event.fault? = none := by
  rcases moment.report_cases bus with ⟨hb, hf, hr⟩ | ⟨address, opcode, registers, hb, hf, hr⟩ |
    ⟨f, registers, policy, hb, hf, hr⟩ | ⟨pc, hb, hf, hr⟩ <;>
  rw [report, hb, hf, hr]
  case inr.inr.inl =>
    have hfault : (policy.event f).fault? = some f := by cases policy <;> rfl
    have hprecedes : Event.Precedes (.began f.pc f.opcode registers) (policy.event f) := by
      intro fault h
      obtain rfl : f = fault := Option.some.inj (hfault.symm.trans h)
      exact ⟨registers, rfl⟩
    exact ⟨List.isChain_pair.mpr hprecedes, by simp [Event.fault?]⟩
  all_goals simp [Event.fault?]

theorem reports_isChain (bus : Bus σ) (moments : List (Moment σ)) :
    (moments.flatMap (report bus)).IsChain Event.Precedes ∧
      ∀ event ∈ (moments.flatMap (report bus)).head?, event.fault? = none := by
  induction moments with
  | nil => simp
  | cons moment moments ih =>
    obtain ⟨hchain, hhead⟩ := moment.report_isChain bus
    rw [List.flatMap_cons]
    constructor
    · refine hchain.append ih.1 ?_
      intro first _ second hsecond fault hfault
      rw [ih.2 second hsecond] at hfault
      cases hfault
    · intro event hevent
      rw [List.head?_append, Option.mem_def, Option.or_eq_some_iff] at hevent
      rcases hevent with hevent | ⟨-, hevent⟩
      · exact hhead event hevent
      · exact ih.2 event hevent

end Moment

namespace Machine

/-- A log says what happened since the program first started at `start`: what the processor went
through is all that it says. -/
structure Faithful (bus : Bus σ) (start : Word) (moments : List (Moment σ)) (log : List Event) :
    Prop where
  /-- the construction, and then each report in order -/
  reports : log = .reset start :: moments.flatMap (Moment.report bus)
  /-- one trace for each opcode that was fetched, in order -/
  traces : log.filter (·.level == .trace) = moments.filterMap (Moment.began bus)
  /-- one error or warning for each instruction that faulted, in order -/
  faults : log.filter (fun event => event.level == .error || event.level == .warn) =
    moments.filterMap (Moment.fault bus)
  /-- a fault has the opcode and the address of the beginning that it stands behind -/
  behind : log.IsChain Event.Precedes
  /-- one information for each reset that succeeded, the construction among them -/
  infos : log.filter (·.level == .info) = .reset start :: moments.filterMap (Moment.restart bus)

theorem faithful_of_eq {start : Word} {moments : List (Moment σ)} {log : List Event}
    (h : log = .reset start :: moments.flatMap (Moment.report bus)) :
    Faithful bus start moments log := by
  subst h
  constructor
  case reports => rfl
  case traces => exact Moment.filter_reports (fun moment => (moment.filter_report bus).1) moments
  case faults => exact Moment.filter_reports (fun moment => (moment.filter_report bus).2.1) moments
  case behind =>
    obtain ⟨hchain, hhead⟩ := Moment.reports_isChain bus moments
    refine hchain.cons ?_
    intro second hsecond fault hfault
    rw [hhead second hsecond] at hfault
    cases hfault
  case infos =>
    exact congrArg (_ :: ·)
      (Moment.filter_reports (fun moment => (moment.filter_report bus).2.2) moments)

/-- **The log is faithful.** Whatever the bus does, whatever the policy is and whatever the host
does with the processor that it has constructed, the log has one information for the construction
and each reset that succeeds, one trace for each opcode that is fetched, with the registers as they
are before anything else is read, and right behind the trace of each instruction that faults one
error or warning, as the policy in force has it, all in order and nothing else. A cycle that finds
the processor halted or waiting, or cannot read its opcode, reports nothing, and neither does a
reset or a construction that fails.

The line of each event shows its level and what it reports. That of a trace shows the address, the
opcode, the operation and the mode that the opcode stands for, and the registers: all of it is read
back from the line, of the operation all but what the opcode itself holds. No two events have the
same line. -/
theorem log_faithful (bus : Bus σ) (policy : FaultPolicy) (host : σ) :
    (∀ m, powerOn bus policy host = (.ok (), m) → ∀ actions : List (HostAction σ),
      Faithful bus m.processor.registers.pc (m.moments bus actions)
        (m.after bus actions).processor.log.toList) ∧
    (∀ error m, powerOn bus policy host = (.error error, m) → m.processor.log = #[]) ∧
    (∀ m : Machine σ, (m.processor.halted ≠ none ∨ m.processor.cyclesLeft ≠ 0 ∨
        ∃ error host', bus.read m.processor.registers.pc m.host = (.error error, host')) →
      (m.tick bus).2.processor.log = m.processor.log) ∧
    (∀ m : Machine σ, ¬ m.CanReset bus → (m.reset bus).2.processor.log = m.processor.log) ∧
    (∀ event : Event, Line.ofText? event.text = some event.line ∧
      event.line.level = event.level) ∧
    (∀ (address : Word) (opcode : Byte) (registers : Registers),
      Line.ofText? (Event.began address opcode registers).text = some (.trace
        { address, opcode, registers
          operation := (decode opcode).operation.plain
          mode := (decode opcode).mode })) ∧
    (∀ (policy : FaultPolicy) (fault : Fault),
      Line.ofText? (policy.event fault).text = some (policy.line fault)) ∧
    ∀ event event' : Event, event.text = event'.text → event = event' := by
  refine ⟨?_, ?_, ?_, ?_, ?_, ?_, ?_, ?_⟩
  · intro m hm actions
    apply faithful_of_eq
    rw [after_log, powerOn_log hm]
    rfl
  · intro error m hm
    exact congrArg Processor.log (reset_of_error hm)
  · rintro m (hhalted | hcycles | ⟨error, host', hread⟩)
    · exact tick_log_of_unfetched (fetched_of_not_ready fun h => hhalted h.1)
    · exact tick_log_of_unfetched (fetched_of_not_ready fun h => hcycles h.2)
    · apply tick_log_of_unfetched
      unfold fetched
      rw [hread]
      split
      · rfl
      · rfl
  · intro m hreset
    exact reset_log_of_not_canReset hreset
  · intro event
    exact ⟨Line.ofText?_text event, event.level_line⟩
  · intro address opcode registers
    exact Line.ofText?_text (.began address opcode registers)
  · intro policy fault
    rw [Line.ofText?_text, policy.line_event]
  · intro event event' h
    exact Event.text_injective h

/-- Pushes on a host that refuses all writes: one is skipped, and once the policy is set to halt the
next one ends all reports. The line of the first shows that it is a push of the accumulator. -/
theorem log_faithful_of_readOnlyBus :
    let m := (powerOn readOnlyBus .skip 0).2
    let actions : List (HostAction Nat) := [.clock 8, .setPolicy .halt, .clock 20, .tick]
    let log := (m.after readOnlyBus actions).processor.log.toList
    powerOn readOnlyBus .skip 0 = (.ok (), m) ∧
      log = [.reset 0x2D2D,
        .began 0x2D2D 0x2D { pc := 0x2D2E }, .skipped ⟨0x2D, 0x2D2D, "read only"⟩,
        .began 0x2D2E 0x2D { pc := 0x2D2F }, .halted ⟨0x2D, 0x2D2E, "read only"⟩] ∧
      Faithful readOnlyBus m.processor.registers.pc (m.moments readOnlyBus actions) log ∧
      Line.ofText? ("TRACE $2D2D: 2D Push(A) Imp | " ++
          "a: $00 x: $00 y: $00 sp: $00 pc: $2D2E nvpbhizc: 00000000") =
        some (.trace ⟨0x2D2D, 0x2D, .push .a, .implied, { pc := 0x2D2E }⟩) := by
  intro m actions log
  have hpower : powerOn readOnlyBus .skip 0 = (.ok (), m) := rfl
  have hfaithful := log_faithful readOnlyBus .skip 0
  have hline := hfaithful.2.2.2.2.2.1 0x2D2D 0x2D { pc := 0x2D2E }
  exact ⟨hpower, by decide, hfaithful.1 m hpower actions, hline⟩

end Machine

end Spc700
