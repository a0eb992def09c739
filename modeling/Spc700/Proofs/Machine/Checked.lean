import Spc700.Proofs.Machine.Counter
import Spc700.Proofs.Microprogram.Checked

/-!
# A machine on a bus that refuses nothing

The machine once more, with arithmetic that traps: its instructions are those of `Checked`, its
count can be as large as `limit` and no larger, and it cannot be counted down from zero. Where one
of these has no result, neither has the cycle.

* `Machine.tickChecked_eq`, `Machine.clockChecked_eq`: there always is a result, and it is that of
  `Machine.tick` and `Machine.clock`.
* `Machine.Unfaulted`: on a bus that refuses nothing, no action of the host leads to a fault.
* `Machine.untroubled_of_reachable`: both of every machine that a host can have.
-/

namespace Spc700

variable {σ α : Type}

/-- The event stands for a fault in the log. -/
def Event.IsFault : Event → Bool
  | skipped _ | halted _ => true
  | _ => false

namespace Machine

/-! ## Cycles that can trap -/

/-- `Machine.execute`, with arithmetic that may have no result. -/
def executeChecked (limit : Nat) (bus : Bus σ) (m : Machine σ) :
    Option (Except Stop Unit × Machine σ) :=
  let address := m.processor.registers.pc
  match m.converse bus (Micro.fetch .opcode) with
  | (.error error, m) => some (.error (.refused error), m)
  | (.ok opcode, m) =>
    let m := m.report (.began address opcode m.processor.registers)
    let m := m.modify fun p => { p with cyclesLeft := (decode opcode).cycles }
    match m.converse bus (Checked.perform opcode).run with
    | (.ok none, _) => none
    | (.ok (some extra), m) =>
      if m.processor.cyclesLeft + extra ≤ limit then
        some (.ok (), m.modify fun p => { p with cyclesLeft := p.cyclesLeft + extra })
      else
        none
    | (.error error, m) =>
      some (.error (.fault { opcode, pc := address, detail := error.detail }), m)

/-- `Machine.wait`, which does not count down from zero. -/
def waitChecked (m : Machine σ) : Option (Machine σ) :=
  if m.processor.cyclesLeft = 0 then none else some m.wait

/-- `Machine.handle`. -/
def handleChecked (fault : Fault) (m : Machine σ) : Option (Except Stop Unit × Machine σ) :=
  match m.processor.policy with
  | .skip => do return (.ok (), ← (m.report (.skipped fault)).waitChecked)
  | .halt => some (m.handle fault)

/-- `Machine.tick`. -/
def tickChecked (limit : Nat) (bus : Bus σ) (m : Machine σ) :
    Option (Except Stop Unit × Machine σ) :=
  match m.processor.halted with
  | some fault => some (.error (.fault fault), m)
  | none =>
    if m.processor.cyclesLeft = 0 then do
      match ← m.executeChecked limit bus with
      | (.ok (), m) => return (.ok (), ← m.waitChecked)
      | (.error (.fault fault), m) => m.handleChecked fault
      | (.error (.refused error), m) => return (.error (.refused error), m)
    else do
      return (.ok (), ← m.waitChecked)

/-- `Machine.clock`. -/
def clockChecked (limit : Nat) (bus : Bus σ) :
    Nat → Machine σ → Option (Except Stop Unit × Machine σ)
  | 0, m => some (.ok (), m)
  | cycles + 1, m => do
    match ← m.tickChecked limit bus with
    | (.ok (), m) => clockChecked limit bus cycles m
    | (.error stop, m) => return (.error stop, m)

/-! ## Nothing traps -/

section

variable {limit : Nat} {bus : Bus σ} {m m₁ : Machine σ}

theorem converse_computes {p : OptionT Micro α} {q : Micro α} (h : Checked.Computes p q)
    (bus : Bus σ) (m : Machine σ) :
    m.converse bus p.run = ((m.converse bus q).1.map some, (m.converse bus q).2) := by
  have hp : p.run = q >>= fun a => pure (some a) := by
    rw [bind_pure_comp]
    exact h
  obtain ⟨processor, host⟩ := m
  have hrun := Dialogue.run_bind bus (q.run processor.registers)
    (fun a => .done (some a.1, a.2)) host
  change ((q >>= fun a => pure (some a)).run processor.registers).run bus host = _ at hrun
  rw [← hp] at hrun
  simp only [converse, hrun]
  rcases (q.run processor.registers).run bus host with ⟨refusal | ⟨a, registers⟩, host'⟩
  · rfl
  · rfl

theorem waitChecked_of_pos (h : m.processor.cyclesLeft ≠ 0) : m.waitChecked = some m.wait :=
  if_neg h

/-- **No instruction traps.** -/
theorem executeChecked_eq (hlimit : 12 ≤ limit) (bus : Bus σ) (m : Machine σ) :
    m.executeChecked limit bus = some (m.execute bus) := by
  generalize hresult : m.execute bus = result
  have hle : ∀ m₁, result = (.ok (), m₁) → m₁.processor.cyclesLeft ≤ limit := fun m₁ h =>
    Nat.le_trans (loads_of_ok (hresult.trans h)).le_most hlimit
  unfold execute at hresult
  unfold executeChecked
  rcases hfetch : m.converse bus (Micro.fetch .opcode) with ⟨error | opcode, m₁⟩
  · simp only [hfetch] at hresult ⊢
    rw [hresult]
  · simp only [hfetch] at hresult ⊢
    rw [converse_computes (Checked.computes_perform opcode)]
    generalize Machine.modify _ _ = m₂ at hresult ⊢
    rcases hperform : m₂.converse bus (decode opcode).perform with ⟨error | extra, m₃⟩
    · simp only [hperform] at hresult ⊢
      rw [← hresult]
      rfl
    · simp only [hperform] at hresult ⊢
      have hcount : m₃.processor.cyclesLeft + extra ≤ limit := hle _ hresult.symm
      rw [← hresult]
      exact if_pos hcount

theorem handleChecked_eq (fault : Fault) (h : m.processor.cyclesLeft ≠ 0) :
    m.handleChecked fault = some (m.handle fault) := by
  rcases hpolicy : m.processor.policy
  · have hwait : (m.report (.skipped fault)).waitChecked = some (m.report (.skipped fault)).wait :=
      waitChecked_of_pos h
    simp only [handleChecked, handle, hpolicy, hwait]
    rfl
  · simp only [handleChecked, handle, hpolicy]

/-- **No cycle traps**, whatever the bus refuses. -/
theorem tickChecked_eq (hlimit : 12 ≤ limit) (bus : Bus σ) (m : Machine σ) :
    m.tickChecked limit bus = some (m.tick bus) := by
  unfold tickChecked tick
  rcases hhalted : m.processor.halted with _ | fault
  · by_cases hcycles : m.processor.cyclesLeft = 0
    · simp only [if_pos hcycles, executeChecked_eq hlimit]
      rcases hexecute : m.execute bus with ⟨(fault | error) | _, m₁⟩
      · have hloaded : m₁.processor.cyclesLeft ≠ 0 := by
          have htwo := (loads_of_fault hexecute).two_le
          omega
        exact handleChecked_eq fault hloaded
      · rfl
      · have hloaded : m₁.processor.cyclesLeft ≠ 0 := by
          have htwo := (loads_of_ok hexecute).two_le
          omega
        simp only [Option.bind_eq_bind, Option.bind_some, waitChecked_of_pos hloaded]
        rfl
    · simp only [if_neg hcycles, waitChecked_of_pos hcycles]
      rfl
  · rfl

theorem clockChecked_eq (hlimit : 12 ≤ limit) (bus : Bus σ) (n : Nat) (m : Machine σ) :
    m.clockChecked limit bus n = some (m.clock bus n) := by
  induction n generalizing m with
  | zero => rfl
  | succ n ih =>
    rcases htick : m.tick bus with ⟨stop | _, m₁⟩
    · simp [clockChecked, clock, tickChecked_eq hlimit, htick]
    · simp [clockChecked, clock, tickChecked_eq hlimit, htick, ih]

end

/-! ## On a bus that refuses nothing -/

/-- The processor is running and has not reported a fault. -/
structure Unfaulted (m : Machine σ) : Prop where
  running : m.processor.halted = none
  quiet : ∀ event ∈ m.processor.log, event.IsFault = false

section

variable {bus : Bus σ} {m m₁ : Machine σ}

/-- An event that stands for no fault. -/
theorem Unfaulted.report (h : m.Unfaulted) {event : Event} (hevent : event.IsFault = false) :
    (m.report event).Unfaulted where
  running := h.running
  quiet := by
    intro other hother
    rcases Array.mem_push.mp hother with hbefore | rfl
    · exact h.quiet other hbefore
    · exact hevent

/-- Registers, count, policy and host can be anything. -/
theorem Unfaulted.of_eq (h : m.Unfaulted)
    (hhalted : m₁.processor.halted = m.processor.halted)
    (hlog : m₁.processor.log = m.processor.log) : m₁.Unfaulted where
  running := hhalted.trans h.running
  quiet := hlog ▸ h.quiet

theorem tick_unfaulted (hbus : bus.GrantsEverything) (h : m.Unfaulted) :
    ∃ m', m.tick bus = (.ok (), m') ∧ m'.Unfaulted := by
  by_cases hcycles : m.processor.cyclesLeft = 0
  · obtain ⟨opcode, host₀, es, extra, registers, host₁, hread, hd, hg⟩ :=
      exists_admits_of_grantsEverything hbus m.processor.registers m.host
    let began : Event := .began m.processor.registers.pc opcode (m.processor.registers.advance 1)
    have hbegan : (m.report began).Unfaulted := h.report rfl
    exact ⟨_, tick_of_grantsAll ⟨h.running, hcycles⟩ hread hd hg, hbegan.of_eq rfl rfl⟩
  · exact ⟨_, tick_of_waiting bus h.running hcycles, h.of_eq rfl rfl⟩

theorem clock_unfaulted (hbus : bus.GrantsEverything) (h : m.Unfaulted) (n : Nat) :
    ∃ m', m.clock bus n = (.ok (), m') ∧ m'.Unfaulted := by
  induction n generalizing m with
  | zero => exact ⟨m, rfl, h⟩
  | succ n ih =>
    obtain ⟨m₁, htick, h₁⟩ := tick_unfaulted hbus h
    obtain ⟨m₂, hclock, h₂⟩ := ih h₁
    exact ⟨m₂, by simpa only [clock, htick] using hclock, h₂⟩

/-- A reset can always read its vector. -/
theorem reset_unfaulted (hbus : bus.GrantsEverything)
    (hquiet : ∀ event ∈ m.processor.log, event.IsFault = false) :
    ∃ m', m.reset bus = (.ok (), m') ∧ m'.Unfaulted := by
  obtain ⟨low, host, hl⟩ := hbus.1 Micro.resetVector m.host
  obtain ⟨high, host', hh⟩ := hbus.1 (Micro.resetVector + 1) host
  let cleared : Machine σ := m.modify fun p => { p with halted := none }
  have hcleared : cleared.Unfaulted := ⟨rfl, hquiet⟩
  have hreset : (cleared.report (.reset (Word.ofBytes high low))).Unfaulted := hcleared.report rfl
  exact ⟨_, reset_of_vector hl hh, hreset.of_eq rfl rfl⟩

/-- **No action of the host fails**, and none leads to a fault. -/
theorem perform_unfaulted (hbus : bus.GrantsEverything) (h : m.Unfaulted)
    (action : HostAction σ) :
    ∃ m', action.perform bus m = (.ok (), m') ∧ m'.Unfaulted := by
  cases action with
  | tick => exact tick_unfaulted hbus h
  | clock n => exact clock_unfaulted hbus h n
  | reset =>
    obtain ⟨m', hreset, h'⟩ := reset_unfaulted hbus h.quiet
    exact ⟨m', by rw [HostAction.perform, hreset, stopped], h'⟩
  | restore registers => exact ⟨_, rfl, h.of_eq rfl rfl⟩
  | setPolicy policy => exact ⟨_, rfl, h.of_eq rfl rfl⟩
  | read address =>
    obtain ⟨byte, host, hread⟩ := hbus.1 address m.host
    refine ⟨{ m with host }, ?_, h.of_eq rfl rfl⟩
    simp only [HostAction.perform, Machine.read, hread, stopped]
  | write address value =>
    obtain ⟨host, hwrite⟩ := hbus.2 address value m.host
    refine ⟨{ m with host }, ?_, h.of_eq rfl rfl⟩
    simp only [HostAction.perform, Machine.write, hwrite, stopped]
  | change f => exact ⟨_, rfl, h.of_eq rfl rfl⟩

theorem powerOn_unfaulted (hbus : bus.GrantsEverything) (policy : FaultPolicy) (host : σ) :
    ∃ m', powerOn bus policy host = (.ok (), m') ∧ m'.Unfaulted :=
  reset_unfaulted hbus fun event hevent => absurd hevent (Array.not_mem_empty event)

theorem Reachable.unfaulted (hbus : bus.GrantsEverything) (h : m.Reachable bus) :
    m.Unfaulted := by
  induction h with
  | @powerOn policy host m h =>
    obtain ⟨m', hpower, h'⟩ := powerOn_unfaulted hbus policy host
    obtain rfl : m' = m := (Prod.mk.inj (hpower.symm.trans h)).2
    exact h'
  | perform action h ih =>
    obtain ⟨m', hperform, h'⟩ := perform_unfaulted hbus ih action
    rw [hperform]
    exact h'

end

/-! ## All of it -/

/-- Nothing that a host does with the machine fails or traps. -/
structure Untroubled (limit : Nat) (bus : Bus σ) (m : Machine σ) : Prop where
  /-- the processor is not halted, and no fault is in its log -/
  unfaulted : m.Unfaulted
  /-- whatever the host does next succeeds -/
  succeeds : ∀ action : HostAction σ, (action.perform bus m).1 = .ok ()
  /-- the cycles have results in arithmetic that traps -/
  tick : m.tickChecked limit bus = some (m.tick bus)
  clock : ∀ n, m.clockChecked limit bus n = some (m.clock bus n)

/-- **On a bus that refuses nothing there are no faults**, under either policy, whatever the host
does and whatever registers it loads: the processor can be constructed, and from then on every
action succeeds. No sum, product, quotient or shift of an instruction traps, nor does the count
where it can hold the twelve cycles of the longest one. The last two parts are about the shifts by
which signs are tested and by which an operand numbers a bit. -/
theorem untroubled_of_reachable {bus : Bus σ} (hbus : bus.GrantsEverything) {limit : Nat}
    (hlimit : 12 ≤ limit) :
    (∀ policy host, (powerOn bus policy host).1 = .ok ()) ∧
      (∀ m : Machine σ, m.Reachable bus → m.Untroubled limit bus) ∧
      (∀ {w : Nat} (x : BitVec w), 0 < w → Checked.testBit x (w - 1) = some x.msb ∧
        Checked.testBit x 0 = some (x.getLsbD 0)) ∧
      ∀ word : Word, Checked.bit 8 (word >>> 13).toNat =
        some (Operation.bitMask (word.extractLsb' 13 3)) := by
  refine ⟨?_, ?_, ?_, ?_⟩
  · intro policy host
    obtain ⟨m, hpower, -⟩ := powerOn_unfaulted hbus policy host
    rw [hpower]
  · intro m hm
    have hunfaulted := hm.unfaulted hbus
    constructor
    case unfaulted => exact hunfaulted
    case succeeds =>
      intro action
      obtain ⟨m', hperform, -⟩ := perform_unfaulted hbus hunfaulted action
      rw [hperform]
    case tick => exact tickChecked_eq hlimit bus m
    case clock => exact fun n => clockChecked_eq hlimit bus n m
  · intro w x hw
    exact ⟨Checked.testBit_last hw x, Checked.testBit_of_lt hw⟩
  · exact Checked.bit_of_word

/-- A host on which every byte is a division, and which takes what is written and forgets it. -/
def endlessDivisionBus : Bus Unit where
  read _ host := (.ok 0x9E, host)
  write _ _ host := (.ok (), host)

/-- A division by zero. -/
theorem untroubled_of_endlessDivisionBus :
    let m := (powerOn endlessDivisionBus .halt ()).2.after endlessDivisionBus
      [.restore { y := 1 }, .clock 7]
    m.Reachable endlessDivisionBus ∧ m.Ready ∧
      (m.tick endlessDivisionBus).2.processor.registers.a = 0xFF ∧
      m.Untroubled 65535 endlessDivisionBus := by
  intro m
  have hbus : endlessDivisionBus.GrantsEverything :=
    ⟨fun _ _ => ⟨_, _, rfl⟩, fun _ _ _ => ⟨_, rfl⟩⟩
  have hm : m.Reachable endlessDivisionBus := (Reachable.powerOn rfl).after _
  exact ⟨hm, ⟨rfl, rfl⟩, rfl, (untroubled_of_reachable hbus (by decide)).2.1 m hm⟩

end Machine

end Spc700
