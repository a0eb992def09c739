import Spc700.Bus.Bench
import Spc700.Proofs.Dialogue.Granting
import Spc700.Proofs.Machine.Cycle

/-!
# Instructions that are cut

A refused access ends its instruction there and then. What the instruction did before stays done,
and nothing of what it would have done after takes place, so the state at a fault is that of the
same instruction on a bus that refuses nothing, cut at one exchange. Moving the program counter
to another place comes after the last exchange, so at a fault it still stands within the
instruction or just behind it.

* `Machine.tick_recorded_of_refusal`: the exact state at a fault.
* `Machine.tick_skip_pc_iff`: what is fetched after a fault that is skipped. It is the next
  instruction only if the operand bytes had all been read.
-/

namespace Spc700

variable {σ : Type}

/-! ## The program counter at an exchange -/

namespace Instruction

variable {instruction : Instruction} {r : Registers} {es : List (Exchange Registers)}
  {result : Nat × Registers} {e : Exchange Registers}

theorem operandBytes_le (mode : AddressingMode) : mode.operandBytes ≤ 2 := by
  cases mode <;> decide

/-- An address within an instruction is not the one behind it. -/
theorem within_ne_behind {count : Nat} (p : Word) (h : count < instruction.mode.operandBytes) :
    p + 1 + BitVec.ofNat 16 count ≠ p + BitVec.ofNat 16 instruction.length := by
  have hle := operandBytes_le instruction.mode
  unfold length
  bv_omega

/-- **Where the program counter stands at an exchange** after the opcode: on an operand byte while
that is being read, behind the instruction at every other access. -/
theorem pc_of_admits (hd : (instruction.dialogue r).Admits es result) (he : e ∈ es) :
    (e.purpose = .operand ∧ e.now.pc = e.address ∧
      ∃ count < instruction.mode.operandBytes, e.now.pc = r.pc + 1 + BitVec.ofNat 16 count) ∨
    (e.purpose ≠ .operand ∧
      e.now.pc = r.pc + 1 + BitVec.ofNat 16 instruction.mode.operandBytes) := by
  have hevery := instruction.every_perform (r.advance 1)
  obtain ⟨hexchanges, -⟩ := Dialogue.every_iff.mp hevery es result hd
  -- The exchange is for an operand byte, for a byte of a pointer, or the operation's own.
  rcases hexchanges e he with ⟨-, ⟨hp, ha, count, hlt, hnow⟩ | ⟨hp, hnow⟩⟩ | ⟨hpc, hp⟩
  · refine .inl ⟨hp, ha.symm, count, hlt, ?_⟩
    rw [hnow]
    rfl
  · refine .inr ⟨by simp [hp], ?_⟩
    rw [hnow]
    rfl
  · refine .inr ⟨?_, hpc⟩
    rcases hp with hp | hp | hp <;> simp [hp]

/-- At no exchange has an instruction sent the program counter elsewhere. -/
theorem exists_pc_of_admits (hd : (instruction.dialogue r).Admits es result) (he : e ∈ es) :
    ∃ count ≤ instruction.mode.operandBytes, e.now.pc = r.pc + 1 + BitVec.ofNat 16 count := by
  rcases pc_of_admits hd he with ⟨-, -, count, hlt, hpc⟩ | ⟨-, hpc⟩
  · exact ⟨count, Nat.le_of_lt hlt, hpc⟩
  · exact ⟨_, Nat.le_refl _, hpc⟩

end Instruction

namespace Machine

/-! ## The state at a fault -/

/-- The read of an opcode, in a record. -/
def opening (m : Machine σ) (opcode : Byte) : Access :=
  { direction := .read, address := m.processor.registers.pc, value := some opcode }

/-- What is left of a machine `m` when its instruction is cut at the exchange `e`, which the bus
refused with `error` and in doing so went over to `host`; `before` are the exchanges of the
instruction up to there and `fault` is what the policy was given to handle. -/
structure CutAt (m : Machine (Recorded σ)) (opcode : Byte) (before : List (Exchange Registers))
    (e : Exchange Registers) (error : BusError) (host : σ) (fault : Fault)
    (after : Except Stop Unit × Machine (Recorded σ)) : Prop where
  /-- the record ends with the refused access -/
  accesses : after.2.host.accesses =
    m.host.accesses ++ (m.opening opcode :: before.map Exchange.granted ++ [e.refused]).toArray
  host : after.2.host.host = host
  registers : after.2.processor.registers = e.now
  /-- nothing has sent the program counter elsewhere -/
  pc : ∃ count ≤ (decode opcode).mode.operandBytes,
    after.2.processor.registers.pc = m.processor.registers.pc + 1 + BitVec.ofNat 16 count
  fault_opcode : fault.opcode = opcode
  fault_pc : fault.pc = m.processor.registers.pc
  fault_detail : fault.detail =
    match error with
    | .message text => text
    | .wordless => "unknown panic"
  policy : after.2.processor.policy = m.processor.policy
  skip : m.processor.policy = .skip →
    after.1 = .ok () ∧
    after.2.processor.cyclesLeft = (decode opcode).cycles - 1 ∧
    after.2.processor.halted = none ∧
    after.2.processor.log = (m.processor.log.push (.began m.processor.registers.pc opcode
      (m.processor.registers.advance 1))).push (.skipped fault)
  halt : m.processor.policy = .halt →
    after.1 = .error (.fault fault) ∧
    after.2.processor.cyclesLeft = (decode opcode).cycles ∧
    after.2.processor.halted = some fault ∧
    after.2.processor.log = (m.processor.log.push (.began m.processor.registers.pc opcode
      (m.processor.registers.advance 1))).push (.halted fault)

section

variable {bus : Bus σ} {g : GrantingBus σ} {m : Machine (Recorded σ)} {opcode : Byte}
  {host₀ host₁ host₂ : σ} {before after es : List (Exchange Registers)}
  {e : Exchange Registers} {error : BusError} {result : Nat × Registers}

/-- The opcode is the first access that is recorded. -/
theorem recorded_read_opcode
    (hread : bus.read m.processor.registers.pc m.host.host = (.ok opcode, host₀)) :
    bus.recorded.read m.processor.registers.pc m.host =
      (.ok opcode, { host := host₀, accesses := m.host.accesses.push (m.opening opcode) }) := by
  rw [Bus.recorded_read, hread]
  rfl

/-- What is recorded of an instruction that is completed. -/
theorem accesses_of_grantsAll (hready : m.Ready)
    (hread : bus.read m.processor.registers.pc m.host.host = (.ok opcode, host₀))
    (hd : ((decode opcode).dialogue m.processor.registers).Admits es result)
    (hg : bus.GrantsAll es host₀ host₁) :
    (m.tick bus.recorded).2.host.accesses =
      m.host.accesses ++ (m.opening opcode :: es.map Exchange.granted).toArray := by
  rw [tick_of_grantsAll hready (recorded_read_opcode hread) hd (Bus.recorded_grantsAll bus es _ hg)]
  show m.host.accesses.push (m.opening opcode) ++ (es.map Exchange.granted).toArray = _
  simp

/-- **A cycle that is cut** leaves the state of `CutAt`. -/
theorem cutAt_of_refuses (hready : m.Ready)
    (hread : bus.read m.processor.registers.pc m.host.host = (.ok opcode, host₀))
    (hd : ((decode opcode).dialogue m.processor.registers).Admits (before ++ e :: after) result)
    (hg : bus.GrantsAll before host₀ host₁) (hr : bus.Refuses e host₁ error host₂) :
    CutAt m opcode before e error host₂ (m.fault opcode error) (m.tick bus.recorded) := by
  let record := (m.host.accesses.push (m.opening opcode) ++
    (before.map Exchange.granted).toArray).push e.refused
  let cut := m.cut opcode e { host := host₂, accesses := record }
  have hcut : m.tick bus.recorded = cut.handle (m.fault opcode error) :=
    tick_of_refuses hready (recorded_read_opcode hread) hd
      (Bus.recorded_grantsAll bus before _ hg) (Bus.recorded_refuses bus _ hr)
  -- The policy decides on the outcome, the count and the log, but on nothing else.
  obtain ⟨hregisters, hpolicy, hhost⟩ := handle_frame cut (m.fault opcode error)
  rw [← hcut] at hregisters hpolicy hhost
  have hpc := Instruction.exists_pc_of_admits hd (e := e) (by simp)
  constructor
  case accesses =>
    rw [hhost]
    show record = _
    simp [record]
  case host =>
    rw [hhost]
    rfl
  case registers => exact hregisters
  case pc =>
    rw [hregisters]
    exact hpc
  case fault_opcode => rfl
  case fault_pc => rfl
  case fault_detail => cases error <;> rfl
  case policy => exact hpolicy
  case skip =>
    intro hskip
    rw [hcut, handle_of_skip (m := cut) _ hskip]
    exact ⟨rfl, rfl, hready.1, rfl⟩
  case halt =>
    intro hhalt
    rw [hcut, handle_of_halt (m := cut) _ hhalt]
    exact ⟨rfl, rfl, rfl, rfl⟩

/-- **The exact state at a fault.** Let the opcode be read, and let the bus not grant all that the
instruction asks for on a bus `g` that answers alike and grants everything. Then the instruction
is cut at the first exchange that is refused: the exchanges before it took place as on `g`, and
those after it did not. -/
theorem tick_recorded_of_refusal (hext : g.Extends bus) (hready : m.Ready)
    (hread : bus.read m.processor.registers.pc m.host.host = (.ok opcode, host₀))
    (hrefused : ¬ ∃ host', bus.GrantsAll
      (((decode opcode).dialogue m.processor.registers).transcript g host₀).exchanges
      host₀ host') :
    ∃ before e after host₁ error host₂ fault,
      (m.tick g.recorded.toBus).2.host.accesses = m.host.accesses ++
        (m.opening opcode :: (before ++ e :: after).map Exchange.granted).toArray ∧
      bus.GrantsAll before host₀ host₁ ∧ bus.Refuses e host₁ error host₂ ∧
      CutAt m opcode before e error host₂ fault (m.tick bus.recorded) := by
  obtain ⟨before, e, after, host₁, error, host₂, hes, hg, hr⟩ :=
    Dialogue.exists_refuses hext hrefused
  have hd := Dialogue.admits_transcript g
    ((decode opcode).dialogue m.processor.registers) host₀
  have hall := Dialogue.grantsAll_transcript g
    ((decode opcode).dialogue m.processor.registers) host₀
  have hwhole : g.toBus.read m.processor.registers.pc m.host.host = (.ok opcode, host₀) := by
    simp only [GrantingBus.toBus, hext.read hread]
  -- On `g` the same exchanges all take place; on the bus they take place up to `e`.
  rw [hes] at hd hall
  refine ⟨before, e, after, host₁, error, host₂, m.fault opcode error, ?_, hg, hr, ?_⟩
  · rw [GrantingBus.toBus_recorded]
    exact accesses_of_grantsAll hready hwhole hd hall
  · exact cutAt_of_refuses hready hread hd hg hr

/-- A push that meets a tripwire at the stack. -/
theorem tick_recorded_of_refused_push :
    let bench : Bench :=
      { ram := Ram.zero.load 0x0200 [0x2D]
        tripwires := [{ address := 0x0100, direction := .write, error := .wordless }] }
    let m : Machine (Recorded Bench) :=
      { processor := { registers := { pc := 0x0200 } }, host := { host := bench } }
    ∃ before e after host₁ error host₂ fault,
      (m.tick Bench.bus.filled.recorded.toBus).2.host.accesses = m.host.accesses ++
        (m.opening 0x2D :: (before ++ e :: after).map Exchange.granted).toArray ∧
      Bench.bus.GrantsAll before bench host₁ ∧ Bench.bus.Refuses e host₁ error host₂ ∧
      CutAt m 0x2D before e error host₂ fault (m.tick Bench.bus.recorded) := by
  intro bench m
  refine tick_recorded_of_refusal Bench.bus.extends_filled ⟨rfl, rfl⟩ ?_ ?_
  · show bench.read 0x0200 = _
    simp [bench, Bench.read, Bench.refusal?, Ram.load, Ram.read_write]
  · intro hgranted
    obtain ⟨host', between, hwrite, -⟩ := hgranted
    have haddress : (m.processor.registers.advance 1).stackAddress = 0x0100 := by decide
    change bench.write (m.processor.registers.advance 1).stackAddress 0 = (.ok (), between)
      at hwrite
    simp [haddress, bench, Bench.write, Bench.refusal?] at hwrite

end

/-! ## What is fetched after a fault -/

section

variable {bus : Bus σ} {m : Machine σ} {opcode : Byte} {host₀ : σ}

/-- **Where the processor goes on after a fault that is skipped.** The cycle succeeds. The next
opcode is fetched behind the instruction exactly if the refused access was not for one of its
operand bytes; if it was, the next opcode is fetched at that operand byte. -/
theorem tick_skip_pc_iff (hready : m.Ready) (hpolicy : m.processor.policy = .skip)
    (hread : bus.read m.processor.registers.pc m.host = (.ok opcode, host₀))
    (hrefused : ¬ ∃ es result host', bus.GrantsAll es host₀ host' ∧
      ((decode opcode).dialogue m.processor.registers).Admits es result) :
    ∃ before e after result host₁ error host₂,
      ((decode opcode).dialogue m.processor.registers).Admits (before ++ e :: after) result ∧
      bus.GrantsAll before host₀ host₁ ∧ bus.Refuses e host₁ error host₂ ∧
      (m.tick bus).1 = .ok () ∧
      ((m.tick bus).2.processor.registers.pc =
          m.processor.registers.pc + BitVec.ofNat 16 (decode opcode).length ↔
        e.purpose ≠ .operand) ∧
      (e.purpose = .operand →
        (m.tick bus).2.processor.registers.pc = e.address ∧
        ∃ count < (decode opcode).mode.operandBytes,
          e.address = m.processor.registers.pc + 1 + BitVec.ofNat 16 count) := by
  rcases Dialogue.run_cases bus ((decode opcode).dialogue m.processor.registers) host₀ with
    ⟨es, result, host', hd, hg, -⟩ | ⟨before, e, after, result, host₁, error, host₂, hd, hg, hr, -⟩
  · exact absurd ⟨es, result, host', hg, hd⟩ hrefused
  have hcut := tick_of_refuses hready hread hd hg hr
  have hskip : (m.cut opcode e host₂).processor.policy = .skip := hpolicy
  rw [handle_of_skip _ hskip] at hcut
  have hregisters : (m.tick bus).2.processor.registers = e.now := by
    rw [hcut]
    rfl
  refine ⟨before, e, after, result, host₁, error, host₂, hd, hg, hr, ?_⟩
  rw [hregisters, hcut]
  refine ⟨rfl, ?_⟩
  -- Skipping leaves the program counter where the refused exchange found it.
  rcases Instruction.pc_of_admits hd (e := e) (by simp) with
    ⟨hp, haddress, count, hlt, hpc⟩ | ⟨hp, hpc⟩
  · refine ⟨?_, fun _ => ⟨haddress, count, hlt, haddress ▸ hpc⟩⟩
    rw [hpc]
    exact iff_of_false (Instruction.within_ne_behind _ hlt) (not_not_intro hp)
  · refine ⟨iff_of_true ?_ hp, fun h => absurd h hp⟩
    rw [hpc, Instruction.length, BitVec.ofNat_add, BitVec.add_assoc]
    rfl

end

/-- An absolute load, the second operand byte of which cannot be read. -/
def severed : Machine Bench where
  processor := { registers := { pc := 0x0200 }, policy := .skip }
  host :=
    { ram := Ram.zero.load 0x0200 [0xE5, 0x34, 0x12]
      tripwires := [{ address := 0x0202, direction := .read, error := .message "read fault at $0202" }] }

theorem severed_read (address : Word) :
    Bench.bus.read address severed.host =
      if address = 0x0202 then (.error (.message "read fault at $0202"), severed.host)
      else (.ok (severed.host.ram.read address), severed.host) := by
  show severed.host.read address = _
  split
  next h =>
    subst h
    exact Bench.read_of_refusal rfl
  next h =>
    have h' : ¬ 0x0202#16 = address := fun h' => h h'.symm
    simp [h', severed, Bench.read, Bench.refusal?]

theorem severed_read_opcode :
    Bench.bus.read severed.processor.registers.pc severed.host = (.ok 0xE5, severed.host) := by
  rw [severed_read]
  simp [severed, Ram.load, Ram.read_write]

theorem severed_run :
    ((decode 0xE5).dialogue severed.processor.registers).run Bench.bus severed.host =
      (.error { state := { pc := 0x0202 }, error := .message "read fault at $0202" }, severed.host) := by
  let r := severed.processor.registers
  show (Dialogue.read (r.advance 1) .operand (r.advance 1).pc fun _ =>
    Dialogue.read (r.advance 2) .operand (r.advance 2).pc _).run Bench.bus severed.host = _
  have hfirst : (r.advance 1).pc = 0x0201 := rfl
  have hsecond : (r.advance 2).pc = 0x0202 := rfl
  simp only [Dialogue.run, hfirst, hsecond, severed_read]
  rfl

/-- An absolute load whose second operand byte cannot be read. -/
theorem tick_skip_pc_iff_severed :
    ∃ before e after result host₁ error host₂,
      ((decode 0xE5).dialogue severed.processor.registers).Admits (before ++ e :: after) result ∧
      Bench.bus.GrantsAll before severed.host host₁ ∧
      Bench.bus.Refuses e host₁ error host₂ ∧
      (severed.tick Bench.bus).1 = .ok () ∧
      ((severed.tick Bench.bus).2.processor.registers.pc =
          severed.processor.registers.pc + BitVec.ofNat 16 (decode 0xE5).length ↔
        e.purpose ≠ .operand) ∧
      (e.purpose = .operand →
        (severed.tick Bench.bus).2.processor.registers.pc = e.address ∧
        ∃ count < (decode 0xE5).mode.operandBytes,
          e.address = severed.processor.registers.pc + 1 + BitVec.ofNat 16 count) := by
  refine tick_skip_pc_iff ⟨rfl, rfl⟩ rfl severed_read_opcode ?_
  intro hgranted
  obtain ⟨es, result, host', hg, hd⟩ := hgranted
  have hrun := Dialogue.run_of_grantsAll hd hg
  rw [severed_run] at hrun
  simp at hrun

/-- **A skipped fault can leave the program counter on an operand byte**, which is then fetched as
an opcode. -/
theorem tick_severed :
    severed.Ready ∧ severed.processor.policy = .skip ∧
    Bench.bus.read severed.processor.registers.pc severed.host = (.ok 0xE5, severed.host) ∧
    (severed.tick Bench.bus).1 = .ok () ∧
    (severed.tick Bench.bus).2.processor.registers.pc = 0x0202 ∧
    severed.processor.registers.pc + BitVec.ofNat 16 (decode 0xE5).length = 0x0203 := by
  let e := Micro.reading { pc := 0x0202 } .operand 0x0202 0
  have hexecute := execute_of_error (e := e) severed_read_opcode severed_run
  have htick : severed.tick Bench.bus =
      (severed.cut 0xE5 e severed.host).handle (severed.fault 0xE5 (.message "read fault at $0202")) := by
    rw [tick_of_ready ⟨rfl, rfl⟩, hexecute]
  rw [handle_of_skip _ rfl] at htick
  refine ⟨⟨rfl, rfl⟩, rfl, severed_read_opcode, ?_, ?_, by decide⟩
  · rw [htick]
  · rw [htick]
    rfl

end Machine

end Spc700
