import Spc700.Event
import Spc700.Microprogram.Execute

/-!
# The processor on its bus

A machine is a processor and the state of the host it is attached to. The host can reset the
processor, load its registers, change what a fault does, and use the bus itself. The processor runs
microprograms with `Machine.converse`, which is the only way in which it changes the host.

Main statements: `Machine.reset_of_vector` (a reset that reads its vector starts there) and
`Machine.reset_of_error` (one that does not clears the registers but for the program counter, and
leaves the rest of the processor as it was).
-/

namespace Spc700

/-- Everything that the processor keeps between cycles. -/
structure Processor where
  registers : Registers := {}
  /-- cycles until the next opcode is fetched -/
  cyclesLeft : Nat := 0
  policy : FaultPolicy := .skip
  /-- the fault that halted the processor -/
  halted : Option Fault := none
  /-- what has been reported, the first event first -/
  log : Array Event := #[]
deriving DecidableEq, Repr

/-- A processor and its host's state. -/
structure Machine (σ : Type) where
  processor : Processor
  host : σ

/-- Why the machine could not go on: its instruction faulted, or the bus refused an access that
belongs to no instruction. -/
inductive Stop where
  | fault (fault : Fault)
  | refused (error : BusError)
deriving DecidableEq, Repr

/-- How long the processor waits after a reset before it fetches. -/
def resetCycles : Nat := 7

namespace Machine

variable {σ α : Type}

/-- The machine with its processor changed. -/
def modify (f : Processor → Processor) (m : Machine σ) : Machine σ :=
  { m with processor := f m.processor }

/-- The machine with one more event reported. -/
def report (event : Event) (m : Machine σ) : Machine σ :=
  m.modify fun p => { p with log := p.log.push event }

/-- A microprogram run on the registers and the bus. If the bus refuses an
access, the registers are left as they were when it was asked for. -/
def converse (bus : Bus σ) (program : Micro α) (m : Machine σ) : Except BusError α × Machine σ :=
  match m with
  | { processor, host } =>
    match (program.run processor.registers).run bus host with
    | (.ok (result, registers), host) =>
      (.ok result, { processor := { processor with registers }, host })
    | (.error refusal, host) =>
      (.error refusal.error,
        { processor := { processor with registers := refusal.state }, host })

/-! ## What the host does -/

/-- The registers cleared and the program started from the reset vector. The
halt ends only if the whole vector could be read. -/
def reset (bus : Bus σ) (m : Machine σ) : Except BusError Unit × Machine σ :=
  match m.converse bus Micro.reset with
  | (.ok (), m) =>
    let m := m.modify fun p => { p with cyclesLeft := resetCycles, halted := none }
    (.ok (), m.report (.reset m.processor.registers.pc))
  | (.error error, m) => (.error error, m)

/-- A new processor attached to a host, and reset. -/
def powerOn (bus : Bus σ) (policy : FaultPolicy) (host : σ) : Except BusError Unit × Machine σ :=
  reset bus { processor := { cyclesLeft := resetCycles, policy }, host }

/-- The registers loaded. The cycle count and the halt stay. -/
def restore (registers : Registers) (m : Machine σ) : Machine σ :=
  m.modify fun p => { p with registers }

/-- Another policy for faults to come. -/
def setPolicy (policy : FaultPolicy) (m : Machine σ) : Machine σ :=
  m.modify fun p => { p with policy }

/-- A read by the host, through the bus. -/
def read (bus : Bus σ) (address : Word) (m : Machine σ) : Except BusError Byte × Machine σ :=
  match m with
  | { processor, host } =>
    match bus.read address host with
    | (answer, host) => (answer, { processor, host })

/-- A write by the host, through the bus. -/
def write (bus : Bus σ) (address : Word) (value : Byte) (m : Machine σ) :
    Except BusError Unit × Machine σ :=
  match m with
  | { processor, host } =>
    match bus.write address value host with
    | (answer, host) => (answer, { processor, host })

/-- The host's state changed by the host. -/
def modifyHost (f : σ → σ) (m : Machine σ) : Machine σ :=
  match m with
  | { processor, host } => { processor, host := f host }

/-- The machine with its log emptied. -/
def clearLog (m : Machine σ) : Machine σ :=
  m.modify fun p => { p with log := #[] }

theorem reset_of_vector {bus : Bus σ} {m : Machine σ} {low high : Byte} {host host' : σ}
    (hl : bus.read Micro.resetVector m.host = (.ok low, host))
    (hh : bus.read (Micro.resetVector + 1) host = (.ok high, host')) :
    m.reset bus =
      (.ok (), { processor := { m.processor with
                   registers := { pc := Word.ofBytes high low }
                   cyclesLeft := resetCycles
                   halted := none
                   log := m.processor.log.push (.reset (Word.ofBytes high low)) }
                 host := host' }) := by
  simp only [reset, converse, Micro.run_reset, Dialogue.run, hl, hh, modify, report]

theorem reset_of_error {bus : Bus σ} {m m' : Machine σ} {error : BusError}
    (h : m.reset bus = (.error error, m')) :
    m'.processor = { m.processor with registers := { pc := m.processor.registers.pc } } := by
  rcases hl : bus.read Micro.resetVector m.host with ⟨_ | low, host⟩
  · simp only [reset, converse, Micro.run_reset, Dialogue.run, hl] at h
    rw [← (Prod.mk.inj h).2]
  · rcases hh : bus.read (Micro.resetVector + 1) host with ⟨_ | high, host'⟩
    · simp only [reset, converse, Micro.run_reset, Dialogue.run, hl, hh] at h
      rw [← (Prod.mk.inj h).2]
    · simp [reset_of_vector hl hh] at h

end Machine

end Spc700
