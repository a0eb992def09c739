import Spc700.Ram
import Spc700.Text.Numeral

/-!
# The bus

The processor owns no memory. It reads and writes through a bus that the host provides, and the
host may do anything on an access: a read may change what is read next, and any access may be
refused. A `Bus` is those two functions on the host's state.

`Bus.recorded` lets any bus keep a record of the accesses made through it. `Bus.recorded_read`
and `Bus.recorded_write` say that the record is all it adds, and what it adds to the record.
-/

namespace Spc700

/-- Why the bus refused an access: with a message, or without a word. -/
inductive BusError where
  | message (text : String)
  | wordless
deriving DecidableEq, Repr

/-- What a fault says of the refusal that caused it. -/
def BusError.detail : BusError → String
  | message text => text
  | wordless => "unknown panic"

/-- Reading and writing on a host with state `σ`. A refused access may change the
host's state too. -/
structure Bus (σ : Type) where
  read : Word → σ → Except BusError Byte × σ
  write : Word → Byte → σ → Except BusError Unit × σ

/-- Flat memory as a host: every access is granted and reads change nothing. -/
def Ram.bus : Bus Ram where
  read address ram := (.ok (ram.read address), ram)
  write address value ram := (.ok (), ram.write address value)

/-! ## Records -/

/-- Which way a byte goes. -/
inductive Direction where
  | read
  | write
deriving DecidableEq, Repr

/-- One access to the bus, and the byte that went over it if it was granted. -/
structure Access where
  direction : Direction
  address : Word
  value : Option Byte
deriving DecidableEq, Repr

/-- The direction as a letter. -/
def Direction.letter : Direction → String
  | read => "r"
  | write => "w"

/-- An access as text: the byte after an equals sign, or an exclamation mark if it was refused. -/
def Access.text (access : Access) : String :=
  access.direction.letter ++ Numeral.hexWord access.address ++
    match access.value with
    | some byte => "=" ++ Numeral.hexByte byte
    | none => "!"

/-- A host's state with the accesses made so far, the first one first. -/
structure Recorded (σ : Type) where
  host : σ
  accesses : Array Access := #[]

/-- The record after one more access. -/
def Recorded.push {σ : Type} (host : σ) (accesses : Array Access) (direction : Direction)
    (address : Word) (value : Option Byte) : Recorded σ :=
  { host, accesses := accesses.push { direction, address, value } }

/-- The same bus, with a record of what went over it. -/
def Bus.recorded {σ : Type} (bus : Bus σ) : Bus (Recorded σ) where
  read address state :=
    match state with
    | { host, accesses } =>
      match bus.read address host with
      | (.ok byte, host) => (.ok byte, Recorded.push host accesses .read address (some byte))
      | (.error error, host) => (.error error, Recorded.push host accesses .read address none)
  write address value state :=
    match state with
    | { host, accesses } =>
      match bus.write address value host with
      | (.ok (), host) => (.ok (), Recorded.push host accesses .write address (some value))
      | (.error error, host) => (.error error, Recorded.push host accesses .write address none)

theorem Bus.recorded_read {σ : Type} (bus : Bus σ) (address : Word) (state : Recorded σ) :
    bus.recorded.read address state =
      ((bus.read address state.host).1,
        Recorded.push (bus.read address state.host).2 state.accesses .read address
          (bus.read address state.host).1.toOption) := by
  rcases state with ⟨host, accesses⟩
  rcases h : bus.read address host with ⟨_ | byte, host'⟩ <;>
    simp [Bus.recorded, h, Except.toOption]

theorem Bus.recorded_write {σ : Type} (bus : Bus σ) (address : Word) (value : Byte)
    (state : Recorded σ) :
    bus.recorded.write address value state =
      ((bus.write address value state.host).1,
        Recorded.push (bus.write address value state.host).2 state.accesses .write address
          ((bus.write address value state.host).1.toOption.map fun _ => value)) := by
  rcases state with ⟨host, accesses⟩
  rcases h : bus.write address value host with ⟨_ | _, host'⟩ <;>
    simp [Bus.recorded, h, Except.toOption]

end Spc700
