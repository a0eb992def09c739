import Spc700.Bus.Basic

/-!
# A bench for the processor

Flat memory with two kinds of instruments at chosen addresses. A tripwire refuses the accesses of
one direction. A latch counts: a read returns what the cell holds and leaves one more in it. A read that
is refused changes nothing on the bench (`Bench.read_of_refusal`).
-/

namespace Spc700

/-- An address that refuses accesses in one direction, and with what. -/
structure Tripwire where
  address : Word
  direction : Direction
  error : BusError
deriving DecidableEq, Repr

/-- Memory and the instruments on it. -/
structure Bench where
  ram : Ram
  tripwires : List Tripwire := []
  latches : List Word := []

namespace Bench

/-- The refusal that an access meets: that of the first tripwire set for it. -/
def refusal? (tripwires : List Tripwire) (direction : Direction) (address : Word) :
    Option BusError :=
  (tripwires.find? fun t => t.address = address && t.direction = direction).map (·.error)

/-- A read from the bench. -/
def read (bench : Bench) (address : Word) : Except BusError Byte × Bench :=
  match bench with
  | { ram, tripwires, latches } =>
    match refusal? tripwires .read address with
    | some error => (.error error, { ram, tripwires, latches })
    | none =>
      let byte := ram.read address
      if latches.contains address then
        (.ok byte, { ram := ram.write address (byte + 1), tripwires, latches })
      else
        (.ok byte, { ram, tripwires, latches })

/-- A write to the bench. -/
def write (bench : Bench) (address : Word) (value : Byte) : Except BusError Unit × Bench :=
  match bench with
  | { ram, tripwires, latches } =>
    match refusal? tripwires .write address with
    | some error => (.error error, { ram, tripwires, latches })
    | none => (.ok (), { ram := ram.write address value, tripwires, latches })

/-- The bench as a bus. -/
def bus : Bus Bench where
  read address bench := bench.read address
  write address value bench := bench.write address value

theorem read_of_refusal {bench : Bench} {address : Word} {error : BusError}
    (h : refusal? bench.tripwires .read address = some error) :
    bench.read address = (.error error, bench) := by
  simp [read, h]

end Bench

end Spc700
