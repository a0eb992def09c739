import Spc700.Word

/-!
# Flat memory

One byte for each of the 65536 addresses. Everything else is stated through `Ram.read`:
`Ram.read_write` for one cell, `Ram.load_append` for a run of bytes, which goes on at the bottom
when it passes the top.
-/

namespace Spc700

/-- A byte at every address. -/
structure Ram where
  cells : Vector Byte 65536

namespace Ram

/-- Memory that holds zero everywhere. -/
def zero : Ram := ⟨Vector.replicate 65536 0⟩

/-- The byte at an address. -/
def read (ram : Ram) (address : Word) : Byte := ram.cells.get address.toFin

/-- Memory after a byte is put at an address. -/
def write (ram : Ram) (address : Word) (value : Byte) : Ram :=
  ⟨ram.cells.set address.toNat value address.isLt⟩

@[simp]
theorem read_zero (address : Word) : zero.read address = 0 :=
  Vector.getElem_replicate address.isLt

theorem read_write (ram : Ram) (place address : Word) (value : Byte) :
    (ram.write place value).read address = if place = address then value else ram.read address := by
  have h : (ram.write place value).read address =
      if place.toNat = address.toNat then value else ram.read address :=
    Vector.getElem_set place.isLt address.isLt
  rw [h]
  simp only [BitVec.toNat_inj]

/-- Memory after a run of bytes is put from an address on; later bytes replace earlier ones. -/
def load (ram : Ram) (address : Word) : List Byte → Ram
  | [] => ram
  | byte :: bytes => (ram.write address byte).load (address + 1) bytes

/-- A run of bytes, and the rest from where it stopped, is the whole run. -/
theorem load_append (ram : Ram) (address : Word) (xs ys : List Byte) :
    ram.load address (xs ++ ys) =
      (ram.load address xs).load (address + BitVec.ofNat 16 xs.length) ys := by
  induction xs generalizing ram address with
  | nil => simp [load]
  | cons x xs ih =>
    simp only [List.cons_append, load, ih, List.length_cons]
    congr 1
    rw [BitVec.add_assoc, BitVec.ofNat_add, BitVec.add_comm (BitVec.ofNat 16 xs.length)]
    rfl

/-- The bytes from an address on; a run that passes the top goes on at the bottom. -/
def dump (ram : Ram) (address : Word) (count : Nat) : List Byte :=
  (List.range count).map fun i => ram.read (address + BitVec.ofNat 16 i)

/-- The cells that differ, by rising address, with what they hold in the second memory. -/
def changes (before after : Ram) : List (Word × Byte) :=
  (List.range 65536).filterMap fun i =>
    let address : Word := BitVec.ofNat 16 i
    let byte := after.read address
    if before.read address = byte then none else some (address, byte)

/-- How many bytes there are. -/
def size (_ : Ram) : Nat := 65536

/-- The sum of all bytes, each times its address. -/
def weightedSum (ram : Ram) : Nat :=
  (List.range 65536).foldl (fun sum i => sum + i * (ram.read (BitVec.ofNat 16 i)).toNat) 0

end Ram

end Spc700
