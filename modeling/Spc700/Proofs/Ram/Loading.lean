import Mathlib.Data.List.Induction
import Spc700.Ram

/-!
# Loading memory

A row of bytes that is put into memory from an address on may be of any length: it goes on at the
bottom when it passes the top, and may go round more than once, so that several of its bytes land
on one cell. `Ram.landing` lists them, and the last one stays (`Ram.read_load`). A row that is not
longer than memory can be read back (`Ram.dump_load`).

A host may keep memory as a row of cells of any length, into which it stores by an index that can
be out of range (`Ram.storeChecked`). `Ram.loadChecked` loads such a row by counting an index on,
and `Ram.loadChecked_slice` says that on a row of 65536 cells it never fails and does what
`Ram.load` does.
-/

namespace Spc700.Ram

/-! ## What lands on a cell -/

/-- The bytes of a row that land on a cell, in the order in which they are put there. -/
def landing (address cell : Word) (bytes : List Byte) : List Byte :=
  (bytes.zipIdx.filter fun (_, i) => (address.toNat + i) % 65536 = cell.toNat).map Prod.fst

theorem landing_concat (address cell : Word) (bytes : List Byte) (byte : Byte) :
    landing address cell (bytes ++ [byte]) = landing address cell bytes ++
      if (address.toNat + bytes.length) % 65536 = cell.toNat then [byte] else [] := by
  simp only [landing, List.zipIdx_append, List.zipIdx_singleton, List.filter_append,
    List.map_append, Nat.zero_add]
  split <;> simp [*]

/-- The address behind a row that is put into memory. -/
theorem toNat_behind (address : Word) (count : Nat) :
    (address + BitVec.ofNat 16 count).toNat = (address.toNat + count) % 65536 := by
  rw [BitVec.toNat_add, BitVec.toNat_ofNat, Nat.add_mod_mod]

/-- **The last byte that lands on a cell stays.** A cell on which none lands keeps its byte. -/
theorem read_load (ram : Ram) (address cell : Word) (bytes : List Byte) :
    (ram.load address bytes).read cell =
      (landing address cell bytes).getLastD (ram.read cell) := by
  induction bytes using List.reverseRecOn with
  | nil => rfl
  | append_singleton bytes byte ih =>
    have hlast : (ram.load address (bytes ++ [byte])).read cell =
        if address + BitVec.ofNat 16 bytes.length = cell then byte
        else (ram.load address bytes).read cell := by
      rw [load_append]
      exact read_write _ _ _ _
    have hlands : address + BitVec.ofNat 16 bytes.length = cell ↔
        (address.toNat + bytes.length) % 65536 = cell.toNat := by
      rw [← toNat_behind, BitVec.toNat_inj]
    rw [hlast, landing_concat]
    by_cases h : address + BitVec.ofNat 16 bytes.length = cell
    · rw [if_pos h, if_pos (hlands.mp h), List.getLastD_concat]
    · rw [if_neg h, if_neg (mt hlands.mpr h), List.append_nil, ih]

/-- **A row that is not longer than memory can be read back.** -/
theorem dump_load (ram : Ram) (address : Word) {bytes : List Byte} (h : bytes.length ≤ 65536) :
    (ram.load address bytes).dump address bytes.length = bytes := by
  refine List.ext_getElem (by simp [dump]) fun i hi hlt => ?_
  have hread : (ram.load address bytes).read (address + BitVec.ofNat 16 i) = bytes[i] := by
    let after := bytes.drop (i + 1)
    -- Of the bytes behind the one at this index none comes round to its cell.
    have hnone : landing (address + BitVec.ofNat 16 i + 1) (address + BitVec.ofNat 16 i) after
        = [] := by
      rw [landing, List.map_eq_nil_iff, List.filter_eq_nil_iff]
      rintro ⟨byte, j⟩ hj
      have hlength : j < bytes.length - (i + 1) := by
        rw [← List.length_drop]
        exact (List.mem_zipIdx' hj).1
      have hnext := toNat_behind (address + BitVec.ofNat 16 i) 1
      have hcell := (address + BitVec.ofNat 16 i).isLt
      simp only [decide_eq_true_eq]
      bv_omega
    have hsplit : ram.load address bytes = ((ram.load address (bytes.take i)).write
        (address + BitVec.ofNat 16 i) bytes[i]).load (address + BitVec.ofNat 16 i + 1) after := by
      conv_lhs => rw [← List.take_append_drop i bytes, List.drop_eq_getElem_cons hlt]
      rw [load_append, List.length_take_of_le (Nat.le_of_lt hlt)]
      rfl
    rw [hsplit, read_load, hnone]
    simp [read_write]
  simpa [dump] using hread

/-! ## Memory as a row of cells -/

/-- The cells by rising address. -/
def slice (ram : Ram) : Array Byte := ram.cells.toArray

@[simp]
theorem size_slice (ram : Ram) : ram.slice.size = 65536 := ram.cells.size_toArray

/-- A read finds a cell of the row. -/
theorem getElem?_slice (ram : Ram) (address : Word) :
    ram.slice[address.toNat]? = some (ram.read address) := by
  have hrange : address.toNat < ram.slice.size := by
    rw [size_slice]
    exact address.isLt
  exact Array.getElem?_eq_getElem hrange

/-- A row of cells after a byte is stored at an index; none if the index is out of range. -/
def storeChecked (cells : Array Byte) (index : Nat) (byte : Byte) : Option (Array Byte) :=
  if h : index < cells.size then some (cells.set index byte h) else none

/-- A row of cells after a row of bytes is stored from an address on. The index of each byte is cut
to a word, and its sum with the address wraps. -/
def loadChecked (cells : Array Byte) (address : Word) (bytes : List Byte) : Option (Array Byte) :=
  bytes.zipIdx.foldlM
    (fun cells (byte, i) => storeChecked cells (address + BitVec.ofNat 16 i).toNat byte) cells

/-- **An address is an index in range.** -/
theorem storeChecked_slice (ram : Ram) (address : Word) (byte : Byte) :
    storeChecked ram.slice address.toNat byte = some (ram.write address byte).slice := by
  have hrange : address.toNat < ram.slice.size := by
    rw [size_slice]
    exact address.isLt
  exact dif_pos hrange

/-- **Loading never leaves memory**, however long the row is. -/
theorem loadChecked_slice (ram : Ram) (address : Word) (bytes : List Byte) :
    loadChecked ram.slice address bytes = some (ram.load address bytes).slice := by
  induction bytes using List.reverseRecOn with
  | nil => rfl
  | append_singleton bytes byte ih =>
    have hlast : loadChecked ram.slice address (bytes ++ [byte]) =
        (loadChecked ram.slice address bytes).bind fun cells =>
          storeChecked cells (address + BitVec.ofNat 16 bytes.length).toNat byte := by
      simp [loadChecked, List.zipIdx_append, List.foldlM_append]
    rw [hlast, ih, load_append]
    exact storeChecked_slice _ _ _

-- Two cells are too few for an index of two.
example : loadChecked #[0, 0] 1 [5, 6] = none := rfl

/-- **Loading a row of any length**, also one that is longer than memory.

* A cell holds the last byte of the row whose index, added to the address, is the cell up to a
  multiple of 65536, and its old byte if there is none.
* A row can be loaded in two parts, the second from where the first has stopped.
* Byte by byte, no index is out of range, and memory keeps its 65536 cells, in which every read
  finds its byte. -/
theorem load_of_any_length (ram : Ram) (address : Word) :
    (∀ (bytes : List Byte) (cell : Word), (ram.load address bytes).read cell =
      (landing address cell bytes).getLastD (ram.read cell)) ∧
    (∀ xs ys : List Byte, ram.load address (xs ++ ys) =
      (ram.load address xs).load (address + BitVec.ofNat 16 xs.length) ys) ∧
    (∀ bytes : List Byte,
      loadChecked ram.slice address bytes = some (ram.load address bytes).slice) ∧
    ∀ bytes : List Byte, (ram.load address bytes).slice.size = 65536 ∧
      ∀ cell : Word, (ram.load address bytes).slice[cell.toNat]? =
        some ((ram.load address bytes).read cell) :=
  ⟨fun bytes cell => read_load ram address cell bytes, load_append ram address,
    loadChecked_slice ram address,
    fun bytes => ⟨size_slice (ram.load address bytes), getElem?_slice (ram.load address bytes)⟩⟩

end Spc700.Ram
