import Mathlib.Data.List.Basic
import Spc700.Proofs.Microprogram.Order

/-!
# Pages

Ten addressing modes work on cells of the direct page, which is the first page or, with its flag
set, the second. They compute the place of a cell in the page as a byte, so an index or the step to
the high byte of a word wraps at the end of the page. The other modes work with whole addresses,
which wrap at the end of memory.

* `AddressingMode.address_of_inDirectPage`: every cell of these ten modes is in the page, at
  `AddressingMode.pageOffset`.
* `AddressingMode.toNat_pointerCells`: so are the two bytes of a pointer held in the page.
* `AddressingMode.cellAddress_eq`: where the cell of the other modes is.
* `decode_plan_fills`: no operation visits a place that its mode has not filled in.
-/

namespace Spc700

/-! ## The direct page -/

namespace Registers

/-- Where the direct page begins. -/
def page (r : Registers) : Nat := if r.psw.directPage then 0x100 else 0

theorem toNat_directAddress (r : Registers) (offset : Byte) :
    (r.directAddress offset).toNat = r.page + offset.toNat := by
  unfold directAddress page
  rw [Word.toNat_ofBytes]
  cases r.psw.directPage <;> rfl

theorem toNat_advance_pc (r : Registers) (count : Nat) :
    (r.advance count).pc.toNat = (r.pc.toNat + count) % 0x10000 := by
  rw [advance_pc, BitVec.toNat_add, BitVec.toNat_ofNat, Nat.add_mod_mod]

end Registers

namespace AddressingMode

/-- The modes that work on cells of the direct page. -/
def inDirectPage : AddressingMode → Bool
  | direct | directX | directY | directRelative | directXRelative | indirectX
  | indirectXIncrement | directDirect | indirectXY | directImmediate => true
  | _ => false

/-- Where in the direct page a place is. `r` are the registers that stand on the opcode, and
`operand` are the operand bytes, without an immediate byte. -/
def pageOffset (mode : AddressingMode) (r : Registers) (operand : List Byte) (place : Place) :
    Option Byte :=
  match mode, place, operand with
  | direct, .cell, [d] | directRelative, .cell, [d, _] => some d
  | direct, .highCell, [d] => some (d + 1)
  | directX, .cell, [d] | directXRelative, .cell, [d, _] => some (d + r.x)
  | directY, .cell, [d] => some (d + r.y)
  | indirectX, .cell, [] | indirectXIncrement, .cell, [] | indirectXY, .cell, [] => some r.x
  | indirectXY, .source, [] => some r.y
  | directDirect, .cell, [_, target] => some target
  | directDirect, .source, [source, _] => some source
  | directImmediate, .cell, [d] => some d
  | _, _, _ => none

/-- The addresses of the two bytes of a pointer. -/
def pointerAddresses (mode : AddressingMode) (r : Registers) (operand : List Byte) : List Nat :=
  match mode, operand with
  | directXPointer, [d] =>
    [r.page + (d.toNat + r.x.toNat) % 0x100, r.page + (d.toNat + r.x.toNat + 1) % 0x100]
  | directPointerY, [d] => [r.page + d.toNat, r.page + (d.toNat + 1) % 0x100]
  | absoluteXPointer, [low, high] =>
    [((Word.ofBytes high low).toNat + r.x.toNat) % 0x10000,
      ((Word.ofBytes high low).toNat + r.x.toNat + 1) % 0x10000]
  | _, _ => []

/-- The address of the cell in the modes that do not work in the direct page. `pointer` are the
bytes of the pointer. -/
def cellAddress (mode : AddressingMode) (r : Registers) (operand pointer : List Byte) :
    Option Nat :=
  match mode, operand, pointer with
  | absolute, [low, high], [] => some (Word.ofBytes high low).toNat
  | absoluteX, [low, high], [] => some (((Word.ofBytes high low).toNat + r.x.toNat) % 0x10000)
  | absoluteY, [low, high], [] => some (((Word.ofBytes high low).toNat + r.y.toNat) % 0x10000)
  | absoluteBit, [low, high], [] => some ((Word.ofBytes high low).toNat % 0x2000)
  | immediate, [], [] => some ((r.pc.toNat + 1) % 0x10000)
  | directXPointer, [_], [low, high] => some (Word.ofBytes high low).toNat
  | directPointerY, [_], [low, high] =>
    some (((Word.ofBytes high low).toNat + r.y.toNat) % 0x10000)
  | absoluteXPointer, [_, _], [low, high] => some (Word.ofBytes high low).toNat
  | _, _, _ => none

/-- The mode fills in the place, or the instruction names it by itself. -/
def fills (mode : AddressingMode) : Place → Bool
  | .cell => mode ≠ implied ∧ mode ≠ relative
  | .source => mode = directDirect ∨ mode = indirectXY ∨ mode = directImmediate
  | .highCell => mode = direct
  | .pushed _ => mode = implied ∨ mode = absolute ∨ mode = direct
  | .popped _ => mode = implied
  | .fixed address => mode = implied ∧ 0xFFC0 ≤ address ∧ address ≤ 0xFFDF

section

variable {mode : AddressingMode} {place : Place} {operand pointer : List Byte}

theorem pointerCells_of_inDirectPage (hmode : mode.inDirectPage = true) (r : Registers)
    (bytes : List Byte) : mode.pointerCells r bytes = [] := by
  cases mode <;> first | rfl | cases hmode

/-- **The cells of the direct page**: of a mode that works there, every place that it fills in is
in the page, but for the stack and for an immediate byte. -/
theorem address_of_inDirectPage (hmode : mode.inDirectPage = true)
    (hfills : mode.fills place = true) (r : Registers)
    (hoperand : operand.length = mode.fetched.length) :
    (∃ i, place = .pushed i) ∨ (mode = directImmediate ∧ place = .source) ∨
      ∃ offset, mode.pageOffset r operand place = some offset ∧
        place.address (mode.operands (r.advance 1) operand) r.sp = r.directAddress offset := by
  -- The stack and the vectors do not depend on the mode. Of the other places there is one case for
  -- each number of operand bytes that a mode reads.
  cases place with
  | cell =>
    refine .inr (.inr ?_)
    cases mode with
    | indirectX | indirectXIncrement | indirectXY =>
      obtain rfl := List.length_eq_zero_iff.mp hoperand
      exact ⟨r.x, rfl, rfl⟩
    | direct | directX | directY | directImmediate =>
      obtain ⟨d, rfl⟩ := List.length_eq_one_iff.mp hoperand
      exact ⟨_, rfl, rfl⟩
    | directRelative | directXRelative | directDirect =>
      obtain ⟨d, second, rfl⟩ := List.length_eq_two.mp hoperand
      exact ⟨_, rfl, rfl⟩
    | _ => cases hmode
  | source =>
    cases mode with
    | directImmediate => exact .inr (.inl ⟨rfl, rfl⟩)
    | indirectXY =>
      obtain rfl := List.length_eq_zero_iff.mp hoperand
      exact .inr (.inr ⟨r.y, rfl, rfl⟩)
    | directDirect =>
      obtain ⟨source, target, rfl⟩ := List.length_eq_two.mp hoperand
      exact .inr (.inr ⟨source, rfl, rfl⟩)
    | _ => cases hfills
  | highCell =>
    obtain rfl : mode = direct := of_decide_eq_true hfills
    obtain ⟨d, rfl⟩ := List.length_eq_one_iff.mp hoperand
    exact .inr (.inr ⟨d + 1, rfl, rfl⟩)
  | pushed i => exact .inl ⟨i, rfl⟩
  | popped i =>
    obtain rfl : mode = implied := of_decide_eq_true hfills
    cases hmode
  | fixed address =>
    obtain ⟨rfl, -⟩ := of_decide_eq_true hfills
    cases hmode

/-- The other modes fill in the cell alone, beside the stack and the vectors. -/
theorem place_of_fills (hmode : mode.inDirectPage = false) (hfills : mode.fills place = true) :
    (∃ i, place = .pushed i ∨ place = .popped i) ∨ (∃ address, place = .fixed address) ∨
      place = .cell := by
  cases place with
  | cell => exact .inr (.inr rfl)
  | source =>
    rcases of_decide_eq_true hfills with rfl | rfl | rfl <;> cases hmode
  | highCell =>
    obtain rfl : mode = direct := of_decide_eq_true hfills
    cases hmode
  | pushed i => exact .inl ⟨i, .inl rfl⟩
  | popped i => exact .inl ⟨i, .inr rfl⟩
  | fixed address => exact .inr (.inl ⟨address, rfl⟩)

theorem eq_cell_of_fills (hfills : absoluteBit.fills place = true) : place = .cell := by
  cases place <;> first | rfl | cases hfills

/-- Both bytes of a pointer that is held in the page are in it, and the second one wraps. -/
theorem toNat_pointerCells (mode : AddressingMode) (r : Registers)
    (hoperand : operand.length = mode.fetched.length) :
    (mode.pointerCells (r.advance 1) operand).map BitVec.toNat =
      mode.pointerAddresses r operand := by
  cases mode with
  | directXPointer =>
    obtain ⟨d, rfl⟩ := List.length_eq_one_iff.mp hoperand
    simp [pointerCells, pointerAddresses, Registers.toNat_directAddress]
  | directPointerY =>
    obtain ⟨d, rfl⟩ := List.length_eq_one_iff.mp hoperand
    simp [pointerCells, pointerAddresses, Registers.toNat_directAddress]
  | absoluteXPointer =>
    obtain ⟨low, high, rfl⟩ := List.length_eq_two.mp hoperand
    simp [pointerCells, pointerAddresses]
  | _ => rfl

/-- A pointer that is held in the page is nowhere else. -/
theorem mem_page_of_pointer {r : Registers} (hmode : mode = directXPointer ∨ mode = directPointerY)
    (hoperand : operand.length = mode.fetched.length) {address : Nat}
    (haddress : address ∈ mode.pointerAddresses r operand) :
    r.page ≤ address ∧ address ≤ r.page + 0xFF := by
  rcases hmode with rfl | rfl
  · obtain ⟨d, rfl⟩ := List.length_eq_one_iff.mp hoperand
    rcases List.mem_pair.mp haddress with rfl | rfl <;> omega
  · obtain ⟨d, rfl⟩ := List.length_eq_one_iff.mp hoperand
    have hd := d.isLt
    rcases List.mem_pair.mp haddress with rfl | rfl <;> omega

/-- An indexed address wraps at the end of memory. -/
theorem toNat_add_index (base : Word) (index : Byte) :
    (base + index.setWidth 16).toNat = (base.toNat + index.toNat) % 0x10000 := by
  rw [BitVec.toNat_add, BitVec.toNat_setWidth_of_le (by decide)]

/-- The address in a word whose top three bits number a bit. -/
theorem toNat_and_low (word : Word) : (word &&& 0x1FFF).toNat = word.toNat % 0x2000 :=
  (BitVec.toNat_and word 0x1FFF).trans (Nat.and_two_pow_sub_one_eq_mod word.toNat 13)

theorem absoluteBit_address_lt (r : Registers) (bytes : List Byte) :
    (operands absoluteBit r bytes).address.toNat < 0x2000 := by
  rcases bytes with _ | ⟨low, _ | ⟨high, _ | ⟨third, rest⟩⟩⟩
  · exact Nat.zero_lt_succ _
  · exact Nat.zero_lt_succ _
  · exact toNat_and_low (Word.ofBytes high low) ▸ Nat.mod_lt _ (by decide)
  · exact Nat.zero_lt_succ _

/-- **The cell of the other modes.** -/
theorem cellAddress_eq (hmode : mode.inDirectPage = false) (hfills : mode.fills .cell = true)
    (r : Registers) (hoperand : operand.length = mode.fetched.length)
    (hpointer : pointer.length = (mode.pointerCells (r.advance 1) operand).length) :
    mode.cellAddress r operand pointer =
      some (mode.operands (r.advance 1) (operand ++ pointer)).address.toNat := by
  cases mode with
  | immediate =>
    obtain rfl := List.length_eq_zero_iff.mp hoperand
    obtain rfl := List.length_eq_zero_iff.mp hpointer
    exact congrArg some (r.toNat_advance_pc 1).symm
  | absolute =>
    obtain ⟨low, high, rfl⟩ := List.length_eq_two.mp hoperand
    obtain rfl := List.length_eq_zero_iff.mp hpointer
    rfl
  | absoluteX =>
    obtain ⟨low, high, rfl⟩ := List.length_eq_two.mp hoperand
    obtain rfl := List.length_eq_zero_iff.mp hpointer
    exact congrArg some (toNat_add_index _ r.x).symm
  | absoluteY =>
    obtain ⟨low, high, rfl⟩ := List.length_eq_two.mp hoperand
    obtain rfl := List.length_eq_zero_iff.mp hpointer
    exact congrArg some (toNat_add_index _ r.y).symm
  | absoluteBit =>
    obtain ⟨low, high, rfl⟩ := List.length_eq_two.mp hoperand
    obtain rfl := List.length_eq_zero_iff.mp hpointer
    exact congrArg some (toNat_and_low _).symm
  | directXPointer =>
    obtain ⟨d, rfl⟩ := List.length_eq_one_iff.mp hoperand
    obtain ⟨low, high, rfl⟩ := List.length_eq_two.mp hpointer
    rfl
  | directPointerY =>
    obtain ⟨d, rfl⟩ := List.length_eq_one_iff.mp hoperand
    obtain ⟨low, high, rfl⟩ := List.length_eq_two.mp hpointer
    exact congrArg some (toNat_add_index _ r.y).symm
  | absoluteXPointer =>
    obtain ⟨baseLow, baseHigh, rfl⟩ := List.length_eq_two.mp hoperand
    obtain ⟨low, high, rfl⟩ := List.length_eq_two.mp hpointer
    rfl
  | implied | relative => cases hfills
  | _ => cases hmode

end

end AddressingMode

/-- **No operation visits a place that its mode has not filled in.** -/
theorem decode_plan_fills : ∀ opcode : Byte, ∀ v ∈ (decode opcode).operation.plan,
    (decode opcode).mode.fills v.place = true := by
  decide +kernel

end Spc700
