import Spc700.Proofs.Machine.Completion
import Spc700.Proofs.Microprogram.Pages

/-!
# Two ways to name a bit

A bit of the direct page can be named by an opcode, in its top three bits, and a byte behind it; any
bit of the first 8192 cells can be named by a word, in whose top three bits its number stands over
the address of its cell (`bitWord`). The operations that go the one way and those that go the other
are separate programs. `Machine.bit_addressing` says that they agree on the bits that both can name,
and that none of them changes anything but its bit, or but the carry flag.
-/

namespace Spc700

open Operation (bitMask putBits)

/-! ## One bit of a byte -/

section

variable (b : BitNumber) (on : Bool) (value : Byte) (i : Nat)

theorem getLsbD_bitMask : (bitMask b).getLsbD i = decide (b.toNat = i) := by
  have hb := b.isLt
  rw [bitMask, BitVec.getLsbD_twoPow]
  by_cases h : b.toNat = i
  · simp [← h, hb]
  · simp [h]

theorem getLsbD_putBits_bitMask :
    (putBits (bitMask b) on value).getLsbD i = if b.toNat = i then on else value.getLsbD i := by
  unfold putBits
  cases on with
  | true =>
    rw [if_pos rfl, BitVec.getLsbD_or, getLsbD_bitMask]
    split <;> simp_all
  | false =>
    rw [if_neg Bool.false_ne_true, BitVec.getLsbD_and, BitVec.getLsbD_not, getLsbD_bitMask]
    have hbit : value.getLsbD i = true → i < 8 := BitVec.lt_of_getLsbD
    split <;> simp_all

theorem getLsbD_xor_bitMask :
    (value ^^^ bitMask b).getLsbD i = (value.getLsbD i ^^ decide (b.toNat = i)) := by
  rw [BitVec.getLsbD_xor, getLsbD_bitMask]

end

/-! ## Words that name a bit -/

/-- The word that names a bit of a cell: the bit's number over thirteen bits of the address. -/
def bitWord (cell : Word) (b : BitNumber) : Word := cell ||| b.setWidth 16 <<< 13

section

variable {cell : Word} {b : BitNumber}

theorem toNat_bitWord (h : cell < 0x2000) :
    (bitWord cell b).toNat = 8192 * b.toNat + cell.toNat := by
  have hcell : cell.toNat < 2 ^ 13 := h
  have hb := b.isLt
  have hshift : (b.setWidth 16 <<< 13).toNat = b.toNat <<< 13 := by
    rw [BitVec.toNat_shiftLeft, BitVec.toNat_setWidth, Nat.shiftLeft_eq, Nat.shiftLeft_eq]
    omega
  rw [bitWord, BitVec.toNat_or, hshift, Nat.or_comm, ← Nat.shiftLeft_add_eq_or_of_lt hcell,
    Nat.shiftLeft_eq, Nat.mul_comm]

theorem bitWord_and (h : cell < 0x2000) : bitWord cell b &&& 0x1FFF = cell := by
  have hcell : cell.toNat < 8192 := h
  apply BitVec.eq_of_toNat_eq
  rw [AddressingMode.toNat_and_low, toNat_bitWord h]
  omega

theorem extractLsb'_bitWord (h : cell < 0x2000) : (bitWord cell b).extractLsb' 13 3 = b := by
  have hcell : cell.toNat < 8192 := h
  have hb := b.isLt
  apply BitVec.eq_of_toNat_eq
  rw [BitVec.extractLsb'_toNat, Nat.shiftRight_eq_div_pow, toNat_bitWord h]
  omega

end

/-! ## In the opcode matrix -/

/-- The opcodes that set or clear a bit hold its number in their top three bits. -/
theorem decode_writeBit : ∀ (opcode : Byte) (b : BitNumber) (on : Bool),
    (decode opcode).operation = .writeBit b on ↔
      opcode = b ++ (if on then 0x02#5 else 0x12#5) := by
  decide +kernel

/-- The opcodes that branch on a bit hold its number in their top three bits. -/
theorem decode_branchBit : ∀ (opcode : Byte) (b : BitNumber) (on : Bool),
    (decode opcode).operation = .branchBit b on ↔
      opcode = b ++ (if on then 0x03#5 else 0x13#5) := by
  decide +kernel

/-- They work in the direct page. -/
theorem decode_mode_of_writeBit {opcode : Byte} {b : BitNumber} {on : Bool}
    (h : (decode opcode).operation = .writeBit b on) : (decode opcode).mode = .direct := by
  obtain rfl := (decode_writeBit opcode b on).mp h
  clear h
  revert b on
  decide +kernel

theorem decode_mode_of_branchBit {opcode : Byte} {b : BitNumber} {on : Bool}
    (h : (decode opcode).operation = .branchBit b on) :
    (decode opcode).mode = .directRelative := by
  obtain rfl := (decode_branchBit opcode b on).mp h
  clear h
  revert b on
  decide +kernel

/-- The operations on a bit that a word names. -/
def Operation.NamesBit (operation : Operation) : Prop :=
  (∃ f, operation = .carryBit f) ∨ operation = .invertBit ∨ operation = .storeCarry

theorem decode_mode_of_namesBit {opcode : Byte} (h : (decode opcode).operation.NamesBit) :
    (decode opcode).mode = .absoluteBit := by
  have hcarry : ∀ (f : CarryBit) (opcode : Byte), (decode opcode).operation = .carryBit f →
      (decode opcode).mode = .absoluteBit := by
    intro f
    cases f <;> decide +kernel
  have hother : ∀ opcode : Byte,
      (decode opcode).operation = .invertBit ∨ (decode opcode).operation = .storeCarry →
        (decode opcode).mode = .absoluteBit := by
    decide +kernel
  rcases h with ⟨f, h⟩ | h
  · exact hcarry f opcode h
  · exact hother opcode h

/-! ## How the carry is changed -/

namespace CarryBit

/-- How the carry is joined with the bit. -/
def join : CarryBit → Bool → Bool → Bool
  | or1, c, v | or1Not, c, v => c || v
  | and1, c, v | and1Not, c, v => c && v
  | eor1, c, v => c ^^ v
  | mov1, _, v => v

/-- Whether the bit is negated first. -/
def negates : CarryBit → Bool
  | or1Not | and1Not => true
  | _ => false

theorem apply_eq (f : CarryBit) (c v : Bool) : f.apply c v = f.join c (v ^^ f.negates) := by
  cases f <;> cases c <;> cases v <;> rfl

end CarryBit

namespace Machine

variable {m m' : Machine (Recorded Ram)}

/-! ## The two ways -/

/-- The word behind the opcode, its low byte first. -/
def wordBehind (m : Machine (Recorded Ram)) : Word :=
  Word.ofBytes (m.ram.read (m.processor.registers.pc + 2))
    (m.ram.read (m.processor.registers.pc + 1))

/-- A word that names a bit makes operands of its cell and its number. -/
theorem operands_of_namesBit {cell : Word} {b : BitNumber}
    (h : m.instruction.operation.NamesBit) (hword : m.wordBehind = bitWord cell b)
    (hcell : cell < 0x2000) : m.operands = { address := cell, bit := b } := by
  have hoperands : m.operands =
      { address := m.wordBehind &&& 0x1FFF, bit := m.wordBehind.extractLsb' 13 3 } := by
    rw [operands, Ram.operandsAt_eq (decode_mode_of_namesBit h)]
    rfl
  rw [hoperands, hword, bitWord_and hcell, extractLsb'_bitWord hcell]

/-- Every cell of the direct page is below the limit. -/
theorem directCell_lt (m : Machine (Recorded Ram)) : m.directCell < 0x0200 := by
  have hoffset := (m.ram.read (m.processor.registers.pc + 1)).isLt
  rw [directCell, BitVec.lt_def, Registers.toNat_directAddress, Registers.page]
  split
  case isTrue => exact Nat.add_lt_add_left hoffset 0x100
  case isFalse => exact Nat.add_lt_add (Nat.zero_lt_succ 0xFF) hoffset

theorem directCell_lt_bitLimit (m : Machine (Recorded Ram)) : m.directCell < 0x2000 :=
  BitVec.lt_trans m.directCell_lt (by decide)

/-! ## What each operation leaves -/

section

variable {b : BitNumber} {on : Bool} {cell : Word}

theorem alters_writeBit (h : m.instruction.operation = .writeBit b on) :
    m.Alters m.processor.registers.psw m.directCell
      (putBits (bitMask b) on (m.ram.read m.directCell)) := by
  have hoperands := operands_of_direct (decode_mode_of_writeBit h)
  rw [← m.passed_psw]
  apply alters_of_run
  rw [h, hoperands]
  rfl

theorem alters_storeCarry (h : m.instruction.operation = .storeCarry)
    (hword : m.wordBehind = bitWord cell b) (hcell : cell < 0x2000) :
    m.Alters m.processor.registers.psw cell
      (putBits (bitMask b) m.processor.registers.psw.carry (m.ram.read cell)) := by
  have hoperands := operands_of_namesBit (.inr (.inr h)) hword hcell
  rw [← m.passed_psw]
  apply alters_of_run
  rw [h, hoperands]
  rfl

theorem alters_invertBit (h : m.instruction.operation = .invertBit)
    (hword : m.wordBehind = bitWord cell b) (hcell : cell < 0x2000) :
    m.Alters m.processor.registers.psw cell (m.ram.read cell ^^^ bitMask b) := by
  have hoperands := operands_of_namesBit (.inr (.inl h)) hword hcell
  rw [← m.passed_psw]
  apply alters_of_run
  rw [h, hoperands]
  rfl

theorem completes_carryBit {f : CarryBit} (h : m.instruction.operation = .carryBit f)
    (hword : m.wordBehind = bitWord cell b) (hcell : cell < 0x2000) :
    m.Completes 0
      { m.passed with
        psw := { m.passed.psw with
          carry := f.apply m.passed.psw.carry ((m.ram.read cell).getLsbD b.toNat) } } m.ram := by
  have hoperands := operands_of_namesBit (.inl ⟨f, h⟩) hword hcell
  apply completes_of_run
  rw [h, hoperands]
  rfl

theorem completes_branchBit (h : m.instruction.operation = .branchBit b on) :
    m.Completes (if (m.ram.read m.directCell).getLsbD b.toNat = on then 2 else 0)
      { m.passed with
        pc := if (m.ram.read m.directCell).getLsbD b.toNat = on then
            m.passed.pc + Word.ofSigned (m.ram.read (m.processor.registers.pc + 2))
          else m.passed.pc } m.ram := by
  have hoperands := operands_of_directRelative (decode_mode_of_branchBit h)
  apply completes_of_run
  rw [h, hoperands]
  exact Operation.run_branchIf _ beq_iff_eq _ _ _

end

/-! ## Both ways at once -/

/-- The next instruction is completed and changes no flag and no bit but `b` in one cell, where it
leaves `on`. -/
structure WritesBit (m : Machine (Recorded Ram)) (cell : Word) (b : BitNumber) (on : Bool) :
    Prop where
  ok : (m.execute Ram.bus.recorded).1 = .ok ()
  psw : m.next.processor.registers.psw = m.processor.registers.psw
  bit : (m.next.ram.read cell).getLsbD b.toNat = on
  bits : ∀ i, i ≠ b.toNat → (m.next.ram.read cell).getLsbD i = (m.ram.read cell).getLsbD i
  others : ∀ address, address ≠ cell → m.next.ram.read address = m.ram.read address

section

variable {cell : Word} {b : BitNumber} {on : Bool}

theorem Alters.writesBit {byte : Byte} (h : m.Alters m.processor.registers.psw cell byte)
    (hbyte : ∀ i, byte.getLsbD i = if b.toNat = i then on else (m.ram.read cell).getLsbD i) :
    m.WritesBit cell b on where
  ok := h.ok
  psw := h.psw_eq
  bit := by rw [h.read_cell, hbyte, if_pos rfl]
  bits i hi := by rw [h.read_cell, hbyte, if_neg hi.symm]
  others _ hne := h.read_of_ne hne

theorem writesBit_of_writeBit (h : m.instruction.operation = .writeBit b on) :
    m.WritesBit m.directCell b on :=
  (alters_writeBit h).writesBit fun i => getLsbD_putBits_bitMask b on _ i

theorem writesBit_of_storeCarry (h : m.instruction.operation = .storeCarry)
    (hword : m.wordBehind = bitWord cell b) (hcell : cell < 0x2000) :
    m.WritesBit cell b m.processor.registers.psw.carry :=
  (alters_storeCarry h hword hcell).writesBit fun i => getLsbD_putBits_bitMask b _ _ i

theorem writesBit_of_invertBit (h : m.instruction.operation = .invertBit)
    (hword : m.wordBehind = bitWord cell b) (hcell : cell < 0x2000) :
    m.WritesBit cell b (!(m.ram.read cell).getLsbD b.toNat) := by
  refine (alters_invertBit h hword hcell).writesBit fun i => ?_
  rw [getLsbD_xor_bitMask]
  split
  next hi => simp [hi]
  next hi => simp [hi]

end

/-- **The two ways to name a bit agree**, and touch no other.

* The opcodes that set, clear or test a bit of the direct page hold its number in their top three
  bits.
* Such an opcode leaves in its cell what storing the carry there leaves, if the carry is what it
  stores, the word behind the other opcode names the same bit and the cell holds the same byte.
* A branch on a bit of the direct page is taken, which takes two cycles more, exactly if the carry
  that is loaded from the same bit is the one that it branches on.
* Setting, clearing, storing and inverting a bit changes no other bit of the cell, no other cell
  and no flag.
* Joining a bit with the carry writes nothing, and changes no flag but the carry. -/
theorem bit_addressing :
    (∀ (opcode : Byte) (b : BitNumber) (on : Bool),
      ((decode opcode).operation = .writeBit b on ↔
        opcode = b ++ (if on then 0x02#5 else 0x12#5)) ∧
      ((decode opcode).operation = .branchBit b on ↔
        opcode = b ++ (if on then 0x03#5 else 0x13#5))) ∧
    (∀ {m m' : Machine (Recorded Ram)} {b : BitNumber} {on : Bool},
      m.instruction.operation = .writeBit b on → m'.instruction.operation = .storeCarry →
      m'.wordBehind = bitWord m.directCell b → m'.processor.registers.psw.carry = on →
      m'.ram.read m.directCell = m.ram.read m.directCell →
      m'.next.ram.read m.directCell = m.next.ram.read m.directCell) ∧
    (∀ {m m' : Machine (Recorded Ram)} {b : BitNumber} {on : Bool},
      m.instruction.operation = .branchBit b on → m'.instruction.operation = .carryBit .mov1 →
      m'.wordBehind = bitWord m.directCell b →
      m'.ram.read m.directCell = m.ram.read m.directCell →
      let taken := m'.next.processor.registers.psw.carry = on
      let behind := m.processor.registers.pc + 3
      (m.execute Ram.bus.recorded).1 = .ok () ∧
      m.next.processor.registers.pc =
        (if taken then behind + Word.ofSigned (m.ram.read (m.processor.registers.pc + 2))
          else behind) ∧
      m.next.processor.cyclesLeft = m.instruction.cycles + if taken then 2 else 0) ∧
    (∀ {m : Machine (Recorded Ram)} {b : BitNumber} {on : Bool},
      m.instruction.operation = .writeBit b on →
      m.directCell < 0x0200 ∧ m.WritesBit m.directCell b on) ∧
    ∀ {m : Machine (Recorded Ram)} {cell : Word} {b : BitNumber},
      m.wordBehind = bitWord cell b → cell < 0x2000 →
      let psw := m.processor.registers.psw
      let v := (m.ram.read cell).getLsbD b.toNat
      (m.instruction.operation = .storeCarry → m.WritesBit cell b psw.carry) ∧
      (m.instruction.operation = .invertBit → m.WritesBit cell b (!v)) ∧
      ∀ f, m.instruction.operation = .carryBit f →
        (m.execute Ram.bus.recorded).1 = .ok () ∧
        (∀ a ∈ m.accesses, a.direction = .read) ∧ m.next.ram = m.ram ∧
        m.next.processor.registers.psw =
          { psw with carry := f.join psw.carry (v ^^ f.negates) } := by
  refine ⟨fun opcode b on => ⟨decode_writeBit opcode b on, decode_branchBit opcode b on⟩, ?_, ?_,
    fun h => ⟨directCell_lt _, writesBit_of_writeBit h⟩, ?_⟩
  · rintro m m' b on h h' hword rfl hbyte
    have hstore := alters_storeCarry h' hword m.directCell_lt_bitLimit
    rw [(alters_writeBit h).read_cell, hstore.read_cell, hbyte]
  · intro m m' b on h h' hword hbyte taken behind
    have hload := completes_carryBit h' hword m.directCell_lt_bitLimit
    have htaken : taken ↔ (m.ram.read m.directCell).getLsbD b.toNat = on := by
      show m'.next.processor.registers.psw.carry = on ↔ _
      rw [hload.registers, hbyte]
      rfl
    have hpc : m.passed.pc = behind := by
      have hmode : m.instruction.mode = .directRelative := decode_mode_of_branchBit h
      rw [passed_pc, Instruction.length, hmode]
      rfl
    have hbranch := completes_branchBit h
    simp only [htaken]
    rw [hbranch.registers, hbranch.cyclesLeft, hpc]
    exact ⟨hbranch.ok, rfl, rfl⟩
  · intro m cell b hword hcell psw v
    refine ⟨fun h => writesBit_of_storeCarry h hword hcell,
      fun h => writesBit_of_invertBit h hword hcell, ?_⟩
    intro f h
    have hcompletes := completes_carryBit h hword hcell
    have hplan : ∀ visit ∈ m.instruction.operation.plan, visit.direction = .read := by
      rw [h]
      exact List.forall_mem_singleton.mpr rfl
    refine ⟨hcompletes.ok, accesses_of_plan hplan, hcompletes.ram, ?_⟩
    rw [hcompletes.registers, ← f.apply_eq, passed_psw]

/-- Bit 3 of a cell of the second page: set, stored as the carry, branched on, loaded, inverted and
joined with the carry. -/
theorem bit_addressing_of_ram :
    let ram := (Ram.zero.load 0x0200 [0x62, 0x30, 0xCA, 0x30, 0x61, 0x73, 0x30, 0xFE, 0xAA, 0x30,
      0x61, 0xEA, 0x30, 0x61, 0x2A, 0x30, 0x61]).write 0x0130 0x55
    let start := fun pc => onRam { pc, psw := { directPage := true, carry := true } } ram
    let setting := start 0x0200
    let storing := start 0x0202
    let branching := start 0x0205
    let loading := start 0x0208
    let inverting := start 0x020B
    let joining := start 0x020E
    (setting.instruction.operation = .writeBit 3 true ∧ setting.directCell = 0x0130) ∧
    (storing.instruction.operation = .storeCarry ∧ storing.wordBehind = bitWord 0x0130 3) ∧
    storing.next.ram.read 0x0130 = setting.next.ram.read 0x0130 ∧
    setting.WritesBit 0x0130 3 true ∧ storing.WritesBit 0x0130 3 true ∧
    (branching.instruction.operation = .branchBit 3 false ∧ branching.directCell = 0x0130) ∧
    (loading.instruction.operation = .carryBit .mov1 ∧ loading.wordBehind = bitWord 0x0130 3) ∧
    branching.next.processor.registers.pc =
      (if loading.next.processor.registers.psw.carry = false then 0x0206 else 0x0208) ∧
    (inverting.instruction.operation = .invertBit ∧ inverting.wordBehind = bitWord 0x0130 3) ∧
    inverting.WritesBit 0x0130 3 true ∧
    (joining.instruction.operation = .carryBit .or1Not ∧ joining.wordBehind = bitWord 0x0130 3) ∧
    joining.next.ram = ram := by
  intro ram start setting storing branching loading inverting joining
  have hsetting : setting.instruction.operation = .writeBit 3 true ∧
      setting.directCell = 0x0130 := by decide +kernel
  have hstoring : storing.instruction.operation = .storeCarry ∧
      storing.wordBehind = bitWord 0x0130 3 := by decide +kernel
  have hbranching : branching.instruction.operation = .branchBit 3 false ∧
      branching.directCell = 0x0130 := by decide +kernel
  have hloading : loading.instruction.operation = .carryBit .mov1 ∧
      loading.wordBehind = bitWord 0x0130 3 := by decide +kernel
  have hinverting : inverting.instruction.operation = .invertBit ∧
      inverting.wordBehind = bitWord 0x0130 3 := by decide +kernel
  have hjoining : joining.instruction.operation = .carryBit .or1Not ∧
      joining.wordBehind = bitWord 0x0130 3 := by decide +kernel
  have hbit : (inverting.ram.read 0x0130).getLsbD (3 : BitNumber).toNat = false := by
    decide +kernel
  have hback : branching.processor.registers.pc + 3 + Word.ofSigned (branching.ram.read
      (branching.processor.registers.pc + 2)) = 0x0206 := by decide +kernel
  obtain ⟨-, hstored, htaken, hwrites, hnamed⟩ := bit_addressing
  have hstored := hstored hsetting.1 hstoring.1 (by rw [hsetting.2, hstoring.2]) rfl rfl
  rw [hsetting.2] at hstored
  obtain ⟨-, hpc, -⟩ := htaken hbranching.1 hloading.1 (by rw [hbranching.2, hloading.2]) rfl
  rw [hback] at hpc
  have hsets := (hwrites hsetting.1).2
  rw [hsetting.2] at hsets
  have hinverts := (hnamed hinverting.2 (by decide)).2.1 hinverting.1
  rw [hbit] at hinverts
  exact ⟨hsetting, hstoring, hstored, hsets, (hnamed hstoring.2 (by decide)).1 hstoring.1,
    hbranching, hloading, hpc, hinverting, hinverts, hjoining,
    ((hnamed hjoining.2 (by decide)).2.2 _ hjoining.1).2.2.1⟩

end Machine

end Spc700
