import Spc700.Proofs.Machine.Completion

/-!
# Stores and the loads that undo them

What a store leaves in memory, the load of the same register in the same mode brings back, if it
forms the same operands (`Machine.Reaches`): it finds the same operand bytes and the same page, and
the registers by which the mode indexes. The register that is stored is not one of these, so it may
have been changed in between. `Machine.reload` says so of all stores, those of words included.
-/

namespace Spc700

/-! ## What operands depend on -/

namespace AddressingMode

/-- The registers that a mode makes operands of. -/
def indexes : AddressingMode → List Register
  | indirectX | indirectXIncrement | directXPointer | directX | absoluteX | directXRelative
  | absoluteXPointer => [.x]
  | absoluteY | directPointerY | directY => [.y]
  | indirectXY => [.x, .y]
  | _ => []

section

variable {mode : AddressingMode} {r r' : Registers}

/-- Direct pages that are the same have the same cells. -/
theorem directAddress_congr (hpage : r'.psw.directPage = r.psw.directPage) (offset : Byte) :
    r'.directAddress offset = r.directAddress offset := by
  rw [Registers.directAddress, hpage, Registers.directAddress]

theorem pointerCells_congr (hpage : r'.psw.directPage = r.psw.directPage)
    (hindexes : ∀ n ∈ mode.indexes, r'.get n = r.get n) (bytes : List Byte) :
    mode.pointerCells r' bytes = mode.pointerCells r bytes := by
  have hcells := directAddress_congr hpage
  unfold pointerCells
  split <;> simp_all [indexes, Registers.get]

/-- **Operands depend on the page, the indexing registers and the bytes**, in a mode without an
immediate byte. -/
theorem operands_congr (hpage : r'.psw.directPage = r.psw.directPage)
    (hindexes : ∀ n ∈ mode.indexes, r'.get n = r.get n) (himmediate : mode.immediateBytes = 0)
    (bytes : List Byte) : mode.operands r' bytes = mode.operands r bytes := by
  have hcells := directAddress_congr hpage
  unfold operands
  split <;> simp_all [indexes, immediateBytes, Registers.get]

end

end AddressingMode

/-! ## In the opcode matrix -/

/-- A register is stored in modes that do not index by it, and has a load in each of them. -/
theorem decode_store : ∀ (n : Register) (probe : Bool) (opcode : Byte),
    (decode opcode).operation = .store n probe →
      (decode opcode).mode.immediateBytes = 0 ∧ n ∉ (decode opcode).mode.indexes ∧
      ∃ opcode' : Byte, (decode opcode').operation = .load n ∧
        (decode opcode').mode = (decode opcode).mode := by
  intro n probe
  cases n <;> cases probe <;> decide +kernel

/-- Words are stored and loaded in the direct page. -/
theorem decode_storeWord : ∀ opcode : Byte, (decode opcode).operation = .storeWord →
    (decode opcode).mode = .direct ∧
    ∃ opcode' : Byte, (decode opcode').operation = .loadWord ∧
      (decode opcode').mode = .direct := by
  decide +kernel

namespace Machine

variable {m m' : Machine (Recorded Ram)}

/-! ## The same operands -/

/-- The instruction that `m'` faces forms the operands that the one that `m` faces has formed. It
finds the memory that the other leaves, and in it the same operand bytes behind an opcode of the
same mode. The page and the registers by which the mode indexes are the same, and no byte of a
pointer has been written. -/
structure Reaches (m m' : Machine (Recorded Ram)) : Prop where
  ram : m'.ram = m.next.ram
  mode : m'.instruction.mode = m.instruction.mode
  bytes : m'.ram.operandBytes m'.processor.registers.pc =
    m.ram.operandBytes m.processor.registers.pc
  page : m'.processor.registers.psw.directPage = m.processor.registers.psw.directPage
  indexes : ∀ n ∈ m.instruction.mode.indexes,
    m'.processor.registers.get n = m.processor.registers.get n
  pointer : ∀ address ∈ m.instruction.mode.pointerCells (m.processor.registers.advance 1)
      (m.ram.operandBytes m.processor.registers.pc),
    m.next.ram.read address = m.ram.read address

/-- What has to be found the same, with the cells of the pointer listed. -/
theorem Reaches.of_cells {cells : List Word} (hram : m'.ram = m.next.ram)
    (hcells : m.instruction.mode.pointerCells (m.processor.registers.advance 1)
      (m.ram.operandBytes m.processor.registers.pc) = cells)
    (hkept : cells.map m.next.ram.read = cells.map m.ram.read)
    (hfound : m'.instruction.mode = m.instruction.mode ∧
      m'.ram.operandBytes m'.processor.registers.pc =
        m.ram.operandBytes m.processor.registers.pc ∧
      m'.processor.registers.psw.directPage = m.processor.registers.psw.directPage ∧
      ∀ n ∈ m.instruction.mode.indexes,
        m'.processor.registers.get n = m.processor.registers.get n) : m.Reaches m' where
  ram := hram
  mode := hfound.1
  bytes := hfound.2.1
  page := hfound.2.2.1
  indexes := hfound.2.2.2
  pointer := by
    rw [hcells]
    exact List.map_inj_left.mp hkept

theorem Reaches.operands_eq (h : m.Reaches m')
    (himmediate : m.instruction.mode.immediateBytes = 0) : m'.operands = m.operands := by
  let r := m.processor.registers.advance 1
  let r' := m'.processor.registers.advance 1
  let bytes := m.ram.operandBytes m.processor.registers.pc
  have hpage : r'.psw.directPage = r.psw.directPage := h.page
  have hindexes : ∀ n ∈ m.instruction.mode.indexes, r'.get n = r.get n := by
    intro n hn
    have hn := h.indexes n hn
    cases n <;> exact hn
  have hoperands : m'.operands = m.instruction.mode.operands r'
      (bytes ++ (m.instruction.mode.pointerCells r' bytes).map m.next.ram.read) := by
    have hmode : (m'.ram.instructionAt m'.processor.registers.pc).mode = m.instruction.mode :=
      h.mode
    rw [operands, Ram.operandsAt, hmode, h.bytes, h.ram]
  rw [hoperands, AddressingMode.pointerCells_congr hpage hindexes,
    List.map_congr_left h.pointer, AddressingMode.operands_congr hpage hindexes himmediate]
  rfl

/-- A register by which the mode does not index is found as it was. -/
theorem passed_get {n : Register} (h : n ∉ m.instruction.mode.indexes) :
    m.passed.get n = m.processor.registers.get n := by
  have hindex : (m.instruction.mode.index (m.processor.registers.advance 1)).get n =
      m.processor.registers.get n := by
    unfold AddressingMode.index
    split
    next hmode =>
      rw [hmode] at h
      cases n with
      | x => exact absurd List.mem_cons_self h
      | _ => rfl
    next => cases n <;> rfl
  rw [← hindex]
  cases n <;> rfl

/-! ## What each operation leaves -/

theorem completes_store {n : Register} {probe : Bool}
    (h : m.instruction.operation = .store n probe) :
    m.Completes 0 m.passed (m.ram.write m.operands.address (m.passed.get n)) := by
  apply completes_of_run
  rw [h]
  cases probe <;> rfl

theorem completes_load {n : Register} (h : m.instruction.operation = .load n) :
    m.Completes 0
      ((m.passed.set n (m.ram.read m.operands.address)).describe (m.ram.read m.operands.address))
      m.ram := by
  apply completes_of_run
  rw [h]
  rfl

theorem completes_storeWord (h : m.instruction.operation = .storeWord) :
    m.Completes 0 m.passed
      ((m.ram.write m.operands.address (Word.low m.passed.ya)).write m.operands.highAddress
        (Word.high m.passed.ya)) := by
  apply completes_of_run
  rw [h]
  rfl

theorem completes_loadWord (h : m.instruction.operation = .loadWord) :
    m.Completes 0
      { m.passed with
        a := m.ram.read m.operands.address
        y := m.ram.read m.operands.highAddress
        psw := m.passed.psw.describe
          (Word.ofBytes (m.ram.read m.operands.highAddress) (m.ram.read m.operands.address)) }
      m.ram := by
  apply completes_of_run
  rw [h]
  rfl

/-! ## There and back -/

/-- **What is stored is loaded again.**

* The opcode matrix has, for each opcode that stores a register or a word, the load of the same
  register or of a word in the same mode. The register is not one that the mode indexes by.
* A load that forms the operands of the store before it brings back the register that was stored,
  whatever it holds by then. The negative and the zero flag describe it, and the other flags are
  those that the load finds. Memory is in the end as it was before the store, but for the cell.
* The same holds of words. They are in two cells of the direct page, the second of which can be the
  first of the page, and are described as words. -/
theorem reload :
    (∀ (opcode : Byte) (n : Register) (probe : Bool),
      (decode opcode).operation = .store n probe → n ∉ (decode opcode).mode.indexes ∧
        ∃ opcode' : Byte, (decode opcode').operation = .load n ∧
          (decode opcode').mode = (decode opcode).mode) ∧
    (∀ opcode : Byte, (decode opcode).operation = .storeWord →
      ∃ opcode' : Byte, (decode opcode').operation = .loadWord ∧
        (decode opcode').mode = (decode opcode).mode) ∧
    (∀ {m m' : Machine (Recorded Ram)} {n : Register} {probe : Bool},
      m.instruction.operation = .store n probe → m'.instruction.operation = .load n →
      m.Reaches m' →
      let value := m.processor.registers.get n
      (m.execute Ram.bus.recorded).1 = .ok () ∧ (m'.execute Ram.bus.recorded).1 = .ok () ∧
      m'.next.processor.registers.get n = value ∧
      m'.next.processor.registers.psw = m'.processor.registers.psw.describe value ∧
      ∀ address, address ≠ m.operands.address →
        m'.next.ram.read address = m.ram.read address) ∧
    ∀ {m m' : Machine (Recorded Ram)},
      m.instruction.operation = .storeWord → m'.instruction.operation = .loadWord →
      m.Reaches m' →
      let value := m.processor.registers.ya
      (m.execute Ram.bus.recorded).1 = .ok () ∧ (m'.execute Ram.bus.recorded).1 = .ok () ∧
      m'.next.processor.registers.ya = value ∧
      m'.next.processor.registers.psw = m'.processor.registers.psw.describe value ∧
      ∀ address, address ≠ m.directCell → address ≠ m.directCellAbove →
        m'.next.ram.read address = m.ram.read address := by
  refine ⟨fun opcode n probe h => (decode_store n probe opcode h).2, ?_, ?_, ?_⟩
  · intro opcode h
    obtain ⟨hmode, hload⟩ := decode_storeWord opcode h
    rwa [hmode]
  · intro m m' n probe h h' hreaches value
    obtain ⟨himmediate, hindexes, -⟩ := decode_store n probe _ h
    have hstore := completes_store h
    rw [passed_get hindexes] at hstore
    have hload := completes_load h'
    -- The load forms the operands of the store, so it reads the cell that was written.
    rw [hreaches.operands_eq himmediate, hreaches.ram, hstore.ram, Ram.read_write, if_pos rfl]
      at hload
    refine ⟨hstore.ok, hload.ok, ?_, ?_, ?_⟩
    · rw [hload.registers, Registers.get_describe, Registers.get_set, if_pos rfl]
    · rw [hload.registers]
      show Flags.describe _ (Registers.set _ _ _).psw = _
      rw [Registers.psw_set, passed_psw]
    · intro address hne
      rw [hload.ram, Ram.read_write, if_neg hne.symm]
  · intro m m' h h' hreaches value
    have hmode : m.instruction.mode = .direct := (decode_storeWord _ h).1
    have hoperands' := hreaches.operands_eq (by rw [hmode]; rfl)
    have hoperands := operands_of_direct hmode
    have hstore := completes_storeWord h
    have hya : m.passed.ya = value := by
      rw [Registers.ya, passed_y, passed_a]
      rfl
    rw [hoperands, hya] at hstore
    have hload := completes_loadWord h'
    rw [hoperands', hoperands, hreaches.ram] at hload
    have hlow : m.next.ram.read m.directCell = Word.low value := by
      rw [hstore.ram, Ram.read_write, if_neg m.directCell_ne_directCellAbove.symm, Ram.read_write,
        if_pos rfl]
    have hhigh : m.next.ram.read m.directCellAbove = Word.high value := by
      rw [hstore.ram, Ram.read_write, if_pos rfl]
    have hword : Word.ofBytes (m.next.ram.read m.directCellAbove)
        (m.next.ram.read m.directCell) = value := by
      rw [hlow, hhigh, Word.ofBytes_high_low]
    refine ⟨hstore.ok, hload.ok, ?_, ?_, ?_⟩
    · rw [hload.registers]
      exact hword
    · rw [hload.registers, hword, passed_psw]
    · intro address hne hne'
      rw [hload.ram, hstore.ram, Ram.read_write, if_neg hne'.symm, Ram.read_write, if_neg hne.symm]

/-- A byte stored and loaded through a pointer, and a word in the last and the first cell of the
page, with other registers and flags in between. -/
theorem reload_of_ram :
    let ram := ((Ram.zero.load 0x0200 [0xD7, 0x10, 0xDA, 0xFF]).load 0x0300
      [0xF7, 0x10, 0xBA, 0xFF]).load 0x0010 [0x00, 0x04]
    let m := onRam { a := 0x80, y := 0x05, pc := 0x0200 } ram
    let m' := onRam { x := 0x99, y := 0x05, pc := 0x0300, psw := { zero := true, carry := true } }
      m.next.ram
    let word := onRam { a := 0x34, y := 0x12, pc := 0x0202 } ram
    let word' := onRam { pc := 0x0302, psw := { negative := true } } word.next.ram
    (m.instruction.operation = .store .a true ∧ m'.instruction.operation = .load .a ∧
      m.operands.address = 0x0405 ∧ m.Reaches m') ∧
    m'.next.processor.registers.a = 0x80 ∧
    m'.next.processor.registers.psw = { negative := true, carry := true } ∧
    (word.instruction.operation = .storeWord ∧ word'.instruction.operation = .loadWord ∧
      word.directCell = 0x00FF ∧ word.directCellAbove = 0x0000 ∧ word.Reaches word') ∧
    word'.next.processor.registers.ya = 0x1234 ∧ word'.next.processor.registers.psw = {} := by
  intro ram m m' word word'
  have hoperations : m.instruction.operation = .store .a true ∧
      m'.instruction.operation = .load .a := by decide +kernel
  have hwordOperations : word.instruction.operation = .storeWord ∧
      word'.instruction.operation = .loadWord := by decide +kernel
  have haddress : m.operands.address = 0x0405 := by decide +kernel
  have hcells : word.directCell = 0x00FF ∧ word.directCellAbove = 0x0000 := by decide +kernel
  have hpointer : m.instruction.mode.pointerCells (m.processor.registers.advance 1)
      (m.ram.operandBytes m.processor.registers.pc) = [0x0010, 0x0011] := by decide +kernel
  have hwordPointer : word.instruction.mode.pointerCells (word.processor.registers.advance 1)
      (word.ram.operandBytes word.processor.registers.pc) = [] := by decide +kernel
  have hkept : [(0x0010 : Word), 0x0011].map m.next.ram.read =
      [(0x0010 : Word), 0x0011].map m.ram.read := by decide +kernel
  have hreaches : m.Reaches m' := by
    refine .of_cells (ram_onRam _ _) hpointer hkept ?_
    decide +kernel
  have hwordReaches : word.Reaches word' := by
    refine .of_cells (ram_onRam _ _) hwordPointer (by simp) ?_
    decide +kernel
  have hvalue : word.processor.registers.ya = 0x1234 := by decide +kernel
  have hdescribed : m'.processor.registers.psw.describe m.processor.registers.a =
      { negative := true, carry := true } := by decide +kernel
  have hwordDescribed : word'.processor.registers.psw.describe word.processor.registers.ya = {} := by
    decide +kernel
  obtain ⟨-, -, hbyte, hwhole⟩ := reload
  obtain ⟨-, -, ha, hpsw, -⟩ := hbyte hoperations.1 hoperations.2 hreaches
  obtain ⟨-, -, hya, hwordPsw, -⟩ := hwhole hwordOperations.1 hwordOperations.2 hwordReaches
  exact ⟨⟨hoperations.1, hoperations.2, haddress, hreaches⟩, ha, hpsw.trans hdescribed,
    ⟨hwordOperations.1, hwordOperations.2, hcells.1, hcells.2, hwordReaches⟩, hya.trans hvalue,
    hwordPsw.trans hwordDescribed⟩

end Machine

end Spc700
