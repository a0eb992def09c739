import Mathlib.Data.List.Forall2
import Spc700.Proofs.Machine.Sequence
import Spc700.Proofs.Machine.Stack
import Spc700.Proofs.Microprogram.Pages

/-!
# Where things go over the bus

Every access of an instruction lies where its addressing mode, the stack or a vector says, and
wraps at the end of what it lies in: cells of the direct page and pointers held there in the page
that the flag selects when the instruction starts, the stack in the second page whatever the flag
says, vectors in the table near the end of memory, and all else at addresses that wrap at the end
of memory. `Traffic.Confined` says so of the accesses that were made, by the bytes that went over
the bus, and `Machine.execute_confined` says it of every instruction.
-/

namespace Spc700

variable {σ : Type}

namespace Traffic

/-- The operand bytes that were read, without an immediate byte. -/
def operandBytes (t : Traffic) : List Byte := t.operand.filterMap Access.value

/-- The bytes of the pointer that was read. -/
def pointerBytes (t : Traffic) : List Byte := t.pointer.filterMap Access.value

/-- The visits of an operation's plan, each with the access that it came to. -/
def visits (t : Traffic) (operation : Operation) : List (Visit × Access) :=
  operation.plan.zip t.data

/-- The traffic of an instruction lies where it should. `r` are the registers that
the instruction finds, with the program counter on its opcode. -/
structure Confined (t : Traffic) (opcode : Byte) (r : Registers) : Prop where
  /-- the operand bytes are behind the opcode -/
  operand : t.operand.map (fun a => (a.direction, a.address.toNat)) =
    (decode opcode).mode.fetched.map fun i => (.read, (r.pc.toNat + 1 + i) % 0x10000)
  /-- the two bytes of a pointer are beside each other -/
  pointer : t.pointer.map (fun a => (a.direction, a.address.toNat)) =
    ((decode opcode).mode.pointerAddresses r t.operandBytes).map fun address => (.read, address)
  /-- and in the direct page, if the pointer is held there -/
  pointerPage : (decode opcode).mode = .directXPointer ∨ (decode opcode).mode = .directPointerY →
    ∀ a ∈ t.pointer, r.page ≤ a.address.toNat ∧ a.address.toNat ≤ r.page + 0xFF
  /-- every other access is one of the plan -/
  planned : t.data.map Access.direction = (decode opcode).operation.plan.map Visit.direction
  /-- what is no push and no immediate byte is in the direct page, in the modes that work there -/
  directPage : (decode opcode).mode.inDirectPage = true →
    ∀ v a, (v, a) ∈ t.visits (decode opcode).operation →
      (∃ i, v.place = .pushed i) ∨
      ((decode opcode).mode = .directImmediate ∧ v.place = .source ∧
        a.address.toNat = (r.pc.toNat + 1) % 0x10000) ∨
      (∃ offset, (decode opcode).mode.pageOffset r t.operandBytes v.place = some offset ∧
        a.address.toNat = r.page + offset.toNat) ∧
      r.page ≤ a.address.toNat ∧ a.address.toNat ≤ r.page + 0xFF
  /-- in the other modes, what is not on the stack and no vector is the cell worked on -/
  elsewhere : (decode opcode).mode.inDirectPage = false →
    ∀ v a, (v, a) ∈ t.visits (decode opcode).operation →
      (∃ i, v.place = .pushed i ∨ v.place = .popped i) ∨ (∃ address, v.place = .fixed address) ∨
      v.place = .cell ∧
        (decode opcode).mode.cellAddress r t.operandBytes t.pointerBytes = some a.address.toNat
  /-- an address that shares its word with the number of a bit is a low one -/
  absoluteBit : (decode opcode).mode = .absoluteBit → ∀ a ∈ t.data, a.address.toNat < 0x2000
  /-- pushes and pops are in the second page -/
  stack : ∀ v a, (v, a) ∈ t.visits (decode opcode).operation →
    (∃ i, v.place = .pushed i ∨ v.place = .popped i) →
      0x100 ≤ a.address.toNat ∧ a.address.toNat ≤ 0x1FF
  /-- vectors are in their table -/
  vector : ∀ v a, (v, a) ∈ t.visits (decode opcode).operation →
    (∃ address, v.place = .fixed address) →
      0xFFC0 ≤ a.address.toNat ∧ a.address.toNat ≤ 0xFFDF

section

variable {t : Traffic} {opcode : Byte} {r : Registers} {v : Visit} {a : Access}

/-- Reads of cells, with the addresses of the cells as numbers. -/
theorem numbers_of_reads {accesses : List Access} {cells : List Word}
    (h : accesses.map Access.request = cells.map fun address => ⟨.read, address⟩) :
    accesses.map (fun a => (a.direction, a.address.toNat)) =
      (cells.map BitVec.toNat).map fun address => (.read, address) := by
  have hnumbers := congrArg (List.map fun q : Request => (q.direction, q.address.toNat)) h
  rw [List.map_map, List.map_map] at hnumbers
  rw [List.map_map]
  exact hnumbers

/-- An access that belongs to a visit goes where the visit goes. -/
theorem Keeps.address_eq {instruction : Instruction} (h : t.Keeps instruction r)
    (hmem : (v, a) ∈ t.visits instruction.operation) :
    v ∈ instruction.operation.plan ∧
      a.address = v.place.address (t.operands instruction.mode r) r.sp := by
  have hall : List.Forall₂ (fun v a => a.request = v.request (t.operands instruction.mode r) r.sp)
      instruction.operation.plan t.data := by
    have heq := List.forall₂_eq_eq_eq ▸ h.data.symm
    rw [requests, List.forall₂_map_left_iff, List.forall₂_map_right_iff] at heq
    exact heq.imp fun _ _ => Eq.symm
  exact ⟨(List.of_mem_zip hmem).1, congrArg Request.address (List.forall₂_zip hall hmem)⟩

/-- The cells of a mode that works in the direct page depend on the operand bytes only. -/
theorem Keeps.operands_eq (h : t.Keeps (decode opcode) r)
    (hmode : (decode opcode).mode.inDirectPage = true) :
    t.operands (decode opcode).mode r = (decode opcode).mode.operands r t.operandBytes := by
  have hnone : t.pointer.filterMap Access.value = [] := by
    rw [← List.length_eq_zero_iff, h.pointerBytes,
      AddressingMode.pointerCells_of_inDirectPage hmode]
    rfl
  rw [operands, List.filterMap_append, hnone, List.append_nil]
  rfl

/-- **Traffic that keeps to the plan lies where it should.** -/
theorem Keeps.confined (h : t.Keeps (decode opcode) (r.advance 1)) : t.Confined opcode r := by
  have hpointer := numbers_of_reads h.pointer
  rw [AddressingMode.toNat_pointerCells _ r h.operandBytes] at hpointer
  constructor
  case operand =>
    have hcells : t.operand.map Access.request =
        ((decode opcode).mode.fetched.map fun i => (r.advance 1).pc + BitVec.ofNat 16 i).map
          fun address => ⟨.read, address⟩ :=
      h.operand.trans List.map_map.symm
    rw [numbers_of_reads hcells, List.map_map, List.map_map]
    refine List.map_congr_left fun i _ => ?_
    show (Direction.read, ((r.advance 1).advance i).pc.toNat) = _
    rw [Registers.toNat_advance_pc, Registers.toNat_advance_pc, Nat.mod_add_mod]
  case pointer => exact hpointer
  case pointerPage =>
    intro hmode a ha
    have hmem := List.mem_map_of_mem (f := fun a : Access => (a.direction, a.address.toNat)) ha
    rw [hpointer] at hmem
    obtain ⟨address, haddress, heq⟩ := List.mem_map.mp hmem
    obtain rfl : address = a.address.toNat := congrArg Prod.snd heq
    exact AddressingMode.mem_page_of_pointer hmode h.operandBytes haddress
  case planned =>
    have hrequests := congrArg (List.map Request.direction) h.data
    rw [requests, List.map_map, List.map_map] at hrequests
    exact hrequests
  case directPage =>
    intro hmode v a hmem
    obtain ⟨hplan, haddress⟩ := h.address_eq hmem
    rw [h.operands_eq hmode] at haddress
    rcases AddressingMode.address_of_inDirectPage hmode (decode_plan_fills opcode v hplan) r
      h.operandBytes with hpushed | ⟨himmediate, hsource⟩ | ⟨offset, hoffset, hcell⟩
    · exact .inl hpushed
    · refine .inr (.inl ⟨himmediate, hsource, ?_⟩)
      have hlength := h.operandBytes
      rw [himmediate] at hlength
      rw [haddress, hsource, himmediate, ← Registers.toNat_advance_pc]
      exact congrArg BitVec.toNat (AddressingMode.source_of_directImmediate _ hlength)
    · have hnat : a.address.toNat = r.page + offset.toNat := by
        rw [← Registers.toNat_directAddress, ← hcell]
        exact congrArg BitVec.toNat haddress
      have hlt := offset.isLt
      exact .inr (.inr ⟨⟨offset, hoffset, hnat⟩, by omega, by omega⟩)
  case elsewhere =>
    intro hmode v a hmem
    obtain ⟨hplan, haddress⟩ := h.address_eq hmem
    have hfills := decode_plan_fills opcode v hplan
    rcases AddressingMode.place_of_fills hmode hfills with hstack | hvector | hcell
    · exact .inl hstack
    · exact .inr (.inl hvector)
    · rw [hcell] at haddress hfills
      refine .inr (.inr ⟨hcell, ?_⟩)
      rw [haddress, operands, List.filterMap_append]
      exact AddressingMode.cellAddress_eq hmode hfills r h.operandBytes h.pointerBytes
  case absoluteBit =>
    intro hmode a ha
    have hrequest : a.request ∈ t.requests := List.mem_map_of_mem ha
    rw [h.data] at hrequest
    obtain ⟨v, hplan, heq⟩ := List.mem_map.mp hrequest
    have hfills := decode_plan_fills opcode v hplan
    have haddress : v.place.address _ _ = a.address := congrArg Request.address heq
    rw [hmode] at hfills haddress
    rw [← haddress, AddressingMode.eq_cell_of_fills hfills]
    exact AddressingMode.absoluteBit_address_lt _ _
  case stack =>
    rintro v a hmem ⟨i, hplace⟩
    obtain ⟨-, haddress⟩ := h.address_eq hmem
    rw [haddress]
    rcases hplace with hplace | hplace
    · rw [hplace]
      exact stackCell_mem_page _
    · rw [hplace]
      exact stackCell_mem_page _
  case vector =>
    rintro v a hmem ⟨address, hplace⟩
    obtain ⟨hplan, haddress⟩ := h.address_eq hmem
    have hfills := decode_plan_fills opcode v hplan
    rw [hplace] at haddress hfills
    obtain ⟨-, hlow, hhigh⟩ := of_decide_eq_true hfills
    rw [haddress]
    exact ⟨hlow, hhigh⟩

end

end Traffic

namespace Machine

/-- **Every access of an instruction is where it should be.** On a bus that refuses nothing, an
instruction adds to the record the read of its opcode at the program counter and then traffic that
is confined. -/
theorem execute_confined {bus : Bus σ} (hbus : bus.GrantsEverything) (m : Machine (Recorded σ)) :
    ∃ (opcode : Byte) (host : σ) (t : Traffic),
      bus.read m.processor.registers.pc m.host.host = (.ok opcode, host) ∧
      (m.execute bus.recorded).1 = .ok () ∧
      (m.execute bus.recorded).2.host.accesses =
        m.host.accesses ++ (m.opening opcode :: t.accesses).toArray ∧
      t.Confined opcode m.processor.registers := by
  obtain ⟨opcode, host₀, es, extra, registers, host₁, hread, hd, hg⟩ :=
    exists_admits_of_grantsEverything hbus m.processor.registers m.host.host
  obtain ⟨forming, acting, rfl, hplanned⟩ := exists_planned hd
  obtain ⟨t, haccesses, hkeeps⟩ := hplanned.exists_traffic
  refine ⟨opcode, host₀, t, hread, ?_⟩
  rw [execute_recorded hread hd hg, haccesses]
  exact ⟨rfl, rfl, hkeeps.confined⟩

/-- A host on which a word is counted down at the last cell of the direct page. -/
def pageEndBus : Bus Unit where
  read address host := (.ok (if address = 0 then 0x1A else 0xFF), host)
  write _ _ host := (.ok (), host)

/-- The high byte of a word whose low byte ends the second page is the first of that page. -/
theorem execute_confined_of_pageEndBus :
    let m : Machine (Recorded Unit) :=
      { processor := { registers := { psw := { directPage := true } } }, host := { host := () } }
    pageEndBus.GrantsEverything ∧
      (m.execute pageEndBus.recorded).2.host.accesses = #[⟨.read, 0, some 0x1A⟩,
        ⟨.read, 1, some 0xFF⟩, ⟨.read, 0x1FF, some 0xFF⟩, ⟨.read, 0x100, some 0xFF⟩,
        ⟨.write, 0x1FF, some 0xFE⟩, ⟨.write, 0x100, some 0xFF⟩] ∧
      ∃ (host : Unit) (t : Traffic),
        pageEndBus.read m.processor.registers.pc m.host.host = (.ok 0x1A, host) ∧
        (m.execute pageEndBus.recorded).1 = .ok () ∧
        (m.execute pageEndBus.recorded).2.host.accesses =
          m.host.accesses ++ (m.opening 0x1A :: t.accesses).toArray ∧
        t.Confined 0x1A m.processor.registers := by
  intro m
  have hbus : pageEndBus.GrantsEverything := ⟨fun _ _ => ⟨_, _, rfl⟩, fun _ _ _ => ⟨_, rfl⟩⟩
  obtain ⟨opcode, host, t, hread, hconfined⟩ := execute_confined hbus m
  obtain rfl : 0x1A = opcode := Except.ok.inj (Prod.mk.inj hread).1
  exact ⟨hbus, by decide, host, t, hread, hconfined⟩

end Machine

end Spc700
