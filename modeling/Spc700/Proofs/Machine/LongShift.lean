import Spc700.Proofs.Alu.Turn
import Spc700.Proofs.Machine.MemoryForms

/-!
# Shifts and rotations of many bytes

Bytes are rotated one after the other, each finding the carry that the one before it leaves. What
comes out is the double or the half of the whole number, and the last carry is the bit that the
number has lost (`Turn.Yields`). A row that begins with a shift does the same with a clear carry. A
row to one side and one back restore every byte and the carry. This holds in the accumulator on any
host, and of cells of flat memory. `Machine.long_shift` says so of both.
-/

namespace Spc700

variable {σ : Type}

/-- A shift of the accumulator has no operand. -/
theorem decode_mode_of_shiftAccumulator (f : Shift) : ∀ opcode : Byte,
    (decode opcode).operation = .shiftAccumulator f → (decode opcode).mode = .implied := by
  cases f <;> decide +kernel

/-! ## Steps that write a cell each -/

/-- **One cell after the other.** Steps that write a cell each, all of them different, find their
cells as they are at the start and leave them as they are in the end. -/
theorem Relay.read_cell {ι : Type} {finds leaves : ι → Ram} {cell : ι → Word} {is : List ι}
    {ram ram' : Ram} (h : Relay finds leaves ram is ram')
    (hframe : ∀ i ∈ is, ∀ address, address ≠ cell i →
      (leaves i).read address = (finds i).read address)
    (hcells : (is.map cell).Nodup) :
    (∀ i ∈ is, (finds i).read (cell i) = ram.read (cell i) ∧
      (leaves i).read (cell i) = ram'.read (cell i)) ∧
    ∀ address, address ∉ is.map cell → ram'.read address = ram.read address := by
  induction h with
  | nil ram => exact ⟨fun i hi => absurd hi List.not_mem_nil, fun _ _ => rfl⟩
  | @cons i is ram' hrest ih =>
    rw [List.forall_mem_cons] at hframe
    rw [List.map_cons, List.nodup_cons] at hcells
    obtain ⟨hfirst, hlater⟩ := hframe
    obtain ⟨hcell, hcells⟩ := hcells
    obtain ⟨hsteps, hkept⟩ := ih hlater hcells
    constructor
    · rw [List.forall_mem_cons]
      -- No later step writes the first cell, and the first step writes none of the later ones.
      refine ⟨⟨rfl, (hkept _ hcell).symm⟩, fun j hj => ?_⟩
      have hne : cell j ≠ cell i := by
        intro heq
        exact hcell (heq ▸ List.mem_map_of_mem hj)
      rw [← hfirst _ hne]
      exact hsteps j hj
    · intro address hmem
      rw [List.map_cons, List.mem_cons, not_or] at hmem
      rw [hkept address hmem.2, hfirst address hmem.1]

namespace Machine

/-! ## In the accumulator -/

/-- The machines shift or rotate the accumulator, one after the other, each finding the carry that
the one before it leaves. Nothing else is handed on. -/
structure AccumulatorRow (bus : Bus σ) (t : Turn) (clears carry : Bool) (ms : List (Machine σ))
    (out : Bool) : Prop where
  row : t.Row clears (fun m f => m.Faces bus (.shiftAccumulator f)) ms
  relay : Relay (fun m => m.processor.registers.psw.carry)
    (fun m => (m.nextOn bus).processor.registers.psw.carry) carry ms out

section

variable {bus : Bus σ} {t : Turn} {clears carry mid out : Bool} {ms ms' : List (Machine σ)}

/-- **A shift of the accumulator.** -/
theorem nextOn_shiftAccumulator {m : Machine σ} {f : Shift}
    (hm : m.Faces bus (.shiftAccumulator f)) :
    (m.execute bus).1 = .ok () ∧
      ((m.nextOn bus).processor.registers.a, (m.nextOn bus).processor.registers.psw) =
        f.apply m.processor.registers.a m.processor.registers.psw := by
  obtain ⟨hok, hregisters⟩ := nextOn_of_implied hm (decode_mode_of_shiftAccumulator f) rfl
  rw [hregisters]
  exact ⟨hok, rfl⟩

theorem moves_accumulator {m : Machine σ}
    (hm : m.Faces bus (.shiftAccumulator (t.first clears))) :
    t.Moves (!clears && m.processor.registers.psw.carry) [m.processor.registers.a]
      [(m.nextOn bus).processor.registers.a] (m.nextOn bus).processor.registers.psw.carry := by
  have happly := (nextOn_shiftAccumulator hm).2
  rw [Prod.ext_iff] at happly
  have hmoves := t.moves_apply clears m.processor.registers.a m.processor.registers.psw
  rwa [← happly.1, ← happly.2] at hmoves

theorem AccumulatorRow.ok (h : AccumulatorRow bus t clears carry ms out) :
    ∀ m ∈ ms, (m.execute bus).1 = .ok () := by
  intro m hm
  obtain ⟨clears, hfaces⟩ := h.row.exists_first m hm
  exact (nextOn_shiftAccumulator hfaces).1

theorem AccumulatorRow.yields (h : AccumulatorRow bus t clears carry ms out) :
    t.Yields (!clears && carry) (t.order (ms.map fun m => m.processor.registers.a))
      (t.order (ms.map fun m => (m.nextOn bus).processor.registers.a)) out :=
  h.row.yields h.relay fun _ _ _ hfaces => moves_accumulator hfaces

theorem AccumulatorRow.moves (h : AccumulatorRow bus t false carry ms out) :
    t.Moves carry (t.order (ms.map fun m => m.processor.registers.a))
      (t.order (ms.map fun m => (m.nextOn bus).processor.registers.a)) out :=
  h.row.moves h.relay fun _ _ _ hfaces => moves_accumulator hfaces

/-- **There and back** in the accumulator. -/
theorem AccumulatorRow.restores (h : AccumulatorRow bus t false carry ms mid)
    (h' : AccumulatorRow bus t.opposite false mid ms' out)
    (hbytes : ms'.map (fun m => m.processor.registers.a) =
      (ms.map fun m => (m.nextOn bus).processor.registers.a).reverse) :
    ms'.map (fun m => (m.nextOn bus).processor.registers.a) =
      (ms.map fun m => m.processor.registers.a).reverse ∧ out = carry := by
  have hback := h'.moves
  rw [hbytes, t.order_reverse_opposite] at hback
  obtain ⟨hrestored, hcarry⟩ := h.moves.restores hback
  refine ⟨t.opposite.order_injective ?_, hcarry⟩
  rw [hrestored, t.order_reverse_opposite]

end

/-! ## In memory -/

/-- The cells that the machines work on. -/
def cells (ms : List (Machine (Recorded Ram))) : List Word := ms.map fun m => m.operands.address

/-- The machines shift or rotate different cells, one after the other, each finding the carry and
the memory that the one before it leaves. -/
structure CellRow (t : Turn) (clears carry : Bool) (ram : Ram) (ms : List (Machine (Recorded Ram)))
    (out : Bool) (ram' : Ram) : Prop where
  row : t.Row clears (fun m f => m.instruction.operation = .shift f) ms
  relay : Relay (fun m => (m.processor.registers.psw.carry, m.ram))
    (fun m => (m.next.processor.registers.psw.carry, m.next.ram)) (carry, ram) ms (out, ram')
  nodup : (cells ms).Nodup

section

variable {t : Turn} {clears carry mid out : Bool} {ram ram' ram'' : Ram}
  {ms ms' : List (Machine (Recorded Ram))}

theorem moves_cell {m : Machine (Recorded Ram)}
    (hm : m.instruction.operation = .shift (t.first clears)) :
    t.Moves (!clears && m.processor.registers.psw.carry) [m.ram.read m.operands.address]
      [m.next.ram.read m.operands.address] m.next.processor.registers.psw.carry := by
  have halters := alters_unary_memory (g := .shift (t.first clears)) hm
  have hmoves := t.moves_apply clears (m.ram.read m.operands.address) m.passed.psw
  rw [halters.read_cell, halters.psw_eq, ← m.passed_psw]
  exact hmoves

/-- **Each step finds its cell** as memory has it at the start, and memory has it in the end as the
step leaves it. -/
theorem CellRow.read_cell (h : CellRow t clears carry ram ms out ram') :
    (∀ m ∈ ms, m.ram.read m.operands.address = ram.read m.operands.address ∧
      m.next.ram.read m.operands.address = ram'.read m.operands.address) ∧
    ∀ address, address ∉ cells ms → ram'.read address = ram.read address := by
  refine (h.relay.map Prod.snd).read_cell (fun m hm address hne => ?_) h.nodup
  obtain ⟨clears, hoperation⟩ := h.row.exists_first m hm
  exact (alters_unary_memory (g := .shift (t.first clears)) hoperation).read_of_ne hne

theorem CellRow.moves_cell (h : CellRow t clears carry ram ms out ram')
    {m : Machine (Recorded Ram)} (hm : m ∈ ms) {clears : Bool}
    (hoperation : m.instruction.operation = .shift (t.first clears)) :
    t.Moves (!clears && m.processor.registers.psw.carry) [ram.read m.operands.address]
      [ram'.read m.operands.address] m.next.processor.registers.psw.carry := by
  obtain ⟨hfound, hleft⟩ := h.read_cell.1 m hm
  have hmoves := Machine.moves_cell hoperation
  rwa [hfound, hleft] at hmoves

theorem CellRow.yields (h : CellRow t clears carry ram ms out ram') :
    t.Yields (!clears && carry) (t.order ((cells ms).map ram.read))
      (t.order ((cells ms).map ram'.read)) out := by
  rw [cells, List.map_map, List.map_map]
  exact h.row.yields (h.relay.map Prod.fst) fun _ hm _ hoperation => h.moves_cell hm hoperation

theorem CellRow.moves (h : CellRow t false carry ram ms out ram') :
    t.Moves carry (t.order ((cells ms).map ram.read)) (t.order ((cells ms).map ram'.read)) out := by
  rw [cells, List.map_map, List.map_map]
  exact h.row.moves (h.relay.map Prod.fst) fun _ hm _ hoperation => h.moves_cell hm hoperation

/-- **There and back** in memory, all of which is restored. -/
theorem CellRow.restores (h : CellRow t false carry ram ms mid ram')
    (h' : CellRow t.opposite false mid ram' ms' out ram'')
    (hcells : cells ms' = (cells ms).reverse) :
    (∀ address, ram''.read address = ram.read address) ∧ out = carry := by
  have hback := h'.moves
  rw [hcells, List.map_reverse, List.map_reverse, t.order_reverse_opposite,
    t.order_reverse_opposite] at hback
  obtain ⟨hrestored, hcarry⟩ := h.moves.restores hback
  refine ⟨fun address => ?_, hcarry⟩
  by_cases hmem : address ∈ cells ms
  · exact List.map_inj_left.mp (t.order_injective hrestored) address hmem
  · have hmem' : address ∉ cells ms' := by rwa [hcells, List.mem_reverse]
    rw [h'.read_cell.2 address hmem', h.read_cell.2 address hmem]

/-- A row of two rotations on flat memory, which find nothing in the registers but the carry. -/
theorem cellRow_pair (pc pc' : Word) (carry : Bool) (ram : Ram) {cell cell' : Word} :
    let m := onRam { pc, psw := { carry } } ram
    let m' := onRam { pc := pc', psw := { carry := m.next.processor.registers.psw.carry } }
      m.next.ram
    m.instruction.operation = .shift t.rotation → m'.instruction.operation = .shift t.rotation →
      cells [m, m'] = [cell, cell'] → cell ≠ cell' →
      CellRow t false carry ram [m, m'] m'.next.processor.registers.psw.carry m'.next.ram := by
  intro m m' h h' hcells hne
  constructor
  case row => exact ⟨h, List.forall_mem_singleton.mpr h'⟩
  case relay =>
    -- What the first leaves is long to work out, and here it does not matter what it is.
    have hsecond : ∀ next : Machine (Recorded Ram),
        let m' := onRam { pc := pc', psw := { carry := next.processor.registers.psw.carry } }
          next.ram
        Relay (fun m => (m.processor.registers.psw.carry, m.ram))
          (fun m => (m.next.processor.registers.psw.carry, m.next.ram))
          (next.processor.registers.psw.carry, next.ram) [m']
          (m'.next.processor.registers.psw.carry, m'.next.ram) := by
      intro next m'
      exact .cons m' (.nil _)
    exact .cons m (hsecond m.next)
  case nodup =>
    rw [hcells]
    exact List.nodup_cons.mpr ⟨by simpa using hne, List.nodup_singleton cell'⟩

end

/-! ## Both forms -/

/-- **Shifts and rotations of any length.** A row of rotations can be one to the left, which begins
with the least significant byte, or one to the right, which begins with the most significant.

* In the accumulator, on any bus, the bytes that a row leaves are those of the number with one bit
  moved in and one moved out. The bit moved in is the carry at the start, or zero if the row
  begins with a shift. The bit moved out is the carry in the end.
* A row to one side and a row back, with the bytes that the first has left, restore the bytes and
  the carry.
* The same holds from cell to cell on flat memory, all of which is restored by a row back.
* What a row yields is settled by the bytes and the bit moved in. So a row that begins with a shift
  does what a row of rotations does with a clear carry. -/
theorem long_shift :
    (∀ {bus : Bus σ} {t : Turn} {clears carry out : Bool} {ms : List (Machine σ)},
      AccumulatorRow bus t clears carry ms out →
      (∀ m ∈ ms, (m.execute bus).1 = .ok ()) ∧
      t.Yields (!clears && carry) (t.order (ms.map fun m => m.processor.registers.a))
        (t.order (ms.map fun m => (m.nextOn bus).processor.registers.a)) out) ∧
    (∀ {bus : Bus σ} {t : Turn} {carry mid out : Bool} {ms ms' : List (Machine σ)},
      AccumulatorRow bus t false carry ms mid → AccumulatorRow bus t.opposite false mid ms' out →
      ms'.map (fun m => m.processor.registers.a) =
        (ms.map fun m => (m.nextOn bus).processor.registers.a).reverse →
      ms'.map (fun m => (m.nextOn bus).processor.registers.a) =
        (ms.map fun m => m.processor.registers.a).reverse ∧ out = carry) ∧
    (∀ {t : Turn} {clears carry out : Bool} {ram ram' : Ram} {ms : List (Machine (Recorded Ram))},
      CellRow t clears carry ram ms out ram' →
      (∀ m ∈ ms, (m.execute Ram.bus.recorded).1 = .ok ()) ∧
      t.Yields (!clears && carry) (t.order ((cells ms).map ram.read))
        (t.order ((cells ms).map ram'.read)) out ∧
      ∀ address, address ∉ cells ms → ram'.read address = ram.read address) ∧
    (∀ {t : Turn} {carry mid out : Bool} {ram ram' ram'' : Ram}
        {ms ms' : List (Machine (Recorded Ram))},
      CellRow t false carry ram ms mid ram' → CellRow t.opposite false mid ram' ms' out ram'' →
      cells ms' = (cells ms).reverse →
      (∀ address, ram''.read address = ram.read address) ∧ out = carry) ∧
    ∀ {t : Turn} {taken out out' : Bool} {xs rs rs' : List Byte}, xs ≠ [] →
      t.Yields taken xs rs out → t.Yields taken xs rs' out' → rs = rs' ∧ out = out' :=
  ⟨fun h => ⟨h.ok, h.yields⟩, fun h h' => h.restores h',
    fun h => ⟨fun m _ => m.execute_ram, h.yields, h.read_cell.2⟩, fun h h' => h.restores h',
    fun hne h h' => h.unique h' hne⟩

/-- The number `0x7F80` shifted to the left in the accumulator, rotated there and back again, and
rotated there and back in the last and the first cell of the direct page. -/
theorem long_shift_of_ram :
    let shifts := [onTape { a := 0x80, psw := { carry := true } } [0x1C],
      onTape { a := 0x7F, psw := { carry := true } } [0x3C]]
    let rotations := [onTape { a := 0x80 } [0x3C],
      onTape { a := 0x7F, psw := { carry := true } } [0x3C]]
    let back := [onTape { a := 0xFF } [0x7C], onTape { a := 0x00, psw := { carry := true } } [0x7C]]
    let ram := ((Ram.zero.load 0x0200 [0x2B, 0xFF, 0x2B, 0x00, 0x6B, 0x00, 0x6B, 0xFF]).write
      0x00FF 0x80).write 0x0000 0x7F
    let start := fun pc carry ram => onRam { pc, psw := { carry } } ram
    let low := start 0x0200 true ram
    let high := start 0x0202 low.next.processor.registers.psw.carry low.next.ram
    let high' := start 0x0204 high.next.processor.registers.psw.carry high.next.ram
    let low' := start 0x0206 high'.next.processor.registers.psw.carry high'.next.ram
    AccumulatorRow tapeBus.recorded .left true true shifts false ∧
    Turn.left.Yields false [0x80, 0x7F] [0x00, 0xFF] false ∧
    AccumulatorRow tapeBus.recorded .left false false rotations false ∧
    (shifts.map fun m => (m.nextOn tapeBus.recorded).processor.registers.a) =
      (rotations.map fun m => (m.nextOn tapeBus.recorded).processor.registers.a) ∧
    AccumulatorRow tapeBus.recorded .right false false back false ∧
    back.map (fun m => (m.nextOn tapeBus.recorded).processor.registers.a) = [0x7F, 0x80] ∧
    CellRow .left false true ram [low, high] high.next.processor.registers.psw.carry
      high.next.ram ∧
    Turn.left.Yields true [0x80, 0x7F] [high.next.ram.read 0x00FF, high.next.ram.read 0x0000]
      high.next.processor.registers.psw.carry ∧
    CellRow .right false high.next.processor.registers.psw.carry high.next.ram [high', low']
      low'.next.processor.registers.psw.carry low'.next.ram ∧
    (∀ address, low'.next.ram.read address = ram.read address) ∧
    low'.next.processor.registers.psw.carry = true := by
  intro shifts rotations back ram start low high high' low'
  have hshifts : AccumulatorRow tapeBus.recorded .left true true shifts false := by
    refine ⟨⟨⟨0x1C, _, rfl, rfl⟩, List.forall_mem_singleton.mpr ⟨0x3C, _, rfl, rfl⟩⟩, ?_⟩
    exact .cons (onTape { a := 0x80, psw := { carry := true } } [0x1C])
      (.cons (onTape { a := 0x7F, psw := { carry := true } } [0x3C]) (.nil false))
  have hrotations : AccumulatorRow tapeBus.recorded .left false false rotations false := by
    refine ⟨⟨⟨0x3C, _, rfl, rfl⟩, List.forall_mem_singleton.mpr ⟨0x3C, _, rfl, rfl⟩⟩, ?_⟩
    exact .cons (onTape { a := 0x80 } [0x3C])
      (.cons (onTape { a := 0x7F, psw := { carry := true } } [0x3C]) (.nil false))
  have hback : AccumulatorRow tapeBus.recorded .right false false back false := by
    refine ⟨⟨⟨0x7C, _, rfl, rfl⟩, List.forall_mem_singleton.mpr ⟨0x7C, _, rfl, rfl⟩⟩, ?_⟩
    exact .cons (onTape { a := 0xFF } [0x7C])
      (.cons (onTape { a := 0x00, psw := { carry := true } } [0x7C]) (.nil false))
  have hrotatesLeft : low.instruction.operation = .shift .rol ∧
      high.instruction.operation = .shift .rol := by decide +kernel
  have hrotatesRight : high'.instruction.operation = .shift .ror ∧
      low'.instruction.operation = .shift .ror := by decide +kernel
  have hleftCells : cells [low, high] = [0x00FF, 0x0000] := by decide +kernel
  have hrightCells : cells [high', low'] = [0x0000, 0x00FF] := by decide +kernel
  have hbytes : [ram.read 0x00FF, ram.read 0x0000] = [0x80, 0x7F] := by decide +kernel
  have hleft : CellRow .left false true ram [low, high]
      high.next.processor.registers.psw.carry high.next.ram :=
    cellRow_pair 0x0200 0x0202 true ram hrotatesLeft.1 hrotatesLeft.2 hleftCells (by decide)
  have hright : CellRow .right false high.next.processor.registers.psw.carry high.next.ram
      [high', low'] low'.next.processor.registers.psw.carry low'.next.ram :=
    cellRow_pair 0x0204 0x0206 _ high.next.ram hrotatesRight.1 hrotatesRight.2 hrightCells (by decide)
  obtain ⟨haccumulator, hrestores, hmemory, hmemoryRestores, hunique⟩ :=
    @long_shift (Recorded (List Byte))
  have hshifted := (haccumulator hshifts).2
  have hrotated := (haccumulator hrotations).2
  have hmoved := (hmemory hleft).2.1
  rw [hleftCells, List.map_cons, List.map_singleton, hbytes] at hmoved
  obtain ⟨hram, hcarry⟩ := hmemoryRestores hleft hright (by rw [hleftCells, hrightCells]; rfl)
  exact ⟨hshifts, hshifted, hrotations, (hunique (List.cons_ne_nil _ _) hshifted hrotated).1,
    hback, (hrestores hrotations hback rfl).1, hleft, hmoved, hright, hram, hcarry⟩

end Machine

end Spc700
