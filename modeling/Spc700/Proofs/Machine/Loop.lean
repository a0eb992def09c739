import Spc700.Proofs.Machine.Completion
import Spc700.Proofs.Machine.Pace

/-!
# Loops of one instruction

An instruction that goes on at its own address is executed again and again. On flat memory each
pass takes the cycles that the instruction has loaded, so a run of cycles is a row of passes
(`Machine.clock_of_passes`), whatever the passes keep.

Two instructions count a byte down and go back as long as it is not zero, one in a cell of the
direct page and one in Y. As a loop of one instruction they are passed as often as the byte says,
and 256 times if it is zero at the start: `Machine.counted_loops`.
-/

namespace Spc700.Machine

/-! ## One pass -/

section

variable {m : Machine (Recorded Ram)}

/-- The machine with its next instruction behind it, and all cycles of it: it is about to fetch
again. -/
def rested (m : Machine (Recorded Ram)) : Machine (Recorded Ram) :=
  m.next.modify fun p => { p with cyclesLeft := 0 }

/-- The next instruction is a step of the run without a clock. -/
theorem next_eq_reached (m : Machine (Recorded Ram)) :
    let g := Ram.bus.filled.recorded
    m.next = m.reached (m.course.step g) (m.course.cost g) :=
  congrArg Prod.snd (execute_reached (g := Ram.bus.filled.recorded) (m := m) (c := m.course)
    m.processor.cyclesLeft)

/-- What an instruction leaves of the processor, beside the registers and the count. -/
theorem next_processor (m : Machine (Recorded Ram)) :
    m.next.processor.halted = m.processor.halted ∧ m.next.processor.policy = m.processor.policy ∧
      m.next.processor.log = m.processor.log.push
        (.began m.processor.registers.pc m.opcode (m.processor.registers.advance 1)) := by
  rw [next_eq_reached]
  exact ⟨rfl, rfl, rfl⟩

theorem Ready.rested (hready : m.Ready) : m.rested.Ready :=
  ⟨m.next_processor.1.trans hready.1, rfl⟩

/-- Cycles within the next instruction. -/
theorem clock_within_next (hready : m.Ready) {n : Nat} (hpos : 0 < n)
    (hle : n ≤ m.next.processor.cyclesLeft) :
    m.clock Ram.bus.recorded n = (.ok (),
      m.next.modify fun p => { p with cyclesLeft := m.next.processor.cyclesLeft - n }) := by
  rw [next_eq_reached] at hle ⊢
  have hclock := clock_within (g := Ram.bus.filled.recorded) (c := m.course) hready.1 n hpos hle
  rwa [reached_course hready] at hclock

/-- All cycles of the next instruction. -/
theorem clock_next (hready : m.Ready) :
    m.clock Ram.bus.recorded m.next.processor.cyclesLeft = (.ok (), m.rested) := by
  have hpos : 0 < m.next.processor.cyclesLeft := by
    rw [next_eq_reached]
    exact m.course.cost_pos _
  rw [clock_within_next hready hpos (Nat.le_refl _), Nat.sub_self]
  rfl

/-- **A run of passes.** If every pass takes the same number of cycles, and what holds of the
machine before it holds of the machine after it with one more on the count of passes, then so many
passes are a run of that many times the cycles. -/
theorem clock_of_passes {I : Nat → Machine (Recorded Ram) → Prop} {cycles : Nat} (hstart : I 0 m)
    (times : Nat)
    (hpass : ∀ k < times, ∀ m', I k m' →
      m'.Ready ∧ m'.next.processor.cyclesLeft = cycles ∧ I (k + 1) m'.rested) :
    ∃ m', m.clock Ram.bus.recorded (cycles * times) = (.ok (), m') ∧ I times m' := by
  induction times with
  | zero => exact ⟨m, rfl, hstart⟩
  | succ times ih =>
    obtain ⟨m', hclock, hm'⟩ := ih fun k hk => hpass k (by omega)
    obtain ⟨hready, hcycles, hnext⟩ := hpass times (by omega) m' hm'
    refine ⟨m'.rested, ?_, hnext⟩
    have hlast := clock_next hready
    rw [hcycles] at hlast
    rw [Nat.mul_succ, clock_add, hclock]
    exact hlast

end

/-! ## Loops -/

/-- The machine `m` has become `m'` by so many passes through the instruction at its program
counter, and is about to fetch again with these registers and these bytes in memory. -/
structure Repeats (m : Machine (Recorded Ram)) (times : Nat) (registers : Registers)
    (cells : Word → Byte) (m' : Machine (Recorded Ram)) : Prop where
  ready : m'.Ready
  policy : m'.processor.policy = m.processor.policy
  registers : m'.processor.registers = registers
  cells : ∀ address, m'.ram.read address = cells address
  /-- the instruction has begun so many times, and no other has -/
  log : ∃ events : Array Event, m'.processor.log = m.processor.log ++ events ∧
    events.size = times ∧
    ∀ event ∈ events, ∃ r, event = .began m.processor.registers.pc m.opcode r

section

variable {m m' : Machine (Recorded Ram)} {times : Nat} {registers registers' : Registers}
  {cells cells' : Word → Byte}

theorem Repeats.opcode_eq (h : m.Repeats times registers cells m')
    (hpc : registers.pc = m.processor.registers.pc)
    (hopcode : cells m.processor.registers.pc = m.opcode) : m'.opcode = m.opcode := by
  rw [opcode, h.registers, hpc, h.cells, hopcode]

/-- One more pass. -/
theorem Repeats.rested (h : m.Repeats times registers cells m')
    (hpc : registers.pc = m.processor.registers.pc)
    (hopcode : cells m.processor.registers.pc = m.opcode)
    {extra : Nat} {ram' : Ram} (hcompletes : m'.Completes extra registers' ram')
    (hcells : ∀ address, ram'.read address = cells' address) :
    m.Repeats (times + 1) registers' cells' m'.rested where
  ready := h.ready.rested
  policy := m'.next_processor.2.1.trans h.policy
  registers := hcompletes.registers
  cells address := by
    rw [← hcells, ← hcompletes.ram]
    rfl
  log := by
    obtain ⟨events, hlog, hsize, hevents⟩ := h.log
    refine ⟨events.push (.began m.processor.registers.pc m.opcode
      (m'.processor.registers.advance 1)), ?_, ?_, ?_⟩
    · have hpush : m'.rested.processor.log = _ := m'.next_processor.2.2
      rw [hpush, h.opcode_eq hpc hopcode, h.registers, hpc, hlog, Array.append_push]
    · rw [Array.size_push, hsize]
    · rintro event hevent
      rcases Array.mem_push.mp hevent with hold | rfl
      · exact hevents event hold
      · exact ⟨_, rfl⟩

end

/-! ## Counting down -/

/-- How often a loop is passed that counts a byte down to zero. Zero stands for 256. -/
def passes (start : Byte) : Nat := if start = 0 then 256 else start.toNat

theorem passes_pos (start : Byte) : 0 < passes start := by
  unfold passes
  split
  · decide
  · bv_omega

/-- The byte is zero behind the last pass and not before it. -/
theorem sub_ofNat_eq_zero_iff {start : Byte} {k : Nat} (h : k < passes start) :
    start - BitVec.ofNat 8 (k + 1) = 0 ↔ k + 1 = passes start := by
  by_cases hstart : start = 0
  · rw [passes, if_pos hstart] at h ⊢
    bv_omega
  · rw [passes, if_neg hstart] at h ⊢
    bv_omega

theorem sub_passes (start : Byte) : start - BitVec.ofNat 8 (passes start) = 0 := by
  unfold passes
  split
  next hstart => rw [hstart]; rfl
  next => bv_omega

/-- The instruction at the program counter of `m` counts a byte down from `start` and goes back to
itself as long as the byte is not zero, and on to `behind` when it is. After `k` passes it leaves
`registers k`, but for the program counter, and memory as `cells k`. -/
structure CountsDown (m : Machine (Recorded Ram)) (start : Byte) (registers : Nat → Registers)
    (cells : Nat → Word → Byte) (behind : Word) : Prop where
  ready : m.Ready
  registers_zero : registers 0 = m.processor.registers
  cells_zero : cells 0 = m.ram.read
  pc : ∀ k, (registers k).pc = m.processor.registers.pc
  opcode : ∀ k, cells k m.processor.registers.pc = m.opcode
  /-- what one pass does, and that it takes two cycles more if it goes back -/
  pass : ∀ k m', m.Repeats k (registers k) (cells k) m' →
    ∃ ram', m'.Completes (if start - BitVec.ofNat 8 (k + 1) ≠ 0 then 2 else 0)
        { registers (k + 1) with
          pc := if start - BitVec.ofNat 8 (k + 1) ≠ 0 then m.processor.registers.pc
            else behind } ram' ∧
      ∀ address, ram'.read address = cells (k + 1) address

section

variable {m m' : Machine (Recorded Ram)} {start : Byte} {registers : Nat → Registers}
  {cells : Nat → Word → Byte} {behind : Word} {k : Nat}

/-- A pass that is not the last goes back. -/
theorem CountsDown.goes_back (h : m.CountsDown start registers cells behind)
    (hk : k + 1 < passes start) (hm' : m.Repeats k (registers k) (cells k) m') :
    m'.next.processor.cyclesLeft = m.instruction.cycles + 2 ∧
      m.Repeats (k + 1) (registers (k + 1)) (cells (k + 1)) m'.rested := by
  obtain ⟨ram', hcompletes, hcells⟩ := h.pass k m' hm'
  have hagain : start - BitVec.ofNat 8 (k + 1) ≠ 0 := by
    rw [Ne, sub_ofNat_eq_zero_iff (by omega)]
    omega
  have hinstruction : m'.instruction = m.instruction :=
    congrArg decode (hm'.opcode_eq (h.pc k) (h.opcode k))
  have hregisters : { registers (k + 1) with pc := m.processor.registers.pc } =
      registers (k + 1) := by rw [← h.pc (k + 1)]
  rw [if_pos hagain, if_pos hagain, hregisters] at hcompletes
  refine ⟨?_, hm'.rested (h.pc k) (h.opcode k) hcompletes hcells⟩
  rw [hcompletes.cyclesLeft, hinstruction]

/-- The last pass goes on. -/
theorem CountsDown.goes_on (h : m.CountsDown start registers cells behind)
    (hk : k + 1 = passes start) (hm' : m.Repeats k (registers k) (cells k) m') :
    m'.next.processor.cyclesLeft = m.instruction.cycles ∧
      m.Repeats (k + 1) { registers (k + 1) with pc := behind } (cells (k + 1)) m'.rested := by
  obtain ⟨ram', hcompletes, hcells⟩ := h.pass k m' hm'
  have hlast : ¬ start - BitVec.ofNat 8 (k + 1) ≠ 0 := by
    rw [Decidable.not_not, sub_ofNat_eq_zero_iff (by omega)]
    exact hk
  have hinstruction : m'.instruction = m.instruction :=
    congrArg decode (hm'.opcode_eq (h.pc k) (h.opcode k))
  rw [if_neg hlast, if_neg hlast] at hcompletes
  refine ⟨?_, hm'.rested (h.pc k) (h.opcode k) hcompletes hcells⟩
  rw [hcompletes.cyclesLeft, hinstruction, Nat.add_zero]

/-- **A loop that counts a byte down** is passed as often as the byte says. All passes but the last
take two cycles more than the instruction's base count. -/
theorem CountsDown.clock (h : m.CountsDown start registers cells behind) :
    (∀ k < passes start, ∃ m',
      m.clock Ram.bus.recorded ((m.instruction.cycles + 2) * k) = (.ok (), m') ∧
      m.Repeats k (registers k) (cells k) m') ∧
    ∃ m', m.clock Ram.bus.recorded
        ((m.instruction.cycles + 2) * (passes start - 1) + m.instruction.cycles) = (.ok (), m') ∧
      m.Repeats (passes start) { registers (passes start) with pc := behind }
        (cells (passes start)) m' := by
  have hstart : m.Repeats 0 (registers 0) (cells 0) m := by
    refine ⟨h.ready, rfl, h.registers_zero.symm, fun address => ?_, #[], rfl, rfl, ?_⟩
    · rw [h.cells_zero]
    · exact fun event hevent => absurd hevent (Array.not_mem_empty event)
  have hback : ∀ k < passes start, ∃ m',
      m.clock Ram.bus.recorded ((m.instruction.cycles + 2) * k) = (.ok (), m') ∧
      m.Repeats k (registers k) (cells k) m' := by
    intro k hk
    refine clock_of_passes (I := fun k => m.Repeats k (registers k) (cells k)) hstart k ?_
    intro j hj m' hm'
    exact ⟨hm'.ready, h.goes_back (by omega) hm'⟩
  refine ⟨hback, ?_⟩
  have hpos := passes_pos start
  have hcount : passes start - 1 + 1 = passes start := Nat.sub_add_cancel hpos
  obtain ⟨m', hclock, hm'⟩ := hback (passes start - 1) (by omega)
  obtain ⟨hcycles, hlast⟩ := h.goes_on hcount hm'
  refine ⟨m'.rested, ?_, hcount ▸ hlast⟩
  have hnext := clock_next hm'.ready
  rw [hcycles] at hnext
  rw [clock_add, hclock]
  exact hnext

end

/-! ## The two instructions -/

section

variable {m : Machine (Recorded Ram)}

/-- **Counting a cell down**, and going on at a distance as long as it is not zero. -/
theorem completes_branchCount (h : m.instruction = decode 0x6E) :
    m.Completes (if m.ram.read m.directCell - 1 ≠ 0 then 2 else 0)
      { m.passed with
        pc := if m.ram.read m.directCell - 1 ≠ 0 then
            m.passed.pc + Word.ofSigned (m.ram.read (m.processor.registers.pc + 2))
          else m.passed.pc }
      (m.ram.write m.directCell (m.ram.read m.directCell - 1)) := by
  have hoperands := operands_of_directRelative (m := m) (by rw [h]; rfl)
  apply completes_of_run
  rw [h, hoperands]
  exact Operation.run_branchIf _ bne_iff_ne _ _ _

/-- **Counting Y down**, and going on at a distance as long as it is not zero. -/
theorem completes_branchCountY (h : m.instruction = decode 0xFE) :
    m.Completes (if m.processor.registers.y - 1 ≠ 0 then 2 else 0)
      { m.passed with
        y := m.processor.registers.y - 1
        pc := if m.processor.registers.y - 1 ≠ 0 then
            m.passed.pc + Word.ofSigned (m.ram.read (m.processor.registers.pc + 1))
          else m.passed.pc }
      m.ram := by
  have hoperands := operands_of_relative (m := m) (by rw [h]; rfl)
  apply completes_of_run
  rw [h, hoperands, ← m.passed_y]
  exact Operation.run_branchIf _ bne_iff_ne _ { m.passed with y := m.passed.y - 1 } _

/-- Memory with something counted off the cell that the byte behind the opcode names. -/
def countedOff (m : Machine (Recorded Ram)) (count : Nat) (address : Word) : Byte :=
  if m.directCell = address then m.ram.read m.directCell - BitVec.ofNat 8 count
  else m.ram.read address

theorem countedOff_of_ne {address : Word} (h : m.directCell ≠ address) (count : Nat) :
    m.countedOff count address = m.ram.read address := if_neg h

/-- The loop that counts a cell down, which is none of its own. -/
theorem countsDown_cell (hready : m.Ready) (hopcode : m.opcode = 0x6E)
    (hback : m.ram.read (m.processor.registers.pc + 2) = 0xFD)
    (hcell : m.directCell ∉ [m.processor.registers.pc, m.processor.registers.pc + 1,
      m.processor.registers.pc + 2]) :
    m.CountsDown (m.ram.read m.directCell) (fun _ => m.processor.registers) m.countedOff
      (m.processor.registers.pc + 3) := by
  simp only [List.mem_cons, List.not_mem_nil, or_false, not_or] at hcell
  obtain ⟨hne, hne₁, hne₂⟩ := hcell
  refine ⟨hready, rfl, ?_, fun _ => rfl, countedOff_of_ne hne, ?_⟩
  · funext address
    unfold countedOff
    split
    next heq => rw [BitVec.sub_zero, heq]
    next => rfl
  · intro k m' hm'
    have hinstruction : m'.instruction = decode 0x6E :=
      instruction_of_read ((hm'.opcode_eq rfl (countedOff_of_ne hne k)).trans hopcode)
    have hdirect : m'.directCell = m.directCell := by
      rw [directCell, hm'.registers, hm'.cells, countedOff_of_ne hne₁, directCell]
    have hless : m'.ram.read m.directCell - 1 =
        m.ram.read m.directCell - BitVec.ofNat 8 (k + 1) := by
      rw [hm'.cells, countedOff, if_pos rfl]
      bv_omega
    have hpassed : m'.passed = m.processor.registers.advance 3 := by
      rw [m'.passed_eq (by rw [hinstruction]; decide), hm'.registers, hinstruction]
      rfl
    -- The distance takes the program counter back over the three bytes of the instruction.
    have hdistance : (m.processor.registers.advance 3).pc + Word.ofSigned 0xFD =
        m.processor.registers.pc := by
      have hthree : Word.ofSigned 0xFD = 0xFFFD := by decide
      rw [hthree, Registers.advance_pc]
      bv_omega
    have hcompletes := completes_branchCount hinstruction
    rw [hdirect, hless, hm'.registers, hm'.cells, countedOff_of_ne hne₂, hback, hpassed,
      hdistance] at hcompletes
    refine ⟨_, hcompletes, fun address => ?_⟩
    rw [Ram.read_write]
    unfold countedOff
    split
    next => rfl
    next hother => rw [hm'.cells, countedOff_of_ne hother]

/-- The loop that counts Y down. -/
theorem countsDown_y (hready : m.Ready) (hopcode : m.opcode = 0xFE)
    (hback : m.ram.read (m.processor.registers.pc + 1) = 0xFE) :
    m.CountsDown m.processor.registers.y
      (fun k => { m.processor.registers with
        y := m.processor.registers.y - BitVec.ofNat 8 k })
      (fun _ => m.ram.read) (m.processor.registers.pc + 2) := by
  refine ⟨hready, ?_, rfl, fun _ => rfl, fun _ => rfl, ?_⟩
  · exact congrArg (fun y => { m.processor.registers with y }) (BitVec.sub_zero _)
  · intro k m' hm'
    have hinstruction : m'.instruction = decode 0xFE :=
      instruction_of_read ((hm'.opcode_eq rfl rfl).trans hopcode)
    have hless : m.processor.registers.y - BitVec.ofNat 8 k - 1 =
        m.processor.registers.y - BitVec.ofNat 8 (k + 1) := by bv_omega
    have hpassed : m'.passed = { m.processor.registers.advance 2 with
        y := m.processor.registers.y - BitVec.ofNat 8 k } := by
      rw [m'.passed_eq (by rw [hinstruction]; decide), hm'.registers, hinstruction]
      rfl
    have hdistance : (m.processor.registers.advance 2).pc + Word.ofSigned 0xFE =
        m.processor.registers.pc := by
      have htwo : Word.ofSigned 0xFE = 0xFFFE := by decide
      rw [htwo, Registers.advance_pc]
      bv_omega
    have hcompletes := completes_branchCountY hinstruction
    rw [hpassed, hm'.registers, hm'.cells, hback] at hcompletes
    simp only [hless, hdistance] at hcompletes
    exact ⟨_, hcompletes, hm'.cells⟩

end

/-- **Counted loops end, at an exact cost.** On flat memory let the next instruction be one that
counts a byte down and goes back to itself if it is not zero, either a cell of the direct page that
is none of its own three cells, or Y. It is passed as often as the byte says, and 256 times if the
byte is zero. Each pass but the last takes two cycles more than the last. After each pass that is
not the last the instruction is fetched again, with so much counted off the byte; behind the
last one the byte is zero and the program goes on behind the instruction. Nothing else changes. -/
theorem counted_loops {m : Machine (Recorded Ram)} (hready : m.Ready) :
    let pc := m.processor.registers.pc
    (m.opcode = 0x6E → m.ram.read (pc + 2) = 0xFD → m.directCell ∉ [pc, pc + 1, pc + 2] →
      let times := passes (m.ram.read m.directCell)
      (∀ k < times, ∃ m', m.clock Ram.bus.recorded (7 * k) = (.ok (), m') ∧
        m.Repeats k m.processor.registers (m.countedOff k) m') ∧
      ∃ m', m.clock Ram.bus.recorded (7 * (times - 1) + 5) = (.ok (), m') ∧
        m.Repeats times { m.processor.registers with pc := pc + 3 }
          (fun address => if m.directCell = address then 0 else m.ram.read address) m') ∧
    (m.opcode = 0xFE → m.ram.read (pc + 1) = 0xFE →
      let times := passes m.processor.registers.y
      (∀ k < times, ∃ m', m.clock Ram.bus.recorded (6 * k) = (.ok (), m') ∧
        m.Repeats k { m.processor.registers with
          y := m.processor.registers.y - BitVec.ofNat 8 k } m.ram.read m') ∧
      ∃ m', m.clock Ram.bus.recorded (6 * (times - 1) + 4) = (.ok (), m') ∧
        m.Repeats times { m.processor.registers with y := 0, pc := pc + 2 } m.ram.read m') := by
  intro pc
  constructor
  · intro hopcode hback hcell times
    have hinstruction : m.instruction = decode 0x6E := congrArg decode hopcode
    have hcells : m.countedOff times =
        fun address => if m.directCell = address then 0 else m.ram.read address := by
      funext address
      rw [countedOff, sub_passes]
    have hclock := (countsDown_cell hready hopcode hback hcell).clock
    rw [hinstruction, hcells] at hclock
    exact hclock
  · intro hopcode hback times
    have hinstruction : m.instruction = decode 0xFE := congrArg decode hopcode
    have hclock := (countsDown_y hready hopcode hback).clock
    rw [hinstruction, sub_passes] at hclock
    exact hclock

/-- A cell counted down from zero by an instruction that passes the top of memory, and Y from
three. -/
theorem counted_loops_of_ram :
    let m := onRam { pc := 0xFFFF, psw := { directPage := true } }
      (Ram.zero.load 0xFFFF [0x6E, 0x20, 0xFD])
    let m' := onRam { y := 3, pc := 0x0200 } (Ram.zero.load 0x0200 [0xFE, 0xFE])
    (m.Ready ∧ m.opcode = 0x6E ∧ m.ram.read (0xFFFF + 2) = 0xFD ∧
      m.directCell ∉ [0xFFFF, 0xFFFF + 1, 0xFFFF + 2] ∧
      ∃ after, m.clock Ram.bus.recorded 1790 = (.ok (), after) ∧
        m.Repeats 256 { m.processor.registers with pc := 0x0002 }
          (fun address => if (0x0120 : Word) = address then 0 else m.ram.read address) after) ∧
    m'.Ready ∧ m'.opcode = 0xFE ∧ m'.ram.read (0x0200 + 1) = 0xFE ∧
      ∃ after, m'.clock Ram.bus.recorded 16 = (.ok (), after) ∧
        m'.Repeats 3 { m'.processor.registers with y := 0, pc := 0x0202 } m'.ram.read after := by
  intro m m'
  have hcode : m.ram.read 0xFFFF = 0x6E ∧ m.ram.read (0xFFFF + 1) = 0x20 ∧
      m.ram.read (0xFFFF + 2) = 0xFD ∧ m.ram.read 0x0120 = 0x00 := by
    simp [m, ram_onRam, Ram.load, Ram.read_write]
  have hcode' : m'.ram.read 0x0200 = 0xFE ∧ m'.ram.read (0x0200 + 1) = 0xFE := by
    simp [m', ram_onRam, Ram.load, Ram.read_write]
  obtain ⟨hopcode, hoffset, hback, hbyte⟩ := hcode
  have hpage : Word.ofBytes 1 0x20 = 0x0120 := by decide
  have hcell : m.directCell = 0x0120 :=
    (congrArg m.processor.registers.directAddress hoffset).trans hpage
  have hoff : m.directCell ∉ [0xFFFF, 0xFFFF + 1, 0xFFFF + 2] := by
    rw [hcell]
    decide
  have hpasses : passes 0 = 256 ∧ passes 3 = 3 := by decide
  have hready : m.Ready ∧ m'.Ready := ⟨⟨rfl, rfl⟩, ⟨rfl, rfl⟩⟩
  have hdown := ((counted_loops hready.1).1 hopcode hback hoff).2
  have hdown' := ((counted_loops hready.2).2 hcode'.1 hcode'.2).2
  have hy : m'.processor.registers.y = 3 := rfl
  have hbehind : m.processor.registers.pc + 3 = 0x0002 :=
    (by decide : (0xFFFF : Word) + 3 = 0x0002)
  rw [hcell, hbyte, hpasses.1, hbehind] at hdown
  rw [hy, hpasses.2] at hdown'
  exact ⟨⟨hready.1, hopcode, hback, hoff, hdown⟩, hready.2, hcode'.1, hcode'.2, hdown'⟩

end Spc700.Machine
