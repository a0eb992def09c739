import Spc700.Proofs.Alu.Number
import Spc700.Proofs.Machine.MemoryForms

/-!
# Sums and differences of many bytes

Bytes are added or subtracted one after the other, the least significant first, each finding the
flags that the one before it has left. What comes out is the sum or the difference of the whole
numbers, and the last flags say whether it is in range, as unsigned and as two's complement:
`Arithmetic.Yields`. This holds in the accumulator on any host, and from cell to cell on flat memory
if no step spoils a cell that a later one depends on (`Ram.Spares`). `Machine.multibyte` says both.
-/

namespace Spc700

variable {σ : Type}

/-! ## Steps from cell to cell -/

/-- Arithmetic on two cells has their addresses in the code and in the registers. -/
theorem Ram.pointerCells_of_arithmeticMemory {ram : Ram} {pc : Word} {f : Arithmetic}
    (h : (ram.instructionAt pc).operation = .arithmeticMemory f) (r : Registers)
    (bytes : List Byte) : (ram.instructionAt pc).mode.pointerCells r bytes = [] := by
  have hmode := (decode_binary (.arithmetic f)).1 _ h
  simp only [AddressingMode.pairs, List.mem_cons, List.not_mem_nil, or_false] at hmode
  unfold instructionAt
  rcases hmode with hmode | hmode | hmode <;> rw [hmode] <;> rfl

/-- **Arithmetic on two cells** reads both and writes the first. -/
theorem Machine.next_arithmeticMemory {m : Machine (Recorded Ram)} {f : Arithmetic}
    (hm : m.instruction.operation = .arithmeticMemory f) :
    (m.execute Ram.bus.recorded).1 = .ok () ∧
    ((m.next.ram.read (m.ram.operandsAt m.processor.registers).address,
          m.next.processor.registers.psw) =
        f.apply (m.ram.read (m.ram.operandsAt m.processor.registers).address)
          (m.ram.read (m.ram.operandsAt m.processor.registers).source) m.processor.registers.psw) ∧
    ∀ address, address ≠ (m.ram.operandsAt m.processor.registers).address →
      m.next.ram.read address = m.ram.read address := by
  have halters := alters_memory (g := .arithmetic f) hm
  rw [passed_psw] at halters
  exact ⟨halters.ok, Prod.ext halters.read_cell halters.psw_eq, fun _ hne =>
    halters.read_of_ne hne⟩

/-- The step at the registers `r` writes no cell on which the step at `r'` depends: neither its
target, nor its source, nor its code, as memory has them. -/
structure Ram.Spares (ram : Ram) (r r' : Registers) : Prop where
  target : (ram.operandsAt r).address ≠ (ram.operandsAt r').address
  source : (ram.operandsAt r).address ≠ (ram.operandsAt r').source
  code : (ram.operandsAt r).address ∉ ram.code r'.pc

/-- A step that spares another does so on any memory with the same code and the same operands. -/
theorem Ram.Spares.congr {ram ram' : Ram} {r r' : Registers} (h : ram.Spares r r')
    (hoperands : ram'.operandsAt r = ram.operandsAt r)
    (hoperands' : ram'.operandsAt r' = ram.operandsAt r')
    (hcode : ram'.code r'.pc = ram.code r'.pc) : ram'.Spares r r' where
  target := by
    rw [hoperands, hoperands']
    exact h.target
  source := by
    rw [hoperands, hoperands']
    exact h.source
  code := by
    rw [hoperands, hcode]
    exact h.code

namespace Machine

section

variable {m : Machine (Recorded Ram)} {ms : List (Machine (Recorded Ram))} {f : Arithmetic}
  {ram ram' : Ram}

/-- **From cell to cell**, each step does what it would do on the memory at the start, if no step
spoils a cell that a later one depends on. Cells that are no target keep their bytes. -/
theorem apply_of_relay
    (hrelay : Relay (fun m => m.ram) (fun m => m.next.ram) ram ms ram')
    (hms : ∀ m ∈ ms, (ram.instructionAt m.processor.registers.pc).operation = .arithmeticMemory f)
    (hspares : ms.Pairwise fun m m' => ram.Spares m.processor.registers m'.processor.registers) :
    (∀ m ∈ ms, (m.execute Ram.bus.recorded).1 = .ok () ∧
      (ram'.read (ram.operandsAt m.processor.registers).address,
          m.next.processor.registers.psw) =
        f.apply (ram.read (ram.operandsAt m.processor.registers).address)
          (ram.read (ram.operandsAt m.processor.registers).source) m.processor.registers.psw) ∧
    ∀ address, (∀ m ∈ ms, address ≠ (ram.operandsAt m.processor.registers).address) →
      ram'.read address = ram.read address := by
  induction hrelay with
  | nil ram => exact ⟨fun m hm => absurd hm List.not_mem_nil, fun _ _ => rfl⟩
  | @cons m ms ram' hrest ih =>
    rw [List.forall_mem_cons] at hms
    rw [List.pairwise_cons] at hspares
    obtain ⟨hfirst, hlater⟩ := hspares
    obtain ⟨hok, happly, hframe⟩ := next_arithmeticMemory hms.1
    -- The first step leaves the later ones their code, and so their operands.
    have hcode : ∀ m' ∈ ms, ∀ address ∈ m.ram.code m'.processor.registers.pc,
        m.next.ram.read address = m.ram.read address := by
      intro m' hm' address haddress
      apply hframe
      rintro rfl
      exact (hfirst m' hm').code haddress
    have hoperands : ∀ m' ∈ ms, m.next.ram.operandsAt m'.processor.registers =
        m.ram.operandsAt m'.processor.registers := by
      intro m' hm'
      exact Ram.operandsAt_congr (hcode m' hm')
        (Ram.pointerCells_of_arithmeticMemory (hms.2 m' hm') _ _)
    have hinstructions : ∀ m' ∈ ms,
        (m.next.ram.instructionAt m'.processor.registers.pc).operation = .arithmeticMemory f := by
      intro m' hm'
      rw [Ram.instructionAt_congr (hcode m' hm')]
      exact hms.2 m' hm'
    have hspares : ms.Pairwise fun m₁ m₂ =>
        m.next.ram.Spares m₁.processor.registers m₂.processor.registers := by
      refine hlater.imp_of_mem ?_
      intro m₁ m₂ hm₁ hm₂ h
      exact h.congr (hoperands m₁ hm₁) (hoperands m₂ hm₂) (Ram.code_congr (hcode m₂ hm₂))
    obtain ⟨hsteps, hkept⟩ := ih hinstructions hspares
    constructor
    · rw [List.forall_mem_cons]
      constructor
      · have htarget : ram'.read (m.ram.operandsAt m.processor.registers).address =
            m.next.ram.read (m.ram.operandsAt m.processor.registers).address := by
          apply hkept
          intro m' hm'
          rw [hoperands m' hm']
          exact (hfirst m' hm').target
        rw [htarget]
        exact ⟨hok, happly⟩
      · intro m' hm'
        obtain ⟨hok', happly'⟩ := hsteps m' hm'
        rw [hoperands m' hm', hframe _ (hfirst m' hm').target.symm,
          hframe _ (hfirst m' hm').source.symm] at happly'
        exact ⟨hok', happly'⟩
    · intro address haddress
      rw [List.forall_mem_cons] at haddress
      rw [← hframe address haddress.1]
      apply hkept
      intro m' hm'
      rw [hoperands m' hm']
      exact haddress.2 m' hm'

end

/-! ## Numbers of many bytes -/

/-- **Sums and differences of any length.** Let there be at least one step, and let the steps
add or subtract bytes, the least significant first, each finding the flags that the one before it
leaves. Then the bytes that they leave are those of the sum or the difference of the whole numbers,
and the last flags are those of the whole: carry says whether the unsigned result is out of
range, overflow whether the signed one is, and negative is the top bit.

* The steps can be made in the accumulator, on any bus that refuses nothing.
* They can be made from cell to cell on flat memory, each finding the memory that the one before it
  leaves, as long as no step writes a cell that is a target, a source or code of a later one. -/
theorem multibyte :
    (∀ {bus : Bus σ} {f : Arithmetic} {ms : List (Machine (Recorded σ))} {psw psw' : Flags},
      bus.GrantsEverything → ms ≠ [] →
      (∀ m ∈ ms, m.Faces bus.recorded (.arithmetic f)) →
      Relay (fun m => m.processor.registers.psw)
        (fun m => (m.nextOn bus.recorded).processor.registers.psw) psw ms psw' →
      (∀ m ∈ ms, (m.execute bus.recorded).1 = .ok ()) ∧
      f.Yields psw.carry (ms.map fun m => m.processor.registers.a) (ms.map fun m => m.operand bus)
        (ms.map fun m => (m.nextOn bus.recorded).processor.registers.a) psw') ∧
    (∀ {f : Arithmetic} {ms : List (Machine (Recorded Ram))} {psw psw' : Flags} {ram ram' : Ram},
      ms ≠ [] →
      (∀ m ∈ ms, (ram.instructionAt m.processor.registers.pc).operation = .arithmeticMemory f) →
      Relay (fun m => (m.processor.registers.psw, m.ram))
        (fun m => (m.next.processor.registers.psw, m.next.ram)) (psw, ram) ms (psw', ram') →
      (ms.Pairwise fun m m' => ram.Spares m.processor.registers m'.processor.registers) →
      (∀ m ∈ ms, (m.execute Ram.bus.recorded).1 = .ok ()) ∧
      f.Yields psw.carry
        (ms.map fun m => ram.read (ram.operandsAt m.processor.registers).address)
        (ms.map fun m => ram.read (ram.operandsAt m.processor.registers).source)
        (ms.map fun m => ram'.read (ram.operandsAt m.processor.registers).address) psw') := by
  constructor
  · intro bus f ms psw psw' hbus hne hms hrelay
    have hstep := fun m hm => nextOn_arithmetic hbus (hms m hm)
    exact ⟨fun m hm => (hstep m hm).1, hrelay.yields hne fun m hm => (hstep m hm).2⟩
  · intro f ms psw psw' ram ram' hne hms hrelay hspares
    obtain ⟨hsteps, -⟩ := apply_of_relay (hrelay.map Prod.snd) hms hspares
    have hyields := (hrelay.map Prod.fst).yields hne fun m hm => (hsteps m hm).2
    exact ⟨fun m hm => (hsteps m hm).1, hyields⟩

/-- The sum of 32767 and 1, which overflows, in the accumulator and from cell to cell. -/
theorem multibyte_of_ram :
    let ms := [onTape { a := 0xFF } [0x88, 0x01],
      onTape { a := 0x7F, psw := { halfCarry := true, zero := true, carry := true } } [0x88, 0x00]]
    let psw' : Flags := { negative := true, overflow := true, halfCarry := true }
    let ram := ((Ram.zero.load 0x0200 [0x99]).load 0x0010 [0xFF, 0x7F]).load 0x0020 [0x01, 0x00]
    let low : Machine (Recorded Ram) :=
      { processor := { registers := { x := 0x10, y := 0x20, pc := 0x0200 } }
        host := { host := ram } }
    let high : Machine (Recorded Ram) :=
      { low.next with
        processor := { registers := { x := 0x11, y := 0x21, psw := low.next.processor.registers.psw
                                      pc := 0x0200 } } }
    tapeBus.GrantsEverything ∧ (∀ m ∈ ms, m.Faces tapeBus.recorded (.arithmetic .adc)) ∧
    Relay (fun m => m.processor.registers.psw)
      (fun m => (m.nextOn tapeBus.recorded).processor.registers.psw) {} ms psw' ∧
    Arithmetic.adc.Yields false [0xFF, 0x7F] [0x01, 0x00] [0x00, 0x80] psw' ∧
    (∀ m ∈ [low, high],
      (ram.instructionAt m.processor.registers.pc).operation = .arithmeticMemory .adc) ∧
    ([low, high].Pairwise fun m m' => ram.Spares m.processor.registers m'.processor.registers) ∧
    Relay (fun m => (m.processor.registers.psw, m.ram))
      (fun m => (m.next.processor.registers.psw, m.next.ram)) ({}, ram) [low, high]
      (high.next.processor.registers.psw, high.next.ram) ∧
    Arithmetic.adc.Yields false [0xFF, 0x7F] [0x01, 0x00]
      [high.next.ram.read 0x0010, high.next.ram.read 0x0011]
      high.next.processor.registers.psw := by
  intro ms psw' ram low high
  have hms : ∀ m ∈ ms, m.Faces tapeBus.recorded (.arithmetic .adc) :=
    List.forall_mem_cons.mpr ⟨⟨0x88, _, rfl, rfl⟩,
      List.forall_mem_singleton.mpr ⟨0x88, _, rfl, rfl⟩⟩
  have hrelay : Relay (fun m => m.processor.registers.psw)
      (fun m => (m.nextOn tapeBus.recorded).processor.registers.psw) {} ms psw' :=
    .cons (onTape { a := 0xFF } [0x88, 0x01])
      (.cons (onTape { a := 0x7F, psw := { halfCarry := true, zero := true, carry := true } }
        [0x88, 0x00]) (.nil psw'))
  have hcells : ∀ m ∈ [low, high],
      (ram.instructionAt m.processor.registers.pc).operation = .arithmeticMemory .adc := by
    refine List.forall_mem_cons.mpr ⟨?_, List.forall_mem_singleton.mpr ?_⟩
    · decide +kernel
    · decide +kernel
  have hlowOperands : ram.operandsAt low.processor.registers =
      { address := 0x0010, source := 0x0020 } := by decide +kernel
  have hhighOperands : ram.operandsAt high.processor.registers =
      { address := 0x0011, source := 0x0021 } := by decide +kernel
  have hcode : ram.code high.processor.registers.pc = [0x0200] := by decide +kernel
  have hspares : [low, high].Pairwise fun m m' =>
      ram.Spares m.processor.registers m'.processor.registers := by
    refine List.pairwise_pair.mpr ?_
    constructor
    case target => rw [hlowOperands, hhighOperands]; decide
    case source => rw [hlowOperands, hhighOperands]; decide
    case code => rw [hlowOperands, hcode]; decide
  have hrelay' : Relay (fun m => (m.processor.registers.psw, m.ram))
      (fun m => (m.next.processor.registers.psw, m.next.ram)) ({}, ram) [low, high]
      (high.next.processor.registers.psw, high.next.ram) :=
    .cons low (.cons high (.nil _))
  have hbytes : [ram.read 0x0010, ram.read 0x0011] = [0xFF, 0x7F] ∧
      [ram.read 0x0020, ram.read 0x0021] = [0x01, 0x00] := by decide +kernel
  obtain ⟨haccumulator, hmemory⟩ := @multibyte (List Byte)
  refine ⟨tapeBus_grantsEverything, hms, hrelay,
    (haccumulator tapeBus_grantsEverything (List.cons_ne_nil _ _) hms hrelay).2, hcells, hspares,
    hrelay', ?_⟩
  have hyields := (hmemory (List.cons_ne_nil _ _) hcells hrelay' hspares).2
  simp only [List.map_cons, List.map_nil, hlowOperands, hhighOperands] at hyields
  rwa [hbytes.1, hbytes.2] at hyields

end Machine

end Spc700
