import Spc700.Proofs.Machine.Traffic

/-!
# Instructions on flat memory

Flat memory grants every access, and only writes change it. So a machine on flat memory has a next
state, and what an instruction leaves in memory can be played again from the accesses that it
makes.

* `Ram.replay_of_grantsAll`, `Ram.value_of_grantsAll`: what exchanges do to flat memory, and what
  they read there.
* `Machine.next_of_every`: what holds of every way through the next instruction holds of the one
  that it goes.
* `Machine.next_ram`: the memory that the next instruction leaves.
-/

namespace Spc700

/-! ## Accesses and memory -/

namespace Ram

/-- Memory after an access: a write that was granted changes one cell. -/
def obey (ram : Ram) : Access → Ram
  | { direction := .write, address, value := some byte } => ram.write address byte
  | _ => ram

/-- Memory after accesses, one after the other. -/
def replay (ram : Ram) (accesses : List Access) : Ram := accesses.foldl obey ram

section

variable {ram ram' : Ram} {accesses : List Access}

@[simp]
theorem replay_nil (ram : Ram) : ram.replay [] = ram := rfl

@[simp]
theorem replay_cons (ram : Ram) (a : Access) (accesses : List Access) :
    ram.replay (a :: accesses) = (ram.obey a).replay accesses := rfl

theorem replay_append (ram : Ram) (first second : List Access) :
    ram.replay (first ++ second) = (ram.replay first).replay second := List.foldl_append

theorem obey_of_read {a : Access} (h : a.direction = .read) : ram.obey a = ram := by
  obtain ⟨direction, address, value⟩ := a
  obtain rfl : direction = .read := h
  rfl

/-- Reads leave memory as it is. -/
theorem replay_of_reads (h : ∀ a ∈ accesses, a.direction = .read) : ram.replay accesses = ram := by
  induction accesses with
  | nil => rfl
  | cons a accesses ih =>
    rw [List.forall_mem_cons] at h
    rw [replay_cons, obey_of_read h.1, ih h.2]

theorem read_obey {a : Access} {address : Word} (h : a.direction = .write → a.address ≠ address) :
    (ram.obey a).read address = ram.read address := by
  unfold obey
  split
  · rw [read_write, if_neg (h rfl)]
  · rfl

/-- A cell to which nothing is written keeps its byte. -/
theorem read_replay {address : Word}
    (h : ∀ a ∈ accesses, a.direction = .write → a.address ≠ address) :
    (ram.replay accesses).read address = ram.read address := by
  induction accesses generalizing ram with
  | nil => rfl
  | cons a accesses ih =>
    rw [List.forall_mem_cons] at h
    rw [replay_cons, ih h.2, read_obey h.1]

end

/-! ## Exchanges on flat memory -/

section

variable {e : Exchange Registers} {es : List (Exchange Registers)} {ram ram' : Ram}

theorem obey_of_grants (h : Ram.bus.Grants e ram ram') : ram' = ram.obey e.granted := by
  obtain ⟨now, purpose, direction, address, byte⟩ := e
  cases direction with
  | read => exact ((Prod.mk.inj h).2).symm
  | write => exact ((Prod.mk.inj h).2).symm

/-- **What exchanges do to flat memory** is what their accesses do. -/
theorem replay_of_grantsAll (h : Ram.bus.GrantsAll es ram ram') :
    ram' = ram.replay (es.map Exchange.granted) := by
  induction es generalizing ram with
  | nil => exact h
  | cons e es ih =>
    obtain ⟨between, hfirst, hrest⟩ := h
    rw [ih hrest, obey_of_grants hfirst]
    rfl

/-- **Exchanges that only read** read what memory holds. -/
theorem value_of_grantsAll (h : Ram.bus.GrantsAll es ram ram')
    (hreads : ∀ a ∈ es.map Exchange.granted, a.direction = .read) :
    ∀ a ∈ es.map Exchange.granted, a.value = some (ram.read a.address) := by
  induction es with
  | nil => exact fun a ha => absurd ha List.not_mem_nil
  | cons e es ih =>
    obtain ⟨between, hfirst, hrest⟩ := h
    rw [List.map_cons, List.forall_mem_cons] at hreads ⊢
    have hread : e.direction = .read := hreads.1
    -- The first exchange is a read, so the others find the memory that it found.
    obtain rfl : ram = between := by
      rw [obey_of_grants hfirst, obey_of_read hreads.1]
    refine ⟨?_, ih hrest hreads.2⟩
    unfold Bus.Grants at hfirst
    rw [hread] at hfirst
    have hbyte : ram.read e.address = e.byte := Except.ok.inj (Prod.mk.inj hfirst).1
    exact congrArg some hbyte.symm

end

end Ram

/-! ## One instruction -/

namespace Machine

/-- The memory of a machine on flat memory. -/
def ram (m : Machine (Recorded Ram)) : Ram := m.host.host

/-- The opcode at the program counter. -/
def opcode (m : Machine (Recorded Ram)) : Byte := m.ram.read m.processor.registers.pc

/-- The instruction at the program counter. -/
def instruction (m : Machine (Recorded Ram)) : Instruction := decode m.opcode

/-- The machine after its next instruction. -/
def next (m : Machine (Recorded Ram)) : Machine (Recorded Ram) := (m.execute Ram.bus.recorded).2

/-- The accesses that the next instruction adds to the record. -/
def accesses (m : Machine (Recorded Ram)) : List Access :=
  m.next.host.accesses.toList.drop m.host.accesses.size

/-- The machine a number of instructions later. -/
def nth (m : Machine (Recorded Ram)) : Nat → Machine (Recorded Ram)
  | 0 => m
  | k + 1 => (m.nth k).next

variable (m : Machine (Recorded Ram))

/-- **The next instruction goes one of its ways**, so it has whatever all of them have. The cycles
that it takes are on the count. -/
theorem next_of_every {Q : List (Exchange Registers) → Nat → Registers → Prop}
    (h : Micro.Every Q m.instruction.perform (m.processor.registers.advance 1)) :
    (m.execute Ram.bus.recorded).1 = .ok () ∧ ∃ es extra,
      Q es extra m.next.processor.registers ∧ Ram.bus.GrantsAll es m.ram m.next.ram ∧
      m.accesses = m.opening m.opcode :: es.map Exchange.granted ∧
      m.next.processor.cyclesLeft = m.instruction.cycles + extra := by
  obtain ⟨opcode, host₀, es, extra, registers, host₁, hread, hd, hg⟩ :=
    exists_admits_of_grantsEverything Ram.grantsEverything m.processor.registers m.ram
  -- Reading the opcode gives the byte at the program counter and leaves memory as it is.
  obtain ⟨hopcode, rfl⟩ : (.ok m.opcode : Except BusError Byte) = .ok opcode ∧ m.ram = host₀ :=
    Prod.mk.inj hread
  obtain rfl := Except.ok.inj hopcode
  have hexecute := execute_recorded hread hd hg
  have hnext := congrArg Prod.snd hexecute
  refine ⟨congrArg Prod.fst hexecute, es, extra, ?_, ?_, ?_, ?_⟩
  · have hregisters : m.next.processor.registers = registers :=
      congrArg (fun m => m.processor.registers) hnext
    rw [hregisters]
    exact Dialogue.every_iff.mp h es _ hd
  · have hram : m.next.ram = host₁ := congrArg ram hnext
    rw [hram]
    exact hg
  · have haccesses : m.next.host.accesses =
        m.host.accesses ++ (m.opening m.opcode :: es.map Exchange.granted).toArray :=
      congrArg (fun m => m.host.accesses) hnext
    simp [accesses, haccesses]
  · exact congrArg (fun m => m.processor.cyclesLeft) hnext

/-- The same without the count. -/
theorem execute_of_every {Q : List (Exchange Registers) → Nat → Registers → Prop}
    (h : Micro.Every Q m.instruction.perform (m.processor.registers.advance 1)) :
    (m.execute Ram.bus.recorded).1 = .ok () ∧ ∃ es extra,
      Q es extra m.next.processor.registers ∧ Ram.bus.GrantsAll es m.ram m.next.ram ∧
      m.accesses = m.opening m.opcode :: es.map Exchange.granted := by
  obtain ⟨hok, es, extra, hq, hg, haccesses, -⟩ := m.next_of_every h
  exact ⟨hok, es, extra, hq, hg, haccesses⟩

/-- On flat memory every instruction is completed. -/
theorem execute_ram : (m.execute Ram.bus.recorded).1 = .ok () :=
  (m.execute_of_every (m.instruction.every_perform_plan _)).1

/-- **The memory that the next instruction leaves** follows from its accesses. -/
theorem next_ram : m.next.ram = m.ram.replay m.accesses := by
  obtain ⟨-, es, extra, -, hg, haccesses⟩ :=
    m.execute_of_every (m.instruction.every_perform_plan _)
  rw [haccesses, Ram.replay_cons, Ram.obey_of_read rfl]
  exact Ram.replay_of_grantsAll hg

end Machine

end Spc700
