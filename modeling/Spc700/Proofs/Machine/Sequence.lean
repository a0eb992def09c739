import Spc700.Proofs.Machine.Traffic

/-!
# In which order things go over the bus

The accesses of an instruction come in four parts: its opcode, the operand bytes, the bytes of a
pointer, and what the operation does. `Traffic.InOrder` says what is in each part and in which
order, and of the writes, what must have been read before. `Machine.execute_inOrder` says it of
every instruction.
-/

namespace Spc700

variable {σ : Type}

/-- The accesses of an instruction after its opcode, in three parts. -/
structure Traffic where
  operand : List Access
  pointer : List Access
  data : List Access

namespace Traffic

/-- All accesses, in order. -/
def accesses (t : Traffic) : List Access := t.operand ++ t.pointer ++ t.data

/-- What the operation asks for, in order. -/
def requests (t : Traffic) : List Request := t.data.map Access.request

/-- Where the operation reads, in order. -/
def reads (t : Traffic) : List Word :=
  (t.requests.filter fun a => a.direction = .read).map Request.address

/-- The operands that are made of the bytes in the traffic. -/
def operands (t : Traffic) (mode : AddressingMode) (r : Registers) : Operands :=
  mode.operands r ((t.operand ++ t.pointer).filterMap Access.value)

/-- The traffic of an instruction keeps to its plan. `r` are the registers behind its opcode. -/
structure Keeps (t : Traffic) (instruction : Instruction) (r : Registers) : Prop where
  operand : t.operand.map Access.request =
    instruction.mode.fetched.map fun i => ⟨.read, r.pc + BitVec.ofNat 16 i⟩
  pointer : t.pointer.map Access.request =
    (instruction.mode.pointerCells r (t.operand.filterMap Access.value)).map
      fun address => ⟨.read, address⟩
  /-- every operand byte has been granted -/
  operandBytes : (t.operand.filterMap Access.value).length = instruction.mode.fetched.length
  /-- and so has every byte of a pointer -/
  pointerBytes : (t.pointer.filterMap Access.value).length =
    (instruction.mode.pointerCells r (t.operand.filterMap Access.value)).length
  formed : ((t.operand ++ t.pointer).filterMap Access.value).length = instruction.mode.accessCount
  data : t.requests = instruction.operation.plan.map
    (Visit.request (t.operands instruction.mode r) r.sp)

/-- The traffic of an instruction is in order. `r` are the registers behind
its opcode. -/
structure InOrder (t : Traffic) (opcode : Byte) (r : Registers) : Prop where
  /-- the operand bytes by rising address, without an immediate byte -/
  operand : t.operand.map Access.request =
    (decode opcode).mode.fetched.map fun i => ⟨.read, r.pc + BitVec.ofNat 16 i⟩
  /-- the low and then the high byte of a pointer, in the modes that have one -/
  pointer : t.pointer.map Access.request =
    ((decode opcode).mode.pointerCells r (t.operand.filterMap Access.value)).map
      fun address => ⟨.read, address⟩
  /-- an immediate byte is read once, as the only datum -/
  immediate : (decode opcode).mode = .immediate → t.requests = [⟨.read, r.pc⟩]
  /-- or once beside the cell that it goes with -/
  directImmediate : (decode opcode).mode = .directImmediate →
    t.reads.Perm [(t.operands (decode opcode).mode r).address, r.pc]
  /-- nothing is read after a write, but for a vector after the last push -/
  readsFirst : ∃ front vector, t.requests = front ++ vector ∧
    front.Pairwise (fun a b => NoReadAfter a.direction b.direction) ∧
    (vector = [] ∨ (decode opcode).operation.ReadsVector ∧
      (∀ a ∈ front, a.direction = .write) ∧
      ∃ address, vector = [⟨.read, address⟩, ⟨.read, address + 1⟩])
  /-- logic and comparisons on two cells read the target first -/
  targetFirst : ((∃ f, (decode opcode).operation = .logicMemory f) ∨
      (decode opcode).operation = .compareMemory) →
    t.reads = [(t.operands (decode opcode).mode r).address,
      (t.operands (decode opcode).mode r).source]
  /-- arithmetic on two cells reads the source first -/
  sourceFirst : (∃ f, (decode opcode).operation = .arithmeticMemory f) →
    t.reads = [(t.operands (decode opcode).mode r).source,
      (t.operands (decode opcode).mode r).address]
  /-- what is written is a push, or has been read, or is an exception -/
  probed : ∀ before a after, t.requests = before ++ a :: after → a.direction = .write →
    (∃ i < (decode opcode).operation.pushes,
      a.address = stackCell (r.sp - BitVec.ofNat 8 i)) ∨
    ⟨.read, a.address⟩ ∈ before ∨
    opcode = 0xAF ∨ opcode = 0xFA ∨
    opcode = 0xDA ∧ a.address = (t.operands (decode opcode).mode r).highAddress

theorem filterMap_value_granted (es : List (Exchange Registers)) :
    (es.map Exchange.granted).filterMap Access.value = es.map Exchange.byte := by
  induction es with
  | nil => rfl
  | cons e es ih => simpa [Exchange.granted] using ih

section

variable {t : Traffic} {opcode : Byte} {visits : List Visit} {o : Operands} {sp : Byte}

/-- The reads of a plan. -/
theorem reads_eq (h : t.requests = visits.map (Visit.request o sp)) :
    t.reads = (visits.filter fun v => v.direction = .read).map fun v => v.place.address o sp := by
  unfold reads
  rw [h, List.filter_map, List.map_map]
  rfl

/-- **No read follows a write** in the traffic of a plan. -/
theorem readsFirst_of_plan {operation : Operation}
    (h : t.requests = operation.plan.map (Visit.request o sp)) :
    ∃ front vector, t.requests = front ++ vector ∧
      front.Pairwise (fun a b => NoReadAfter a.direction b.direction) ∧
      (vector = [] ∨ operation.ReadsVector ∧ (∀ a ∈ front, a.direction = .write) ∧
        ∃ address, vector = [⟨.read, address⟩, ⟨.read, address + 1⟩]) := by
  obtain ⟨front, vector, hplan, hfront, hvector⟩ := operation.plan_eq_append
  refine ⟨front.map (Visit.request o sp), vector.map (Visit.request o sp), ?_, ?_, ?_⟩
  · rw [h, hplan, List.map_append]
  · exact List.pairwise_map.mpr hfront
  · rcases hvector with rfl | ⟨hreads, hwrites, address, rfl⟩
    · exact .inl rfl
    · refine .inr ⟨hreads, ?_, address, rfl⟩
      intro a ha
      obtain ⟨v, hv, rfl⟩ := List.mem_map.mp ha
      exact hwrites v hv

/-- **What is written has been read**, or is an exception. -/
theorem probed_of_plan (h : t.requests = (decode opcode).operation.plan.map (Visit.request o sp))
    {before after : List Request} {a : Request} (ht : t.requests = before ++ a :: after)
    (hw : a.direction = .write) :
    (∃ i < (decode opcode).operation.pushes, a.address = stackCell (sp - BitVec.ofNat 8 i)) ∨
    ⟨.read, a.address⟩ ∈ before ∨
    opcode = 0xAF ∨ opcode = 0xFA ∨ opcode = 0xDA ∧ a.address = o.highAddress := by
  rw [h] at ht
  obtain ⟨before, rest, hplan, rfl, hrest⟩ := List.map_eq_append_iff.mp ht
  obtain ⟨v, after, rfl, rfl, rfl⟩ := List.map_eq_cons_iff.mp hrest
  rcases Operation.mem_of_plan_eq hplan hw with hread | hexempt
  · exact .inr (.inl (List.mem_map_of_mem (f := Visit.request o sp) hread))
  · rcases decode_unprobed opcode v.place hexempt with ⟨i, hi, hplace⟩ | hAF | hFA | ⟨hDA, hplace⟩
    · refine .inl ⟨i, hi, ?_⟩
      show v.place.address o sp = _
      rw [hplace]
      rfl
    · exact .inr (.inr (.inl hAF))
    · exact .inr (.inr (.inr (.inl hFA)))
    · refine .inr (.inr (.inr (.inr ⟨hDA, ?_⟩)))
      show v.place.address o sp = _
      rw [hplace]
      rfl

end

end Traffic

/-! ## From plans to traffic -/

namespace AddressingMode

/-- The cells of a pointer depend on operand bytes only. -/
theorem pointerCells_append (mode : AddressingMode) (r : Registers) {bytes : List Byte}
    (h : bytes.length = mode.fetched.length) (rest : List Byte) :
    mode.pointerCells r (bytes ++ rest) = mode.pointerCells r bytes := by
  rcases bytes with _ | ⟨first, _ | ⟨second, bytes⟩⟩ <;> cases mode <;>
    simp_all [pointerCells, fetched, operandBytes, immediateBytes, List.range_succ]

/-- The source that goes with a cell is the immediate byte. -/
theorem source_of_directImmediate (r : Registers) {bytes : List Byte}
    (h : bytes.length = accessCount directImmediate) :
    (operands directImmediate r bytes).source = r.pc := by
  obtain ⟨target, rfl⟩ := List.length_eq_one_iff.mp (h.trans rfl)
  rfl

end AddressingMode

namespace Instruction

/-- **The exchanges of a plan are traffic** that keeps to it: those that form the operands, in two
parts, and those of the operation. -/
theorem Planned.exists_traffic_parts {instruction : Instruction} {r : Registers}
    {forming acting : List (Exchange Registers)} (h : instruction.Planned r forming acting) :
    ∃ t : Traffic, t.operand ++ t.pointer = forming.map Exchange.granted ∧
      t.data = acting.map Exchange.granted ∧ t.Keeps instruction r := by
  obtain ⟨operand, pointer, rfl, hoperand, hpointer⟩ := List.map_eq_append_iff.mp h.forms
  let t : Traffic :=
    { operand := operand.map Exchange.granted
      pointer := pointer.map Exchange.granted
      data := acting.map Exchange.granted }
  have hoperandBytes : t.operand.filterMap Access.value = operand.map Exchange.byte :=
    Traffic.filterMap_value_granted operand
  have hpointerBytes : t.pointer.filterMap Access.value = pointer.map Exchange.byte :=
    Traffic.filterMap_value_granted pointer
  have hlength : (operand.map Exchange.byte).length = instruction.mode.fetched.length := by
    simpa using congrArg List.length hoperand
  rw [List.map_append, AddressingMode.pointerCells_append _ _ hlength] at hpointer
  refine ⟨t, List.map_append.symm, rfl, ?_⟩
  constructor
  case operand =>
    show (operand.map Exchange.granted).map Access.request = _
    rw [List.map_map]
    exact hoperand
  case pointer =>
    rw [hoperandBytes]
    show (pointer.map Exchange.granted).map Access.request = _
    rw [List.map_map]
    exact hpointer
  case operandBytes => rw [hoperandBytes, hlength]
  case pointerBytes =>
    rw [hpointerBytes, hoperandBytes]
    simpa using congrArg List.length hpointer
  case formed =>
    rw [List.filterMap_append, hoperandBytes, hpointerBytes, ← List.map_append, List.length_map]
    exact h.length_forming
  case data =>
    show (acting.map Exchange.granted).map Access.request = _
    rw [Traffic.operands, List.filterMap_append, hoperandBytes, hpointerBytes, ← List.map_append,
      ← h.acts, List.map_map]
    rfl

theorem Planned.exists_traffic {instruction : Instruction} {r : Registers}
    {forming acting : List (Exchange Registers)} (h : instruction.Planned r forming acting) :
    ∃ t : Traffic, t.accesses = (forming ++ acting).map Exchange.granted ∧
      t.Keeps instruction r := by
  obtain ⟨t, hforming, hacting, hkeeps⟩ := h.exists_traffic_parts
  refine ⟨t, ?_, hkeeps⟩
  rw [Traffic.accesses, hforming, hacting, List.map_append]

/-- **The exchanges of a plan are traffic in order.** -/
theorem Planned.exists_inOrder {opcode : Byte} {r : Registers}
    {forming acting : List (Exchange Registers)}
    (h : (decode opcode).Planned r forming acting) :
    ∃ t : Traffic, t.accesses = (forming ++ acting).map Exchange.granted ∧
      t.InOrder opcode r := by
  obtain ⟨t, haccesses, hkeeps⟩ := h.exists_traffic
  have hreads := Traffic.reads_eq hkeeps.data
  refine ⟨t, haccesses, ?_⟩
  constructor
  case operand => exact hkeeps.operand
  case pointer => exact hkeeps.pointer
  case immediate =>
    intro hmode
    rw [hkeeps.data, decode_plan_of_immediate opcode hmode, hmode]
    rfl
  case directImmediate =>
    intro hmode
    have hsource : (t.operands (decode opcode).mode r).source = r.pc := by
      have hformed := hkeeps.formed
      rw [hmode] at hformed
      rw [Traffic.operands, hmode]
      exact AddressingMode.source_of_directImmediate r hformed
    rw [hreads, ← hsource]
    exact (decode_plan_of_directImmediate opcode hmode).map _
  case readsFirst => exact Traffic.readsFirst_of_plan hkeeps.data
  case targetFirst =>
    rintro (⟨f, hoperation⟩ | hoperation) <;> rw [hreads, hoperation] <;> rfl
  case sourceFirst =>
    rintro ⟨f, hoperation⟩
    rw [hreads, hoperation]
    rfl
  case probed =>
    intro before a after ht hw
    exact Traffic.probed_of_plan hkeeps.data ht hw

end Instruction

namespace Machine

/-- **The accesses of an instruction come in order.** On a bus that refuses nothing, whatever its
reads do to the host, an instruction is completed, and it adds to the record the read of its opcode
and then traffic that is in order. -/
theorem execute_inOrder {bus : Bus σ} (hbus : bus.GrantsEverything) (m : Machine (Recorded σ)) :
    ∃ (opcode : Byte) (host : σ) (t : Traffic),
      bus.read m.processor.registers.pc m.host.host = (.ok opcode, host) ∧
      (m.execute bus.recorded).1 = .ok () ∧
      (m.execute bus.recorded).2.host.accesses =
        m.host.accesses ++ (m.opening opcode :: t.accesses).toArray ∧
      t.InOrder opcode (m.processor.registers.advance 1) := by
  obtain ⟨opcode, host₀, es, extra, registers, host₁, hread, hd, hg⟩ :=
    exists_admits_of_grantsEverything hbus m.processor.registers m.host.host
  obtain ⟨forming, acting, rfl, hplanned⟩ := exists_planned hd
  obtain ⟨t, haccesses, hinOrder⟩ := hplanned.exists_inOrder
  refine ⟨opcode, host₀, t, hread, ?_⟩
  rw [execute_recorded hread hd hg, haccesses]
  exact ⟨rfl, rfl, hinOrder⟩

/-- A host that answers each read with a count and counts on, and takes no notice of writes. -/
def countingBus : Bus Byte where
  read _ count := (.ok count, count + 1)
  write _ _ count := (.ok (), count)

/-- A word store on a host that no two reads find alike. -/
theorem execute_inOrder_of_countingBus :
    let m : Machine (Recorded Byte) := { processor := {}, host := { host := 0xDA } }
    countingBus.GrantsEverything ∧ ∃ (host : Byte) (t : Traffic),
      countingBus.read m.processor.registers.pc m.host.host = (.ok 0xDA, host) ∧
      (m.execute countingBus.recorded).1 = .ok () ∧
      (m.execute countingBus.recorded).2.host.accesses =
        m.host.accesses ++ (m.opening 0xDA :: t.accesses).toArray ∧
      t.InOrder 0xDA (m.processor.registers.advance 1) := by
  intro m
  have hbus : countingBus.GrantsEverything := ⟨fun _ _ => ⟨_, _, rfl⟩, fun _ _ _ => ⟨_, rfl⟩⟩
  obtain ⟨opcode, host, t, hread, hinOrder⟩ := execute_inOrder hbus m
  obtain rfl : 0xDA = opcode := Except.ok.inj (Prod.mk.inj hread).1
  exact ⟨hbus, host, t, hread, hinOrder⟩

end Machine

end Spc700
