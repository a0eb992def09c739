import Spc700.Instruction.Matrix
import Spc700.Proofs.Microprogram.Plan

/-!
# The order within a plan

A read can have effects on the host, so the order of an operation's accesses is part of what it
does. No plan reads after it has written, but for the vectors of two calls
(`Operation.plan_eq_append`), and a plan writes only where it has read before, but for the places
that are listed in `Operation.unprobed` (`Operation.mem_of_plan_eq`).
-/

namespace Spc700

/-- A write is followed by writes only. -/
def NoReadAfter (first second : Direction) : Prop := first = .write → second = .write

instance (first second : Direction) : Decidable (NoReadAfter first second) :=
  inferInstanceAs (Decidable (first = .write → second = .write))

namespace Operation

/-- The operation reads a vector once it has pushed. -/
def ReadsVector (operation : Operation) : Prop :=
  (∃ n, operation = callTable n) ∨ operation = softwareBreak

/-- **No plan reads after it has written**, but for the two bytes of a vector that are read when
all has been pushed. -/
theorem plan_eq_append (operation : Operation) :
    ∃ front vector, operation.plan = front ++ vector ∧
      front.Pairwise (fun v w => NoReadAfter v.direction w.direction) ∧
      (vector = [] ∨ operation.ReadsVector ∧ (∀ v ∈ front, v.direction = .write) ∧
        ∃ address, vector = vectorVisits address) := by
  cases operation with
  | callTable n =>
    exact ⟨pushVisits 2, vectorVisits (callVector n), rfl, by decide,
      .inr ⟨.inl ⟨n, rfl⟩, by decide, _, rfl⟩⟩
  | softwareBreak =>
    exact ⟨pushVisits 3, vectorVisits breakVector, rfl, by decide,
      .inr ⟨.inr rfl, by decide, _, rfl⟩⟩
  | store r probe =>
    refine ⟨_, [], (List.append_nil _).symm, ?_, .inl rfl⟩
    cases probe <;> simp [plan, NoReadAfter]
  | move probe =>
    refine ⟨_, [], (List.append_nil _).symm, ?_, .inl rfl⟩
    cases probe <;> simp [plan, NoReadAfter]
  | _ =>
    refine ⟨_, [], (List.append_nil _).symm, ?_, .inl rfl⟩
    simp [plan, pushVisits, popVisits, pushes, pops, NoReadAfter, List.range_succ]

/-! ## Probes -/

/-- Every write in the list goes to a place that was read before in it, is among `seen`, or is
exempt. -/
def Probed (exempt : List Place) : List Place → List Visit → Prop
  | _, [] => True
  | seen, ⟨.read, place⟩ :: visits => Probed exempt (place :: seen) visits
  | seen, ⟨.write, place⟩ :: visits =>
    (place ∈ seen ∨ place ∈ exempt) ∧ Probed exempt seen visits

theorem Probed.of_append {exempt seen : List Place} {before after : List Visit} {v : Visit}
    (h : Probed exempt seen (before ++ v :: after)) (hw : v.direction = .write) :
    v.place ∈ seen ∨ ⟨.read, v.place⟩ ∈ before ∨ v.place ∈ exempt := by
  obtain ⟨direction, place⟩ := v
  obtain rfl : direction = .write := hw
  induction before generalizing seen with
  | nil => exact h.1.imp_right .inr
  | cons first before ih =>
    obtain ⟨direction, firstPlace⟩ := first
    cases direction with
    | read =>
      rcases ih h with hseen | hbefore | hexempt
      · rcases List.mem_cons.mp hseen with rfl | hseen
        · exact .inr (.inl (List.mem_cons_self))
        · exact .inl hseen
      · exact .inr (.inl (List.mem_cons_of_mem _ hbefore))
      · exact .inr (.inr hexempt)
    | write =>
      rcases ih h.2 with hseen | hbefore | hexempt
      · exact .inl hseen
      · exact .inr (.inl (List.mem_cons_of_mem _ hbefore))
      · exact .inr (.inr hexempt)

/-- The places that an operation may write without having read them. -/
def unprobed (operation : Operation) : List Place :=
  match operation with
  | storeWord => [.highCell]
  | store _ false | move false => [.cell]
  | _ => (List.range operation.pushes).map .pushed

theorem probed_plan (operation : Operation) : Probed operation.unprobed [] operation.plan := by
  cases operation with
  | store r probe => cases probe <;> simp [Probed, plan, unprobed]
  | move probe => cases probe <;> simp [Probed, plan, unprobed]
  | _ => simp [Probed, plan, unprobed, pushVisits, popVisits, vectorVisits, pushes, pops,
      List.range_succ]

/-- **A plan writes where it has read**, but for the places listed. -/
theorem mem_of_plan_eq {operation : Operation} {before after : List Visit} {v : Visit}
    (h : operation.plan = before ++ v :: after) (hw : v.direction = .write) :
    ⟨.read, v.place⟩ ∈ before ∨ v.place ∈ operation.unprobed := by
  have hprobed := operation.probed_plan
  rw [h] at hprobed
  simpa using hprobed.of_append hw

end Operation

/-! ## In the opcode matrix -/

/-- An immediate byte is the only datum of its instruction. -/
theorem decode_plan_of_immediate : ∀ opcode : Byte, (decode opcode).mode = .immediate →
    (decode opcode).operation.plan = [⟨.read, .cell⟩] := by
  decide +kernel

/-- An immediate byte beside a cell is read once. -/
theorem decode_plan_of_directImmediate : ∀ opcode : Byte, (decode opcode).mode = .directImmediate →
    ((decode opcode).operation.plan.filter fun v => v.direction = .read).Perm
      [⟨.read, .cell⟩, ⟨.read, .source⟩] := by
  decide +kernel

/-- Beside the stack, three opcodes write what they have not read: a store through X moved on, a
move between cells, and a word store in its high byte. -/
theorem decode_unprobed : ∀ opcode : Byte, ∀ place ∈ (decode opcode).operation.unprobed,
    (∃ i < (decode opcode).operation.pushes, place = .pushed i) ∨
      opcode = 0xAF ∨ opcode = 0xFA ∨ opcode = 0xDA ∧ place = .highCell := by
  decide +kernel

/-- No instruction makes more accesses than it takes cycles. -/
theorem decode_accessCount_le : ∀ opcode : Byte,
    (decode opcode).accessCount ≤ (decode opcode).cycles := by
  decide +kernel

end Spc700
