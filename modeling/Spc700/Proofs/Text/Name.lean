import Spc700.Instruction.Name

/-!
# Reading names

The names of a listing are read by spellings of their own, one for each mode and operation, not by
those that they are written with. So it is a theorem that the two agree, and that no name stands for
two things: a name tells the mode (`AddressingMode.ofName?_name`) and the operation up to what the
opcode itself holds (`Operation.ofName?_name`, `Operation.plain`).
-/

namespace Spc700

/-! ## Cuts -/

section Cuts

variable {c : Char} {cs front behind : List Char}

/-- The text in front of the first such character, and the text behind it. -/
def cut? (c : Char) : List Char → Option (List Char × List Char)
  | [] => none
  | d :: cs =>
    if d = c then some ([], cs)
    else (cut? c cs).map fun (front, behind) => (d :: front, behind)

/-- The text in front of the last such character, and the text behind it. -/
def cutLast? (c : Char) (cs : List Char) : Option (List Char × List Char) :=
  (cut? c cs.reverse).map fun (behind, front) => (front.reverse, behind.reverse)

theorem cut?_of_not_mem (h : c ∉ cs) : cut? c cs = none := by
  induction cs with
  | nil => rfl
  | cons d cs ih =>
    rw [List.mem_cons, not_or] at h
    obtain ⟨hd, hcs⟩ := h
    rw [cut?, if_neg (Ne.symm hd), ih hcs]
    rfl

theorem cut?_append (h : c ∉ front) : cut? c (front ++ c :: behind) = some (front, behind) := by
  induction front with
  | nil => exact if_pos rfl
  | cons d front ih =>
    rw [List.mem_cons, not_or] at h
    obtain ⟨hd, hfront⟩ := h
    rw [List.cons_append, cut?, if_neg (Ne.symm hd), ih hfront]
    rfl

theorem cutLast?_append (h : c ∉ behind) :
    cutLast? c (front ++ c :: behind) = some (front, behind) := by
  have hreverse : (front ++ c :: behind).reverse = behind.reverse ++ c :: front.reverse := by simp
  rw [cutLast?, hreverse, cut?_append (mt List.mem_reverse.mp h)]
  simp

end Cuts

/-! ## Modes, conditions, registers and flags -/

/-- The mode that a name stands for. -/
def AddressingMode.ofName? : String → Option AddressingMode
  | "Imp" => some implied
  | "Rel" => some relative
  | "Dir" => some direct
  | "DirRel" => some directRelative
  | "Abs" => some absolute
  | "XIndir" => some indirectX
  | "DirXPtr" => some directXPointer
  | "Imm" => some immediate
  | "DirX" => some directX
  | "AbsX" => some absoluteX
  | "AbsY" => some absoluteY
  | "DirPtrY" => some directPointerY
  | "DirDir" => some directDirect
  | "XYIndir" => some indirectXY
  | "ImmDir" => some directImmediate
  | "DirY" => some directY
  | "AbsBit" => some absoluteBit
  | "DirXRel" => some directXRelative
  | "AbsXPtr" => some absoluteXPointer
  | "XIndirInc" => some indirectXIncrement
  | _ => none

/-- **A name tells the mode.** -/
theorem AddressingMode.ofName?_name (mode : AddressingMode) : ofName? mode.name = some mode := by
  cases mode <;> rfl

/-- The condition that a name stands for. -/
def Condition.ofName? : String → Option Condition
  | "Pl" => some plus
  | "Mi" => some minus
  | "Vc" => some overflowClear
  | "Vs" => some overflowSet
  | "Cc" => some carryClear
  | "Cs" => some carrySet
  | "Ne" => some notEqual
  | "Eq" => some equal
  | _ => none

/-- The register that a name stands for. -/
def Register.ofName? : String → Option Register
  | "A" => some a
  | "X" => some x
  | "Y" => some y
  | "SP" => some sp
  | _ => none

/-- The set of flags whose letters stand in a text. -/
def Flags.ofText (s : String) : Flags :=
  let cs := s.toList
  { negative := cs.contains 'N', overflow := cs.contains 'V', directPage := cs.contains 'P',
    brk := cs.contains 'B', halfCarry := cs.contains 'H', interrupt := cs.contains 'I',
    zero := cs.contains 'Z', carry := cs.contains 'C' }

theorem Flags.toList_text (f : Flags) :
    f.text.toList =
      match f.letters with
      | [] => "(empty)".toList
      | ls => " | ".toList.intercalate (ls.map String.toList) := by
  unfold text
  cases f.letters with
  | nil => rfl
  | cons l ls => exact String.toList_intercalate

/-- A text tells the set of flags. -/
theorem Flags.ofText_text (f : Flags) : ofText f.text = f := by
  unfold ofText
  rw [toList_text, ← ofByte_toByte f]
  generalize f.toByte = b
  revert b
  decide +kernel

/-! ## Operations -/

namespace Operation

/-- What a name shows of an operation: all but what the opcode itself holds. -/
def plain : Operation → Operation
  | writeBit _ on => writeBit 0 on
  | branchBit _ on => branchBit 0 on
  | callTable _ => callTable 0
  | store r _ => store r false
  | move _ => move false
  | operation => operation

/-- The operation that a name without an argument stands for. -/
def ofWord? : String → Option Operation
  | "Or" => some (logic .or)
  | "And" => some (logic .and)
  | "Eor" => some (logic .eor)
  | "OrMem" => some (logicMemory .or)
  | "AndMem" => some (logicMemory .and)
  | "EorMem" => some (logicMemory .eor)
  | "Adc" => some (arithmetic .adc)
  | "Sbc" => some (arithmetic .sbc)
  | "AdcMem" => some (arithmeticMemory .adc)
  | "SbcMem" => some (arithmeticMemory .sbc)
  | "CmpMem" => some compareMemory
  | "Asl" => some (shift .asl)
  | "Lsr" => some (shift .lsr)
  | "Rol" => some (shift .rol)
  | "Ror" => some (shift .ror)
  | "AslAcc" => some (shiftAccumulator .asl)
  | "LsrAcc" => some (shiftAccumulator .lsr)
  | "RolAcc" => some (shiftAccumulator .rol)
  | "RorAcc" => some (shiftAccumulator .ror)
  | "Inc" => some (step .inc)
  | "Dec" => some (step .dec)
  | "Xcn" => some exchangeNibbles
  | "Movw" => some loadWord
  | "MovwStore" => some storeWord
  | "Incw" => some (stepWord .inc)
  | "Decw" => some (stepWord .dec)
  | "Addw" => some (arithmeticWord .adc)
  | "Subw" => some (arithmeticWord .sbc)
  | "Cmpw" => some compareWord
  | "Mul" => some multiply
  | "Div" => some divide
  | "Daa" => some adjustAddition
  | "Das" => some adjustSubtraction
  | "Set1" => some (writeBit 0 true)
  | "Clr1" => some (writeBit 0 false)
  | "Tset1" => some (writeBits true)
  | "Tclr1" => some (writeBits false)
  | "Or1" => some (carryBit .or1)
  | "Or1Not" => some (carryBit .or1Not)
  | "And1" => some (carryBit .and1)
  | "And1Not" => some (carryBit .and1Not)
  | "Eor1" => some (carryBit .eor1)
  | "Mov1" => some (carryBit .mov1)
  | "Not1" => some invertBit
  | "Mov1Store" => some storeCarry
  | "Bbs" => some (branchBit 0 true)
  | "Bbc" => some (branchBit 0 false)
  | "Cbne" => some branchDifferent
  | "Dbnz" => some branchCount
  | "DbnzY" => some branchCountY
  | "Bra" => some branchAlways
  | "Jmp" => some jump
  | "Call" => some call
  | "Pcall" => some callPage
  | "Tcall" => some (callTable 0)
  | "Brk" => some softwareBreak
  | "Ret" => some ret
  | "Reti" => some retInterrupt
  | "PushPsw" => some pushFlags
  | "PopPsw" => some popFlags
  | "MovMem" => some (move false)
  | "Notc" => some invertCarry
  | "Nop" => some nop
  | "Sleep" => some sleep
  | "Stop" => some stop
  | _ => none

/-- The operation that a name with an argument stands for. -/
def ofCall? (word argument : String) : Option Operation :=
  match word with
  | "Cmp" => (Register.ofName? argument).map compare
  | "IncReg" => (Register.ofName? argument).map (stepRegister .inc)
  | "DecReg" => (Register.ofName? argument).map (stepRegister .dec)
  | "Branch" => (Condition.ofName? argument).map branch
  | "Push" => (Register.ofName? argument).map push
  | "Pop" => (Register.ofName? argument).map pop
  | "Load" => (Register.ofName? argument).map load
  | "Store" => (Register.ofName? argument).map (store · false)
  | "Transfer" => do
    let (source, target) ← cut? ',' argument.toList
    -- A blank stands in front of the target.
    return transfer (← Register.ofName? (String.ofList source))
      (← Register.ofName? (String.ofList (target.drop 1)))
  | "SetFlag" => some (setFlags (.ofText argument))
  | "ClearFlag" => some (clearFlags (.ofText argument))
  | _ => none

/-- The operation that a name stands for, with or without an argument in parentheses. -/
def ofName? (name : String) : Option Operation :=
  match cut? '(' name.toList with
  | none => ofWord? name
  | some (word, argument) => ofCall? (String.ofList word) (String.ofList argument.dropLast)

theorem ofName?_word (word : String) (h : '(' ∉ word.toList) : ofName? word = ofWord? word := by
  rw [ofName?, cut?_of_not_mem h]

theorem ofName?_withArgument {word argument : String} (h : '(' ∉ word.toList) :
    ofName? (withArgument word argument) = ofCall? word argument := by
  have htext : (withArgument word argument).toList =
      word.toList ++ '(' :: (argument.toList ++ [')']) := by
    simp [withArgument]
  simp only [ofName?, htext, cut?_append h, List.dropLast_concat, String.ofList_toList]

/-- **A name tells the operation**, up to what the opcode itself holds. -/
theorem ofName?_name (operation : Operation) : ofName? operation.name = some operation.plain := by
  cases operation
  -- Names with an argument, which is read on its own.
  case compare r | push r | pop r | load r | store r _ =>
    refine (ofName?_withArgument (by decide)).trans ?_
    cases r <;> rfl
  case stepRegister f r =>
    cases f
    · refine (ofName?_withArgument (by decide)).trans ?_
      cases r <;> rfl
    · refine (ofName?_withArgument (by decide)).trans ?_
      cases r <;> rfl
  case branch c =>
    refine (ofName?_withArgument (by decide)).trans ?_
    cases c <;> rfl
  case transfer source target =>
    refine (ofName?_withArgument (by decide)).trans ?_
    cases source <;> cases target <;> rfl
  case setFlags which =>
    refine (ofName?_withArgument (by decide)).trans ?_
    exact congrArg (fun which => some (setFlags which)) which.ofText_text
  case clearFlags which =>
    refine (ofName?_withArgument (by decide)).trans ?_
    exact congrArg (fun which => some (clearFlags which)) which.ofText_text
  -- Names that are one word. Of some the opcode holds a part, which the word does not show.
  case logic f | logicMemory f | shift f | shiftAccumulator f | carryBit f =>
    cases f <;> exact (ofName?_word _ (by decide)).trans rfl
  case arithmetic f | arithmeticMemory f | arithmeticWord f | step f | stepWord f =>
    cases f <;> exact (ofName?_word _ (by decide)).trans rfl
  case writeBits on =>
    cases on <;> exact (ofName?_word _ (by decide)).trans rfl
  case writeBit _ on =>
    cases on
    · exact (ofName?_word "Clr1" (by decide)).trans rfl
    · exact (ofName?_word "Set1" (by decide)).trans rfl
  case branchBit _ on =>
    cases on
    · exact (ofName?_word "Bbc" (by decide)).trans rfl
    · exact (ofName?_word "Bbs" (by decide)).trans rfl
  case callTable => exact (ofName?_word "Tcall" (by decide)).trans rfl
  case move => exact (ofName?_word "MovMem" (by decide)).trans rfl
  all_goals exact (ofName?_word _ (by decide)).trans rfl

end Operation

end Spc700
