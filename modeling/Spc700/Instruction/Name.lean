import Spc700.Instruction.Basic

/-!
# Names in a listing

The spelling of modes and operations in the listing of the opcode matrix and in traces. A name
does not show what the opcode itself holds: all sixteen table calls have one name.
-/

namespace Spc700

/-- The mode's name. -/
def AddressingMode.name : AddressingMode → String
  | implied => "Imp"
  | relative => "Rel"
  | direct => "Dir"
  | directRelative => "DirRel"
  | absolute => "Abs"
  | indirectX => "XIndir"
  | directXPointer => "DirXPtr"
  | immediate => "Imm"
  | directX => "DirX"
  | absoluteX => "AbsX"
  | absoluteY => "AbsY"
  | directPointerY => "DirPtrY"
  | directDirect => "DirDir"
  | indirectXY => "XYIndir"
  | directImmediate => "ImmDir"
  | directY => "DirY"
  | absoluteBit => "AbsBit"
  | directXRelative => "DirXRel"
  | absoluteXPointer => "AbsXPtr"
  | indirectXIncrement => "XIndirInc"

/-- The condition's name. -/
def Condition.name : Condition → String
  | plus => "Pl"
  | minus => "Mi"
  | overflowClear => "Vc"
  | overflowSet => "Vs"
  | carryClear => "Cc"
  | carrySet => "Cs"
  | notEqual => "Ne"
  | equal => "Eq"

/-- The name of a bitwise combination. -/
def Logic.name : Logic → String
  | or => "Or"
  | and => "And"
  | eor => "Eor"

/-- The name of an addition or subtraction of bytes. -/
def Arithmetic.name : Arithmetic → String
  | adc => "Adc"
  | sbc => "Sbc"

/-- The name of an addition or subtraction of words. -/
def Arithmetic.wordName : Arithmetic → String
  | adc => "Addw"
  | sbc => "Subw"

/-- The name of a shift or rotation. -/
def Shift.name : Shift → String
  | asl => "Asl"
  | lsr => "Lsr"
  | rol => "Rol"
  | ror => "Ror"

/-- The name of a count by one. -/
def Step.name : Step → String
  | inc => "Inc"
  | dec => "Dec"

/-- The name of an operation of a bit on the carry. -/
def CarryBit.name : CarryBit → String
  | or1 => "Or1"
  | or1Not => "Or1Not"
  | and1 => "And1"
  | and1Not => "And1Not"
  | eor1 => "Eor1"
  | mov1 => "Mov1"

/-- A name with an argument in parentheses. -/
def withArgument (name argument : String) : String := name ++ "(" ++ argument ++ ")"

/-- The operation's name. -/
def Operation.name : Operation → String
  | logic f => f.name
  | logicMemory f => f.name ++ "Mem"
  | arithmetic f => f.name
  | arithmeticMemory f => f.name ++ "Mem"
  | compare r => withArgument "Cmp" r.name
  | compareMemory => "CmpMem"
  | shift f => f.name
  | shiftAccumulator f => f.name ++ "Acc"
  | step f => f.name
  | stepRegister f r => withArgument (f.name ++ "Reg") r.name
  | exchangeNibbles => "Xcn"
  | loadWord => "Movw"
  | storeWord => "MovwStore"
  | stepWord f => f.name ++ "w"
  | arithmeticWord f => f.wordName
  | compareWord => "Cmpw"
  | multiply => "Mul"
  | divide => "Div"
  | adjustAddition => "Daa"
  | adjustSubtraction => "Das"
  | writeBit _ on => if on then "Set1" else "Clr1"
  | writeBits on => if on then "Tset1" else "Tclr1"
  | carryBit f => f.name
  | invertBit => "Not1"
  | storeCarry => "Mov1Store"
  | branch c => withArgument "Branch" c.name
  | branchBit _ on => if on then "Bbs" else "Bbc"
  | branchDifferent => "Cbne"
  | branchCount => "Dbnz"
  | branchCountY => "DbnzY"
  | branchAlways => "Bra"
  | jump => "Jmp"
  | call => "Call"
  | callPage => "Pcall"
  | callTable _ => "Tcall"
  | softwareBreak => "Brk"
  | ret => "Ret"
  | retInterrupt => "Reti"
  | push r => withArgument "Push" r.name
  | pushFlags => "PushPsw"
  | pop r => withArgument "Pop" r.name
  | popFlags => "PopPsw"
  | load r => withArgument "Load" r.name
  | store r _ => withArgument "Store" r.name
  | transfer source target => withArgument "Transfer" (source.name ++ ", " ++ target.name)
  | move _ => "MovMem"
  | setFlags which => withArgument "SetFlag" which.text
  | clearFlags which => withArgument "ClearFlag" which.text
  | invertCarry => "Notc"
  | nop => "Nop"
  | sleep => "Sleep"
  | stop => "Stop"

end Spc700
