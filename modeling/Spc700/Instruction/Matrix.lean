import Spc700.Instruction.Basic

/-!
# The opcode matrix

Every byte is an opcode. The matrix has a row for each high nibble and a column for each low
nibble; `decode` looks an opcode up in it. What an opcode itself holds of the operands, such as the
number of a bit or of a table call, is written out in its entry.
-/

namespace Spc700

namespace OpcodeMatrix

/-- Sixteen instructions whose opcodes share the high nibble, by rising low nibble. -/
abbrev Row := Vector Instruction 16

/-- The opcodes from 00 to 0F in hexadecimal. -/
def row0 : Row := #v[
  ⟨.implied, 2, .nop⟩,
  ⟨.implied, 8, .callTable 0⟩,
  ⟨.direct, 4, .writeBit 0 true⟩,
  ⟨.directRelative, 5, .branchBit 0 true⟩,
  ⟨.direct, 3, .logic .or⟩,
  ⟨.absolute, 4, .logic .or⟩,
  ⟨.indirectX, 3, .logic .or⟩,
  ⟨.directXPointer, 6, .logic .or⟩,
  ⟨.immediate, 2, .logic .or⟩,
  ⟨.directDirect, 6, .logicMemory .or⟩,
  ⟨.absoluteBit, 5, .carryBit .or1⟩,
  ⟨.direct, 4, .shift .asl⟩,
  ⟨.absolute, 5, .shift .asl⟩,
  ⟨.implied, 4, .pushFlags⟩,
  ⟨.absolute, 6, .writeBits true⟩,
  ⟨.implied, 8, .softwareBreak⟩
]

/-- The opcodes from 10 to 1F in hexadecimal. -/
def row1 : Row := #v[
  ⟨.relative, 2, .branch .plus⟩,
  ⟨.implied, 8, .callTable 1⟩,
  ⟨.direct, 4, .writeBit 0 false⟩,
  ⟨.directRelative, 5, .branchBit 0 false⟩,
  ⟨.directX, 4, .logic .or⟩,
  ⟨.absoluteX, 5, .logic .or⟩,
  ⟨.absoluteY, 5, .logic .or⟩,
  ⟨.directPointerY, 6, .logic .or⟩,
  ⟨.directImmediate, 5, .logicMemory .or⟩,
  ⟨.indirectXY, 5, .logicMemory .or⟩,
  ⟨.direct, 6, .stepWord .dec⟩,
  ⟨.directX, 5, .shift .asl⟩,
  ⟨.implied, 2, .shiftAccumulator .asl⟩,
  ⟨.implied, 2, .stepRegister .dec .x⟩,
  ⟨.absolute, 4, .compare .x⟩,
  ⟨.absoluteXPointer, 6, .jump⟩
]

/-- The opcodes from 20 to 2F in hexadecimal. -/
def row2 : Row := #v[
  ⟨.implied, 2, .clearFlags { directPage := true }⟩,
  ⟨.implied, 8, .callTable 2⟩,
  ⟨.direct, 4, .writeBit 1 true⟩,
  ⟨.directRelative, 5, .branchBit 1 true⟩,
  ⟨.direct, 3, .logic .and⟩,
  ⟨.absolute, 4, .logic .and⟩,
  ⟨.indirectX, 3, .logic .and⟩,
  ⟨.directXPointer, 6, .logic .and⟩,
  ⟨.immediate, 2, .logic .and⟩,
  ⟨.directDirect, 6, .logicMemory .and⟩,
  ⟨.absoluteBit, 5, .carryBit .or1Not⟩,
  ⟨.direct, 4, .shift .rol⟩,
  ⟨.absolute, 5, .shift .rol⟩,
  ⟨.implied, 4, .push .a⟩,
  ⟨.directRelative, 5, .branchDifferent⟩,
  ⟨.relative, 4, .branchAlways⟩
]

/-- The opcodes from 30 to 3F in hexadecimal. -/
def row3 : Row := #v[
  ⟨.relative, 2, .branch .minus⟩,
  ⟨.implied, 8, .callTable 3⟩,
  ⟨.direct, 4, .writeBit 1 false⟩,
  ⟨.directRelative, 5, .branchBit 1 false⟩,
  ⟨.directX, 4, .logic .and⟩,
  ⟨.absoluteX, 5, .logic .and⟩,
  ⟨.absoluteY, 5, .logic .and⟩,
  ⟨.directPointerY, 6, .logic .and⟩,
  ⟨.directImmediate, 5, .logicMemory .and⟩,
  ⟨.indirectXY, 5, .logicMemory .and⟩,
  ⟨.direct, 6, .stepWord .inc⟩,
  ⟨.directX, 5, .shift .rol⟩,
  ⟨.implied, 2, .shiftAccumulator .rol⟩,
  ⟨.implied, 2, .stepRegister .inc .x⟩,
  ⟨.direct, 3, .compare .x⟩,
  ⟨.absolute, 8, .call⟩
]

/-- The opcodes from 40 to 4F in hexadecimal. -/
def row4 : Row := #v[
  ⟨.implied, 2, .setFlags { directPage := true }⟩,
  ⟨.implied, 8, .callTable 4⟩,
  ⟨.direct, 4, .writeBit 2 true⟩,
  ⟨.directRelative, 5, .branchBit 2 true⟩,
  ⟨.direct, 3, .logic .eor⟩,
  ⟨.absolute, 4, .logic .eor⟩,
  ⟨.indirectX, 3, .logic .eor⟩,
  ⟨.directXPointer, 6, .logic .eor⟩,
  ⟨.immediate, 2, .logic .eor⟩,
  ⟨.directDirect, 6, .logicMemory .eor⟩,
  ⟨.absoluteBit, 4, .carryBit .and1⟩,
  ⟨.direct, 4, .shift .lsr⟩,
  ⟨.absolute, 5, .shift .lsr⟩,
  ⟨.implied, 4, .push .x⟩,
  ⟨.absolute, 6, .writeBits false⟩,
  ⟨.direct, 6, .callPage⟩
]

/-- The opcodes from 50 to 5F in hexadecimal. -/
def row5 : Row := #v[
  ⟨.relative, 2, .branch .overflowClear⟩,
  ⟨.implied, 8, .callTable 5⟩,
  ⟨.direct, 4, .writeBit 2 false⟩,
  ⟨.directRelative, 5, .branchBit 2 false⟩,
  ⟨.directX, 4, .logic .eor⟩,
  ⟨.absoluteX, 5, .logic .eor⟩,
  ⟨.absoluteY, 5, .logic .eor⟩,
  ⟨.directPointerY, 6, .logic .eor⟩,
  ⟨.directImmediate, 5, .logicMemory .eor⟩,
  ⟨.indirectXY, 5, .logicMemory .eor⟩,
  ⟨.direct, 4, .compareWord⟩,
  ⟨.directX, 5, .shift .lsr⟩,
  ⟨.implied, 2, .shiftAccumulator .lsr⟩,
  ⟨.implied, 2, .transfer .a .x⟩,
  ⟨.absolute, 4, .compare .y⟩,
  ⟨.absolute, 3, .jump⟩
]

/-- The opcodes from 60 to 6F in hexadecimal. -/
def row6 : Row := #v[
  ⟨.implied, 2, .clearFlags { carry := true }⟩,
  ⟨.implied, 8, .callTable 6⟩,
  ⟨.direct, 4, .writeBit 3 true⟩,
  ⟨.directRelative, 5, .branchBit 3 true⟩,
  ⟨.direct, 3, .compare .a⟩,
  ⟨.absolute, 4, .compare .a⟩,
  ⟨.indirectX, 3, .compare .a⟩,
  ⟨.directXPointer, 6, .compare .a⟩,
  ⟨.immediate, 2, .compare .a⟩,
  ⟨.directDirect, 6, .compareMemory⟩,
  ⟨.absoluteBit, 4, .carryBit .and1Not⟩,
  ⟨.direct, 4, .shift .ror⟩,
  ⟨.absolute, 5, .shift .ror⟩,
  ⟨.implied, 4, .push .y⟩,
  ⟨.directRelative, 5, .branchCount⟩,
  ⟨.implied, 5, .ret⟩
]

/-- The opcodes from 70 to 7F in hexadecimal. -/
def row7 : Row := #v[
  ⟨.relative, 2, .branch .overflowSet⟩,
  ⟨.implied, 8, .callTable 7⟩,
  ⟨.direct, 4, .writeBit 3 false⟩,
  ⟨.directRelative, 5, .branchBit 3 false⟩,
  ⟨.directX, 4, .compare .a⟩,
  ⟨.absoluteX, 5, .compare .a⟩,
  ⟨.absoluteY, 5, .compare .a⟩,
  ⟨.directPointerY, 6, .compare .a⟩,
  ⟨.directImmediate, 5, .compareMemory⟩,
  ⟨.indirectXY, 5, .compareMemory⟩,
  ⟨.direct, 5, .arithmeticWord .adc⟩,
  ⟨.directX, 5, .shift .ror⟩,
  ⟨.implied, 2, .shiftAccumulator .ror⟩,
  ⟨.implied, 2, .transfer .x .a⟩,
  ⟨.direct, 3, .compare .y⟩,
  ⟨.implied, 6, .retInterrupt⟩
]

/-- The opcodes from 80 to 8F in hexadecimal. -/
def row8 : Row := #v[
  ⟨.implied, 2, .setFlags { carry := true }⟩,
  ⟨.implied, 8, .callTable 8⟩,
  ⟨.direct, 4, .writeBit 4 true⟩,
  ⟨.directRelative, 5, .branchBit 4 true⟩,
  ⟨.direct, 3, .arithmetic .adc⟩,
  ⟨.absolute, 4, .arithmetic .adc⟩,
  ⟨.indirectX, 3, .arithmetic .adc⟩,
  ⟨.directXPointer, 6, .arithmetic .adc⟩,
  ⟨.immediate, 2, .arithmetic .adc⟩,
  ⟨.directDirect, 6, .arithmeticMemory .adc⟩,
  ⟨.absoluteBit, 5, .carryBit .eor1⟩,
  ⟨.direct, 4, .step .dec⟩,
  ⟨.absolute, 5, .step .dec⟩,
  ⟨.immediate, 2, .load .y⟩,
  ⟨.implied, 4, .popFlags⟩,
  ⟨.directImmediate, 5, .move true⟩
]

/-- The opcodes from 90 to 9F in hexadecimal. -/
def row9 : Row := #v[
  ⟨.relative, 2, .branch .carryClear⟩,
  ⟨.implied, 8, .callTable 9⟩,
  ⟨.direct, 4, .writeBit 4 false⟩,
  ⟨.directRelative, 5, .branchBit 4 false⟩,
  ⟨.directX, 4, .arithmetic .adc⟩,
  ⟨.absoluteX, 5, .arithmetic .adc⟩,
  ⟨.absoluteY, 5, .arithmetic .adc⟩,
  ⟨.directPointerY, 6, .arithmetic .adc⟩,
  ⟨.directImmediate, 5, .arithmeticMemory .adc⟩,
  ⟨.indirectXY, 5, .arithmeticMemory .adc⟩,
  ⟨.direct, 5, .arithmeticWord .sbc⟩,
  ⟨.directX, 5, .step .dec⟩,
  ⟨.implied, 2, .stepRegister .dec .a⟩,
  ⟨.implied, 2, .transfer .sp .x⟩,
  ⟨.implied, 12, .divide⟩,
  ⟨.implied, 5, .exchangeNibbles⟩
]

/-- The opcodes from A0 to AF in hexadecimal. -/
def rowA : Row := #v[
  ⟨.implied, 2, .setFlags { interrupt := true }⟩,
  ⟨.implied, 8, .callTable 10⟩,
  ⟨.direct, 4, .writeBit 5 true⟩,
  ⟨.directRelative, 5, .branchBit 5 true⟩,
  ⟨.direct, 3, .arithmetic .sbc⟩,
  ⟨.absolute, 4, .arithmetic .sbc⟩,
  ⟨.indirectX, 3, .arithmetic .sbc⟩,
  ⟨.directXPointer, 6, .arithmetic .sbc⟩,
  ⟨.immediate, 2, .arithmetic .sbc⟩,
  ⟨.directDirect, 6, .arithmeticMemory .sbc⟩,
  ⟨.absoluteBit, 4, .carryBit .mov1⟩,
  ⟨.direct, 4, .step .inc⟩,
  ⟨.absolute, 5, .step .inc⟩,
  ⟨.immediate, 2, .compare .y⟩,
  ⟨.implied, 4, .pop .a⟩,
  ⟨.indirectXIncrement, 4, .store .a false⟩
]

/-- The opcodes from B0 to BF in hexadecimal. -/
def rowB : Row := #v[
  ⟨.relative, 2, .branch .carrySet⟩,
  ⟨.implied, 8, .callTable 11⟩,
  ⟨.direct, 4, .writeBit 5 false⟩,
  ⟨.directRelative, 5, .branchBit 5 false⟩,
  ⟨.directX, 4, .arithmetic .sbc⟩,
  ⟨.absoluteX, 5, .arithmetic .sbc⟩,
  ⟨.absoluteY, 5, .arithmetic .sbc⟩,
  ⟨.directPointerY, 6, .arithmetic .sbc⟩,
  ⟨.directImmediate, 5, .arithmeticMemory .sbc⟩,
  ⟨.indirectXY, 5, .arithmeticMemory .sbc⟩,
  ⟨.direct, 5, .loadWord⟩,
  ⟨.directX, 5, .step .inc⟩,
  ⟨.implied, 2, .stepRegister .inc .a⟩,
  ⟨.implied, 2, .transfer .x .sp⟩,
  ⟨.implied, 3, .adjustSubtraction⟩,
  ⟨.indirectXIncrement, 4, .load .a⟩
]

/-- The opcodes from C0 to CF in hexadecimal. -/
def rowC : Row := #v[
  ⟨.implied, 2, .clearFlags { interrupt := true }⟩,
  ⟨.implied, 8, .callTable 12⟩,
  ⟨.direct, 4, .writeBit 6 true⟩,
  ⟨.directRelative, 5, .branchBit 6 true⟩,
  ⟨.direct, 4, .store .a true⟩,
  ⟨.absolute, 5, .store .a true⟩,
  ⟨.indirectX, 4, .store .a true⟩,
  ⟨.directXPointer, 7, .store .a true⟩,
  ⟨.immediate, 2, .compare .x⟩,
  ⟨.absolute, 5, .store .x true⟩,
  ⟨.absoluteBit, 6, .storeCarry⟩,
  ⟨.direct, 4, .store .y true⟩,
  ⟨.absolute, 5, .store .y true⟩,
  ⟨.immediate, 2, .load .x⟩,
  ⟨.implied, 4, .pop .x⟩,
  ⟨.implied, 9, .multiply⟩
]

/-- The opcodes from D0 to DF in hexadecimal. -/
def rowD : Row := #v[
  ⟨.relative, 2, .branch .notEqual⟩,
  ⟨.implied, 8, .callTable 13⟩,
  ⟨.direct, 4, .writeBit 6 false⟩,
  ⟨.directRelative, 5, .branchBit 6 false⟩,
  ⟨.directX, 5, .store .a true⟩,
  ⟨.absoluteX, 6, .store .a true⟩,
  ⟨.absoluteY, 6, .store .a true⟩,
  ⟨.directPointerY, 7, .store .a true⟩,
  ⟨.direct, 4, .store .x true⟩,
  ⟨.directY, 5, .store .x true⟩,
  ⟨.direct, 5, .storeWord⟩,
  ⟨.directX, 5, .store .y true⟩,
  ⟨.implied, 2, .stepRegister .dec .y⟩,
  ⟨.implied, 2, .transfer .y .a⟩,
  ⟨.directXRelative, 6, .branchDifferent⟩,
  ⟨.implied, 3, .adjustAddition⟩
]

/-- The opcodes from E0 to EF in hexadecimal. -/
def rowE : Row := #v[
  ⟨.implied, 2, .clearFlags { overflow := true, halfCarry := true }⟩,
  ⟨.implied, 8, .callTable 14⟩,
  ⟨.direct, 4, .writeBit 7 true⟩,
  ⟨.directRelative, 5, .branchBit 7 true⟩,
  ⟨.direct, 3, .load .a⟩,
  ⟨.absolute, 4, .load .a⟩,
  ⟨.indirectX, 3, .load .a⟩,
  ⟨.directXPointer, 6, .load .a⟩,
  ⟨.immediate, 2, .load .a⟩,
  ⟨.absolute, 4, .load .x⟩,
  ⟨.absoluteBit, 5, .invertBit⟩,
  ⟨.direct, 3, .load .y⟩,
  ⟨.absolute, 4, .load .y⟩,
  ⟨.implied, 3, .invertCarry⟩,
  ⟨.implied, 4, .pop .y⟩,
  ⟨.implied, 3, .sleep⟩
]

/-- The opcodes from F0 to FF in hexadecimal. -/
def rowF : Row := #v[
  ⟨.relative, 2, .branch .equal⟩,
  ⟨.implied, 8, .callTable 15⟩,
  ⟨.direct, 4, .writeBit 7 false⟩,
  ⟨.directRelative, 5, .branchBit 7 false⟩,
  ⟨.directX, 4, .load .a⟩,
  ⟨.absoluteX, 5, .load .a⟩,
  ⟨.absoluteY, 5, .load .a⟩,
  ⟨.directPointerY, 6, .load .a⟩,
  ⟨.direct, 3, .load .x⟩,
  ⟨.directY, 4, .load .x⟩,
  ⟨.directDirect, 5, .move false⟩,
  ⟨.directX, 4, .load .y⟩,
  ⟨.implied, 2, .stepRegister .inc .y⟩,
  ⟨.implied, 2, .transfer .a .y⟩,
  ⟨.relative, 4, .branchCountY⟩,
  ⟨.implied, 3, .stop⟩
]

/-- All sixteen rows. -/
def rows : Vector Row 16 := #v[
  row0, row1, row2, row3, row4, row5, row6, row7,
  row8, row9, rowA, rowB, rowC, rowD, rowE, rowF
]

end OpcodeMatrix

/-- The instruction that an opcode stands for. -/
def decode (opcode : Byte) : Instruction :=
  let row : Fin 16 := (opcode.extractLsb' 4 4).toFin
  let column : Fin 16 := (opcode.setWidth 4).toFin
  (OpcodeMatrix.rows.get row).get column

end Spc700
