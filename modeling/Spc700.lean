import Spc700.Bus.Bench
import Spc700.Machine.Run
import Spc700.Proofs.Dialogue.Granting
import Spc700.Proofs.Microprogram.Operands
import Spc700.Proofs.Microprogram.Execute
import Spc700.Proofs.Machine.Cycle
import Spc700.Proofs.Machine.Refusal
import Spc700.Proofs.Machine.Host
import Spc700.Proofs.Machine.Latch
import Spc700.Proofs.Machine.Pace
import Spc700.Proofs.Microprogram.Order
import Spc700.Proofs.Machine.Traffic
import Spc700.Proofs.Machine.Sequence
import Spc700.Proofs.Microprogram.Stack
import Spc700.Proofs.Machine.Memory
import Spc700.Proofs.Machine.Stack
import Spc700.Proofs.Machine.Call
import Spc700.Proofs.Machine.Policy
import Spc700.Proofs.Machine.Counter
import Spc700.Proofs.Alu.Checked
import Spc700.Proofs.Microprogram.Checked
import Spc700.Proofs.Machine.Checked
import Spc700.Proofs.Machine.Confinement
import Spc700.Proofs.Microprogram.Frame
import Spc700.Proofs.Machine.Frame
import Spc700.Proofs.Machine.Alike
import Spc700.Proofs.Machine.Flow
import Spc700.Proofs.Machine.Log
import Spc700.Proofs.Alu.Number
import Spc700.Proofs.Machine.Computation
import Spc700.Proofs.Machine.Division
import Spc700.Proofs.Machine.Decimal
import Spc700.Proofs.Machine.Multibyte
import Spc700.Proofs.Machine.WordArithmetic
import Spc700.Proofs.Machine.Completion
import Spc700.Proofs.Machine.MemoryForms
import Spc700.Proofs.Machine.BitAddressing
import Spc700.Proofs.Machine.Reload
import Spc700.Proofs.Alu.Turn
import Spc700.Proofs.Machine.LongShift
import Spc700.Proofs.Machine.Multiplication
import Spc700.Proofs.Machine.Loop
import Spc700.Proofs.Machine.Stall
import Spc700.Proofs.Ram.Loading
import Spc700.Proofs.Text.Reading
