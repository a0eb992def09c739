import Spc700.Fault
import Spc700.Proofs.Text.Form
import Spc700.Registers

/-!
# Reading the registers and faults

The registers are written in a form (`Registers.write_form`), and so is a fault up to its free part
(`Fault.write_form_append`), which for that reason stands last: it is all that the form leaves.

Main statements: `Registers.ofText?_eq_some_iff` and `Fault.ofText?_eq_some_iff` (only what was
written is read, and as what it was written for) and `text_lossless` (to compare texts is to
compare what they show).
-/

namespace Spc700

open Form

/-! ## Registers -/

namespace Registers

/-- The registers as six numbers, the flags as their byte. -/
def values : Registers ≃ Byte × Byte × Byte × Byte × Word × Byte where
  toFun r := (r.a, r.x, r.y, r.sp, r.pc, r.psw.toByte)
  invFun := fun (a, x, y, sp, pc, psw) => { a, x, y, sp, pc, psw := .ofByte psw }
  left_inv r := by simp only [Flags.ofByte_toByte]
  right_inv v := by simp only [Flags.toByte_ofByte]

/-- How registers are written. -/
def form : Form Registers :=
  Form.map values.symm <|
    (hexByte.labelled "a: $").seq <| (hexByte.labelled " x: $").seq <|
    (hexByte.labelled " y: $").seq <| (hexByte.labelled " sp: $").seq <|
    (hexWord.labelled " pc: $").seq <| binaryByte.labelled " nvpbhizc: "

theorem write_form (r : Registers) : form.write r = r.text := by
  -- By hand, because the equation that simp would make for the text takes seconds.
  unfold text
  simp only [form, values, write_map, write_seq, write_labelled, write_hexByte, write_hexWord,
    write_binaryByte, Equiv.symm_symm, Equiv.coe_fn_mk, String.append_assoc]

/-- The registers that a text shows. -/
def ofText? : String → Option Registers := form.ofText?

/-- **Only the text of some registers is read, and as these registers.** -/
theorem ofText?_eq_some_iff {s : String} {r : Registers} : ofText? s = some r ↔ s = r.text := by
  rw [ofText?, Form.ofText?_eq_some_iff, write_form]

theorem text_injective {r r' : Registers} (h : r.text = r'.text) : r = r' :=
  Option.some.inj ((ofText?_eq_some_iff.mpr rfl).symm.trans (ofText?_eq_some_iff.mpr h))

end Registers

/-! ## Faults -/

namespace Fault

/-- How a fault is written up to its free part. -/
def form : Form (Byte × Word) :=
  (hexByte.labelled "opcode $").seq <| (hexWord.labelled " at $").followedBy " faulted: "

theorem write_form_append (f : Fault) : form.write (f.opcode, f.pc) ++ f.detail = f.text := by
  unfold text
  simp only [form, write_seq, write_labelled, write_followedBy, write_hexByte, write_hexWord,
    String.append_assoc]

/-- The fault that a text shows. Whatever stands behind the form is its detail. -/
def ofText? (s : String) : Option Fault :=
  (form.split? s).map fun ((opcode, pc), detail) => { opcode, pc, detail }

/-- **Only the text of some fault is read, and as this fault.** -/
theorem ofText?_eq_some_iff {s : String} {f : Fault} : ofText? s = some f ↔ s = f.text := by
  simp only [ofText?, Option.map_eq_some_iff, Prod.exists, split?_eq_some_iff]
  constructor
  · rintro ⟨opcode, pc, detail, rfl, rfl⟩
    exact write_form_append ⟨opcode, pc, detail⟩
  · rintro rfl
    exact ⟨f.opcode, f.pc, f.detail, (write_form_append f).symm, rfl⟩

-- A detail that looks like the rest of a fault.
example : ofText? "opcode $E4 at $0200 faulted:  at $0300 faulted: " =
    some ⟨0xE4, 0x0200, " at $0300 faulted: "⟩ := by decide

theorem text_injective {f f' : Fault} (h : f.text = f'.text) : f = f' :=
  Option.some.inj ((ofText?_eq_some_iff.mpr rfl).symm.trans (ofText?_eq_some_iff.mpr h))

end Fault

/-- **The texts lose nothing.**

* The text of any registers is read back as these registers, and no other text is read. Two texts
  of registers are the same only if all six values are, and the values may be any.
* The text of any fault is read back as this fault, and no other text is read. Two texts of faults
  are the same only if opcode, address and detail are, whatever the details contain.
* So to compare two texts is to compare the registers or the faults. -/
theorem text_lossless :
    (∀ (s : String) (r : Registers), Registers.ofText? s = some r ↔ s = r.text) ∧
    (∀ r r' : Registers, r.text = r'.text ↔ Registers.values r = Registers.values r') ∧
    (∀ (s : String) (f : Fault), Fault.ofText? s = some f ↔ s = f.text) ∧
    (∀ f f' : Fault, f.text = f'.text ↔
      f.opcode = f'.opcode ∧ f.pc = f'.pc ∧ f.detail = f'.detail) ∧
    (∀ r r' : Registers, (r.text == r'.text) = (r == r')) ∧
    ∀ f f' : Fault, (f.text == f'.text) = (f == f') := by
  have hregisters : ∀ r r' : Registers, r.text = r'.text ↔ r = r' :=
    fun _ _ => ⟨Registers.text_injective, congrArg Registers.text⟩
  have hfaults : ∀ f f' : Fault, f.text = f'.text ↔ f = f' :=
    fun _ _ => ⟨Fault.text_injective, congrArg Fault.text⟩
  refine ⟨fun _ _ => Registers.ofText?_eq_some_iff, ?_, fun _ _ => Fault.ofText?_eq_some_iff,
    ?_, ?_, ?_⟩
  · intro r r'
    rw [hregisters, Registers.values.apply_eq_iff_eq]
  · intro f f'
    rw [hfaults, Fault.mk.injEq]
  · intro r r'
    rw [Bool.eq_iff_iff, beq_iff_eq, beq_iff_eq, hregisters]
  · intro f f'
    rw [Bool.eq_iff_iff, beq_iff_eq, beq_iff_eq, hfaults]

end Spc700
