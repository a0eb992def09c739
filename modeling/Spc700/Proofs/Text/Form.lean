import Mathlib.Algebra.Group.Nat.Defs
import Mathlib.Data.List.Basic
import Mathlib.Data.List.Induction
import Mathlib.Logic.Equiv.Prod
import Spc700.Text.Numeral

/-!
# Forms of text

A `Form` is a way of writing values that can be read back in front of any text. Numerals of fixed
width are one (`Form.word`), and so is what is put together from forms and known labels.

* `Numeral.read?_eq_some_iff`: a row of digits is a number below a power of the base.
* `Form.read_eq_some_iff`, which every form carries, says that a form reads what it writes and
  nothing else.
* `Form.split?_eq_some_iff` and `Form.ofText?_eq_some_iff` say the same of texts: a text shows the
  value that it begins with, and a whole text at most one value.
-/

namespace Spc700

namespace Numeral

/-! ## Numerals -/

variable {base places n d : Nat} {c : Char} {cs rest : List Char}

/-- Whether a character is a digit in a base up to sixteen. -/
def isDigit (base : Nat) (c : Char) : Bool :=
  (c.isDigit || ('A' ≤ c && c ≤ 'F')) && digitValue c < base

/-- A number with so many digits, taken off the front of a text. -/
def read? (base places : Nat) (cs : List Char) : Option (Nat × List Char) :=
  if places ≤ cs.length ∧ (cs.take places).all (isDigit base) then
    some (value base (cs.take places), cs.drop places)
  else none

theorem digit_digitValue (h : c.isDigit = true ∨ 'A' ≤ c ∧ c ≤ 'F') :
    digit (digitValue c) = c := by
  have hdecimal : c.isDigit = true ↔ 48 ≤ c.toNat ∧ c.toNat ≤ 57 := Char.isDigit_iff_toNat
  have hletter : 'A' ≤ c ∧ c ≤ 'F' ↔ 65 ≤ c.toNat ∧ c.toNat ≤ 70 := by
    simp only [Char.le_def, UInt32.le_iff_toNat_le]
    rfl
  rw [hdecimal, hletter] at h
  rcases h with h | h
  · have hvalue : digitValue c = c.toNat - 48 := if_pos (by omega)
    have hcode : 48 + (c.toNat - 48) = c.toNat := by omega
    rw [hvalue, digit, if_pos (by omega), hcode, Char.ofNat_toNat]
  · have hvalue : digitValue c = c.toNat - 55 := if_neg (by omega)
    have hcode : 55 + (c.toNat - 55) = c.toNat := by omega
    rw [hvalue, digit, if_neg (by omega), hcode, Char.ofNat_toNat]

theorem isDigit_iff (hle : base ≤ 16) : isDigit base c = true ↔ ∃ d < base, digit d = c := by
  constructor
  · intro h
    simp only [isDigit, Bool.and_eq_true, Bool.or_eq_true, decide_eq_true_eq] at h
    exact ⟨digitValue c, h.2, digit_digitValue h.1⟩
  · rintro ⟨d, hd, rfl⟩
    have hlt : d < 16 := Nat.lt_of_lt_of_le hd hle
    have hcharacter : ∀ d < 16, ((digit d).isDigit || ('A' ≤ digit d && digit d ≤ 'F')) := by
      decide
    rw [isDigit, hcharacter d hlt, digitValue_digit hlt, Bool.true_and]
    exact decide_eq_true hd

theorem all_digits (hpos : 0 < base) (hle : base ≤ 16) (places n : Nat) :
    (digits base places n).all (isDigit base) = true := by
  induction places generalizing n with
  | zero => rfl
  | succ places ih =>
    have hlast : isDigit base (digit (n % base)) = true :=
      (isDigit_iff hle).mpr ⟨n % base, Nat.mod_lt n hpos, rfl⟩
    simp [digits, ih, hlast]

/-- The digits read back as the number, as far as the width goes. -/
theorem value_digits_eq_mod (hpos : 0 < base) (hle : base ≤ 16) (places n : Nat) :
    value base (digits base places n) = n % base ^ places := by
  induction places generalizing n with
  | zero => rw [Nat.pow_zero, Nat.mod_one]; rfl
  | succ places ih =>
    rw [value_digits hpos hle, ih, Nat.pow_succ', Nat.mod_mul, Nat.add_comm]

theorem digits_concat (hd : d < base) :
    digits base (places + 1) (n * base + d) = digits base places n ++ [digit d] := by
  have hpos : 0 < base := Nat.zero_lt_of_lt hd
  have hdiv : (n * base + d) / base = n := by
    rw [Nat.mul_comm, Nat.mul_add_div hpos, Nat.div_eq_of_lt hd, Nat.add_zero]
  have hmod : (n * base + d) % base = d := by
    rw [Nat.mul_add_mod_self_right, Nat.mod_eq_of_lt hd]
  rw [digits, hdiv, hmod]

/-- A row of digits is what its value is written as. -/
theorem digits_value (hle : base ≤ 16) (h : cs.all (isDigit base) = true) :
    value base cs < base ^ cs.length ∧ digits base cs.length (value base cs) = cs := by
  induction cs using List.reverseRecOn with
  | nil => exact ⟨Nat.one_pos, rfl⟩
  | append_singleton cs c ih =>
    rw [List.all_append, Bool.and_eq_true] at h
    obtain ⟨hlt, hdigits⟩ := ih h.1
    have hc : isDigit base c = true := by simpa using h.2
    obtain ⟨d, hd, rfl⟩ := (isDigit_iff hle).mp hc
    rw [value_concat, digitValue_digit (Nat.lt_of_lt_of_le hd hle), List.length_append,
      List.length_singleton, digits_concat hd, hdigits, Nat.pow_succ]
    refine ⟨?_, rfl⟩
    calc value base cs * base + d
      _ < value base cs * base + base := Nat.add_lt_add_left hd _
      _ = (value base cs + 1) * base := (Nat.succ_mul _ _).symm
      _ ≤ base ^ cs.length * base := Nat.mul_le_mul_right base hlt

/-- **A numeral is read as it is written**, whatever stands behind it. -/
theorem read?_eq_some_iff (hpos : 0 < base) (hle : base ≤ 16) :
    read? base places cs = some (n, rest) ↔
      n < base ^ places ∧ cs = digits base places n ++ rest := by
  constructor
  · intro h
    rw [read?, Option.ite_none_right_eq_some] at h
    obtain ⟨⟨hlength, hall⟩, h⟩ := h
    cases h
    obtain ⟨hlt, hdigits⟩ := digits_value hle hall
    rw [List.length_take_of_le hlength] at hlt hdigits
    exact ⟨hlt, by rw [hdigits, List.take_append_drop]⟩
  · rintro ⟨hn, rfl⟩
    have htake : (digits base places n ++ rest).take places = digits base places n :=
      List.take_left' (length_digits base places n)
    have hdrop : (digits base places n ++ rest).drop places = rest :=
      List.drop_left' (length_digits base places n)
    rw [read?, htake, hdrop, value_digits_eq_mod hpos hle, Nat.mod_eq_of_lt hn]
    exact if_pos ⟨by simp, all_digits hpos hle places n⟩

end Numeral

/-! ## Forms -/

/-- A way of writing values that can be read back, whatever text stands behind them. -/
structure Form (α : Type) where
  write : α → String
  /-- takes a value off the front of a text -/
  read : List Char → Option (α × List Char)
  read_eq_some_iff {cs : List Char} {v : α} {rest : List Char} :
    read cs = some (v, rest) ↔ cs = (write v).toList ++ rest

namespace Form

variable {α β : Type}

/-- A word as a numeral, if there are as many numerals of that width as words. -/
def word (base places width : Nat) (hpos : 0 < base) (hle : base ≤ 16)
    (hcount : base ^ places = 2 ^ width) : Form (BitVec width) where
  write b := String.ofList (Numeral.digits base places b.toNat)
  read cs := (Numeral.read? base places cs).map fun (n, rest) => (BitVec.ofNat width n, rest)
  read_eq_some_iff {cs b rest} := by
    simp only [Option.map_eq_some_iff, Prod.exists, Numeral.read?_eq_some_iff hpos hle, hcount,
      Prod.mk.injEq, String.toList_ofList]
    constructor
    · rintro ⟨n, _, ⟨hn, rfl⟩, rfl, rfl⟩
      rw [BitVec.toNat_ofNat, Nat.mod_eq_of_lt hn]
    · rintro rfl
      exact ⟨b.toNat, rest, ⟨b.isLt, rfl⟩, BitVec.eq_of_toNat_eq (Nat.mod_eq_of_lt b.isLt), rfl⟩

/-- A byte as two hexadecimal digits. -/
def hexByte : Form Byte := word 16 2 8 (by decide) (by decide) (by decide)

/-- A word as four hexadecimal digits. -/
def hexWord : Form Word := word 16 4 16 (by decide) (by decide) (by decide)

/-- A byte as eight binary digits. -/
def binaryByte : Form Byte := word 2 8 8 (by decide) (by decide) (by decide)

/-- A known text, which shows nothing. -/
def label (text : String) : Form Unit where
  write _ := text
  read cs := (text.toList.isPrefixOf? cs).map fun rest => ((), rest)
  read_eq_some_iff {cs _ rest} := by
    rw [Option.map_eq_some_iff, eq_comm (a := cs)]
    simp only [List.isPrefixOf?_eq_some_iff_append_eq, Prod.mk.injEq, true_and, exists_eq_right]

/-- One value and then another. -/
def seq (first : Form α) (second : Form β) : Form (α × β) where
  write v := first.write v.1 ++ second.write v.2
  read cs := do
    let (u, cs) ← first.read cs
    let (v, cs) ← second.read cs
    return ((u, v), cs)
  read_eq_some_iff {cs v rest} := by
    simp only [Option.bind_eq_bind, Option.bind_eq_some_iff, Prod.exists, first.read_eq_some_iff,
      second.read_eq_some_iff, Option.pure_def, Option.some_inj, Prod.mk.injEq,
      String.toList_append, List.append_assoc]
    constructor
    · rintro ⟨u, _, rfl, v, _, rfl, rfl, rfl⟩
      rfl
    · rintro rfl
      exact ⟨v.1, _, rfl, v.2, rest, rfl, rfl, rfl⟩

/-- The same texts for values that correspond to those of a form. -/
def map (e : α ≃ β) (form : Form α) : Form β where
  write v := form.write (e.symm v)
  read cs := (form.read cs).map fun (u, rest) => (e u, rest)
  read_eq_some_iff {cs v rest} := by
    simp only [Option.map_eq_some_iff, Prod.exists, form.read_eq_some_iff, Prod.mk.injEq]
    constructor
    · rintro ⟨u, _, rfl, rfl, rfl⟩
      rw [e.symm_apply_apply]
    · rintro rfl
      exact ⟨e.symm v, rest, rfl, e.apply_symm_apply v, rfl⟩

/-- A value behind a label. -/
def labelled (text : String) (form : Form α) : Form α :=
  ((label text).seq form).map (Equiv.punitProd α)

/-- A value in front of a label. -/
def followedBy (form : Form α) (text : String) : Form α :=
  (form.seq (label text)).map (Equiv.prodPUnit α)

/-- The value that a text begins with, and the text behind it. -/
def split? (form : Form α) (s : String) : Option (α × String) :=
  (form.read s.toList).map fun (v, rest) => (v, String.ofList rest)

/-- The value that a whole text shows. -/
def ofText? (form : Form α) (s : String) : Option α :=
  match form.split? s with
  | some (v, "") => some v
  | _ => none

variable {form : Form α} {s t : String} {u v : α}

@[simp]
theorem write_hexByte (b : Byte) : hexByte.write b = Numeral.hexByte b := rfl

@[simp]
theorem write_hexWord (w : Word) : hexWord.write w = Numeral.hexWord w := rfl

@[simp]
theorem write_binaryByte (b : Byte) : binaryByte.write b = Numeral.binaryByte b := rfl

@[simp]
theorem write_seq (first : Form α) (second : Form β) (v : α × β) :
    (first.seq second).write v = first.write v.1 ++ second.write v.2 := rfl

@[simp]
theorem write_map (e : α ≃ β) (v : β) : (form.map e).write v = form.write (e.symm v) := rfl

@[simp]
theorem write_labelled : (form.labelled s).write v = s ++ form.write v := rfl

@[simp]
theorem write_followedBy : (form.followedBy s).write v = form.write v ++ s := rfl

theorem split?_eq_some_iff : form.split? s = some (v, t) ↔ s = form.write v ++ t := by
  simp only [split?, Option.map_eq_some_iff, Prod.exists, form.read_eq_some_iff, Prod.mk.injEq]
  constructor
  · rintro ⟨_, rest, hs, rfl, rfl⟩
    apply String.toList_injective
    rw [hs, String.toList_append, String.toList_ofList]
  · rintro rfl
    exact ⟨v, t.toList, String.toList_append, rfl, String.ofList_toList⟩

theorem ofText?_eq_some_iff : form.ofText? s = some v ↔ s = form.write v := by
  have hsplit : form.ofText? s = some v ↔ form.split? s = some (v, "") := by
    unfold ofText?
    split
    next u h => simp [h]
    next h => exact ⟨nofun, fun hv => absurd hv (h v)⟩
  rw [hsplit, split?_eq_some_iff, String.append_empty]

end Form

end Spc700
