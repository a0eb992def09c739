import Spc700.Word

/-!
# Numerals of fixed width

Registers, addresses and flags are written with a fixed number of digits, zeros in front. Main
statements: `length_digits` gives the width, and `value_digits` says that each further digit reads
back as the next remainder, so that nothing below the width is lost.
-/

namespace Spc700.Numeral

/-- The digit for a value below sixteen; letters are capitals. -/
def digit (d : Nat) : Char :=
  if d < 10 then Char.ofNat (48 + d) else Char.ofNat (55 + d)

/-- The last `places` digits of a number in a base, the most significant first. -/
def digits (base : Nat) : Nat → Nat → List Char
  | 0, _ => []
  | places + 1, n => digits base places (n / base) ++ [digit (n % base)]

/-- The value of a digit written by `digit`. -/
def digitValue (c : Char) : Nat :=
  if c.toNat < 58 then c.toNat - 48 else c.toNat - 55

/-- The number that a row of digits stands for. -/
def value (base : Nat) (cs : List Char) : Nat :=
  cs.foldl (fun n c => n * base + digitValue c) 0

@[simp]
theorem length_digits (base places n : Nat) : (digits base places n).length = places := by
  induction places generalizing n with
  | zero => rfl
  | succ places ih => simp [digits, ih]

theorem digitValue_digit {d : Nat} (h : d < 16) : digitValue (digit d) = d := by
  revert d
  decide

theorem value_concat (base : Nat) (cs : List Char) (c : Char) :
    value base (cs ++ [c]) = value base cs * base + digitValue c := by
  simp [value, List.foldl_append]

theorem value_digits {base : Nat} (hpos : 0 < base) (hle : base ≤ 16) (places n : Nat) :
    value base (digits base (places + 1) n) =
      base * value base (digits base places (n / base)) + n % base := by
  have hlast := digitValue_digit (Nat.lt_of_lt_of_le (Nat.mod_lt n hpos) hle)
  rw [digits, value_concat, hlast, Nat.mul_comm]

/-- A byte as two hexadecimal digits. -/
def hexByte (b : Byte) : String := String.ofList (digits 16 2 b.toNat)

/-- A word as four hexadecimal digits. -/
def hexWord (w : Word) : String := String.ofList (digits 16 4 w.toNat)

/-- A byte as eight binary digits. -/
def binaryByte (b : Byte) : String := String.ofList (digits 2 8 b.toNat)

end Spc700.Numeral
