/-!
# Bytes and words

The processor moves bytes and addresses memory by words. A word is a high byte over a low byte:
`Word.low_ofBytes`, `Word.high_ofBytes` and `Word.ofBytes_high_low` say that taking a word apart
and putting it together are inverse.
-/

namespace Spc700

/-- What one cell of memory or one data register holds. -/
abbrev Byte := BitVec 8

/-- An address, or a pair of bytes taken as one number; arithmetic on it wraps at the top. -/
abbrev Word := BitVec 16

/-- The number of a bit in a byte. -/
abbrev BitNumber := BitVec 3

namespace Word

/-- The word with the given high and low byte. -/
def ofBytes (high low : Byte) : Word := high ++ low

/-- The low byte of a word. -/
def low (w : Word) : Byte := w.setWidth 8

/-- The high byte of a word. -/
def high (w : Word) : Byte := w.extractLsb' 8 8

/-- A byte read as a signed number, as a word: adding it moves an address forward or back. -/
def ofSigned (b : Byte) : Word := b.signExtend 16

theorem toNat_ofBytes (h l : Byte) : (ofBytes h l).toNat = 256 * h.toNat + l.toNat := by
  have e : (ofBytes h l).toNat = h.toNat <<< 8 ||| l.toNat := BitVec.toNat_append h l
  rw [e, ← Nat.shiftLeft_add_eq_or_of_lt l.isLt, Nat.shiftLeft_eq, Nat.mul_comm]

theorem toNat_low (w : Word) : (low w).toNat = w.toNat % 256 := by
  simp [low]

theorem toNat_high (w : Word) : (high w).toNat = w.toNat / 256 := by
  have := w.isLt
  simp only [high, BitVec.extractLsb'_toNat, Nat.shiftRight_eq_div_pow]
  omega

@[simp]
theorem low_ofBytes (h l : Byte) : low (ofBytes h l) = l := by
  apply BitVec.eq_of_toNat_eq
  have := l.isLt
  rw [toNat_low, toNat_ofBytes]
  omega

@[simp]
theorem high_ofBytes (h l : Byte) : high (ofBytes h l) = h := by
  apply BitVec.eq_of_toNat_eq
  have := l.isLt
  rw [toNat_high, toNat_ofBytes]
  omega

@[simp]
theorem ofBytes_high_low (w : Word) : ofBytes (high w) (low w) = w := by
  apply BitVec.eq_of_toNat_eq
  rw [toNat_ofBytes, toNat_low, toNat_high]
  omega

/-- A word is known by its two bytes. -/
theorem eq_of_low_high {v w : Word} (hlow : low v = low w) (hhigh : high v = high w) : v = w := by
  rw [← ofBytes_high_low v, ← ofBytes_high_low w, hlow, hhigh]

end Word

end Spc700
