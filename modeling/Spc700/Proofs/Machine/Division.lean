import Mathlib.Tactic.Ring
import Spc700.Proofs.Alu.Number
import Spc700.Proofs.Machine.Computation

/-!
# Long division

A division makes a quotient and a remainder of the word in Y and A. While Y is below the divisor in
X the quotient is a byte, and the remainder that it leaves in Y is below the divisor again. So a
number of any length is divided byte by byte from the top, each byte taken into A in its turn:
`Machine.long_division`. When Y is not below the divisor, a divisor of zero included, the quotient
does not fit, and overflow says so.
-/

namespace Spc700

/-! ## One division -/

namespace Alu

variable {dividend : Word} {divisor : Byte}

/-- Quotient and remainder by a divisor that is not zero. -/
theorem toNat_wordQuotient (dividend : Word) (h : divisor ≠ 0) :
    (wordQuotient dividend divisor).1.toNat = dividend.toNat / divisor.toNat ∧
      (wordQuotient dividend divisor).2.toNat = dividend.toNat % divisor.toNat := by
  have hdivisor : (divisor.setWidth 16).toNat = divisor.toNat :=
    BitVec.toNat_setWidth_of_le (by decide)
  have hpos : 0 < divisor.toNat := by bv_omega
  have hremainder := Nat.mod_lt dividend.toNat hpos
  have hlt := divisor.isLt
  unfold wordQuotient
  rw [if_neg h]
  constructor
  · rw [BitVec.toNat_udiv, hdivisor]
  · rw [Word.toNat_low, BitVec.toNat_umod, hdivisor]
    omega

/-- A divisor is not above the high byte exactly if there is no quotient that is a byte. -/
theorem le_high_iff (dividend : Word) (divisor : Byte) :
    divisor ≤ Word.high dividend ↔ divisor = 0 ∨ 256 ≤ dividend.toNat / divisor.toNat := by
  rw [BitVec.le_def, Word.toNat_high]
  by_cases h : divisor = 0
  · simp [h]
  · have hpos : 0 < divisor.toNat := by bv_omega
    simp only [h, false_or]
    rw [Nat.le_div_iff_mul_le hpos, Nat.le_div_iff_mul_le (by decide), Nat.mul_comm]

/-- **When overflow is set.** -/
theorem overflow_divide (dividend : Word) (divisor : Byte) (f : Flags) :
    (divide dividend divisor f).2.overflow = true ↔ divisor ≤ Word.high dividend := by
  rw [le_high_iff]
  show decide (0xFF < (wordQuotient dividend divisor).1) = true ↔ _
  rw [decide_eq_true_iff]
  by_cases h : divisor = 0
  · simp [h, wordQuotient]
  · have hquotient := (toNat_wordQuotient dividend h).1
    rw [or_iff_right h, ← hquotient]
    exact BitVec.lt_def

/-- **A division whose quotient is a byte** is exact, and leaves a remainder for another. -/
theorem divide_of_lt {high : Byte} (h : high < divisor) (low : Byte) (f : Flags) :
    (divide (Word.ofBytes high low) divisor f).2.overflow = false ∧
    (divide (Word.ofBytes high low) divisor f).1.2 < divisor ∧
    divisor.toNat * (divide (Word.ofBytes high low) divisor f).1.1.toNat +
        (divide (Word.ofBytes high low) divisor f).1.2.toNat =
      256 * high.toNat + low.toNat := by
  have hle : ¬ divisor ≤ Word.high (Word.ofBytes high low) := by
    rw [Word.high_ofBytes]
    bv_omega
  have hfits := mt (le_high_iff _ _).mpr hle
  rw [not_or, Nat.not_le] at hfits
  obtain ⟨hzero, hbyte⟩ := hfits
  obtain ⟨hquotient, hremainder⟩ := toNat_wordQuotient (Word.ofBytes high low) hzero
  have hlow : (divide (Word.ofBytes high low) divisor f).1.1.toNat =
      (Word.ofBytes high low).toNat / divisor.toNat := by
    show (Word.low (wordQuotient _ divisor).1).toNat = _
    rw [Word.toNat_low, hquotient, Nat.mod_eq_of_lt hbyte]
  have hrest : (divide (Word.ofBytes high low) divisor f).1.2.toNat =
      (Word.ofBytes high low).toNat % divisor.toNat := hremainder
  refine ⟨?_, ?_, ?_⟩
  · rw [Bool.eq_false_iff]
    exact mt (overflow_divide _ divisor f).mp hle
  · rw [BitVec.lt_def, hrest]
    exact Nat.mod_lt _ (by bv_omega)
  · rw [hlow, hrest, Nat.div_add_mod, Word.toNat_ofBytes]

end Alu

/-! ## Division by division -/

namespace Relay

variable {ι : Type} {is : List ι} {digit quotient finds leaves : ι → Byte} {x y y' : Byte}

/-- **What the steps keep**: the remainder is below the divisor, and the divisor times the quotient,
and the remainder, are the number. -/
theorem quotients (h : Relay finds leaves y is y') (hy : y < x)
    (hstep : ∀ i ∈ is, finds i < x → leaves i < x ∧
      x.toNat * (quotient i).toNat + (leaves i).toNat = 256 * (finds i).toNat + (digit i).toNat) :
    (∀ i ∈ is, finds i < x) ∧ y' < x ∧
      x.toNat * Number.value (is.map quotient).reverse + y'.toNat =
        y.toNat * 256 ^ is.length + Number.value (is.map digit).reverse := by
  induction h with
  | nil y => exact ⟨fun i hi => absurd hi List.not_mem_nil, hy, by simp [Number.value]⟩
  | @cons i is y' hrest ih =>
    rw [List.forall_mem_cons] at hstep
    obtain ⟨hlt, hfirst⟩ := hstep.1 hy
    obtain ⟨hfinds, hy', hsum⟩ := ih hlt hstep.2
    refine ⟨List.forall_mem_cons.mpr ⟨hy, hfinds⟩, hy', ?_⟩
    -- The first quotient stands above those of the steps after it.
    have hquotient : Number.value ((i :: is).map quotient).reverse =
        Number.value (is.map quotient).reverse + 256 ^ is.length * (quotient i).toNat := by
      rw [List.map_cons, Number.value_reverse_cons, List.length_map]
    have hdigit : Number.value ((i :: is).map digit).reverse =
        Number.value (is.map digit).reverse + 256 ^ is.length * (digit i).toNat := by
      rw [List.map_cons, Number.value_reverse_cons, List.length_map]
    calc x.toNat * Number.value ((i :: is).map quotient).reverse + y'.toNat
        = x.toNat * Number.value (is.map quotient).reverse + y'.toNat +
            256 ^ is.length * (x.toNat * (quotient i).toNat) := by rw [hquotient]; ring
      _ = (leaves i).toNat * 256 ^ is.length + Number.value (is.map digit).reverse +
            256 ^ is.length * (x.toNat * (quotient i).toNat) := by rw [hsum]
      _ = 256 ^ is.length * (x.toNat * (quotient i).toNat + (leaves i).toNat) +
            Number.value (is.map digit).reverse := by ring
      _ = 256 ^ is.length * (256 * (finds i).toNat + (digit i).toNat) +
            Number.value (is.map digit).reverse := by rw [hfirst]
      _ = (finds i).toNat * 256 ^ (i :: is).length +
            Number.value ((i :: is).map digit).reverse := by
          rw [hdigit, List.length_cons, Nat.pow_succ]
          ring

end Relay

/-! ## The divide instruction -/

namespace Number

/-- A row of bytes holds the digits of its number in base 256. -/
theorem map_toNat_eq (bytes : List Byte) :
    bytes.map BitVec.toNat = Nat.digitsAppend 256 bytes.length (value bytes) := by
  refine ((Nat.setInvOn_digitsAppend_ofDigits (by decide) bytes.length).1 ⟨?_, ?_⟩).symm
  · exact List.length_map _
  · rw [List.forall_mem_map]
    exact fun byte _ => byte.isLt

end Number

namespace Machine

variable {σ : Type}

/-- **Long division of any length.** Let machines in a row divide by the same X, each finding in Y
the remainder that the one before it leaves, and let the first Y be below X. Then the bytes that
they leave in A are the digits of the quotient of the whole number, the Y of the first machine
followed by the A of each, the most significant first; the last Y is its remainder; and no
division sets overflow. In general, whatever a machine divides, overflow is set exactly if
Y is not below X, which is to say that there is no quotient or none that is a byte. -/
theorem long_division {bus : Bus σ} :
    (∀ {ms : List (Machine σ)} {x y y' : Byte},
      (∀ m ∈ ms, m.Faces bus .divide ∧ m.processor.registers.x = x) →
      Relay (fun m => m.processor.registers.y) (fun m => (m.nextOn bus).processor.registers.y)
        y ms y' →
      y < x →
      let number := y.toNat * 256 ^ ms.length +
        Number.value (ms.map fun m => m.processor.registers.a).reverse
      (∀ m ∈ ms, (m.execute bus).1 = .ok () ∧
        (m.nextOn bus).processor.registers.psw.overflow = false) ∧
      (ms.map fun m => (m.nextOn bus).processor.registers.a).reverse.map BitVec.toNat =
        Nat.digitsAppend 256 ms.length (number / x.toNat) ∧
      y'.toNat = number % x.toNat ∧ y' < x) ∧
    (∀ {m : Machine σ}, m.Faces bus .divide →
      (m.execute bus).1 = .ok () ∧
      ((m.nextOn bus).processor.registers.psw.overflow = true ↔
        m.processor.registers.x ≤ m.processor.registers.y) ∧
      (m.processor.registers.x ≤ m.processor.registers.y ↔
        m.processor.registers.x = 0 ∨
          256 ≤ m.processor.registers.ya.toNat / m.processor.registers.x.toNat)) := by
  constructor
  · intro ms x y y' hms hrelay hy number
    have hdivide : ∀ m ∈ ms, m.processor.registers.y < x →
        (m.execute bus).1 = .ok () ∧ (m.nextOn bus).processor.registers.psw.overflow = false ∧
        (m.nextOn bus).processor.registers.y < x ∧
        x.toNat * (m.nextOn bus).processor.registers.a.toNat +
            (m.nextOn bus).processor.registers.y.toNat =
          256 * m.processor.registers.y.toNat + m.processor.registers.a.toNat := by
      intro m hm hlt
      obtain ⟨hfaces, rfl⟩ := hms m hm
      obtain ⟨hok, hnext⟩ := nextOn_divide hfaces
      have hdivision := Alu.divide_of_lt hlt m.processor.registers.a m.processor.registers.psw
      rw [← Registers.ya, ← hnext] at hdivision
      exact ⟨hok, hdivision⟩
    obtain ⟨hbelow, hy', hsum⟩ := hrelay.quotients hy fun m hm hlt => (hdivide m hm hlt).2.2
    have hsum : x.toNat *
        Number.value (ms.map fun m => (m.nextOn bus).processor.registers.a).reverse +
          y'.toNat = number := hsum
    have hpos : 0 < x.toNat := Nat.zero_lt_of_lt hy'
    refine ⟨?_, ?_, ?_, hy'⟩
    · intro m hm
      obtain ⟨hok, hoverflow, -⟩ := hdivide m hm (hbelow m hm)
      exact ⟨hok, hoverflow⟩
    · rw [Number.map_toNat_eq, List.length_reverse, List.length_map, ← hsum,
        Nat.mul_add_div hpos, Nat.div_eq_of_lt hy', Nat.add_zero]
    · rw [← hsum, Nat.mul_add_mod, Nat.mod_eq_of_lt hy']
  · intro m hm
    obtain ⟨hok, hnext⟩ := nextOn_divide hm
    have hoverflow := Alu.overflow_divide m.processor.registers.ya m.processor.registers.x
      m.processor.registers.psw
    have hhigh : Word.high m.processor.registers.ya = m.processor.registers.y :=
      Word.high_ofBytes _ _
    have hle := Alu.le_high_iff m.processor.registers.ya m.processor.registers.x
    rw [← hnext, hhigh] at hoverflow
    rw [hhigh] at hle
    exact ⟨hok, hoverflow, hle⟩

/-- A number of three bytes divided by seven in two steps, and a division by zero. -/
theorem long_division_of_tapeBus :
    let ms := [onTape { a := 0x01, x := 7, y := 3 } [0x9E],
      onTape { a := 0xFF, x := 7, y := 6 } [0x9E]]
    let m := onTape { a := 0x01 } [0x9E]
    let number := (3 : Byte).toNat * 256 ^ 2 + Number.value [0xFF, 0x01]
    (∀ m ∈ ms, m.Faces tapeBus.recorded .divide ∧ m.processor.registers.x = 7) ∧
    Relay (fun m => m.processor.registers.y)
      (fun m => (m.nextOn tapeBus.recorded).processor.registers.y) 3 ms 6 ∧
    (3 : Byte) < 7 ∧
    ((∀ m ∈ ms, (m.execute tapeBus.recorded).1 = .ok () ∧
        (m.nextOn tapeBus.recorded).processor.registers.psw.overflow = false) ∧
      ([0x6D, 0xFF] : List Byte).reverse.map BitVec.toNat =
        Nat.digitsAppend 256 2 (number / (7 : Byte).toNat) ∧
      (6 : Byte).toNat = number % (7 : Byte).toNat ∧ (6 : Byte) < 7) ∧
    m.Faces tapeBus.recorded .divide ∧
    (m.execute tapeBus.recorded).1 = .ok () ∧
      ((m.nextOn tapeBus.recorded).processor.registers.psw.overflow = true ↔
        m.processor.registers.x ≤ m.processor.registers.y) ∧
      (m.processor.registers.x ≤ m.processor.registers.y ↔
        m.processor.registers.x = 0 ∨
          256 ≤ m.processor.registers.ya.toNat / m.processor.registers.x.toNat) := by
  intro ms m number
  have hfaces (registers : Registers) :
      (onTape registers [0x9E]).Faces tapeBus.recorded .divide := ⟨0x9E, _, rfl, rfl⟩
  have hms : ∀ m ∈ ms, m.Faces tapeBus.recorded .divide ∧ m.processor.registers.x = 7 :=
    List.forall_mem_cons.mpr
      ⟨⟨hfaces _, rfl⟩, List.forall_mem_singleton.mpr ⟨hfaces _, rfl⟩⟩
  have hrelay : Relay (fun m => m.processor.registers.y)
      (fun m => (m.nextOn tapeBus.recorded).processor.registers.y) 3 ms 6 :=
    .cons (onTape { a := 0x01, x := 7, y := 3 } [0x9E])
      (.cons (onTape { a := 0xFF, x := 7, y := 6 } [0x9E]) (.nil 6))
  exact ⟨hms, hrelay, by decide, long_division.1 hms hrelay (by decide), hfaces _,
    long_division.2 (hfaces _)⟩

end Machine

end Spc700
