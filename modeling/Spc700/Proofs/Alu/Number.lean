import Mathlib.Data.Nat.Digits.Lemmas
import Spc700.Alu

/-!
# Numbers of many bytes

Arithmetic on bytes is strung together to arithmetic on longer numbers: each step finds the carry
that the step before it leaves. `Relay` is such a row of steps, of whatever kind.

* `Relay.exact`: digits in any base that are added or subtracted one by one, with the carry handed
  on, give the digits of the sum or the difference, and a carry that says whether it is in range.
* `Relay.yields`: bytes that are added or subtracted one by one give, beside that, the overflow and
  the negative flag of the two's complement number that the whole row of bytes stands for.

A difference is the sum with the complement of the second operand (`Arithmetic.addend`), in numbers
as in the arithmetic unit, so most statements are made once for both.
-/

namespace Spc700

/-! ## Relays -/

/-- A row of steps that hand something on: each finds what the one before it leaves, from `first`
on to `last`. -/
inductive Relay {ι α : Type} (finds leaves : ι → α) : α → List ι → α → Prop where
  | nil (first : α) : Relay finds leaves first [] first
  | cons (i : ι) {is : List ι} {last : α} : Relay finds leaves (leaves i) is last →
      Relay finds leaves (finds i) (i :: is) last

namespace Relay

variable {ι α β : Type} {finds leaves : ι → α} {first last : α} {is : List ι}

theorem eq_of_nil (h : Relay finds leaves first [] last) : first = last := by
  cases h
  rfl

/-- What every step keeps is left in the end. -/
theorem keeps {P : α → Prop} (h : Relay finds leaves first is last) (hfirst : P first)
    (hstep : ∀ i ∈ is, P (finds i) → P (leaves i)) : P last := by
  induction h with
  | nil first => exact hfirst
  | cons i _ ih =>
    rw [List.forall_mem_cons] at hstep
    exact ih (hstep.1 hfirst) hstep.2

/-- A row without its last step hands on what the last step finds. -/
theorem of_concat {i : ι} (h : Relay finds leaves first (is ++ [i]) last) :
    Relay finds leaves first is (finds i) ∧ last = leaves i := by
  induction is generalizing first with
  | nil =>
    cases h with
    | cons _ hrest => exact ⟨.nil _, hrest.eq_of_nil.symm⟩
  | cons j is ih =>
    cases h with
    | cons _ hrest => exact ⟨.cons j (ih hrest).1, (ih hrest).2⟩

/-- A part of what is handed on is handed on. -/
theorem map (part : α → β) (h : Relay finds leaves first is last) :
    Relay (part ∘ finds) (part ∘ leaves) (part first) is (part last) := by
  induction h with
  | nil first => exact .nil _
  | cons i _ ih => exact .cons i ih

end Relay

/-! ## Rows of bytes as numbers -/

namespace Number

/-- The number that a row of bytes stands for, the least significant byte first. -/
def value (bytes : List Byte) : ℕ := Nat.ofDigits 256 (bytes.map BitVec.toNat)

/-- The number that a row of bytes stands for as two's complement. -/
def signed (bytes : List Byte) : ℤ := (value bytes : ℤ).bmod (256 ^ bytes.length)

/-- The number has a two's complement of so many bits. -/
def Fits (width : ℕ) (n : ℤ) : Prop := -2 ^ (width - 1) ≤ n ∧ n < 2 ^ (width - 1)

@[simp]
theorem value_nil : value [] = 0 := rfl

@[simp]
theorem value_cons (byte : Byte) (bytes : List Byte) :
    value (byte :: bytes) = byte.toNat + 256 * value bytes := by
  simp [value, Nat.ofDigits_cons]

/-- One row behind another is worth as much more as the other has bytes. -/
theorem value_append (xs ys : List Byte) :
    value (xs ++ ys) = value xs + 256 ^ xs.length * value ys := by
  simp [value, Nat.ofDigits_append]

/-- A byte in front of a row that is read the other way round is the most significant one. -/
theorem value_reverse_cons (byte : Byte) (bytes : List Byte) :
    value (byte :: bytes).reverse = value bytes.reverse + 256 ^ bytes.length * byte.toNat := by
  simp [value_append]

theorem value_lt (bytes : List Byte) : value bytes < 256 ^ bytes.length := by
  have h := Nat.ofDigits_lt_base_pow_length (b := 256) (l := bytes.map BitVec.toNat) (by decide)
  rw [List.length_map] at h
  apply h
  intro digit hdigit
  obtain ⟨byte, -, rfl⟩ := List.mem_map.mp hdigit
  exact byte.isLt

theorem signed_singleton (byte : Byte) : signed [byte] = byte.toInt := by
  simp [signed, value, BitVec.toInt_eq_toNat_bmod]

/-- The sign is in the most significant byte. -/
theorem signed_cons (byte : Byte) {bytes : List Byte} (h : bytes ≠ []) :
    signed (byte :: bytes) = byte.toNat + 256 * signed bytes := by
  obtain ⟨half, hhalf⟩ : ∃ half, 256 ^ bytes.length = 2 * half := by
    obtain ⟨k, hk⟩ := Nat.exists_eq_succ_of_ne_zero (mt List.length_eq_zero_iff.mp h)
    exact ⟨128 * 256 ^ k, by rw [hk, Nat.pow_succ]; omega⟩
  have hpow : 256 ^ (byte :: bytes).length = 256 * (2 * half) := by
    rw [List.length_cons, Nat.pow_succ, hhalf, Nat.mul_comm]
  have hbyte := byte.isLt
  have hlt := value_lt bytes
  rw [hhalf] at hlt
  unfold signed
  rw [hpow, hhalf, value_cons, Int.bmod_def, Int.bmod_def]
  push_cast
  rw [Int.emod_eq_of_lt (by omega) (by omega), Int.emod_eq_of_lt (by omega) (by omega)]
  split <;> split <;> omega

theorem two_pow_eq {width : ℕ} (h : 0 < width) : (2 : ℤ) ^ width = 2 * 2 ^ (width - 1) := by
  rw [← pow_succ', Nat.sub_add_cancel h]

theorem fits_iff {width : ℕ} (h : 0 < width) {n : ℤ} :
    Fits width n ↔ -2 ^ width ≤ 2 * n ∧ 2 * n < 2 ^ width := by
  unfold Fits
  rw [two_pow_eq h]
  omega

/-- A byte below a number does not matter to whether the number fits. -/
theorem fits_cons {width : ℕ} (h : 0 < width) {low : ℕ} (hlow : low < 256) {n : ℤ} :
    Fits (width + 8) (low + 256 * n) ↔ Fits width n := by
  have hpow : (2 : ℤ) ^ (width + 8) = 256 * 2 ^ width := by
    rw [pow_add, mul_comm]
    rfl
  rw [fits_iff (by omega), fits_iff h, hpow, two_pow_eq h]
  omega

/-- Nor does it matter to the top bit. -/
theorem testBit_cons {width : ℕ} (h : 0 < width) {low : ℕ} (hlow : low < 256) (n : ℕ) :
    (low + 256 * n).testBit (width + 8 - 1) = n.testBit (width - 1) := by
  have hbit := Nat.testBit_two_pow_mul_add n (i := 8) hlow (width + 8 - 1)
  rw [if_neg (by omega), show width + 8 - 1 - 8 = width - 1 by omega] at hbit
  rw [Nat.add_comm]
  exact hbit

end Number

/-! ## Sums of two operands -/

namespace Alu

variable {w : ℕ}

/-- **The sum is under its carry.** -/
theorem toNat_addCarry (hw : 0 < w) (x y : BitVec w) (carry : Bool) (f : Flags) :
    (addCarry x y carry f).1.toNat + 2 ^ w * (addCarry x y carry f).2.carry.toNat =
      x.toNat + y.toNat + carry.toNat := by
  rw [← toNat_cons_addCarry hw x y carry f, BitVec.toNat_cons', Nat.shiftLeft_eq, Nat.add_comm,
    Nat.mul_comm]

theorem sign_cases (x : BitVec w) :
    (x.msb = false ∧ x.toInt = x.toNat ∧ 2 * (x.toNat : ℤ) < 2 ^ w) ∨
    (x.msb = true ∧ x.toInt = x.toNat - 2 ^ w ∧ 2 ^ w ≤ 2 * (x.toNat : ℤ)) := by
  rw [BitVec.toInt_eq_msb_cond]
  cases hmsb : x.msb with
  | false =>
    have hlt := BitVec.msb_eq_false_iff_two_mul_lt.mp hmsb
    exact .inl ⟨rfl, rfl, by exact_mod_cast hlt⟩
  | true =>
    have hle := BitVec.msb_eq_true_iff_two_mul_ge.mp hmsb
    exact .inr ⟨rfl, by simp, by exact_mod_cast hle⟩

/-- **The sign of a sum.** Overflow is set if the sum of the signed numbers has no two's complement
of the width, and the negative flag is the wrong sign exactly then. -/
theorem sign_addCarry (hw : 0 < w) (x y : BitVec w) (carry : Bool) (f : Flags) :
    ((addCarry x y carry f).2.overflow = true ↔
      ¬ Number.Fits w (x.toInt + y.toInt + carry.toNat)) ∧
    (((addCarry x y carry f).2.negative ^^ (addCarry x y carry f).2.overflow) = true ↔
      x.toInt + y.toInt + carry.toNat < 0) := by
  have hsum := toNat_addCarry hw x y carry f
  have hoverflow : (addCarry x y carry f).2.overflow =
    (x.msb == y.msb && y.msb != (addCarry x y carry f).1.msb) := rfl
  have hnegative : (addCarry x y carry f).2.negative = (addCarry x y carry f).1.msb := rfl
  rw [hoverflow, hnegative, Number.fits_iff hw]
  generalize (addCarry x y carry f).1 = sum at hsum ⊢
  generalize (addCarry x y carry f).2.carry = out at hsum
  have hx := sign_cases x
  have hy := sign_cases y
  have hs := sign_cases sum
  have hxlt : (x.toNat : ℤ) < 2 ^ w := by exact_mod_cast x.isLt
  have hylt : (y.toNat : ℤ) < 2 ^ w := by exact_mod_cast y.isLt
  have hslt : (sum.toNat : ℤ) < 2 ^ w := by exact_mod_cast sum.isLt
  have heven := Number.two_pow_eq hw
  have hc := carry.toNat_le
  zify at hsum
  -- With the three signs and the carry known, every bound is one on the same power of two.
  generalize (2 : ℤ) ^ w = modulus at *
  rcases hx with ⟨hxm, hxi, hxl⟩ | ⟨hxm, hxi, hxl⟩ <;>
  rcases hy with ⟨hym, hyi, hyl⟩ | ⟨hym, hyi, hyl⟩ <;>
  rcases hs with ⟨hsm, hsi, hsl⟩ | ⟨hsm, hsi, hsl⟩ <;>
  cases out <;>
  simp [hxm, hym, hsm] at * <;> omega

end Alu

/-! ## Sums and differences of numbers -/

namespace Arithmetic

/-- The sum or the difference of two numbers. A set carry is one more in a sum, a clear one is one
less in a difference. -/
def exact (f : Arithmetic) (a b : ℤ) (carry : Bool) : ℤ :=
  match f with
  | adc => a + b + carry.toNat
  | sbc => a - b - (!carry).toNat

/-- When the carry is set behind an operation on numbers below `modulus`: when a sum is not below
it, and when a difference takes no borrow. -/
def Carries (f : Arithmetic) (modulus a b : ℕ) (carry : Bool) : Prop :=
  match f with
  | adc => modulus ≤ a + b + carry.toNat
  | sbc => b + (!carry).toNat ≤ a

/-- The result is the sum or the difference up to a multiple of `modulus`, and
`out` is the carry behind it. -/
structure Exact (f : Arithmetic) (modulus a b : ℕ) (carry : Bool) (result : ℕ) (out : Bool) :
    Prop where
  result : (result : ℤ) = f.exact a b carry % modulus
  carry : out = true ↔ f.Carries modulus a b carry

/-- What is added to the first operand: the second, or its complement. -/
def addend (f : Arithmetic) (modulus b : ℕ) : ℕ :=
  match f with
  | adc => b
  | sbc => modulus - 1 - b

/-- What the arithmetic unit adds to the first operand. -/
def addendBits {w : ℕ} (f : Arithmetic) (y : BitVec w) : BitVec w :=
  match f with
  | adc => y
  | sbc => ~~~y

theorem apply_eq (f : Arithmetic) (x y : Byte) (psw : Flags) :
    f.apply x y psw = Alu.addCarry x (f.addendBits y) psw.carry psw := by
  cases f <;> rfl

theorem toNat_addendBits {w : ℕ} (f : Arithmetic) (y : BitVec w) :
    (f.addendBits y).toNat = f.addend (2 ^ w) y.toNat := by
  cases f with
  | adc => rfl
  | sbc => exact BitVec.toNat_not

/-- The signed number that the arithmetic unit adds makes the sum or the difference. -/
theorem exact_toInt {w : ℕ} (hw : 0 < w) (f : Arithmetic) (x y : BitVec w) (carry : Bool) :
    x.toInt + (f.addendBits y).toInt + carry.toNat = f.exact x.toInt y.toInt carry := by
  cases f with
  | adc => rfl
  | sbc =>
    have hnot : (~~~y).toInt = -1 - y.toInt := by
      have hmsb : (~~~y).msb = !y.msb := by simp [BitVec.msb_not, hw]
      have hnat : (~~~y).toNat + y.toNat + 1 = 2 ^ w := by
        have hy := y.isLt
        rw [BitVec.toNat_not]
        omega
      zify at hnat
      rcases Alu.sign_cases y with ⟨hm, hi, -⟩ | ⟨hm, hi, -⟩ <;>
        rcases Alu.sign_cases (~~~y) with ⟨hm', hi', -⟩ | ⟨hm', hi', -⟩ <;>
        simp only [hm, hm', Bool.not_false, Bool.not_true, Bool.false_eq_true,
          Bool.true_eq_false] at hmsb <;>
        omega
    show x.toInt + (~~~y).toInt + carry.toNat = x.toInt - y.toInt - (!carry).toNat
    rw [hnot]
    cases carry <;> simp <;> omega

/-- A sum below its carry is exact. -/
theorem Exact.of_add_addend {f : Arithmetic} {modulus a b result : ℕ} {carry out : Bool}
    (hresult : result < modulus) (hb : b < modulus)
    (h : result + modulus * out.toNat = a + f.addend modulus b + carry.toNat) :
    f.Exact modulus a b carry result out := by
  cases f with
  | adc =>
    have h : result + modulus * out.toNat = a + b + carry.toNat := h
    constructor
    case result =>
      show (result : ℤ) = ((a : ℤ) + b + carry.toNat) % modulus
      rw_mod_cast [← h, Nat.add_mul_mod_self_left, Nat.mod_eq_of_lt hresult]
    case carry =>
      show out = true ↔ modulus ≤ a + b + carry.toNat
      cases out <;> simp at h ⊢ <;> omega
  | sbc =>
    have h : result + modulus * out.toNat = a + (modulus - 1 - b) + carry.toNat := h
    have hborrow : carry.toNat + (!carry).toNat = 1 := by cases carry <;> rfl
    constructor
    case result =>
      show (result : ℤ) = ((a : ℤ) - b - (!carry).toNat) % modulus
      have hdifference : (a : ℤ) - b - (!carry).toNat = result + modulus * (out.toNat - 1) := by
        rw [Int.mul_sub]
        omega
      rw [hdifference, Int.add_mul_emod_self_left,
        Int.emod_eq_of_lt (Int.natCast_nonneg _) (by exact_mod_cast hresult)]
    case carry =>
      show out = true ↔ b + (!carry).toNat ≤ a
      cases out <;> simp at h ⊢ <;> omega

/-- The complement of a number has the complements of its digits. -/
theorem ofDigits_addend (f : Arithmetic) {base : ℕ} (hbase : 1 < base) {digits : List ℕ}
    (h : ∀ digit ∈ digits, digit < base) :
    Nat.ofDigits base (digits.map (f.addend base)) =
      f.addend (base ^ digits.length) (Nat.ofDigits base digits) := by
  cases f with
  | adc => exact congrArg _ (List.map_id _)
  | sbc =>
    show Nat.ofDigits base (digits.map fun digit => base - 1 - digit) =
      base ^ digits.length - 1 - Nat.ofDigits base digits
    induction digits with
    | nil => rfl
    | cons digit digits ih =>
      rw [List.forall_mem_cons] at h
      have hlt := Nat.ofDigits_lt_base_pow_length hbase h.2
      obtain ⟨rest, hrest⟩ := Nat.exists_eq_add_of_lt hlt
      have hdigit := h.1
      rw [List.map_cons, Nat.ofDigits_cons, Nat.ofDigits_cons, ih h.2, List.length_cons,
        Nat.pow_succ, hrest, Nat.mul_comm _ base]
      have hleft : Nat.ofDigits base digits + rest + 1 - 1 - Nat.ofDigits base digits = rest := by
        omega
      rw [hleft, Nat.mul_add, Nat.mul_add]
      omega

end Arithmetic

/-! ## Digit by digit -/

namespace Relay

variable {ι : Type} {is : List ι}

/-- Digits that are added one by one, with the carry handed on. -/
theorem ofDigits_add {base : ℕ} {x y r : ι → ℕ} {finds leaves : ι → Bool} {carry out : Bool}
    (h : Relay finds leaves carry is out)
    (hstep : ∀ i ∈ is, r i + base * (leaves i).toNat = x i + y i + (finds i).toNat) :
    Nat.ofDigits base (is.map r) + base ^ is.length * out.toNat =
      Nat.ofDigits base (is.map x) + Nat.ofDigits base (is.map y) + carry.toNat := by
  induction h with
  | nil carry => simp
  | @cons i is out hrest ih =>
    rw [List.forall_mem_cons] at hstep
    have hfirst := hstep.1
    have hafter := congrArg (base * ·) (ih hstep.2)
    simp only [List.map_cons, Nat.ofDigits_cons, List.length_cons, Nat.pow_succ,
      Nat.mul_comm _ base, Nat.mul_assoc] at hafter ⊢
    rw [Nat.mul_add, Nat.mul_add, Nat.mul_add] at hafter
    omega

/-- **Digit by digit, the whole number.** Digits that are added or subtracted one by one, with the
carry handed on, are the digits of the sum or the difference, and the last carry is the carry
of the whole. -/
theorem exact {f : Arithmetic} {base : ℕ} (hbase : 1 < base) {x y r : ι → ℕ}
    {finds leaves : ι → Bool} {carry out : Bool} (h : Relay finds leaves carry is out)
    (hr : ∀ i ∈ is, r i < base) (hy : ∀ i ∈ is, y i < base)
    (hstep : ∀ i ∈ is,
      r i + base * (leaves i).toNat = x i + f.addend base (y i) + (finds i).toNat) :
    f.Exact (base ^ is.length) (Nat.ofDigits base (is.map x)) (Nat.ofDigits base (is.map y)) carry
      (Nat.ofDigits base (is.map r)) out := by
  have hresult := Nat.ofDigits_lt_base_pow_length hbase (List.forall_mem_map.mpr hr)
  have hoperand := Nat.ofDigits_lt_base_pow_length hbase (List.forall_mem_map.mpr hy)
  have hsum := h.ofDigits_add (y := fun i => f.addend base (y i)) hstep
  have haddend := f.ofDigits_addend hbase (List.forall_mem_map.mpr hy)
  rw [List.map_map] at haddend
  rw [List.length_map] at hresult hoperand haddend
  refine .of_add_addend hresult hoperand ?_
  rw [hsum, ← haddend]
  rfl

end Relay

/-! ## Byte by byte -/

/-- What adding or subtracting two numbers of as many bytes as `xs` yields: the bytes of the
result, and three flags. -/
structure Arithmetic.Yields (f : Arithmetic) (carry : Bool) (xs ys rs : List Byte) (psw : Flags) :
    Prop where
  exact : f.Exact (256 ^ xs.length) (Number.value xs) (Number.value ys) carry (Number.value rs)
    psw.carry
  /-- overflow: the signed result has no two's complement of so many bytes -/
  overflow : psw.overflow = true ↔
    ¬ Number.Fits (8 * xs.length) (f.exact (Number.signed xs) (Number.signed ys) carry)
  /-- negative: the top bit of the result -/
  negative : psw.negative = (Number.value rs).testBit (8 * xs.length - 1)

namespace Relay

variable {ι : Type} {is : List ι} {f : Arithmetic} {x y r : ι → Byte} {finds leaves : ι → Flags}
  {psw psw' : Flags}

/-- A byte and its carry, as numbers. -/
theorem toNat_apply {f : Arithmetic} {x y r : Byte} {psw psw' : Flags}
    (h : (r, psw') = f.apply x y psw) :
    r.toNat + 256 * psw'.carry.toNat = x.toNat + f.addend 256 y.toNat + psw.carry.toNat := by
  have hsum := Alu.toNat_addCarry (by decide) x (f.addendBits y) psw.carry psw
  rw [← f.apply_eq, ← h, f.toNat_addendBits] at hsum
  exact hsum

/-- A byte in front of two numbers, with its carry handed on. -/
theorem exact_cons {f : Arithmetic} {x y r : ℕ} {carry out : Bool} (hy : y < 256)
    (h : r + 256 * out.toNat = x + f.addend 256 y + carry.toNat) (a b : ℤ) :
    f.exact (x + 256 * a) (y + 256 * b) carry = r + 256 * f.exact a b out := by
  cases f with
  | adc =>
    have h : r + 256 * out.toNat = x + y + carry.toNat := h
    show (x + 256 * a) + (y + 256 * b) + (carry.toNat : ℤ) = r + 256 * (a + b + out.toNat)
    omega
  | sbc =>
    have h : r + 256 * out.toNat = x + (256 - 1 - y) + carry.toNat := h
    show (x + 256 * a) - (y + 256 * b) - ((!carry).toNat : ℤ) = r + 256 * (a - b - (!out).toNat)
    cases carry <;> cases out <;> simp at h ⊢ <;> omega

/-- **The sign of the whole number is that of the last step.** -/
theorem sign (h : Relay finds leaves psw is psw') (hne : is ≠ [])
    (hstep : ∀ i ∈ is, (r i, leaves i) = f.apply (x i) (y i) (finds i)) :
    (psw'.overflow = true ↔ ¬ Number.Fits (8 * is.length)
      (f.exact (Number.signed (is.map x)) (Number.signed (is.map y)) psw.carry)) ∧
    psw'.negative = (Number.value (is.map r)).testBit (8 * is.length - 1) := by
  induction h with
  | nil psw => exact absurd rfl hne
  | @cons i is psw' hrest ih =>
    rw [List.forall_mem_cons] at hstep
    have happly := hstep.1
    by_cases hnil : is = []
    · -- The last byte is the one with the sign.
      subst hnil
      obtain rfl : leaves i = psw' := hrest.eq_of_nil
      rw [f.apply_eq] at happly
      have hsign := (Alu.sign_addCarry (by decide) (x i) (f.addendBits (y i)) (finds i).carry
        (finds i)).1
      have hmsb : (Alu.addCarry (x i) (f.addendBits (y i)) (finds i).carry (finds i)).2.negative =
        (Alu.addCarry (x i) (f.addendBits (y i)) (finds i).carry (finds i)).1.msb := rfl
      rw [← happly, Arithmetic.exact_toInt (by decide)] at hsign
      rw [← happly, BitVec.msb_eq_getLsbD_last] at hmsb
      constructor
      · simpa [Number.signed_singleton] using hsign
      · rw [hmsb]
        simp [Number.value, BitVec.getLsbD]
    · have hnat := toNat_apply happly
      obtain ⟨hoverflow, hnegative⟩ := ih hnil hstep.2
      have hlength : 8 * (i :: is).length = 8 * is.length + 8 := rfl
      have hpos : 0 < 8 * is.length :=
        Nat.mul_pos (by decide) (List.length_pos_iff_ne_nil.mpr hnil)
      rw [hoverflow, hnegative, hlength, List.map_cons, List.map_cons, List.map_cons,
        Number.signed_cons _ (mt List.map_eq_nil_iff.mp hnil),
        Number.signed_cons _ (mt List.map_eq_nil_iff.mp hnil), Number.value_cons,
        exact_cons (y i).isLt hnat, Number.fits_cons hpos (r i).isLt,
        Number.testBit_cons hpos (r i).isLt]
      exact ⟨Iff.rfl, rfl⟩

/-- **Byte by byte, the whole number.** Bytes that are added or subtracted one by one, with the
flags handed on, yield the sum or the difference of the numbers that they stand for. -/
theorem yields (h : Relay finds leaves psw is psw') (hne : is ≠ [])
    (hstep : ∀ i ∈ is, (r i, leaves i) = f.apply (x i) (y i) (finds i)) :
    f.Yields psw.carry (is.map x) (is.map y) (is.map r) psw' := by
  obtain ⟨hoverflow, hnegative⟩ := h.sign hne hstep
  have hexact : f.Exact (256 ^ is.length) (Nat.ofDigits 256 (is.map fun i => (x i).toNat))
      (Nat.ofDigits 256 (is.map fun i => (y i).toNat)) psw.carry
      (Nat.ofDigits 256 (is.map fun i => (r i).toNat)) psw'.carry :=
    (h.map Flags.carry).exact (by decide) (fun i _ => (r i).isLt) (fun i _ => (y i).isLt)
      fun i hi => toNat_apply (hstep i hi)
  constructor
  case exact => simpa [Number.value, Function.comp_def] using hexact
  case overflow => rwa [List.length_map]
  case negative => rwa [List.length_map]

end Relay

end Spc700
