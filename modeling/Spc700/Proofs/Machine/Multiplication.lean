import Spc700.Proofs.Machine.Division

/-!
# Long multiplication

The product of two bytes, and a byte more, is a word. So a number of any length is multiplied by a
byte digit by digit from the bottom: each product takes the carry of the one before it, its low
byte is a digit of the result, and its high byte is the next carry. Divisions by the multiplier
from the top take the result apart again: `Machine.long_multiplication`.
-/

namespace Spc700

namespace Alu

/-! ## One digit -/

theorem toNat_mul_add_le (x y carry : Byte) : x.toNat * y.toNat + carry.toNat ≤ 65280 := by
  have hx := x.isLt
  have hy := y.isLt
  have hcarry := carry.isLt
  have hproduct : x.toNat * y.toNat ≤ 255 * 255 := Nat.mul_le_mul (by omega) (by omega)
  omega

/-- **A product fits into a word.** -/
theorem toNat_multiply (x y : Byte) (f : Flags) :
    (multiply x y f).1.toNat = x.toNat * y.toNat := by
  have hbound := toNat_mul_add_le x y 0
  show (x.setWidth 16 * y.setWidth 16).toNat = _
  rw [BitVec.toNat_mul, BitVec.toNat_setWidth_of_le (by decide),
    BitVec.toNat_setWidth_of_le (by decide), Nat.mod_eq_of_lt (by omega)]

/-- **There is room for a carry** beside a product. -/
theorem applyWord_product {product : Word} {x y : Byte} (h : product.toNat = x.toNat * y.toNat)
    (carry : Byte) (f : Flags) :
    (Arithmetic.adc.applyWord product (Word.ofBytes 0 carry) f).1.toNat =
        x.toNat * y.toNat + carry.toNat ∧
      (Arithmetic.adc.applyWord product (Word.ofBytes 0 carry) f).2.carry = false := by
  have hsum := toNat_addCarry (by decide) product (Word.ofBytes 0 carry) false f
  have hbound := toNat_mul_add_le x y carry
  have hzero : (0 : Byte).toNat = 0 := rfl
  rw [h, Word.toNat_ofBytes, hzero, Bool.toNat_false] at hsum
  show (addCarry product (Word.ofBytes 0 carry) false f).1.toNat = _ ∧
    (addCarry product (Word.ofBytes 0 carry) false f).2.carry = false
  cases hcarry : (addCarry product (Word.ofBytes 0 carry) false f).2.carry with
  | false =>
    rw [hcarry, Bool.toNat_false] at hsum
    exact ⟨by omega, rfl⟩
  | true =>
    rw [hcarry, Bool.toNat_true] at hsum
    omega

/-- **A division undoes a product and a sum**: it finds the digit again, and the carry that was
added is the remainder. -/
theorem divide_of_product {divisor quotient remainder high low : Byte} (hlt : remainder < divisor)
    (h : 256 * high.toNat + low.toNat = divisor.toNat * quotient.toNat + remainder.toNat)
    (f : Flags) :
    (divide (Word.ofBytes high low) divisor f).1 = (quotient, remainder) ∧
      (divide (Word.ofBytes high low) divisor f).2.overflow = false := by
  have hquotient := quotient.isLt
  have hproduct : divisor.toNat * quotient.toNat ≤ divisor.toNat * 255 :=
    Nat.mul_le_mul_left _ (by omega)
  rw [BitVec.lt_def] at hlt
  have hhigh : high < divisor := by
    rw [BitVec.lt_def]
    omega
  obtain ⟨hoverflow, hrest, hexact⟩ := divide_of_lt hhigh low f
  -- Quotient and remainder are the only two numbers that make up the word.
  have hunique := (Nat.div_mod_unique (a := 256 * high.toNat + low.toNat) (by omega)).mpr
    ⟨(Nat.add_comm _ _).trans h.symm, hlt⟩
  have hdivided := (Nat.div_mod_unique (a := 256 * high.toNat + low.toNat) (by omega)).mpr
    ⟨(Nat.add_comm _ _).trans hexact, hrest⟩
  refine ⟨Prod.ext ?_ ?_, hoverflow⟩
  · exact BitVec.eq_of_toNat_eq (hdivided.1.symm.trans hunique.1)
  · exact BitVec.eq_of_toNat_eq (hdivided.2.symm.trans hunique.2)

end Alu

/-! ## Digit by digit -/

namespace Relay

variable {ι : Type} {is : List ι} {factor digit finds leaves : ι → Byte} {x carry out : Byte}

/-- **Digits that are multiplied one by one**, with the carry handed on, are multiplied as the
number that they stand for. -/
theorem products (h : Relay finds leaves carry is out)
    (hstep : ∀ i ∈ is, (digit i).toNat + 256 * (leaves i).toNat =
      x.toNat * (factor i).toNat + (finds i).toNat) :
    Number.value (is.map digit) + 256 ^ is.length * out.toNat =
      x.toNat * Number.value (is.map factor) + carry.toNat := by
  induction h with
  | nil carry => simp
  | @cons i is out hrest ih =>
    rw [List.forall_mem_cons] at hstep
    have hfirst := hstep.1
    have hlater := ih hstep.2
    calc Number.value ((i :: is).map digit) + 256 ^ (i :: is).length * out.toNat
        = (digit i).toNat +
            256 * (Number.value (is.map digit) + 256 ^ is.length * out.toNat) := by
          rw [List.map_cons, Number.value_cons, List.length_cons, Nat.pow_succ]
          ring
      _ = (digit i).toNat + 256 * (leaves i).toNat +
            256 * (x.toNat * Number.value (is.map factor)) := by rw [hlater]; ring
      _ = x.toNat * (factor i).toNat + (finds i).toNat +
            256 * (x.toNat * Number.value (is.map factor)) := by rw [hfirst]
      _ = x.toNat * Number.value ((i :: is).map factor) + (finds i).toNat := by
          rw [List.map_cons, Number.value_cons]
          ring

/-- A carry below the multiplier stays below it. -/
theorem lt_of_products (h : Relay finds leaves carry is out) (hcarry : carry < x)
    (hstep : ∀ i ∈ is, (digit i).toNat + 256 * (leaves i).toNat =
      x.toNat * (factor i).toNat + (finds i).toNat) : out < x := by
  refine h.keeps (P := fun carry => carry < x) hcarry fun i hi hlt => ?_
  have hexact := hstep i hi
  have hfactor := (factor i).isLt
  have hproduct : x.toNat * (factor i).toNat ≤ x.toNat * 255 := Nat.mul_le_mul_left _ (by omega)
  rw [BitVec.lt_def] at hlt ⊢
  omega

end Relay

/-! ## The instructions -/

/-- One step of a long multiplication: a machine that multiplies a digit, and one that adds the
carry to the product. -/
structure Multiplication (σ : Type) where
  product : Machine (Recorded σ)
  sum : Machine (Recorded σ)

namespace Multiplication

variable {σ τ : Type} {bus : Bus σ} {step : Multiplication σ} {multiplier carry out : Byte}
  {steps : List (Multiplication σ)}

/-- The digit that is multiplied. -/
def factor (step : Multiplication σ) : Byte := step.product.processor.registers.y

/-- The carry that is added. -/
def carryIn (bus : Bus σ) (step : Multiplication σ) : Byte := Word.low (step.sum.operandWord bus)

/-- The digit of the result. -/
def digit (bus : Bus σ) (step : Multiplication σ) : Byte :=
  (step.sum.nextOn bus.recorded).processor.registers.a

/-- The carry for the next digit. -/
def carryOut (bus : Bus σ) (step : Multiplication σ) : Byte :=
  (step.sum.nextOn bus.recorded).processor.registers.y

/-- The step multiplies a digit by the multiplier and adds a carry of one byte to the product. -/
structure Multiplies (bus : Bus σ) (multiplier : Byte) (step : Multiplication σ) : Prop where
  product : step.product.Faces bus.recorded .multiply
  multiplier : step.product.processor.registers.a = multiplier
  sum : step.sum.Faces bus.recorded (.arithmeticWord .adc)
  /-- the sum begins with the product -/
  ya : step.sum.processor.registers.ya =
    (step.product.nextOn bus.recorded).processor.registers.ya
  high : Word.high (step.sum.operandWord bus) = 0

/-- The steps multiply by one multiplier, each finding the carry that the one before it leaves. -/
structure Row (bus : Bus σ) (multiplier carry : Byte) (steps : List (Multiplication σ))
    (out : Byte) : Prop where
  multiplies : ∀ step ∈ steps, step.Multiplies bus multiplier
  relay : Relay (carryIn bus) (carryOut bus) carry steps out

/-- **One step is exact.** -/
theorem Multiplies.exact (hbus : bus.GrantsEverything) (h : step.Multiplies bus multiplier) :
    (step.product.execute bus.recorded).1 = .ok () ∧
    (step.sum.execute bus.recorded).1 = .ok () ∧
    (step.sum.nextOn bus.recorded).processor.registers.psw.carry = false ∧
    (step.digit bus).toNat + 256 * (step.carryOut bus).toNat =
      multiplier.toNat * step.factor.toNat + (step.carryIn bus).toNat := by
  obtain ⟨hokproduct, hproduct⟩ := Machine.nextOn_multiply h.product
  obtain ⟨hoksum, hsum⟩ := Machine.nextOn_arithmeticWord hbus h.sum
  have hnat := Alu.toNat_multiply step.factor multiplier step.product.processor.registers.psw
  rw [factor, ← h.multiplier, ← hproduct, ← h.ya] at hnat
  have hword : step.sum.operandWord bus = Word.ofBytes 0 (step.carryIn bus) := by
    rw [← h.high]
    exact (Word.ofBytes_high_low _).symm
  have happly := Alu.applyWord_product hnat (step.carryIn bus) step.sum.processor.registers.psw
  rw [← hword, ← hsum, h.multiplier] at happly
  obtain ⟨hexact, hcarry⟩ := happly
  have hya : (step.sum.nextOn bus.recorded).processor.registers.ya.toNat =
      256 * (step.carryOut bus).toNat + (step.digit bus).toNat := Word.toNat_ofBytes _ _
  refine ⟨hokproduct, hoksum, hcarry, ?_⟩
  rw [Nat.add_comm, ← hya, Nat.mul_comm multiplier.toNat]
  exact hexact

theorem Row.exact (hbus : bus.GrantsEverything) (h : Row bus multiplier carry steps out) :
    ∀ step ∈ steps, (step.digit bus).toNat + 256 * (step.carryOut bus).toNat =
      multiplier.toNat * step.factor.toNat + (step.carryIn bus).toNat :=
  fun step hstep => ((h.multiplies step hstep).exact hbus).2.2.2

/-- A row without its last step. -/
theorem Row.of_concat (h : Row bus multiplier carry (steps ++ [step]) out) :
    Row bus multiplier carry steps (step.carryIn bus) ∧ out = step.carryOut bus := by
  obtain ⟨hrelay, hout⟩ := h.relay.of_concat
  exact ⟨⟨fun s hs => h.multiplies s (List.mem_append_left _ hs), hrelay⟩, hout⟩

/-- **Divisions take a product apart.** The last digit is divided first, and each division leaves
the carry that the multiplication of its digit has found. -/
theorem Row.divided (hbus : bus.GrantsEverything) (h : Row bus multiplier carry steps out)
    (hcarry : carry < multiplier) {bus' : Bus τ} {ms : List (Machine τ)} {last : Byte}
    (hms : ∀ m ∈ ms, m.Faces bus' .divide ∧ m.processor.registers.x = multiplier)
    (hrelay : Relay (fun m => m.processor.registers.y)
      (fun m => (m.nextOn bus').processor.registers.y) out ms last)
    (hdigits : ms.map (fun m => m.processor.registers.a) = (steps.map (digit bus)).reverse) :
    (∀ m ∈ ms, (m.execute bus').1 = .ok () ∧
      (m.nextOn bus').processor.registers.psw.overflow = false) ∧
    ms.map (fun m => (m.nextOn bus').processor.registers.a) = (steps.map factor).reverse ∧
    last = carry := by
  induction steps using List.reverseRecOn generalizing out ms with
  | nil =>
    obtain rfl := List.map_eq_nil_iff.mp hdigits
    refine ⟨fun m hm => absurd hm List.not_mem_nil, rfl, ?_⟩
    rw [← hrelay.eq_of_nil, h.relay.eq_of_nil]
  | append_singleton steps step ih =>
    rw [List.map_append, List.reverse_append, List.map_singleton, List.reverse_singleton,
      List.singleton_append] at hdigits
    obtain ⟨m, ms, rfl, ha, hdigits⟩ := List.map_eq_cons_iff.mp hdigits
    obtain ⟨hrow, hout⟩ := h.of_concat
    rw [List.forall_mem_cons] at hms
    obtain ⟨⟨hfaces, hx⟩, hms⟩ := hms
    cases hrelay with
    | cons _ hrest =>
    have hlt : step.carryIn bus < multiplier := hrow.relay.lt_of_products hcarry (hrow.exact hbus)
    have hexact := h.exact hbus step (List.mem_append_right _ (List.mem_singleton.mpr rfl))
    rw [← hout, ← ha, Nat.add_comm] at hexact
    obtain ⟨hok, hnext⟩ := Machine.nextOn_divide hfaces
    obtain ⟨hresult, hoverflow⟩ :=
      Alu.divide_of_product hlt hexact m.processor.registers.psw
    rw [hx] at hnext
    rw [Registers.ya] at hnext
    rw [← hnext] at hresult hoverflow
    obtain ⟨hquotient, hremainder⟩ := Prod.mk.inj hresult
    rw [hremainder] at hrest
    obtain ⟨hlater, hfactors, hlast⟩ := ih hrow hms hrest hdigits
    refine ⟨List.forall_mem_cons.mpr ⟨⟨hok, hoverflow⟩, hlater⟩, ?_, hlast⟩
    rw [List.map_cons, hquotient, hfactors, List.map_append, List.reverse_append]
    rfl

end Multiplication

namespace Machine

variable {σ τ : Type}

/-- **Long multiplication of any length.** Let every step multiply a digit, in Y, by the same
multiplier, in A, and add to the product a word of memory that holds the carry which the step
before it leaves in Y. Then what the steps leave in A are the digits of the product of the whole
number with the multiplier, with the first carry added and the last carry on top, and no sum sets
the carry flag. If the first carry is below the multiplier, machines that divide by it in a row,
first the last carry and the last digit and then each remainder and the next digit below, find
the digits of the number again and leave the first carry, and no division sets overflow. -/
theorem long_multiplication {bus : Bus σ} {multiplier carry out : Byte}
    {steps : List (Multiplication σ)} (hbus : bus.GrantsEverything)
    (h : Multiplication.Row bus multiplier carry steps out) :
    (∀ step ∈ steps, (step.product.execute bus.recorded).1 = .ok () ∧
      (step.sum.execute bus.recorded).1 = .ok () ∧
      (step.sum.nextOn bus.recorded).processor.registers.psw.carry = false) ∧
    Number.value (steps.map (·.digit bus)) + 256 ^ steps.length * out.toNat =
      multiplier.toNat * Number.value (steps.map (·.factor)) + carry.toNat ∧
    (carry < multiplier → ∀ {bus' : Bus τ} {ms : List (Machine τ)} {last : Byte},
      (∀ m ∈ ms, m.Faces bus' .divide ∧ m.processor.registers.x = multiplier) →
      Relay (fun m => m.processor.registers.y) (fun m => (m.nextOn bus').processor.registers.y)
        out ms last →
      ms.map (fun m => m.processor.registers.a) = (steps.map (·.digit bus)).reverse →
      (∀ m ∈ ms, (m.execute bus').1 = .ok () ∧
        (m.nextOn bus').processor.registers.psw.overflow = false) ∧
      ms.map (fun m => (m.nextOn bus').processor.registers.a) =
        (steps.map (·.factor)).reverse ∧
      last = carry) := by
  refine ⟨?_, h.relay.products (h.exact hbus), ?_⟩
  · intro step hstep
    obtain ⟨hproduct, hsum, hcarry, -⟩ := (h.multiplies step hstep).exact hbus
    exact ⟨hproduct, hsum, hcarry⟩
  · intro hlt bus' ms last hms hrelay hdigits
    exact h.divided hbus hlt hms hrelay hdigits

/-- The number `0x80FF` multiplied by `0xFF`, with `0x12` added, and divided again. -/
theorem long_multiplication_of_tapeBus :
    let low : Multiplication (List Byte) :=
      { product := onTape { a := 0xFF, y := 0xFF } [0xCF]
        sum := onTape { a := 0x01, y := 0xFE } [0x7A, 0x10, 0x12] }
    let high : Multiplication (List Byte) :=
      { product := onTape { a := 0xFF, y := 0x80 } [0xCF]
        sum := onTape { a := 0x80, y := 0x7F } [0x7A, 0x10, 0xFE] }
    let ms := [onTape { a := 0x7E, x := 0xFF, y := 0x80 } [0x9E],
      onTape { a := 0x13, x := 0xFF, y := 0xFE } [0x9E]]
    tapeBus.GrantsEverything ∧ Multiplication.Row tapeBus 0xFF 0x12 [low, high] 0x80 ∧
    ((∀ step ∈ [low, high], (step.product.execute tapeBus.recorded).1 = .ok () ∧
        (step.sum.execute tapeBus.recorded).1 = .ok () ∧
        (step.sum.nextOn tapeBus.recorded).processor.registers.psw.carry = false) ∧
      Number.value [0x13, 0x7E] + 256 ^ 2 * (0x80 : Byte).toNat =
        (0xFF : Byte).toNat * Number.value [0xFF, 0x80] + (0x12 : Byte).toNat) ∧
    (0x12 : Byte) < 0xFF ∧
    (∀ m ∈ ms, m.Faces tapeBus.recorded .divide ∧ m.processor.registers.x = 0xFF) ∧
    Relay (fun m => m.processor.registers.y)
      (fun m => (m.nextOn tapeBus.recorded).processor.registers.y) 0x80 ms 0x12 ∧
    ((∀ m ∈ ms, (m.execute tapeBus.recorded).1 = .ok () ∧
        (m.nextOn tapeBus.recorded).processor.registers.psw.overflow = false) ∧
      ms.map (fun m => (m.nextOn tapeBus.recorded).processor.registers.a) = [0x80, 0xFF]) := by
  intro low high ms
  have hlow : low.Multiplies tapeBus 0xFF :=
    ⟨⟨0xCF, _, rfl, rfl⟩, rfl, ⟨0x7A, _, rfl, rfl⟩, by decide, by decide⟩
  have hhigh : high.Multiplies tapeBus 0xFF :=
    ⟨⟨0xCF, _, rfl, rfl⟩, rfl, ⟨0x7A, _, rfl, rfl⟩, by decide, by decide⟩
  have hcarries : low.carryIn tapeBus = 0x12 ∧ low.carryOut tapeBus = high.carryIn tapeBus ∧
      high.carryOut tapeBus = 0x80 := by decide
  have hdigits : [low, high].map (·.digit tapeBus) = [0x13, 0x7E] := by decide
  have hrow : Multiplication.Row tapeBus 0xFF 0x12 [low, high] 0x80 := by
    refine ⟨List.forall_mem_cons.mpr ⟨hlow, List.forall_mem_singleton.mpr hhigh⟩, ?_⟩
    rw [← hcarries.1, ← hcarries.2.2]
    refine .cons low ?_
    rw [hcarries.2.1]
    exact .cons high (.nil _)
  have hms : ∀ m ∈ ms, m.Faces tapeBus.recorded .divide ∧ m.processor.registers.x = 0xFF :=
    List.forall_mem_cons.mpr ⟨⟨⟨0x9E, _, rfl, rfl⟩, rfl⟩,
      List.forall_mem_singleton.mpr ⟨⟨0x9E, _, rfl, rfl⟩, rfl⟩⟩
  have hrelay : Relay (fun m => m.processor.registers.y)
      (fun m => (m.nextOn tapeBus.recorded).processor.registers.y) 0x80 ms 0x12 :=
    .cons (onTape { a := 0x7E, x := 0xFF, y := 0x80 } [0x9E])
      (.cons (onTape { a := 0x13, x := 0xFF, y := 0xFE } [0x9E]) (.nil _))
  obtain ⟨hsteps, hvalue, hdivided⟩ :=
    @long_multiplication _ (Recorded (List Byte)) _ _ _ _ _ tapeBus_grantsEverything hrow
  rw [hdigits] at hvalue hdivided
  obtain ⟨hdivisions, hfactors, -⟩ := hdivided (by decide) hms hrelay rfl
  exact ⟨tapeBus_grantsEverything, hrow, ⟨hsteps, hvalue⟩, by decide, hms, hrelay,
    hdivisions, hfactors⟩

end Machine

end Spc700
