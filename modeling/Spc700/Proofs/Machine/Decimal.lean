import Mathlib.Tactic.Ring
import Spc700.Proofs.Alu.Number
import Spc700.Proofs.Machine.Computation

/-!
# Decimal numbers

A byte can hold two decimal digits, one in each half. The arithmetic unit adds and subtracts such
bytes as if they were binary; the adjustment that follows puts the digits right from the carry
and the half carry. The carry that the adjustment leaves is the one between the decimal bytes, so a
row of sums or differences, each put right, is the sum or the difference of decimal numbers of any
length: `Machine.decimal_chain`.
-/

namespace Spc700

/-! ## Two digits in a byte -/

namespace Decimal

/-- Both halves of the byte are decimal digits. -/
def Packed (x : Byte) : Prop := x.toNat / 16 < 10 ∧ x.toNat % 16 < 10

instance (x : Byte) : Decidable (Packed x) :=
  inferInstanceAs (Decidable (x.toNat / 16 < 10 ∧ x.toNat % 16 < 10))

/-- The number that the two digits stand for. -/
def pair (x : Byte) : ℕ := 10 * (x.toNat / 16) + x.toNat % 16

/-- The number that a row of bytes of two digits each stands for, the least significant byte
first. -/
def value (bytes : List Byte) : ℕ := Nat.ofDigits 100 (bytes.map pair)

theorem Packed.pair_lt {x : Byte} (h : Packed x) : pair x < 100 := by
  unfold pair
  have := h.1
  have := h.2
  omega

end Decimal

/-! ## Putting digits right -/

namespace Alu

open Decimal

variable {x y sum result : Byte} {psw flags out : Flags}

theorem lowDigitOver_eq (x : Byte) : lowDigitOver x = decide (9 < x.toNat % 16) := by
  simp [lowDigitOver, BitVec.lt_def]

/-- **Half carry is the carry between two digits**, in sums and in differences, as long as both are
taken in base 16. -/
theorem digits_apply {f : Arithmetic} (h : (sum, flags) = f.apply x y psw) :
    sum.toNat % 16 + 16 * flags.halfCarry.toNat =
        x.toNat % 16 + f.addend 16 (y.toNat % 16) + psw.carry.toNat ∧
      sum.toNat / 16 + 16 * flags.carry.toNat =
        x.toNat / 16 + f.addend 16 (y.toNat / 16) + flags.halfCarry.toNat := by
  have hexact := Relay.toNat_apply h
  have hhalf : flags.halfCarry.toNat = 1 ↔
      16 ≤ x.toNat % 16 + f.addend 256 y.toNat % 16 + psw.carry.toNat := by
    rw [f.apply_eq] at h
    have hflag : flags.halfCarry =
        decide (16 ≤ x.toNat % 16 + (f.addendBits y).toNat % 16 + psw.carry.toNat) :=
      congrArg (fun r => r.2.halfCarry) h
    rw [hflag, f.toNat_addendBits, Bool.toNat_eq_one, decide_eq_true_iff]
    rfl
  have hcarry := psw.carry.toNat_le
  have hbetween := flags.halfCarry.toNat_le
  have hy := y.isLt
  cases f <;> simp only [Arithmetic.addend] at hexact hhalf ⊢ <;> omega

/-- The carry from the low to the high digit of a sum, once both are decimal. -/
def digitCarry (sum : Byte) (f : Flags) : Bool := lowDigitOver sum || f.halfCarry

/-- The same of a difference: it is clear if the low digit has borrowed. -/
def digitBorrow (sum : Byte) (f : Flags) : Bool := !(lowDigitOver sum || !f.halfCarry)

/-- What is added to the high digit does not matter to whether the low one is out of range. -/
theorem lowDigitOver_add (x : Byte) {high : Byte} (hhigh : high.toNat % 16 = 0) :
    lowDigitOver (x + high) = lowDigitOver x := by
  rw [lowDigitOver_eq, lowDigitOver_eq, decide_eq_decide]
  bv_omega

/-- What an adjustment adds, first to the high digit and then to the low one. -/
theorem toNat_corrected (x : Byte) {high : Byte} (low : Byte) (hhigh : high.toNat % 16 = 0)
    (c h : Bool) :
    (if lowDigitOver (if c then x + high else x) || h then (if c then x + high else x) + low
      else if c then x + high else x).toNat =
      (x.toNat + high.toNat * c.toNat + low.toNat * (lowDigitOver x || h).toNat) % 256 := by
  have hover : lowDigitOver (if c then x + high else x) = lowDigitOver x := by
    cases c
    · rfl
    · exact lowDigitOver_add x hhigh
  have hx := x.isLt
  rw [hover]
  cases c <;> cases lowDigitOver x || h <;> simp [Nat.mod_eq_of_lt hx]

/-- A sum put right. -/
theorem toNat_adjustAddition (x : Byte) (f : Flags) :
    (adjustAddition x f).1.toNat = (x.toNat + 0x60 * (adjustAddition x f).2.carry.toNat +
      0x06 * (digitCarry x f).toNat) % 256 :=
  toNat_corrected x 0x06 (by decide) _ _

/-- A difference put right: what is taken off is added as its complement. -/
theorem toNat_adjustSubtraction (x : Byte) (f : Flags) :
    (adjustSubtraction x f).1.toNat =
      (x.toNat + 0xA0 * (1 - (adjustSubtraction x f).2.carry.toNat) +
        0xFA * (1 - (digitBorrow x f).toNat)) % 256 := by
  have hnot (c : Bool) : 1 - (!c).toNat = c.toNat := by cases c <;> rfl
  have hcarry : (adjustSubtraction x f).2.carry = !(decide (0x99 < x) || !f.carry) := rfl
  have hborrow : digitBorrow x f = !(lowDigitOver x || !f.halfCarry) := rfl
  rw [hcarry, hborrow, hnot, hnot]
  simp only [adjustSubtraction, BitVec.sub_eq_add_neg]
  exact toNat_corrected x (-0x06) (by decide) _ _

/-! ## From base 16 to base 10 -/

section

variable {s r low high h c t o : ℕ}

/-- A sum `s` in base 16 has the carries `h` and `c` of its two digits, and putting it right to `r`
makes the carries `t` and `o` of base 10 of them. -/
theorem digits_of_sum (hlow : s % 16 + 16 * h = low) (hhigh : s / 16 + 16 * c = high + h)
    (ht : t = 1 ↔ 9 < s % 16 ∨ h = 1) (ho : o = 1 ↔ 0x99 < s ∨ c = 1)
    (hr : r = (s + 0x60 * o + 0x06 * t) % 256) (ht₁ : t ≤ 1) (ho₁ : o ≤ 1) (hc₁ : c ≤ 1)
    (hlowest : low < 20) (hhighest : high < 19) :
    (r / 16 < 10 ∧ r % 16 < 10) ∧ 10 * (r / 16) + r % 16 + 100 * o = 10 * high + low := by
  have hbetween : t = 1 ↔ 10 ≤ low := by omega
  have hcarry : o = 1 ↔ 10 ≤ high + t := by omega
  clear ht ho
  have hfirst : r % 16 + 10 * t = low := by omega
  have hsecond : r / 16 + 10 * o = high + t := by omega
  clear hr hlow hhigh
  omega

/-- The same of a difference. The complement of a digit is larger by six in base 16, so that the
carries are those of base 10 already. -/
theorem digits_of_difference (hlow : s % 16 + 16 * h = low + 6)
    (hhigh : s / 16 + 16 * c = high + 6 + h) (hs : s < 256)
    (ht : t = 1 ↔ s % 16 ≤ 9 ∧ h = 1) (ho : o = 1 ↔ s ≤ 0x99 ∧ c = 1)
    (hr : r = (s + 0xA0 * (1 - o) + 0xFA * (1 - t)) % 256) (ht₁ : t ≤ 1) (ho₁ : o ≤ 1)
    (hh₁ : h ≤ 1) (hc₁ : c ≤ 1) (hlowest : low < 20) (hhighest : high < 19) :
    (r / 16 < 10 ∧ r % 16 < 10) ∧ 10 * (r / 16) + r % 16 + 100 * o = 10 * high + low := by
  obtain rfl : t = h := by omega
  obtain rfl : o = c := by omega
  clear ht ho
  have hbetween : t = 1 ↔ 10 ≤ low := by omega
  have hcarry : o = 1 ↔ 10 ≤ high + t := by omega
  clear hs
  have hdigits : r % 16 + 10 * t = low ∧ r / 16 + 10 * o = high + t := by
    obtain rfl | rfl := Nat.le_one_iff_eq_zero_or_eq_one.mp ht₁ <;>
      obtain rfl | rfl := Nat.le_one_iff_eq_zero_or_eq_one.mp ho₁ <;> omega
  clear hr hlow hhigh
  omega

end

/-- **A sum of decimal digits**, put right. -/
theorem adjustAddition_apply (hx : Packed x) (hy : Packed y)
    (hsum : (sum, flags) = Arithmetic.adc.apply x y psw)
    (hresult : (result, out) = adjustAddition sum flags) :
    Packed result ∧ pair result + 100 * out.carry.toNat = pair x + pair y + psw.carry.toNat := by
  have hcarry := psw.carry.toNat_le
  obtain ⟨hxhigh, hxlow⟩ := hx
  obtain ⟨hyhigh, hylow⟩ := hy
  have hlowest : x.toNat % 16 + y.toNat % 16 + psw.carry.toNat < 20 := by omega
  have hhighest : x.toNat / 16 + y.toNat / 16 < 19 := by omega
  have hadjusted := toNat_adjustAddition sum flags
  have hout : (adjustAddition sum flags).2.carry.toNat = 1 ↔
      0x99 < sum.toNat ∨ flags.carry.toNat = 1 := by
    simp [adjustAddition, BitVec.lt_def]
  have hbetween : (digitCarry sum flags).toNat = 1 ↔
      9 < sum.toNat % 16 ∨ flags.halfCarry.toNat = 1 := by
    simp [digitCarry, lowDigitOver_eq]
  rw [← hresult] at hadjusted hout
  obtain ⟨hlow, hhigh⟩ := digits_apply hsum
  obtain ⟨hpacked, hpair⟩ := digits_of_sum hlow hhigh hbetween hout hadjusted
    (Bool.toNat_le _) (Bool.toNat_le _) (Bool.toNat_le _) hlowest hhighest
  refine ⟨hpacked, hpair.trans ?_⟩
  simp only [Arithmetic.addend, pair]
  ring

/-- **A difference of decimal digits**, put right. -/
theorem adjustSubtraction_apply (hx : Packed x) (hy : Packed y)
    (hsum : (sum, flags) = Arithmetic.sbc.apply x y psw)
    (hresult : (result, out) = adjustSubtraction sum flags) :
    Packed result ∧
      pair result + 100 * out.carry.toNat = pair x + (99 - pair y) + psw.carry.toNat := by
  have hcarry := psw.carry.toNat_le
  obtain ⟨hxhigh, hxlow⟩ := hx
  obtain ⟨hyhigh, hylow⟩ := hy
  have hlowest : x.toNat % 16 + (9 - y.toNat % 16) + psw.carry.toNat < 20 := by omega
  have hhighest : x.toNat / 16 + (9 - y.toNat / 16) < 19 := by omega
  have hpairs : 10 * (x.toNat / 16 + (9 - y.toNat / 16)) +
      (x.toNat % 16 + (9 - y.toNat % 16) + psw.carry.toNat) =
        pair x + (99 - pair y) + psw.carry.toNat := by
    simp only [pair]
    omega
  have hcomplement : ∀ digit < 10, Arithmetic.sbc.addend 16 digit = 9 - digit + 6 := by
    intro digit hdigit
    simp only [Arithmetic.addend]
    omega
  have hadjusted := toNat_adjustSubtraction sum flags
  have hout : (adjustSubtraction sum flags).2.carry.toNat = 1 ↔
      sum.toNat ≤ 0x99 ∧ flags.carry.toNat = 1 := by
    simp [adjustSubtraction, BitVec.lt_def]
  have hbetween : (digitBorrow sum flags).toNat = 1 ↔
      sum.toNat % 16 ≤ 9 ∧ flags.halfCarry.toNat = 1 := by
    simp [digitBorrow, lowDigitOver_eq]
  rw [← hresult] at hadjusted hout
  obtain ⟨hlow, hhigh⟩ := digits_apply hsum
  rw [hcomplement _ hylow, ← Nat.add_assoc, Nat.add_right_comm] at hlow
  rw [hcomplement _ hyhigh, ← Nat.add_assoc] at hhigh
  obtain ⟨hpacked, hpair⟩ := digits_of_difference hlow hhigh sum.isLt hbetween hout hadjusted
    (Bool.toNat_le _) (Bool.toNat_le _) (Bool.toNat_le _) (Bool.toNat_le _) hlowest hhighest
  exact ⟨hpacked, hpair.trans hpairs⟩

/-- **Decimal digits** that the arithmetic unit works on and then puts right. -/
theorem adjust_apply {f : Arithmetic} (hx : Packed x) (hy : Packed y)
    (hsum : (sum, flags) = f.apply x y psw) (hresult : (result, out) = f.adjust sum flags) :
    Packed result ∧
      pair result + 100 * out.carry.toNat = pair x + f.addend 100 (pair y) + psw.carry.toNat := by
  cases f with
  | adc => exact adjustAddition_apply hx hy hsum hresult
  | sbc => exact adjustSubtraction_apply hx hy hsum hresult

end Alu

/-! ## Decimal numbers of any length -/

namespace Machine

variable {σ : Type}

/-- **Decimal arithmetic of any length.** On a bus that refuses nothing, let machines in a row each
add a byte to A with the carry and then adjust the sum, each finding the flags that the one before
it leaves, and let all bytes be packed decimal digits. Then so are the bytes that they leave in A,
and these stand for the decimal sum; the carry is set at the end exactly if the sum is out of range.
The same holds of differences. -/
theorem decimal_chain {bus : Bus σ} (hbus : bus.GrantsEverything) {f : Arithmetic}
    {ms : List (Machine (Recorded σ))} {psw psw' : Flags}
    (hms : ∀ m ∈ ms, m.Faces bus.recorded (.arithmetic f) ∧
      (m.nextOn bus.recorded).Faces bus.recorded f.adjustment)
    (hdigits : ∀ m ∈ ms, Decimal.Packed m.processor.registers.a ∧ Decimal.Packed (m.operand bus))
    (hrelay : Relay (fun m => m.processor.registers.psw)
      (fun m => ((m.nextOn bus.recorded).nextOn bus.recorded).processor.registers.psw)
      psw ms psw') :
    (∀ m ∈ ms, (m.execute bus.recorded).1 = .ok () ∧
      ((m.nextOn bus.recorded).execute bus.recorded).1 = .ok () ∧
      Decimal.Packed ((m.nextOn bus.recorded).nextOn bus.recorded).processor.registers.a) ∧
    f.Exact (100 ^ ms.length)
      (Decimal.value (ms.map fun m => m.processor.registers.a))
      (Decimal.value (ms.map fun m => m.operand bus)) psw.carry
      (Decimal.value (ms.map fun m =>
        ((m.nextOn bus.recorded).nextOn bus.recorded).processor.registers.a)) psw'.carry := by
  have hstep : ∀ m ∈ ms, (m.execute bus.recorded).1 = .ok () ∧
      ((m.nextOn bus.recorded).execute bus.recorded).1 = .ok () ∧
      Decimal.Packed ((m.nextOn bus.recorded).nextOn bus.recorded).processor.registers.a ∧
      Decimal.pair ((m.nextOn bus.recorded).nextOn bus.recorded).processor.registers.a +
          100 * ((m.nextOn bus.recorded).nextOn bus.recorded).processor.registers.psw.carry.toNat =
        Decimal.pair m.processor.registers.a + f.addend 100 (Decimal.pair (m.operand bus)) +
          m.processor.registers.psw.carry.toNat := by
    intro m hm
    obtain ⟨hfaces, hadjusts⟩ := hms m hm
    obtain ⟨ha, hoperand⟩ := hdigits m hm
    obtain ⟨hok, hsum⟩ := nextOn_arithmetic hbus hfaces
    obtain ⟨hok', hresult⟩ := nextOn_adjustment hadjusts
    exact ⟨hok, hok', Alu.adjust_apply ha hoperand hsum hresult⟩
  constructor
  · intro m hm
    obtain ⟨hok, hok', hpacked, -⟩ := hstep m hm
    exact ⟨hok, hok', hpacked⟩
  · simp only [Decimal.value, List.map_map]
    exact (hrelay.map Flags.carry).exact (by decide)
      (fun m hm => (hstep m hm).2.2.1.pair_lt) (fun m hm => (hdigits m hm).2.pair_lt)
      fun m hm => (hstep m hm).2.2.2

/-- The sum of 4958 and 5067, which is 25 and a carry. -/
theorem decimal_chain_of_tapeBus :
    let ms := [onTape { a := 0x58 } [0x88, 0x67, 0xDF],
      onTape { a := 0x49, psw := { overflow := true, carry := true } } [0x88, 0x50, 0xDF]]
    let psw' : Flags := { overflow := true, zero := true, carry := true }
    tapeBus.GrantsEverything ∧
    (∀ m ∈ ms, m.Faces tapeBus.recorded (.arithmetic .adc) ∧
      (m.nextOn tapeBus.recorded).Faces tapeBus.recorded Arithmetic.adc.adjustment) ∧
    (∀ m ∈ ms, Decimal.Packed m.processor.registers.a ∧
      Decimal.Packed (m.operand tapeBus)) ∧
    Relay (fun m => m.processor.registers.psw)
      (fun m => ((m.nextOn tapeBus.recorded).nextOn tapeBus.recorded).processor.registers.psw)
      {} ms psw' ∧
    (∀ m ∈ ms, (m.execute tapeBus.recorded).1 = .ok () ∧
      ((m.nextOn tapeBus.recorded).execute tapeBus.recorded).1 = .ok () ∧
      Decimal.Packed ((m.nextOn tapeBus.recorded).nextOn tapeBus.recorded).processor.registers.a) ∧
    Arithmetic.adc.Exact (100 ^ 2) (Decimal.value [0x58, 0x49]) (Decimal.value [0x67, 0x50]) false
      (Decimal.value [0x25, 0x00]) true := by
  intro ms psw'
  have hms : ∀ m ∈ ms, m.Faces tapeBus.recorded (.arithmetic .adc) ∧
      (m.nextOn tapeBus.recorded).Faces tapeBus.recorded Arithmetic.adc.adjustment :=
    List.forall_mem_cons.mpr ⟨⟨⟨0x88, _, rfl, rfl⟩, ⟨0xDF, _, rfl, rfl⟩⟩,
      List.forall_mem_singleton.mpr ⟨⟨0x88, _, rfl, rfl⟩, ⟨0xDF, _, rfl, rfl⟩⟩⟩
  have hdigits : ∀ m ∈ ms, Decimal.Packed m.processor.registers.a ∧
      Decimal.Packed (m.operand tapeBus) :=
    List.forall_mem_cons.mpr ⟨by decide, List.forall_mem_singleton.mpr (by decide)⟩
  have hrelay : Relay (fun m => m.processor.registers.psw)
      (fun m => ((m.nextOn tapeBus.recorded).nextOn tapeBus.recorded).processor.registers.psw)
      {} ms psw' :=
    .cons (onTape { a := 0x58 } [0x88, 0x67, 0xDF])
      (.cons (onTape { a := 0x49, psw := { overflow := true, carry := true } } [0x88, 0x50, 0xDF])
        (.nil psw'))
  exact ⟨tapeBus_grantsEverything, hms, hdigits, hrelay,
    decimal_chain tapeBus_grantsEverything hms hdigits hrelay⟩

end Machine

end Spc700
