import Spc700.Proofs.Alu.Number
import Spc700.Proofs.Machine.Computation

/-!
# Words and their bytes

The arithmetic unit adds words as it adds bytes, so a sum of words is the sum of the low bytes and
then of the high bytes with its carry (`Alu.addCarry_ofBytes`). The instructions on words therefore
do what two instructions on bytes do, with the carry cleared before a sum and set before a
difference, but for the zero flag, which speaks of the whole word: `Machine.words_bytewise`.
-/

namespace Spc700

theorem Word.msb_ofBytes (high low : Byte) : (Word.ofBytes high low).msb = high.msb :=
  BitVec.msb_append.trans (if_neg (by decide))

theorem Word.not_ofBytes (high low : Byte) :
    ~~~(Word.ofBytes high low) = Word.ofBytes (~~~high) (~~~low) :=
  BitVec.not_append

/-! ## Sums of words -/

namespace Alu

section

variable {xh xl yh yl low high : Byte} {carry : Bool} {f between after : Flags}

/-- The bytes of a sum of words, with its carry and its half carry. -/
theorem sum_ofBytes (hlow : (low, between) = addCarry xl yl carry f)
    (hhigh : (high, after) = addCarry xh yh between.carry between) (g : Flags) :
    (addCarry (Word.ofBytes xh xl) (Word.ofBytes yh yl) carry g).1 = Word.ofBytes high low ∧
    (addCarry (Word.ofBytes xh xl) (Word.ofBytes yh yl) carry g).2.carry = after.carry ∧
    (addCarry (Word.ofBytes xh xl) (Word.ofBytes yh yl) carry g).2.halfCarry =
      after.halfCarry := by
  have hl := toNat_addCarry (by decide) xl yl carry f
  have hh := toNat_addCarry (by decide) xh yh between.carry between
  have hw := toNat_addCarry (by decide) (Word.ofBytes xh xl) (Word.ofBytes yh yl) carry g
  have hhalf : after.halfCarry =
      decide (16 ≤ xh.toNat % 16 + yh.toNat % 16 + between.carry.toNat) :=
    congrArg (fun r => r.2.halfCarry) hhigh
  have hwhalf : (addCarry (Word.ofBytes xh xl) (Word.ofBytes yh yl) carry g).2.halfCarry =
      decide (4096 ≤ (Word.ofBytes xh xl).toNat % 4096 + (Word.ofBytes yh yl).toNat % 4096 +
        carry.toNat) := rfl
  rw [← hlow] at hl
  rw [← hhigh] at hh
  simp only [Word.toNat_ofBytes] at hl hh hw hwhalf
  have hlow_lt := low.isLt
  have hhigh_lt := high.isLt
  have hword_lt := (addCarry (Word.ofBytes xh xl) (Word.ofBytes yh yl) carry g).1.isLt
  have hcarry := after.carry.toNat_le
  have hcarry' := (addCarry (Word.ofBytes xh xl) (Word.ofBytes yh yl) carry g).2.carry.toNat_le
  refine ⟨?_, ?_, ?_⟩
  · apply BitVec.eq_of_toNat_eq
    rw [Word.toNat_ofBytes]
    omega
  · rw [Bool.eq_iff_iff, ← Bool.toNat_eq_one, ← Bool.toNat_eq_one]
    omega
  · rw [hwhalf, hhalf, decide_eq_decide]
    have hxl := xl.isLt
    have hyl := yl.isLt
    have hbetween := between.carry.toNat_le
    omega

/-- **A sum of words, byte by byte.** The flags agree but for zero, which speaks of the whole
result; half carry is that of the high bytes. -/
theorem addCarry_ofBytes (hlow : (low, between) = addCarry xl yl carry { f with carry })
    (hhigh : (high, after) = addCarry xh yh between.carry between) :
    addCarry (Word.ofBytes xh xl) (Word.ofBytes yh yl) carry f =
      (Word.ofBytes high low, { after with zero := Word.ofBytes high low == 0 }) := by
  obtain ⟨hsum, hcarry, hhalf⟩ := sum_ofBytes hlow hhigh f
  refine Prod.ext hsum ?_
  have hflags (x y : Word) : (addCarry x y carry f).2 =
      { f with
        negative := (addCarry x y carry f).1.msb
        overflow := x.msb == y.msb && y.msb != (addCarry x y carry f).1.msb
        halfCarry := (addCarry x y carry f).2.halfCarry
        zero := (addCarry x y carry f).1 == 0
        carry := (addCarry x y carry f).2.carry } := rfl
  rw [hflags, hsum, hcarry, hhalf, Word.msb_ofBytes, Word.msb_ofBytes, Word.msb_ofBytes]
  obtain ⟨-, rfl⟩ := Prod.mk.inj hlow
  obtain ⟨rfl, rfl⟩ := Prod.mk.inj hhigh
  rfl

end

end Alu

/-! ## Words in the families of operations -/

namespace Arithmetic

/-- The carry that makes no difference to a result. -/
def idle : Arithmetic → Bool
  | adc => false
  | sbc => true

/-- **Words, byte by byte**, with the carry put so that it makes no difference. -/
theorem applyWord_ofBytes {f : Arithmetic} {xh xl yh yl low high : Byte}
    {psw between after : Flags}
    (hlow : (low, between) = f.apply xl yl { psw with carry := f.idle })
    (hhigh : (high, after) = f.apply xh yh between) :
    f.applyWord (Word.ofBytes xh xl) (Word.ofBytes yh yl) psw =
      (Word.ofBytes high low, { after with zero := Word.ofBytes high low == 0 }) := by
  cases f with
  | adc => exact Alu.addCarry_ofBytes hlow hhigh
  | sbc =>
    show Alu.addCarry _ (~~~(Word.ofBytes yh yl)) true psw = _
    rw [Word.not_ofBytes]
    exact Alu.addCarry_ofBytes hlow hhigh

/-- The carry before an operation on words makes no difference. -/
theorem applyWord_carry (f : Arithmetic) (x y : Word) (psw : Flags) (carry : Bool) :
    f.applyWord x y { psw with carry } = f.applyWord x y psw := by
  cases f <;> rfl

/-- **What the flags of a difference say** of its operands: the carry compares them as unsigned
numbers, negative and overflow together as signed ones. -/
theorem applyWord_sbc (x y : Word) (psw : Flags) :
    ((sbc.applyWord x y psw).2.carry = true ↔ y ≤ x) ∧
    ((sbc.applyWord x y psw).2.zero = true ↔ x = y) ∧
    (((sbc.applyWord x y psw).2.negative ^^ (sbc.applyWord x y psw).2.overflow) = true ↔
      x.toInt < y.toInt) := by
  have hcompare := Alu.compare_eq x y psw
  have hcarry : (sbc.applyWord x y psw).2.carry = decide (y ≤ x) :=
    (congrArg Flags.carry hcompare).symm
  have hzero : (sbc.applyWord x y psw).2.zero = (x - y == 0) :=
    (congrArg Flags.zero hcompare).symm
  refine ⟨by rw [hcarry, decide_eq_true_iff], ?_, ?_⟩
  · rw [hzero, beq_iff_eq]
    bv_omega
  · have hsign := (Alu.sign_addCarry (by decide) x (~~~y) true psw).2
    have hexact : x.toInt + (~~~y).toInt + true.toNat = x.toInt - y.toInt - false.toNat :=
      exact_toInt (by decide) sbc x y true
    rw [hexact] at hsign
    refine hsign.trans ?_
    simp

end Arithmetic

/-! ## The instructions -/

namespace Machine

variable {σ : Type}

/-- Two machines that do byte by byte what the machine `m` does on words. -/
structure Bytewise (bus : Bus σ) (f : Arithmetic) (m low high : Machine (Recorded σ)) : Prop where
  word : m.Faces bus.recorded (.arithmeticWord f)
  bytes : low.Faces bus.recorded (.arithmetic f) ∧ high.Faces bus.recorded (.arithmetic f)
  /-- first the low bytes -/
  lowBytes : low.processor.registers.a = m.processor.registers.a ∧
    low.operand bus = Word.low (m.operandWord bus)
  /-- with the carry cleared before a sum and set before a difference -/
  lowFlags : low.processor.registers.psw = { m.processor.registers.psw with carry := f.idle }
  /-- then the high bytes -/
  highBytes : high.processor.registers.a = m.processor.registers.y ∧
    high.operand bus = Word.high (m.operandWord bus)
  /-- with the flags that the low bytes have left -/
  highFlags : high.processor.registers.psw = (low.nextOn bus.recorded).processor.registers.psw

/-- Two machines that work on the same words. -/
structure SameWords (bus : Bus σ) (m m' : Machine (Recorded σ)) : Prop where
  ya : m'.processor.registers.ya = m.processor.registers.ya
  operandWord : m'.operandWord bus = m.operandWord bus

section

variable {bus : Bus σ} {f : Arithmetic} {m m' low high : Machine (Recorded σ)}

/-- **A word instruction does what two byte instructions do**, flags included, but for zero. -/
theorem Bytewise.nextOn_eq (hbus : bus.GrantsEverything) (h : Bytewise bus f m low high) :
    (m.execute bus.recorded).1 = .ok () ∧ (low.execute bus.recorded).1 = .ok () ∧
    (high.execute bus.recorded).1 = .ok () ∧
    (m.nextOn bus.recorded).processor.registers.ya =
      Word.ofBytes (high.nextOn bus.recorded).processor.registers.a
        (low.nextOn bus.recorded).processor.registers.a ∧
    (m.nextOn bus.recorded).processor.registers.psw =
      { (high.nextOn bus.recorded).processor.registers.psw with
        zero := (m.nextOn bus.recorded).processor.registers.ya == 0 } := by
  obtain ⟨hok, hword⟩ := nextOn_arithmeticWord hbus h.word
  obtain ⟨hoklow, hlow⟩ := nextOn_arithmetic hbus h.bytes.1
  obtain ⟨hokhigh, hhigh⟩ := nextOn_arithmetic hbus h.bytes.2
  rw [h.lowBytes.1, h.lowBytes.2, h.lowFlags] at hlow
  rw [h.highBytes.1, h.highBytes.2, h.highFlags] at hhigh
  have hbytes := Arithmetic.applyWord_ofBytes hlow hhigh
  rw [Word.ofBytes_high_low, ← Registers.ya, ← hword] at hbytes
  obtain ⟨hya, hpsw⟩ := Prod.mk.inj hbytes
  refine ⟨hok, hoklow, hokhigh, hya, ?_⟩
  rw [hya]
  exact hpsw

/-- A word instruction does not look at the carry. -/
theorem SameWords.nextOn_arithmeticWord_eq (hbus : bus.GrantsEverything) (h : SameWords bus m m')
    (hm : m.Faces bus.recorded (.arithmeticWord f))
    (hm' : m'.Faces bus.recorded (.arithmeticWord f))
    (hpsw : m'.processor.registers.psw =
      { m.processor.registers.psw with carry := m'.processor.registers.psw.carry }) :
    (m'.nextOn bus.recorded).processor.registers.ya =
        (m.nextOn bus.recorded).processor.registers.ya ∧
      (m'.nextOn bus.recorded).processor.registers.psw =
        (m.nextOn bus.recorded).processor.registers.psw := by
  obtain ⟨-, hnext⟩ := nextOn_arithmeticWord hbus hm
  obtain ⟨-, hnext'⟩ := nextOn_arithmeticWord hbus hm'
  rw [h.ya, h.operandWord, hpsw, f.applyWord_carry, ← hnext] at hnext'
  exact Prod.mk.inj hnext'

/-- A comparison sets three of the flags that the difference sets. -/
theorem SameWords.nextOn_compareWord_eq (hbus : bus.GrantsEverything) (h : SameWords bus m m')
    (hm : m.Faces bus.recorded (.arithmeticWord .sbc)) (hm' : m'.Faces bus.recorded .compareWord)
    (hpsw : m'.processor.registers.psw = m.processor.registers.psw) :
    (m'.nextOn bus.recorded).processor.registers.psw =
      { (m.nextOn bus.recorded).processor.registers.psw with
        overflow := m'.processor.registers.psw.overflow
        halfCarry := m'.processor.registers.psw.halfCarry } := by
  obtain ⟨-, hnext⟩ := nextOn_arithmeticWord hbus hm
  obtain ⟨-, -, hnext', -⟩ := nextOn_compareWord hbus hm'
  have hdifference : (m.nextOn bus.recorded).processor.registers.psw =
      (Alu.subBorrow m.processor.registers.ya (m.operandWord bus) true
        m.processor.registers.psw).2 := congrArg Prod.snd hnext
  rw [hnext', hdifference, h.ya, h.operandWord, hpsw, Alu.compare_eq]

/-- What the flags say behind a difference. -/
theorem flags_of_difference (hbus : bus.GrantsEverything)
    (hm : m.Faces bus.recorded (.arithmeticWord .sbc)) :
    ((m.nextOn bus.recorded).processor.registers.psw.carry = true ↔
      m.operandWord bus ≤ m.processor.registers.ya) ∧
    ((m.nextOn bus.recorded).processor.registers.psw.zero = true ↔
      m.processor.registers.ya = m.operandWord bus) ∧
    (((m.nextOn bus.recorded).processor.registers.psw.negative ^^
        (m.nextOn bus.recorded).processor.registers.psw.overflow) = true ↔
      m.processor.registers.ya.toInt < (m.operandWord bus).toInt) := by
  obtain ⟨-, hnext⟩ := nextOn_arithmeticWord hbus hm
  have hflags := Arithmetic.applyWord_sbc m.processor.registers.ya (m.operandWord bus)
    m.processor.registers.psw
  rw [← hnext] at hflags
  exact hflags

/-- What they say behind a comparison. -/
theorem flags_of_comparison (hbus : bus.GrantsEverything)
    (hm : m.Faces bus.recorded .compareWord) :
    ((m.nextOn bus.recorded).processor.registers.psw.carry = true ↔
      m.operandWord bus ≤ m.processor.registers.ya) ∧
    ((m.nextOn bus.recorded).processor.registers.psw.zero = true ↔
      m.processor.registers.ya = m.operandWord bus) := by
  obtain ⟨-, -, hnext, -⟩ := nextOn_compareWord hbus hm
  have hflags := Arithmetic.applyWord_sbc m.processor.registers.ya (m.operandWord bus)
    m.processor.registers.psw
  rw [hnext, Alu.compare_eq]
  exact ⟨hflags.1, hflags.2.1⟩

end

/-- **Word instructions and byte instructions agree**, on any bus that refuses nothing.

* A sum or a difference of words is that of the low bytes and then of the high bytes, flags
  included, but for zero, which speaks of the whole word.
* The carry before it makes no difference.
* A comparison leaves the negative, zero and carry flags of the difference, and changes nothing
  else: neither Y nor A nor another flag, and it writes nothing.
* After a difference the carry is set exactly if Y and A are not below the operand, zero exactly if
  they are equal to it, and one of negative and overflow exactly if they are below it as signed
  numbers. After a comparison carry and zero say the same. -/
theorem words_bytewise {bus : Bus σ} (hbus : bus.GrantsEverything) :
    (∀ {f : Arithmetic} {m low high : Machine (Recorded σ)}, Bytewise bus f m low high →
      (m.execute bus.recorded).1 = .ok () ∧ (low.execute bus.recorded).1 = .ok () ∧
      (high.execute bus.recorded).1 = .ok () ∧
      (m.nextOn bus.recorded).processor.registers.ya =
        Word.ofBytes (high.nextOn bus.recorded).processor.registers.a
          (low.nextOn bus.recorded).processor.registers.a ∧
      (m.nextOn bus.recorded).processor.registers.psw =
        { (high.nextOn bus.recorded).processor.registers.psw with
          zero := (m.nextOn bus.recorded).processor.registers.ya == 0 }) ∧
    (∀ {f : Arithmetic} {m m' : Machine (Recorded σ)},
      m.Faces bus.recorded (.arithmeticWord f) → m'.Faces bus.recorded (.arithmeticWord f) →
      SameWords bus m m' →
      m'.processor.registers.psw =
        { m.processor.registers.psw with carry := m'.processor.registers.psw.carry } →
      (m'.nextOn bus.recorded).processor.registers.ya =
        (m.nextOn bus.recorded).processor.registers.ya ∧
      (m'.nextOn bus.recorded).processor.registers.psw =
        (m.nextOn bus.recorded).processor.registers.psw) ∧
    (∀ {m m' : Machine (Recorded σ)},
      m.Faces bus.recorded (.arithmeticWord .sbc) → m'.Faces bus.recorded .compareWord →
      SameWords bus m m' → m'.processor.registers.psw = m.processor.registers.psw →
      (m'.execute bus.recorded).1 = .ok () ∧
      (m'.nextOn bus.recorded).processor.registers.psw =
        { (m.nextOn bus.recorded).processor.registers.psw with
          overflow := m'.processor.registers.psw.overflow
          halfCarry := m'.processor.registers.psw.halfCarry } ∧
      (m'.nextOn bus.recorded).processor.registers.ya = m'.processor.registers.ya ∧
      ∀ a ∈ m'.accessesOn bus, a.direction = .read) ∧
    (∀ {m : Machine (Recorded σ)}, m.Faces bus.recorded (.arithmeticWord .sbc) →
      ((m.nextOn bus.recorded).processor.registers.psw.carry = true ↔
        m.operandWord bus ≤ m.processor.registers.ya) ∧
      ((m.nextOn bus.recorded).processor.registers.psw.zero = true ↔
        m.processor.registers.ya = m.operandWord bus) ∧
      (((m.nextOn bus.recorded).processor.registers.psw.negative ^^
          (m.nextOn bus.recorded).processor.registers.psw.overflow) = true ↔
        m.processor.registers.ya.toInt < (m.operandWord bus).toInt)) ∧
    (∀ {m : Machine (Recorded σ)}, m.Faces bus.recorded .compareWord →
      ((m.nextOn bus.recorded).processor.registers.psw.carry = true ↔
        m.operandWord bus ≤ m.processor.registers.ya) ∧
      ((m.nextOn bus.recorded).processor.registers.psw.zero = true ↔
        m.processor.registers.ya = m.operandWord bus)) := by
  refine ⟨fun h => h.nextOn_eq hbus, ?_, ?_, flags_of_difference hbus, flags_of_comparison hbus⟩
  · intro f m m' hm hm' hsame hpsw
    exact hsame.nextOn_arithmeticWord_eq hbus hm hm' hpsw
  · intro m m' hm hm' hsame hpsw
    obtain ⟨hok, hya, -, hreads⟩ := nextOn_compareWord hbus hm'
    exact ⟨hok, hsame.nextOn_compareWord_eq hbus hm hm' hpsw, hya, hreads⟩

/-- A difference that borrows, of words and byte by byte, and the comparison that goes with it. -/
theorem words_bytewise_of_tapeBus :
    let m := onTape { a := 0x34, y := 0x12 } [0x9A, 0x10, 0x35, 0x92]
    let low := onTape { a := 0x34, psw := { carry := true } } [0xA8, 0x35]
    let high := onTape { a := 0x12, psw := { negative := true } } [0xA8, 0x92]
    let carried :=
      onTape { a := 0x34, y := 0x12, psw := { carry := true } } [0x9A, 0x10, 0x35, 0x92]
    let compared := onTape { a := 0x34, y := 0x12 } [0x5A, 0x10, 0x35, 0x92]
    tapeBus.GrantsEverything ∧ Bytewise tapeBus .sbc m low high ∧
    SameWords tapeBus m carried ∧ SameWords tapeBus m compared ∧
    m.Faces tapeBus.recorded (.arithmeticWord .sbc) ∧
    carried.Faces tapeBus.recorded (.arithmeticWord .sbc) ∧
    compared.Faces tapeBus.recorded .compareWord ∧
    ((m.nextOn tapeBus.recorded).processor.registers.ya =
        Word.ofBytes (high.nextOn tapeBus.recorded).processor.registers.a
          (low.nextOn tapeBus.recorded).processor.registers.a ∧
      (m.nextOn tapeBus.recorded).processor.registers.psw =
        { (high.nextOn tapeBus.recorded).processor.registers.psw with
          zero := (m.nextOn tapeBus.recorded).processor.registers.ya == 0 }) ∧
    (carried.nextOn tapeBus.recorded).processor.registers.psw =
      (m.nextOn tapeBus.recorded).processor.registers.psw ∧
    (∀ a ∈ compared.accessesOn tapeBus, a.direction = .read) ∧
    (((m.nextOn tapeBus.recorded).processor.registers.psw.negative ^^
        (m.nextOn tapeBus.recorded).processor.registers.psw.overflow) = true ↔
      m.processor.registers.ya.toInt < (m.operandWord tapeBus).toInt) ∧
    ((compared.nextOn tapeBus.recorded).processor.registers.psw.zero = true ↔
      compared.processor.registers.ya = compared.operandWord tapeBus) := by
  have hbytes : Bytewise tapeBus .sbc (onTape { a := 0x34, y := 0x12 } [0x9A, 0x10, 0x35, 0x92])
      (onTape { a := 0x34, psw := { carry := true } } [0xA8, 0x35])
      (onTape { a := 0x12, psw := { negative := true } } [0xA8, 0x92]) := by
    constructor
    case word => exact ⟨0x9A, _, rfl, rfl⟩
    case bytes => exact ⟨⟨0xA8, _, rfl, rfl⟩, ⟨0xA8, _, rfl, rfl⟩⟩
    case lowBytes => decide
    case lowFlags => rfl
    case highBytes => decide
    case highFlags => rfl
  intro m low high carried compared
  have hm : m.Faces tapeBus.recorded (.arithmeticWord .sbc) := hbytes.word
  have hcarried : carried.Faces tapeBus.recorded (.arithmeticWord .sbc) := ⟨0x9A, _, rfl, rfl⟩
  have hcompared : compared.Faces tapeBus.recorded .compareWord := ⟨0x5A, _, rfl, rfl⟩
  have hsame : SameWords tapeBus m carried := ⟨rfl, rfl⟩
  have hsame' : SameWords tapeBus m compared := ⟨rfl, rfl⟩
  obtain ⟨hnext, hcarry, hcompare, hdifference, hcomparison⟩ :=
    words_bytewise tapeBus_grantsEverything
  exact ⟨tapeBus_grantsEverything, hbytes, hsame, hsame', hm, hcarried, hcompared,
    (hnext hbytes).2.2.2, (hcarry hm hcarried hsame rfl).2,
    (hcompare hm hcompared hsame' rfl).2.2.2, (hdifference hm).2.2, (hcomparison hcompared).2⟩

end Machine

end Spc700
