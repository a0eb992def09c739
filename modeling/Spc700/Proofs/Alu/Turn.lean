import Spc700.Proofs.Alu.Number

/-!
# Rotations of many bytes

Bytes are moved up or down by one bit, one after the other, each taking in the bit that the one
before it has let out. Moving up goes from the least significant byte to the most significant one,
moving down the other way. Either is the same relation between two rows of bytes and two bits, read
in one direction or in the other: one row is the double of the other (`Number.Doubled`). So moving
up and moving down undo each other. `Turn.Moves.yields` says what comes out as a number.
-/

namespace Spc700

/-! ## Doubled numbers -/

namespace Number

variable {low mid high low' high' : Bool} {half whole half' whole' : List Byte}

/-- A row of bytes that is twice another one, with the bit `low` at the bottom and without the bit
`high` that goes out on top. -/
structure Doubled (low : Bool) (half whole : List Byte) (high : Bool) : Prop where
  length : whole.length = half.length
  value : value whole + 256 ^ half.length * high.toNat = 2 * value half + low.toNat

theorem doubled_nil (bit : Bool) : Doubled bit [] [] bit := ⟨rfl, by simp⟩

/-- **The bit that goes out of one row goes into the next.** -/
theorem Doubled.append (h : Doubled low half whole mid) (h' : Doubled mid half' whole' high) :
    Doubled low (half ++ half') (whole ++ whole') high where
  length := by rw [List.length_append, List.length_append, h.length, h'.length]
  value := by
    have hfirst := h.value
    have hsecond := congrArg (256 ^ half.length * ·) h'.value
    simp only [Nat.mul_add] at hsecond
    rw [value_append, value_append, h.length, List.length_append, Nat.pow_add, Nat.mul_assoc,
      Nat.mul_add, Nat.mul_left_comm 2]
    omega

/-- Rows of as many bytes that stand for the same number are the same. -/
theorem eq_of_value {xs ys : List Byte} (hlength : xs.length = ys.length)
    (h : value xs = value ys) : xs = ys := by
  have hdigits : xs.map BitVec.toNat = ys.map BitVec.toNat := by
    have hlt : ∀ bytes : List Byte, ∀ digit ∈ bytes.map BitVec.toNat, digit < 256 := fun bytes =>
      List.forall_mem_map.mpr fun byte _ => byte.isLt
    exact Nat.ofDigits_inj_of_len_eq (by decide) (by simpa using hlength) (hlt xs) (hlt ys) h
  exact List.map_injective_iff.mpr (fun _ _ => BitVec.eq_of_toNat_eq) hdigits

/-- What a row is the double of is settled by it and the bit on top. -/
theorem Doubled.unique_half (h : Doubled low half whole high)
    (h' : Doubled low' half' whole high) : half = half' ∧ low = low' := by
  have hlength : half.length = half'.length := h.length.symm.trans h'.length
  have hvalue := h.value
  have hvalue' := h'.value
  rw [hlength] at hvalue
  have hlow := low.toNat_le
  have hlow' := low'.toNat_le
  refine ⟨eq_of_value hlength (by omega), ?_⟩
  cases low <;> cases low' <;> simp at hvalue hvalue' ⊢ <;> omega

/-- The double is settled by the row that is doubled and the bit at the bottom. -/
theorem Doubled.unique_whole (h : Doubled low half whole high)
    (h' : Doubled low half whole' high') : whole = whole' ∧ high = high' := by
  have hlength : whole.length = whole'.length := h.length.trans h'.length.symm
  have hvalue := h.value
  have hvalue' := h'.value
  have hlt := value_lt whole
  have hlt' := value_lt whole'
  rw [h.length] at hlt
  rw [h'.length] at hlt'
  obtain rfl : high = high' := by
    cases high <;> cases high' <;> simp at hvalue hvalue' ⊢ <;> omega
  exact ⟨eq_of_value hlength (by omega), rfl⟩

/-! ## The doubled row as a number -/

/-- Of the doubled row so many bytes are left. -/
theorem Doubled.value_whole (h : Doubled low half whole high) :
    Number.value whole = (2 * Number.value half + low.toNat) % 256 ^ half.length := by
  have hlt := value_lt whole
  rw [h.length] at hlt
  rw [← h.value, Nat.add_mul_mod_self_left, Nat.mod_eq_of_lt hlt]

/-- The bit on top goes into the number that is halved. -/
theorem Doubled.value_half (h : Doubled low half whole high) :
    Number.value half = (Number.value whole + high.toNat * 256 ^ half.length) / 2 := by
  have hvalue := h.value
  have hlow := low.toNat_le
  rw [Nat.mul_comm high.toNat, hvalue]
  omega

/-- The bit that goes out at the bottom is the lowest. -/
theorem Doubled.low_eq (h : Doubled low half whole high) (hne : half ≠ []) :
    low = (Number.value whole).testBit 0 := by
  obtain ⟨byte, bytes, rfl⟩ := List.exists_cons_of_ne_nil hne
  have hvalue := h.value
  rw [List.length_cons, Nat.pow_succ] at hvalue
  have hmod : Number.value whole % 2 = low.toNat := by
    have hlow := low.toNat_le
    cases high <;> simp only [Bool.toNat_false, Bool.toNat_true] at hvalue <;> omega
  rw [Nat.testBit_zero, hmod]
  cases low <;> rfl

/-- The bit that goes out on top is the highest. -/
theorem Doubled.high_eq (h : Doubled low half whole high) (hne : half ≠ []) :
    high = (Number.value half).testBit (8 * half.length - 1) := by
  have hpos : 0 < half.length := List.length_pos_iff.mpr hne
  have hmodulus : 256 ^ half.length = 2 * 2 ^ (8 * half.length - 1) := by
    rw [← Nat.pow_succ', Nat.succ_eq_add_one, Nat.sub_add_cancel (by omega), Nat.pow_mul]
  have hvalue := h.value
  have hlow := low.toNat_le
  have hhalf := value_lt half
  have hwhole := value_lt whole
  rw [h.length] at hwhole
  rw [hmodulus] at hvalue hhalf hwhole
  cases high with
  | false =>
    rw [Bool.toNat_false, Nat.mul_zero, Nat.add_zero] at hvalue
    exact (Nat.testBit_lt_two_pow (by omega)).symm
  | true =>
    rw [Bool.toNat_true, Nat.mul_one] at hvalue
    refine (Nat.testBit_of_two_pow_le_and_two_pow_add_one_gt (by omega) ?_).symm
    rwa [Nat.pow_succ']

end Number

/-! ## Moving up and down -/

/-- Which way bits are moved. -/
inductive Turn where
  | left
  | right
deriving DecidableEq, Repr

namespace Turn

/-- The operation that takes in the carry. -/
def rotation : Turn → Shift
  | left => .rol
  | right => .ror

/-- The operation that takes in a zero. -/
def shift : Turn → Shift
  | left => .asl
  | right => .lsr

/-- The operation that a row of rotations begins with. A shift clears the bit that is taken in. -/
def first (t : Turn) (clears : Bool) : Shift := if clears then t.shift else t.rotation

def opposite : Turn → Turn
  | left => right
  | right => left

/-- A row in the order in which its bytes are moved, put in the order of a number, or the other way
round. A number has its least significant byte first, and so has a row to the left. -/
def order {α : Type} : Turn → List α → List α
  | left, row => row
  | right, row => row.reverse

/-- The bytes `xs` become the bytes `rs`, both with the least significant byte first. The bit
`taken` is taken in and the bit `out` is let out. -/
def Moves (t : Turn) (taken : Bool) (xs rs : List Byte) (out : Bool) : Prop :=
  match t with
  | left => Number.Doubled taken xs rs out
  | right => Number.Doubled out rs xs taken

/-- What moving makes of a number of so many bytes: its double or its half, with the bit that is
taken in at the free end. -/
def moved (t : Turn) (taken : Bool) (count number : ℕ) : ℕ :=
  match t with
  | left => (2 * number + taken.toNat) % 256 ^ count
  | right => (number + taken.toNat * 256 ^ count) / 2

/-- The bit that is let out: the top bit of a number of so many bytes, or the bottom bit. -/
def lost (t : Turn) (count number : ℕ) : Bool :=
  match t with
  | left => number.testBit (8 * count - 1)
  | right => number.testBit 0

/-- Moving the bytes `xs` yields the bytes `rs` and the bit `out`, as numbers. Where there is no
byte no bit is let out. -/
structure Yields (t : Turn) (taken : Bool) (xs rs : List Byte) (out : Bool) : Prop where
  length : rs.length = xs.length
  value : Number.value rs = t.moved taken xs.length (Number.value xs)
  carry : xs ≠ [] → out = t.lost xs.length (Number.value xs)

section

variable {t : Turn} {taken mid out taken' out' : Bool} {x r : Byte} {xs rs xs' rs' : List Byte}

theorem moves_nil (t : Turn) (bit : Bool) : t.Moves bit [] [] bit := by
  cases t <;> exact Number.doubled_nil bit

/-- **One byte after the other.** -/
theorem Moves.cons (h : t.Moves taken [x] [r] mid)
    (h' : t.Moves mid (t.order xs) (t.order rs) out) :
    t.Moves taken (t.order (x :: xs)) (t.order (r :: rs)) out := by
  cases t with
  | left => exact Number.Doubled.append h h'
  | right =>
    -- The byte that is moved first is the most significant one, behind all others in the number.
    show Number.Doubled out (r :: rs).reverse (x :: xs).reverse taken
    rw [List.reverse_cons, List.reverse_cons]
    exact Number.Doubled.append h' h

/-- **Moving back** is the same relation, read the other way. -/
theorem Moves.symm (h : t.Moves taken xs rs out) : t.opposite.Moves out rs xs taken := by
  cases t <;> exact h

theorem Moves.unique (h : t.Moves taken xs rs out) (h' : t.Moves taken xs rs' out') :
    rs = rs' ∧ out = out' := by
  cases t with
  | left => exact Number.Doubled.unique_whole h h'
  | right => exact Number.Doubled.unique_half h h'

/-- **There and back**, every byte and the carry are what they were. -/
theorem Moves.restores (h : t.Moves taken xs rs out)
    (h' : t.opposite.Moves out rs xs' taken') : xs' = xs ∧ taken' = taken :=
  h'.unique h.symm

theorem Moves.yields (h : t.Moves taken xs rs out) : t.Yields taken xs rs out := by
  cases t with
  | left => exact ⟨h.length, h.value_whole, h.high_eq⟩
  | right =>
    have hlength : xs.length = rs.length := h.length
    refine ⟨hlength.symm, ?_, ?_⟩
    · rw [hlength]
      exact h.value_half
    · intro hne
      refine h.low_eq ?_
      rintro rfl
      exact hne (List.eq_nil_of_length_eq_zero hlength)

/-- **What is yielded is settled** by the bytes and the bit that is taken in. -/
theorem Yields.unique (h : t.Yields taken xs rs out) (h' : t.Yields taken xs rs' out')
    (hne : xs ≠ []) : rs = rs' ∧ out = out' :=
  ⟨Number.eq_of_value (h.length.trans h'.length.symm) (h.value.trans h'.value.symm),
    (h.carry hne).trans (h'.carry hne).symm⟩

theorem yields_nil (t : Turn) (taken out : Bool) : t.Yields taken [] [] out where
  length := rfl
  value := by cases t <;> cases taken <;> rfl
  carry hne := absurd rfl hne

end

/-! ## One byte -/

theorem doubled_shiftLeft (x : Byte) (bit : Bool) (psw : Flags) :
    Number.Doubled bit [x] [(Alu.shiftLeft x bit psw).1] (Alu.shiftLeft x bit psw).2.carry := by
  refine ⟨rfl, ?_⟩
  have hx := x.isLt
  have hbit := bit.toNat_le
  have hresult : (x.shiftConcat bit).toNat = (2 * x.toNat + bit.toNat) % 256 := by
    rw [BitVec.toNat_shiftConcat, Nat.shiftLeft_eq, Nat.mul_comm]
  have hmsb : x.msb.toNat = x.toNat / 128 := by
    rw [BitVec.msb_eq_getLsbD_last, BitVec.getLsbD, Nat.toNat_testBit]
    omega
  show Number.value [x.shiftConcat bit] + 256 ^ 1 * x.msb.toNat = 2 * Number.value [x] + bit.toNat
  simp only [Number.value_cons, Number.value_nil, hresult, hmsb]
  omega

theorem doubled_shiftRight (x : Byte) (bit : Bool) (psw : Flags) :
    Number.Doubled (Alu.shiftRight x bit psw).2.carry [(Alu.shiftRight x bit psw).1] [x] bit := by
  refine ⟨rfl, ?_⟩
  have hx := x.isLt
  have hbit := bit.toNat_le
  have hresult : ((BitVec.cons bit x).extractLsb' 1 8).toNat = (256 * bit.toNat + x.toNat) / 2 := by
    rw [BitVec.extractLsb'_toNat, BitVec.toNat_cons', Nat.shiftLeft_eq, Nat.shiftRight_eq_div_pow]
    omega
  have hlow : (x.getLsbD 0).toNat = x.toNat % 2 := by
    rw [BitVec.getLsbD, Nat.toNat_testBit, Nat.pow_zero, Nat.div_one]
  show Number.value [x] + 256 ^ 1 * bit.toNat =
    2 * Number.value [(BitVec.cons bit x).extractLsb' 1 8] + (x.getLsbD 0).toNat
  simp only [Number.value_cons, Number.value_nil, hresult, hlow]
  omega

/-- **One byte is moved** by the operations of a row. -/
theorem moves_apply (t : Turn) (clears : Bool) (x : Byte) (psw : Flags) :
    t.Moves (!clears && psw.carry) [x] [((t.first clears).apply x psw).1]
      ((t.first clears).apply x psw).2.carry := by
  cases t with
  | left => cases clears <;> exact doubled_shiftLeft x _ psw
  | right => cases clears <;> exact doubled_shiftRight x _ psw

end Turn

/-! ## Rows -/

namespace Turn

theorem order_reverse_opposite {α : Type} (t : Turn) (row : List α) :
    t.opposite.order row.reverse = t.order row := by
  cases t with
  | left => exact List.reverse_reverse row
  | right => rfl

theorem order_injective {α : Type} (t : Turn) {row row' : List α} (h : t.order row = t.order row') :
    row = row' := by
  cases t with
  | left => exact h
  | right => exact List.reverse_injective h

/-- The steps of a row are rotations, but for the first one, which is a shift if it clears the bit
that is taken in. `does i f` says that the step `i` does the operation `f`. -/
def Row {ι : Type} (t : Turn) (clears : Bool) (does : ι → Shift → Prop) : List ι → Prop
  | [] => True
  | i :: is => does i (t.first clears) ∧ ∀ j ∈ is, does j t.rotation

section

variable {ι : Type} {t : Turn} {clears : Bool} {does : ι → Shift → Prop} {is : List ι}
  {finds leaves : ι → Bool} {x r : ι → Byte} {carry out : Bool}

theorem Row.exists_first (h : t.Row clears does is) :
    ∀ i ∈ is, ∃ clears, does i (t.first clears) := by
  cases is with
  | nil => exact fun i hi => absurd hi List.not_mem_nil
  | cons i is => exact List.forall_mem_cons.mpr ⟨⟨clears, h.1⟩, fun j hj => ⟨false, h.2 j hj⟩⟩

theorem Row.rotates (h : t.Row false does is) : ∀ i ∈ is, does i t.rotation := by
  cases is with
  | nil => exact fun i hi => absurd hi List.not_mem_nil
  | cons i is => exact List.forall_mem_cons.mpr h

/-- **The carry links the bytes.** Steps that move a byte each, with the carry handed on, move the
row. -/
theorem moves_of_relay (hrelay : Relay finds leaves carry is out)
    (hstep : ∀ i ∈ is, t.Moves (finds i) [x i] [r i] (leaves i)) :
    t.Moves carry (t.order (is.map x)) (t.order (is.map r)) out := by
  induction hrelay with
  | nil carry => cases t <;> exact moves_nil _ carry
  | cons i _ ih =>
    rw [List.forall_mem_cons] at hstep
    exact hstep.1.cons (ih hstep.2)

/-- **A row of rotations** moves its bytes as a whole. -/
theorem Row.moves (h : t.Row false does is) (hrelay : Relay finds leaves carry is out)
    (hstep : ∀ i ∈ is, ∀ clears, does i (t.first clears) →
      t.Moves (!clears && finds i) [x i] [r i] (leaves i)) :
    t.Moves carry (t.order (is.map x)) (t.order (is.map r)) out :=
  moves_of_relay hrelay fun i hi => hstep i hi false (h.rotates i hi)

/-- **A row** yields what moving yields, with the carry or, after a shift, with zero taken in. -/
theorem Row.yields (h : t.Row clears does is) (hrelay : Relay finds leaves carry is out)
    (hstep : ∀ i ∈ is, ∀ clears, does i (t.first clears) →
      t.Moves (!clears && finds i) [x i] [r i] (leaves i)) :
    t.Yields (!clears && carry) (t.order (is.map x)) (t.order (is.map r)) out := by
  cases hrelay with
  | nil => cases t <;> exact yields_nil _ _ _
  | cons i hrest =>
    rw [List.forall_mem_cons] at hstep
    have hlater := moves_of_relay hrest fun j hj => hstep.2 j hj false (h.2 j hj)
    exact ((hstep.1 clears h.1).cons hlater).yields

end

end Turn

end Spc700
