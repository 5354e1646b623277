import Microcomputer.Alu.Byte

/-!
# What the arithmetic logic unit computes

The select lines make two summands of the inputs, bit by bit. In arithmetic mode the unit adds them and
the carry; in logic mode the value is where they agree, and the carry is the one of the sum. The law is
shown for one slice and carried over to the byte, and the functions of use are instances of it.
-/

namespace Microcomputer.Alu

/-! ## Two summands -/

section

variable {n : Nat} {select : Nibble} {a b : BitVec n}

/-- The summand that the first two select lines make. -/
def upper (select : Nibble) (a b : BitVec n) : BitVec n :=
  a ||| (if select.getLsbD 0 then b else 0) ||| (if select.getLsbD 1 then ~~~b else 0)

/-- The summand that the last two select lines make. -/
def lower (select : Nibble) (a b : BitVec n) : BitVec n :=
  (if select.getLsbD 2 then a &&& ~~~b else 0) ||| (if select.getLsbD 3 then a &&& b else 0)

theorem getElem_upper {i : Nat} (h : i < n) :
    (upper select a b)[i] = !propagateLow a[i] b[i] select := by
  unfold upper propagateLow
  rw [BitVec.getLsbD_eq_getElem (by decide), BitVec.getLsbD_eq_getElem (by decide)]
  cases select[0] <;> cases select[1] <;> simp

theorem getElem_lower {i : Nat} (h : i < n) :
    (lower select a b)[i] = !generateLow a[i] b[i] select := by
  unfold lower generateLow
  rw [BitVec.getLsbD_eq_getElem (by decide), BitVec.getLsbD_eq_getElem (by decide)]
  cases select[2] <;> cases select[3] <;> simp

end

/-! ## One slice -/

theorem toNat_bits (x : Nibble) :
    x.toNat = (x.getLsbD 0).toNat + 2 * (x.getLsbD 1).toNat + 4 * (x.getLsbD 2).toNat +
      8 * (x.getLsbD 3).toNat := by
  revert x
  decide

theorem toNat_ofBoolListLE : ∀ p q r s : Bool, (BitVec.ofBoolListLE [p, q, r, s]).toNat =
    p.toNat + 2 * q.toNat + 4 * r.toNat + 8 * s.toNat := by
  decide

theorem generateLow_of_propagateLow (a b : Bool) (select : Nibble) (h : propagateLow a b select) :
    generateLow a b select := by
  unfold propagateLow at h
  cases a <;> simp_all [generateLow]

/-- The carries that are looked ahead are those of a sum, as no bit generates a carry that it does not
propagate. -/
theorem lookahead : ∀ (c0 : Bool) {p0 g0 p1 g1 p2 g2 p3 g3 : Bool},
    (p0 → g0) → (p1 → g1) → (p2 → g2) → (p3 → g3) →
    let c1 := p0 || (g0 && c0)
    let c2 := p1 || (p0 && g1) || (g0 && g1 && c0)
    let c3 := p2 || (p1 && g2) || (p0 && g1 && g2) || (g0 && g1 && g2 && c0)
    let c4 := p3 || (p2 && g3) || (p1 && g2 && g3) || (p0 && g1 && g2 && g3) ||
      (g0 && g1 && g2 && g3 && c0)
    16 * (!c4).toNat + ((valueBit p0 g0 c0 false).toNat + 2 * (valueBit p1 g1 c1 false).toNat +
      4 * (valueBit p2 g2 c2 false).toNat + 8 * (valueBit p3 g3 c3 false).toNat) =
    ((!p0).toNat + 2 * (!p1).toNat + 4 * (!p2).toNat + 8 * (!p3).toNat) +
      ((!g0).toNat + 2 * (!g1).toNat + 4 * (!g2).toNat + 8 * (!g3).toNat) + (!c0).toNat := by
  decide

theorem slice_sum (a b select : Nibble) (carryIn : Bool) :
    16 * (slice a b select false carryIn).carry.toNat + (slice a b select false carryIn).value.toNat =
      (upper select a b).toNat + (lower select a b).toNat + carryIn.toNat := by
  have h (i : Nat) (hi : i < 4) := generateLow_of_propagateLow a[i] b[i] select
  have hsum := lookahead (!carryIn) (h 0 (by decide)) (h 1 (by decide)) (h 2 (by decide))
    (h 3 (by decide))
  rw [toNat_bits (upper select a b), toNat_bits (lower select a b)]
  simp (disch := decide) only [BitVec.getLsbD_eq_getElem, getElem_upper, getElem_lower, slice,
    toNat_ofBoolListLE]
  rw [Bool.not_not] at hsum
  exact hsum

theorem value_slice_logic (a b select : Nibble) (carryIn : Bool) :
    (slice a b select true carryIn).value = ~~~(upper select a b ^^^ lower select a b) := by
  have hbit (i : Nat) (hi : i < 4) : (!propagateLow a[i] b[i] select && generateLow a[i] b[i] select) =
      (upper select a b ^^^ lower select a b)[i] := by
    rw [BitVec.getElem_xor, getElem_upper, getElem_lower]
    have h := generateLow_of_propagateLow a[i] b[i] select
    cases hp : propagateLow a[i] b[i] select <;> simp_all
  apply BitVec.eq_of_toNat_eq
  rw [toNat_bits (~~~_)]
  simp (disch := decide) only [slice, toNat_ofBoolListLE, valueBit, hbit, BitVec.getLsbD_eq_getElem,
    BitVec.getElem_not, Bool.not_true, Bool.false_and, Bool.not_false, Bool.xor_true]

/-! ## Two slices -/

section

variable {n w start : Nat} {select : Nibble} {a b : BitVec w}

theorem getElem_extractLsb' {x : BitVec w} (h : start + n ≤ w) {i : Nat} (hi : i < n) :
    (x.extractLsb' start n)[i] = x[start + i] := by
  rw [BitVec.getElem_extractLsb', BitVec.getLsbD_eq_getElem (by omega)]

theorem upper_extractLsb' (h : start + n ≤ w) :
    upper select (a.extractLsb' start n) (b.extractLsb' start n) =
      (upper select a b).extractLsb' start n := by
  ext i hi
  rw [getElem_upper, getElem_extractLsb' h, getElem_extractLsb' h, getElem_extractLsb' h, getElem_upper]

theorem lower_extractLsb' (h : start + n ≤ w) :
    lower select (a.extractLsb' start n) (b.extractLsb' start n) =
      (lower select a b).extractLsb' start n := by
  ext i hi
  rw [getElem_lower, getElem_extractLsb' h, getElem_extractLsb' h, getElem_extractLsb' h, getElem_lower]

theorem agree_extractLsb' (h : start + n ≤ w) :
    (~~~(upper select a b ^^^ lower select a b)).extractLsb' start n =
      ~~~(upper select (a.extractLsb' start n) (b.extractLsb' start n) ^^^
        lower select (a.extractLsb' start n) (b.extractLsb' start n)) := by
  rw [upper_extractLsb' h, lower_extractLsb' h]
  ext i hi
  simp only [getElem_extractLsb' h, BitVec.getElem_not, BitVec.getElem_xor]

end

theorem lowNibble_eq (a : UInt8) : lowNibble a = a.toBitVec.extractLsb' 0 4 := rfl

theorem highNibble_eq (a : UInt8) : highNibble a = a.toBitVec.extractLsb' 4 4 := by
  apply BitVec.eq_of_toNat_eq
  simp [highNibble, BitVec.extractLsb'_toNat, Nat.shiftRight_eq_div_pow]

theorem toNat_halves (x : BitVec 8) :
    x.toNat = 16 * (x.extractLsb' 4 4).toNat + (x.extractLsb' 0 4).toNat := by
  have h := x.isLt
  simp only [BitVec.extractLsb'_toNat, Nat.shiftRight_eq_div_pow]
  omega

section

variable (a b : UInt8) (select : Nibble) (carryIn : Bool)

/-- In arithmetic mode the unit adds the two summands and the carry. -/
theorem byte_sum : 256 * (byte a b select false carryIn).carry.toNat +
    (byte a b select false carryIn).value.toNat =
      (upper select a.toBitVec b.toBitVec).toNat + (lower select a.toBitVec b.toBitVec).toNat +
        carryIn.toNat := by
  have hlow := slice_sum (lowNibble a) (lowNibble b) select carryIn
  have hhigh := slice_sum (highNibble a) (highNibble b) select
    (slice (lowNibble a) (lowNibble b) select false carryIn).carry
  rw [lowNibble_eq, lowNibble_eq, upper_extractLsb' (by decide), lower_extractLsb' (by decide)] at hlow
  rw [highNibble_eq, highNibble_eq, upper_extractLsb' (by decide), lower_extractLsb' (by decide)] at hhigh
  rw [toNat_halves (upper select _ _), toNat_halves (lower select _ _)]
  simp only [byte_eq_slice, toNat_joinNibbles, lowNibble_eq, highNibble_eq] at hlow hhigh ⊢
  omega

/-- The mode makes no difference to the carry. -/
theorem carry_byte (logic : Bool) : (byte a b select logic carryIn).carry =
    decide (256 ≤ (upper select a.toBitVec b.toBitVec).toNat +
      (lower select a.toBitVec b.toBitVec).toNat + carryIn.toNat) := by
  have hmode : (byte a b select logic carryIn).carry = (byte a b select false carryIn).carry := by
    rw [byte_eq_slice, byte_eq_slice]
    cases logic with
    | false => rfl
    | true => rfl
  have hvalue := (byte a b select false carryIn).value.toNat_lt
  rw [hmode, ← byte_sum, Bool.eq_iff_iff, decide_eq_true_eq]
  cases (byte a b select false carryIn).carry with
  | false => simpa using hvalue
  | true => simp

theorem zero_byte (logic : Bool) :
    (byte a b select logic carryIn).zero = ((byte a b select logic carryIn).value == 0) := by
  have hjoin (high low : Nibble) : (joinNibbles high low == 0) = (low == 0 && high == 0) := by
    have h := toNat_joinNibbles high low
    rw [Bool.eq_iff_iff, Bool.and_eq_true, beq_iff_eq, beq_iff_eq, beq_iff_eq, ← UInt8.toNat_inj,
      ← BitVec.toNat_inj, ← BitVec.toNat_inj, h]
    simp only [UInt8.reduceToNat, BitVec.ofNat_eq_ofNat, BitVec.toNat_ofNat, Nat.zero_mod]
    omega
  rw [byte_eq_slice]
  exact (hjoin _ _).symm

/-- In logic mode a bit is set where the two summands agree. -/
theorem value_byte_logic : (byte a b select true carryIn).value.toBitVec =
    ~~~(upper select a.toBitVec b.toBitVec ^^^ lower select a.toBitVec b.toBitVec) := by
  have hlow : lowNibble (byte a b select true carryIn).value =
      ~~~(upper select (lowNibble a) (lowNibble b) ^^^ lower select (lowNibble a) (lowNibble b)) := by
    rw [byte_eq_slice, lowNibble_joinNibbles, value_slice_logic]
  have hhigh : highNibble (byte a b select true carryIn).value =
      ~~~(upper select (highNibble a) (highNibble b) ^^^ lower select (highNibble a) (highNibble b)) := by
    rw [byte_eq_slice, highNibble_joinNibbles, value_slice_logic]
  simp only [lowNibble_eq] at hlow
  simp only [highNibble_eq] at hhigh
  apply BitVec.eq_of_toNat_eq
  rw [toNat_halves, toNat_halves (~~~_), hlow, hhigh, agree_extractLsb' (by decide),
    agree_extractLsb' (by decide)]

end

/-- A value with its zero flag, and a carry. -/
def Result.of (value : UInt8) (carry : Bool) : Result UInt8 :=
  { value, carry, zero := value == 0 }

/-! ## Functions in arithmetic mode -/

section

variable {n : Nat} (x y : BitVec n)

theorem toNat_or_of_and_eq_zero {x y : BitVec n} (h : x &&& y = 0) :
    (x ||| y).toNat = x.toNat + y.toNat := by
  rw [← BitVec.add_eq_or_of_and_eq_zero x y h, BitVec.toNat_add_of_and_eq_zero h]

theorem and_not_or_and : x &&& ~~~y ||| x &&& y = x := by
  ext i hi
  simp only [BitVec.getElem_or, BitVec.getElem_and, BitVec.getElem_not]
  cases x[i] <;> cases y[i] <;> rfl

theorem or_or_not : x ||| y ||| ~~~y = BitVec.allOnes n := by
  ext i hi
  simp only [BitVec.getElem_or, BitVec.getElem_not, BitVec.getElem_allOnes]
  cases x[i] <;> cases y[i] <;> rfl

/-- The union counts every bit once and the intersection those that both have. -/
theorem toNat_or_add_toNat_and : (x ||| y).toNat + (x &&& y).toNat = x.toNat + y.toNat := by
  have hor : x ||| y = (x &&& ~~~y) ||| y := by
    ext i hi
    simp only [BitVec.getElem_or, BitVec.getElem_and, BitVec.getElem_not]
    cases x[i] <;> cases y[i] <;> rfl
  have hdisjoint : x &&& ~~~y &&& y = 0 := by
    ext i hi
    simp
  have hapart : x &&& ~~~y &&& (x &&& y) = 0 := by
    ext i hi
    simp only [BitVec.getElem_and, BitVec.getElem_not, BitVec.ofNat_eq_ofNat, BitVec.getElem_zero]
    cases x[i] <;> cases y[i] <;> rfl
  have hx := congrArg BitVec.toNat (and_not_or_and x y)
  rw [toNat_or_of_and_eq_zero hapart] at hx
  rw [hor, toNat_or_of_and_eq_zero hdisjoint]
  omega

end

/-- The sum that an arithmetic function makes of two bytes, before the carry in is added. -/
def Arith.total (f : Arith) (a b : Nat) : Nat :=
  match f with
  | .a => a
  | .minusOne => 255
  | .aMinusBMinusOne => a + (255 - b)
  | .aPlusB => a + b
  | .aPlusA => a + a
  | .aMinusOne => 255 + a

theorem Arith.upper_add_lower (f : Arith) (x y : BitVec 8) :
    (upper f.select x y).toNat + (lower f.select x y).toNat = f.total x.toNat y.toNat := by
  cases f with
  | a => simp [upper, lower, select, total]
  | minusOne => simp [upper, lower, select, total, or_or_not]
  | aMinusBMinusOne =>
    have hupper : upper aMinusBMinusOne.select x y = x ||| ~~~y := by simp [upper, select]
    have hlower : lower aMinusBMinusOne.select x y = x &&& ~~~y := by simp [lower, select]
    rw [hupper, hlower, toNat_or_add_toNat_and, BitVec.toNat_not, total]
  | aPlusB => simpa [upper, lower, select, total] using toNat_or_add_toNat_and x y
  | aPlusA => simp [upper, lower, select, total, and_not_or_and]
  | aMinusOne => simp [upper, lower, select, total, or_or_not, and_not_or_and]

theorem byte_arith (f : Arith) (a b : UInt8) (carryIn : Bool) :
    byte a b f.select false carryIn =
      .of (.ofNat (f.total a.toNat b.toNat + carryIn.toNat))
        (256 ≤ f.total a.toNat b.toNat + carryIn.toNat) := by
  have hsum := byte_sum a b f.select carryIn
  have hcarry := carry_byte a b f.select carryIn false
  have hzero := zero_byte a b f.select carryIn false
  rw [f.upper_add_lower, UInt8.toNat_toBitVec, UInt8.toNat_toBitVec] at hsum hcarry
  have hvalue : (byte a b f.select false carryIn).value =
      .ofNat (f.total a.toNat b.toNat + carryIn.toNat) := by
    apply UInt8.toNat_inj.mp
    have hlt := (byte a b f.select false carryIn).value.toNat_lt
    rw [UInt8.toNat_ofNat']
    omega
  rw [hvalue] at hzero
  rw [Result.of, ← hzero, ← hcarry, ← hvalue]

/-! ## Functions in logic mode -/

/-- A logic function of two bits. -/
def Logic.bit (f : Logic) (p q : Bool) : Bool :=
  match f with
  | .notA => !p
  | .nor => !(p || q)
  | .notAAndB => !p && q
  | .zero => false
  | .nand => !(p && q)
  | .notB => !q
  | .xor => p ^^ q
  | .aAndNotB => p && !q
  | .notAOrB => !p || q
  | .xnor => !(p ^^ q)
  | .b => q
  | .and => p && q
  | .one => true
  | .aOrNotB => p || !q
  | .or => p || q
  | .a => p

theorem Logic.not_xor_eq_bit (f : Logic) (p q : Bool) :
    (!((!propagateLow p q f.select) ^^ !generateLow p q f.select)) = f.bit p q := by
  cases f <;> cases p <;> cases q <;> rfl

theorem getElem_logical (f : Logic) (a b : UInt8) (carryIn : Bool) {i : Nat} (hi : i < 8) :
    (byte a b f.select true carryIn).value.toBitVec[i] = f.bit a.toBitVec[i] b.toBitVec[i] := by
  simp only [value_byte_logic, BitVec.getElem_not, BitVec.getElem_xor, getElem_upper, getElem_lower,
    f.not_xor_eq_bit]

theorem byte_logical {f : Logic} {a b value : UInt8} {carry carryIn : Bool}
    (hvalue : ∀ i (hi : i < 8), f.bit a.toBitVec[i] b.toBitVec[i] = value.toBitVec[i])
    (hcarry : decide (256 ≤ (upper f.select a.toBitVec b.toBitVec).toNat +
      (lower f.select a.toBitVec b.toBitVec).toNat + carryIn.toNat) = carry) :
    byte a b f.select true carryIn = .of value carry := by
  have hv : (byte a b f.select true carryIn).value = value := by
    apply UInt8.eq_of_toBitVec_eq
    ext i hi
    rw [getElem_logical, hvalue]
  have hc := carry_byte a b f.select carryIn true
  have hz := zero_byte a b f.select carryIn true
  rw [hcarry] at hc
  rw [hv] at hz
  rw [Result.of, ← hz, ← hc, ← hv]

/-! ## Named functions -/

section

variable (a b : UInt8) (carryIn : Bool)

theorem toNat_toUInt8 : carryIn.toUInt8.toNat = carryIn.toNat := by
  cases carryIn <;> rfl

theorem byte_a : byte a b Arith.a.select false carryIn =
    .of (a + carryIn.toUInt8) (256 ≤ a.toNat + carryIn.toNat) := by
  rw [byte_arith, Arith.total, UInt8.ofNat_add, UInt8.ofNat_toNat, ← toNat_toUInt8, UInt8.ofNat_toNat]

theorem byte_aPlusB : byte a b Arith.aPlusB.select false carryIn =
    .of (a + b + carryIn.toUInt8) (256 ≤ a.toNat + b.toNat + carryIn.toNat) := by
  rw [byte_arith, Arith.total, UInt8.ofNat_add, UInt8.ofNat_add, UInt8.ofNat_toNat, UInt8.ofNat_toNat,
    ← toNat_toUInt8, UInt8.ofNat_toNat]

theorem byte_aPlusA : byte a b Arith.aPlusA.select false carryIn =
    .of (a + a + carryIn.toUInt8) (128 ≤ a) := by
  have hcarry : decide (256 ≤ a.toNat + a.toNat + carryIn.toNat) = decide (128 ≤ a) := by
    have hc := carryIn.toNat_lt
    simp only [decide_eq_decide, UInt8.le_iff_toNat_le, UInt8.reduceToNat]
    omega
  rw [byte_arith, Arith.total, hcarry, UInt8.ofNat_add, UInt8.ofNat_add, UInt8.ofNat_toNat,
    ← toNat_toUInt8, UInt8.ofNat_toNat]

theorem byte_plus : byte a b Arith.aPlusB.select false false =
    .of (a + b) (256 ≤ a.toNat + b.toNat) := by
  rw [byte_aPlusB]
  exact congrArg (Result.of · _) (UInt8.add_zero _)

theorem byte_double : byte a b Arith.aPlusA.select false false = .of (a <<< 1) (128 ≤ a) := by
  have hvalue : a + a + false.toUInt8 = a <<< 1 := by
    apply UInt8.toNat_inj.mp
    simp only [UInt8.toNat_add, UInt8.toNat_shiftLeft, UInt8.reduceToNat, Nat.shiftLeft_eq,
      Nat.reduceMod, Nat.pow_one, toNat_toUInt8, Bool.toNat_false]
    omega
  rw [byte_aPlusA, hvalue]

/-- The carry of a difference is set where nothing is borrowed. -/
theorem byte_aMinusBMinusOne : byte a b Arith.aMinusBMinusOne.select false carryIn =
    .of (a - b - 1 + carryIn.toUInt8) (b.toNat + 1 ≤ a.toNat + carryIn.toNat) := by
  have hb := b.toNat_lt
  have hvalue : UInt8.ofNat (a.toNat + (255 - b.toNat) + carryIn.toNat) =
      a - b - 1 + carryIn.toUInt8 := by
    apply UInt8.toNat_inj.mp
    simp only [UInt8.toNat_ofNat', UInt8.toNat_add, UInt8.toNat_sub, UInt8.reduceToNat, toNat_toUInt8]
    omega
  have hcarry : decide (256 ≤ a.toNat + (255 - b.toNat) + carryIn.toNat) =
      decide (b.toNat + 1 ≤ a.toNat + carryIn.toNat) := by
    rw [decide_eq_decide]
    omega
  rw [byte_arith, Arith.total, hvalue, hcarry]

theorem byte_difference : byte a b Arith.aMinusBMinusOne.select false true = .of (a - b) (b ≤ a) := by
  rw [byte_aMinusBMinusOne]
  congr 1
  · exact UInt8.sub_add_cancel _ _
  · rw [decide_eq_decide, UInt8.le_iff_toNat_le]
    exact Nat.add_le_add_iff_right

theorem byte_aMinusOne : byte a b Arith.aMinusOne.select false carryIn =
    .of (a - 1 + carryIn.toUInt8) (1 ≤ a.toNat + carryIn.toNat) := by
  have hvalue : UInt8.ofNat (255 + a.toNat + carryIn.toNat) = a - 1 + carryIn.toUInt8 := by
    apply UInt8.toNat_inj.mp
    simp only [UInt8.toNat_ofNat', UInt8.toNat_add, UInt8.toNat_sub, UInt8.reduceToNat, toNat_toUInt8]
    omega
  have hcarry : decide (256 ≤ 255 + a.toNat + carryIn.toNat) = decide (1 ≤ a.toNat + carryIn.toNat) := by
    rw [decide_eq_decide]
    omega
  rw [byte_arith, Arith.total, hvalue, hcarry]

theorem byte_predecessor : byte a b Arith.aMinusOne.select false false =
    .of (a - 1) (1 ≤ a.toNat) := by
  rw [byte_aMinusOne]
  exact congrArg (Result.of · _) (UInt8.add_zero _)

theorem byte_notA : byte a b Logic.notA.select true false = .of (~~~a) false := by
  refine byte_logical (fun i hi => by simp [Logic.bit]) ?_
  have ha := a.toNat_lt
  simpa [upper, lower, Logic.select] using ha

theorem byte_zero : byte a b Logic.zero.select true false = .of 0 false := by
  refine byte_logical (fun i hi => by simp [Logic.bit]) ?_
  simp [upper, lower, Logic.select, or_or_not]

theorem byte_and : byte a b Logic.and.select true false = .of (a &&& b) (a &&& b != 0) := by
  refine byte_logical (fun i hi => by simp [Logic.bit]) ?_
  have hzero : a &&& b = 0 ↔ a.toNat &&& b.toNat = 0 := by
    rw [← UInt8.toNat_inj, UInt8.toNat_and]
    rfl
  have hupper : (upper Logic.and.select a.toBitVec b.toBitVec).toNat = 255 := by
    simp [upper, Logic.select, or_or_not]
  have hlower : (lower Logic.and.select a.toBitVec b.toBitVec).toNat = a.toNat &&& b.toNat := by
    simp [lower, Logic.select]
  rw [hupper, hlower, Bool.eq_iff_iff, decide_eq_true_eq, bne_iff_ne, Ne, hzero, Bool.toNat_false]
  omega

theorem byte_or : byte a b Logic.or.select true false =
    .of (a ||| b) (256 ≤ (a ||| ~~~b).toNat + a.toNat) := by
  refine byte_logical (fun i hi => by simp [Logic.bit]) ?_
  simp [upper, lower, Logic.select, and_not_or_and]

/-- The select lines of the exclusive union are those of the difference, which tells its carry. -/
theorem byte_xor : byte a b Logic.xor.select true false = .of (a ^^^ b) (b < a) := by
  refine byte_logical (fun i hi => by simp [Logic.bit]) ?_
  have hb := b.toNat_lt
  have h : (upper Logic.xor.select a.toBitVec b.toBitVec).toNat +
      (lower Logic.xor.select a.toBitVec b.toBitVec).toNat = a.toNat + (255 - b.toNat) :=
    Arith.aMinusBMinusOne.upper_add_lower a.toBitVec b.toBitVec
  rw [h, decide_eq_decide, UInt8.lt_iff_toNat_lt, Bool.toNat_false]
  omega

end

end Microcomputer.Alu
