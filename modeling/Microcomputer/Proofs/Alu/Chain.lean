import Mathlib.Algebra.Group.Nat.Defs
import Microcomputer.Proofs.Alu.Sum

/-!
# Numbers of many bytes

The unit works on longer numbers byte by byte from the low end, each carry out being the next carry in. The
law of the byte then holds of any number of bytes: in arithmetic mode the chain adds the two summands that
the select lines make of the whole numbers, in logic mode it tells where they agree.
-/

namespace Microcomputer.Alu

/-! ## Bytes of a number -/

/-- The bytes of a number, the low end first. -/
def littleEndian : (k : Nat) → BitVec (8 * k) → List UInt8
  | 0, _ => []
  | k + 1, x => .ofBitVec (x.extractLsb' 0 8) :: littleEndian k (x.extractLsb' 8 (8 * k))

section

variable {w : Nat}

theorem toNat_extractLsb'_zero (x : BitVec (w + 8)) : (x.extractLsb' 0 8).toNat = x.toNat % 256 := by
  rw [BitVec.extractLsb'_toNat, Nat.shiftRight_zero]

theorem toNat_extractLsb'_eight (x : BitVec (w + 8)) : (x.extractLsb' 8 w).toNat = x.toNat / 256 := by
  have hlt : x.toNat < 2 ^ w * 2 ^ 8 := Nat.lt_of_lt_of_eq x.isLt (Nat.pow_add 2 w 8)
  rw [BitVec.extractLsb'_toNat, Nat.shiftRight_eq_div_pow]
  exact Nat.mod_eq_of_lt (Nat.div_lt_of_lt_mul (by rwa [Nat.mul_comm]))

theorem extractLsb'_ofNat_zero (n : Nat) : (BitVec.ofNat (w + 8) n).extractLsb' 0 8 = .ofNat 8 n := by
  apply BitVec.eq_of_toNat_eq
  rw [toNat_extractLsb'_zero, BitVec.toNat_ofNat, BitVec.toNat_ofNat, Nat.pow_add]
  exact Nat.mod_mul_left_mod n (2 ^ w) 256

theorem extractLsb'_ofNat_eight (n : Nat) :
    (BitVec.ofNat (w + 8) n).extractLsb' 8 w = .ofNat w (n / 256) := by
  apply BitVec.eq_of_toNat_eq
  rw [toNat_extractLsb'_eight, BitVec.toNat_ofNat, BitVec.toNat_ofNat, Nat.pow_add]
  exact Nat.mod_mul_left_div_self n 256 (2 ^ w)

end

theorem littleEndian_ofNat_succ (k n : Nat) : littleEndian (k + 1) (.ofNat _ n) =
    .ofNat n :: littleEndian k (.ofNat _ (n / 256)) :=
  congrArg₂ List.cons (congrArg UInt8.ofBitVec (extractLsb'_ofNat_zero n))
    (congrArg (littleEndian k) (extractLsb'_ofNat_eight n))

/-! ## Chains -/

/-- The results of the unit on two rows of bytes, the low end first. -/
def chain (select : Nibble) (logic : Bool) : Bool → List UInt8 → List UInt8 → List (Result UInt8)
  | carryIn, a :: as, b :: bs =>
    let low := byte a b select logic carryIn
    low :: chain select logic low.carry as bs
  | _, _, _ => []

/-- The last carry of a chain. -/
def carryOut (carryIn : Bool) (results : List (Result UInt8)) : Bool :=
  (results.getLast?.map Result.carry).getD carryIn

theorem carryOut_cons (carryIn : Bool) (r : Result UInt8) (rs : List (Result UInt8)) :
    carryOut carryIn (r :: rs) = carryOut r.carry rs := by
  rw [carryOut, List.getLast?_cons]
  cases h : rs.getLast? <;> simp [carryOut, h]

variable {select : Nibble}

theorem zero_chain (logic carryIn : Bool) (as bs : List UInt8) :
    ∀ r ∈ chain select logic carryIn as bs, r.zero = (r.value == 0) := by
  induction as generalizing carryIn bs with
  | nil => simp [chain]
  | cons a as ih =>
    cases bs with
    | nil => simp [chain]
    | cons b bs =>
      rw [chain, List.forall_mem_cons]
      exact ⟨zero_byte a b select carryIn logic, ih _ bs⟩

/-- The mode makes no difference to the carries. -/
theorem map_carry_chain (logic carryIn : Bool) (as bs : List UInt8) :
    (chain select logic carryIn as bs).map Result.carry =
      (chain select false carryIn as bs).map Result.carry := by
  induction as generalizing carryIn bs with
  | nil => rfl
  | cons a as ih =>
    cases bs with
    | nil => rfl
    | cons b bs =>
      have hcarry : (byte a b select logic carryIn).carry = (byte a b select false carryIn).carry := by
        rw [carry_byte, carry_byte]
      simp only [chain, List.map_cons, ih, hcarry]

/-! ## The law -/

/-- The sum that the unit makes of two numbers and a carry. -/
def total (select : Nibble) {w : Nat} (a b : BitVec w) (carryIn : Bool) : Nat :=
  (upper select a b).toNat + (lower select a b).toNat + carryIn.toNat

/-- The first byte of a sum, and the carry that it leaves to the sum of the others. -/
theorem total_succ (select : Nibble) {w : Nat} (a b : BitVec (w + 8)) (carryIn : Bool) :
    let low := byte (.ofBitVec (a.extractLsb' 0 8)) (.ofBitVec (b.extractLsb' 0 8)) select false carryIn
    .ofNat (total select a b carryIn) = low.value ∧ total select a b carryIn / 256 =
      total select (a.extractLsb' 8 w) (b.extractLsb' 8 w) low.carry := by
  intro low
  have hsum : 256 * low.carry.toNat + low.value.toNat = _ := byte_sum _ _ select carryIn
  have hvalue := low.value.toNat_lt
  rw [upper_extractLsb' (by omega), lower_extractLsb' (by omega), toNat_extractLsb'_zero,
    toNat_extractLsb'_zero] at hsum
  rw [total, total, upper_extractLsb' (by omega), lower_extractLsb' (by omega), toNat_extractLsb'_eight,
    toNat_extractLsb'_eight]
  constructor
  · apply UInt8.toNat_inj.mp
    rw [UInt8.toNat_ofNat']
    omega
  · omega

theorem chain_sum (k : Nat) (a b : BitVec (8 * k)) (carryIn : Bool) :
    let sums := chain select false carryIn (littleEndian k a) (littleEndian k b)
    sums.map Result.value = littleEndian k (.ofNat _ (total select a b carryIn)) ∧
      carryOut carryIn sums = decide (256 ^ k ≤ total select a b carryIn) := by
  induction k generalizing carryIn with
  | zero =>
    have hnil (x : BitVec (8 * 0)) : x.toNat = 0 := BitVec.toNat_of_zero_length rfl x
    refine ⟨rfl, ?_⟩
    cases carryIn <;> simp [chain, littleEndian, carryOut, total, hnil]
  | succ k ih =>
    obtain ⟨hvalue, hrest⟩ := total_succ (w := 8 * k) select a b carryIn
    obtain ⟨hvalues, hcarry⟩ := ih (a.extractLsb' 8 (8 * k)) (b.extractLsb' 8 (8 * k))
      (byte (.ofBitVec (a.extractLsb' 0 8)) (.ofBitVec (b.extractLsb' 0 8)) select false carryIn).carry
    rw [← hrest] at hvalues hcarry
    have hle : 256 ^ k ≤ total select a b carryIn / 256 ↔ 256 ^ (k + 1) ≤ total select a b carryIn := by
      rw [Nat.le_div_iff_mul_le (by decide), Nat.pow_succ]
    rw [littleEndian_ofNat_succ, hvalue, ← hvalues]
    refine ⟨rfl, (carryOut_cons _ _ _).trans ?_⟩
    rw [← decide_eq_decide.mpr hle, ← hcarry]

/-- In logic mode no byte depends on the carries. -/
theorem chain_logic (k : Nat) (a b : BitVec (8 * k)) (carryIn : Bool) :
    (chain select true carryIn (littleEndian k a) (littleEndian k b)).map Result.value =
      littleEndian k (~~~(upper select a b ^^^ lower select a b)) := by
  induction k generalizing carryIn with
  | zero => rfl
  | succ k ih =>
    have hlow (a b : UInt8) : (byte a b select true carryIn).value =
        .ofBitVec (~~~(upper select a.toBitVec b.toBitVec ^^^ lower select a.toBitVec b.toBitVec)) :=
      UInt8.eq_of_toBitVec_eq (value_byte_logic a b select carryIn)
    simp only [littleEndian, chain, List.map_cons, hlow, ih]
    rw [agree_extractLsb' (by omega), agree_extractLsb' (by omega)]

/-! ## Functions in arithmetic mode -/

/-- An arithmetic function of two numbers, before the carry in is added. -/
def Arith.apply {n : Nat} (f : Arith) (a b : BitVec n) : BitVec n :=
  match f with
  | .a => a
  | .minusOne => -1
  | .aMinusBMinusOne => a - b - 1
  | .aPlusB => a + b
  | .aPlusA => a + a
  | .aMinusOne => a - 1

theorem Arith.upper_plus_lower {n : Nat} (f : Arith) (x y : BitVec n) :
    upper f.select x y + lower f.select x y = f.apply x y := by
  have hsum (x y : BitVec n) : (x ||| y) + (x &&& y) = x + y := by
    apply BitVec.eq_of_toNat_eq
    rw [BitVec.toNat_add, toNat_or_add_toNat_and, BitVec.toNat_add]
  cases f with
  | a => simp [upper, lower, select, apply]
  | minusOne => simp [upper, lower, select, apply, or_or_not, BitVec.neg_one_eq_allOnes]
  | aMinusBMinusOne =>
    have hupper : upper aMinusBMinusOne.select x y = x ||| ~~~y := by simp [upper, select]
    have hlower : lower aMinusBMinusOne.select x y = x &&& ~~~y := by simp [lower, select]
    rw [hupper, hlower, hsum, BitVec.not_eq_neg_add, apply, BitVec.sub_eq_add_neg, BitVec.sub_eq_add_neg,
      BitVec.sub_eq_add_neg, BitVec.add_assoc]
    rfl
  | aPlusB => simpa [upper, lower, select, apply] using hsum x y
  | aPlusA => simp [upper, lower, select, apply, and_not_or_and]
  | aMinusOne =>
    simp [upper, lower, select, apply, or_or_not, and_not_or_and, BitVec.sub_eq_add_neg,
      BitVec.neg_one_eq_allOnes, BitVec.add_comm]

theorem ofNat_total {w : Nat} (f : Arith) (a b : BitVec w) (carryIn : Bool) :
    BitVec.ofNat w (total f.select a b carryIn) = f.apply a b + .ofNat w carryIn.toNat := by
  rw [total, BitVec.ofNat_add, BitVec.ofNat_add, BitVec.ofNat_toNat, BitVec.ofNat_toNat,
    BitVec.setWidth_eq, BitVec.setWidth_eq, f.upper_plus_lower]

/-- The law of the byte, for numbers of any length. -/
theorem chain_littleEndian (select : Nibble) (k : Nat) (a b : BitVec (8 * k)) (carryIn : Bool) :
    let run (select : Nibble) (logic : Bool) :=
      chain select logic carryIn (littleEndian k a) (littleEndian k b)
    (run select false).map Result.value = littleEndian k (.ofNat _ (total select a b carryIn)) ∧
      carryOut carryIn (run select false) = decide (256 ^ k ≤ total select a b carryIn) ∧
      (∀ f : Arith, (run f.select false).map Result.value =
        littleEndian k (f.apply a b + .ofNat _ carryIn.toNat)) ∧
      (run select true).map Result.value =
        littleEndian k (~~~(upper select a b ^^^ lower select a b)) ∧
      (run select true).map Result.carry = (run select false).map Result.carry ∧
      ∀ logic, ∀ r ∈ run select logic, r.zero = (r.value == 0) := by
  intro run
  obtain ⟨hvalues, hcarry⟩ := chain_sum k a b carryIn
  have hnamed (f : Arith) : (run f.select false).map Result.value =
      littleEndian k (f.apply a b + .ofNat _ carryIn.toNat) := by
    rw [← ofNat_total]
    exact (chain_sum k a b carryIn).1
  exact ⟨hvalues, hcarry, hnamed, chain_logic k a b carryIn, map_carry_chain true carryIn _ _,
    fun logic => zero_chain logic carryIn _ _⟩

end Microcomputer.Alu
