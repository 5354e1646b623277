import Microcomputer.Alu.Slice

/-!
# The eight-bit arithmetic logic unit

The slice is tabulated over all its inputs. Two places of the table make the eight-bit unit: the carry out
of the low nibble is the carry into the high one, and the byte is zero where both nibbles are.
-/

namespace Microcomputer

/-! ## Halves of a byte -/

/-- Bits 0 to 3 of a byte. -/
def lowNibble (b : UInt8) : Nibble :=
  BitVec.ofNat 4 b.toNat

/-- Bits 4 to 7 of a byte. -/
def highNibble (b : UInt8) : Nibble :=
  BitVec.ofNat 4 (b.toNat / 16)

/-- The byte of a high and a low half. -/
def joinNibbles (high low : Nibble) : UInt8 :=
  UInt8.ofNat (16 * high.toNat + low.toNat)

theorem ofNat_eq_nibble {x : Nibble} {n : Nat} (h : n % 16 = x.toNat) : BitVec.ofNat 4 n = x := by
  apply BitVec.eq_of_toNat_eq
  rw [BitVec.toNat_ofNat]
  exact h

theorem toNat_joinNibbles (high low : Nibble) :
    (joinNibbles high low).toNat = 16 * high.toNat + low.toNat := by
  have h := high.isLt
  have l := low.isLt
  simp only [joinNibbles, UInt8.toNat_ofNat']
  omega

@[simp] theorem lowNibble_joinNibbles (high low : Nibble) : lowNibble (joinNibbles high low) = low := by
  have l := low.isLt
  refine ofNat_eq_nibble ?_
  rw [toNat_joinNibbles]
  omega

@[simp] theorem highNibble_joinNibbles (high low : Nibble) : highNibble (joinNibbles high low) = high := by
  have h := high.isLt
  have l := low.isLt
  refine ofNat_eq_nibble ?_
  rw [toNat_joinNibbles]
  omega

@[simp] theorem joinNibbles_halves (b : UInt8) : joinNibbles (highNibble b) (lowNibble b) = b := by
  have h := b.toNat_lt
  apply UInt8.toNat_inj.mp
  simp only [toNat_joinNibbles, highNibble, lowNibble, BitVec.toNat_ofNat]
  omega

namespace Alu

/-! ## The table of the slice -/

/-- The number of inputs of a slice. -/
def tableSize : Nat := 16 * 16 * 16 * 2 * 2

/-- The place of an input in the table: `a` in bits 0 to 3, `b` in bits 4 to 7, the select lines in
bits 8 to 11, the mode in bit 12 and the carry in in bit 13. -/
def tableIndex (a b select : Nibble) (logic carryIn : Bool) : Fin tableSize :=
  ⟨8192 * carryIn.toNat + 4096 * logic.toNat + 256 * select.toNat + 16 * b.toNat + a.toNat, by
    have ha := a.isLt
    have hb := b.isLt
    have hs := select.isLt
    have hl := logic.toNat_lt
    have hc := carryIn.toNat_lt
    simp only [tableSize]
    omega⟩

/-- The slice over all inputs in the order of `tableIndex`. -/
def table : Vector (Result Nibble) tableSize :=
  -- The row is made from its front, so that unfolding a lookup at an unknown place stops at its head.
  ⟨((List.range' 0 tableSize).map fun i =>
    slice (BitVec.ofNat 4 i) (BitVec.ofNat 4 (i / 16)) (BitVec.ofNat 4 (i / 256)) (i / 4096 % 2 == 1)
      (i / 8192 == 1)).toArray, by
    rw [List.size_toArray, List.length_map, List.length_range']⟩

/-- The slice, from its table. -/
def lookup (a b select : Nibble) (logic carryIn : Bool) : Result Nibble :=
  table[tableIndex a b select logic carryIn]

theorem beq_one_eq {b : Bool} {n : Nat} (h : n = b.toNat) : (n == 1) = b := by
  rw [h]
  cases b with
  | false => rfl
  | true => rfl

theorem lookup_eq_slice (a b select : Nibble) (logic carryIn : Bool) :
    lookup a b select logic carryIn = slice a b select logic carryIn := by
  have ha := a.isLt
  have hb := b.isLt
  have hs := select.isLt
  have hl := logic.toNat_lt
  have hc := carryIn.toNat_lt
  simp only [lookup, table, tableIndex, Fin.getElem_fin, Vector.getElem_mk, List.getElem_toArray,
    List.getElem_map, List.getElem_range', Nat.zero_add, Nat.one_mul]
  congr 1
  · exact ofNat_eq_nibble (by omega)
  · exact ofNat_eq_nibble (by omega)
  · exact ofNat_eq_nibble (by omega)
  · exact beq_one_eq (by omega)
  · exact beq_one_eq (by omega)

/-! ## Two slices -/

/-- Eight bits. -/
def byte (a b : UInt8) (select : Nibble) (logic carryIn : Bool) : Result UInt8 :=
  let low := lookup (lowNibble a) (lowNibble b) select logic carryIn
  let high := lookup (highNibble a) (highNibble b) select logic low.carry
  { value := joinNibbles high.value low.value, carry := high.carry, zero := low.zero && high.zero }

theorem byte_eq_slice (a b : UInt8) (select : Nibble) (logic carryIn : Bool) :
    byte a b select logic carryIn =
      let low := slice (lowNibble a) (lowNibble b) select logic carryIn
      let high := slice (highNibble a) (highNibble b) select logic low.carry
      { value := joinNibbles high.value low.value, carry := high.carry, zero := low.zero && high.zero } := by
  simp only [byte, lookup_eq_slice]

end Alu

end Microcomputer
