import Microcomputer.Proofs.Alu.Sum

/-!
# Comparison

Subtraction without a borrow tells by the zero flag whether two bytes are the same, and by the carry
which of them is the greater one.
-/

namespace Microcomputer.Alu

theorem sub_beq_zero (a b : UInt8) : (a - b == 0) = (a == b) := by
  rw [Bool.eq_iff_iff, beq_iff_eq, beq_iff_eq]
  exact UInt8.sub_eq_iff_eq_add.trans (by rw [UInt8.zero_add])

theorem zero_compare (a b : UInt8) :
    (byte a b Arith.aMinusBMinusOne.select false true).zero = (a == b) := by
  rw [byte_difference]
  exact sub_beq_zero a b

theorem value_zero (a b : UInt8) (carryIn : Bool) :
    (byte a b Logic.zero.select true carryIn).value = 0 := by
  apply UInt8.eq_of_toBitVec_eq
  ext i hi
  rw [getElem_logical]
  simp [Logic.bit]

end Microcomputer.Alu
