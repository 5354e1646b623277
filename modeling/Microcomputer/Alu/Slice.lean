import Microcomputer.Alu.Function

/-!
# One slice of the arithmetic logic unit

A slice works on four bits, gate by gate: every bit has an inverted propagate and an inverted
generate line, and the carry into each bit is looked ahead from them two gate levels deep.
-/

namespace Microcomputer.Alu

/-- What the unit yields: a value, the carry out and whether the value is zero. -/
structure Result (α : Type) where
  value : α
  carry : Bool
  zero : Bool
deriving DecidableEq, Repr

/-- The inverted propagate line of a bit: low if a carry into the bit leaves it again. -/
def propagateLow (a b : Bool) (select : Nibble) : Bool :=
  !(a || (b && select[0]) || (!b && select[1]))

/-- The inverted generate line of a bit: low if the bit makes a carry by itself. -/
def generateLow (a b : Bool) (select : Nibble) : Bool :=
  !((a && !b && select[2]) || (a && b && select[3]))

/-- One bit of the value, from its two lines and the inverted carry into it, which counts in
arithmetic mode alone. -/
def valueBit (propagate generate carryLow logic : Bool) : Bool :=
  (!propagate && generate) ^^ !(!logic && carryLow)

/-- Four bits. A carry in adds one, and the carry out is set where the sum does not fit, so for a
subtraction where nothing is borrowed. -/
def slice (a b select : Nibble) (logic carryIn : Bool) : Result Nibble :=
  let p0 := propagateLow a[0] b[0] select
  let p1 := propagateLow a[1] b[1] select
  let p2 := propagateLow a[2] b[2] select
  let p3 := propagateLow a[3] b[3] select
  let g0 := generateLow a[0] b[0] select
  let g1 := generateLow a[1] b[1] select
  let g2 := generateLow a[2] b[2] select
  let g3 := generateLow a[3] b[3] select
  let c0 := !carryIn
  let c1 := p0 || (g0 && c0)
  let c2 := p1 || (p0 && g1) || (g0 && g1 && c0)
  let c3 := p2 || (p1 && g2) || (p0 && g1 && g2) || (g0 && g1 && g2 && c0)
  let c4 := p3 || (p2 && g3) || (p1 && g2 && g3) || (p0 && g1 && g2 && g3) ||
    (g0 && g1 && g2 && g3 && c0)
  let value : Nibble := BitVec.ofBoolListLE
    [valueBit p0 g0 c0 logic, valueBit p1 g1 c1 logic, valueBit p2 g2 c2 logic, valueBit p3 g3 c3 logic]
  { value, carry := !c4, zero := value == 0 }

end Microcomputer.Alu
