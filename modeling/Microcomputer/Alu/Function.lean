import Microcomputer.Vocabulary

/-!
# Functions of the arithmetic logic unit

The unit has four select lines. In arithmetic mode six of the sixteen selections have a use of their
own, each with the carry in added; in logic mode the sixteen selections are all the functions of two
bits.
-/

namespace Microcomputer

/-- Four bits, the width of one slice of the arithmetic logic unit. -/
abbrev Nibble := BitVec 4

namespace Alu

/-! ## Arithmetic mode -/

/-- The selections of use in arithmetic mode. -/
inductive Arith where
  | a
  | minusOne
  | aMinusBMinusOne
  | aPlusB
  | aPlusA
  | aMinusOne
deriving DecidableEq, Repr

namespace Arith

/-- The select lines of an arithmetic function. -/
def select : Arith → Nibble
  | a => 0b0000
  | minusOne => 0b0011
  | aMinusBMinusOne => 0b0110
  | aPlusB => 0b1001
  | aPlusA => 0b1100
  | aMinusOne => 0b1111

/-- The name of an arithmetic function, which is its label as well. -/
def name : Arith → String
  | a => "A"
  | minusOne => "MinusOne"
  | aMinusBMinusOne => "AMinusBMinusOne"
  | aPlusB => "APlusB"
  | aPlusA => "APlusA"
  | aMinusOne => "AMinusOne"

instance : Coded Arith where
  members := [a, minusOne, aMinusBMinusOne, aPlusB, aPlusA, aMinusOne]
  name := name
  label := name
  code f := f.select.toNat

end Arith

/-! ## Logic mode -/

/-- The functions of two bits. -/
inductive Logic where
  | notA
  | nor
  | notAAndB
  | zero
  | nand
  | notB
  | xor
  | aAndNotB
  | notAOrB
  | xnor
  | b
  | and
  | one
  | aOrNotB
  | or
  | a
deriving DecidableEq, Repr

namespace Logic

/-- The select lines of a logic function. -/
def select : Logic → Nibble
  | notA => 0b0000
  | nor => 0b0001
  | notAAndB => 0b0010
  | zero => 0b0011
  | nand => 0b0100
  | notB => 0b0101
  | xor => 0b0110
  | aAndNotB => 0b0111
  | notAOrB => 0b1000
  | xnor => 0b1001
  | b => 0b1010
  | and => 0b1011
  | one => 0b1100
  | aOrNotB => 0b1101
  | or => 0b1110
  | a => 0b1111

/-- The name of a logic function, which is its label as well. -/
def name : Logic → String
  | notA => "NotA"
  | nor => "Nor"
  | notAAndB => "NotAAndB"
  | zero => "Zero"
  | nand => "Nand"
  | notB => "NotB"
  | xor => "Xor"
  | aAndNotB => "AAndNotB"
  | notAOrB => "NotAOrB"
  | xnor => "Xnor"
  | b => "B"
  | and => "And"
  | one => "One"
  | aOrNotB => "AOrNotB"
  | or => "Or"
  | a => "A"

instance : Coded Logic where
  members := [notA, nor, notAAndB, zero, nand, notB, xor, aAndNotB, notAOrB, xnor, b, and, one,
    aOrNotB, or, a]
  name := name
  label := name
  code f := f.select.toNat

end Logic

end Alu

end Microcomputer
