/-!
# Numerals

Numbers are written in lower case and without a sign. A numeral that is read may have letters of
either case and one plus sign in front, and needs at least one digit.
-/

namespace Microcomputer.Text

/-- The value of an ASCII digit of a base up to sixteen. -/
def digitValue? (base : Nat) (c : Char) : Option Nat :=
  let value? :=
    if '0' ≤ c ∧ c ≤ '9' then some (c.toNat - '0'.toNat)
    else if 'a' ≤ c ∧ c ≤ 'f' then some (c.toNat - 'a'.toNat + 10)
    else if 'A' ≤ c ∧ c ≤ 'F' then some (c.toNat - 'A'.toNat + 10)
    else none
  value?.filter (· < base)

/-- The value of a row of digits after a value already read, the most significant digit first. -/
def digitsValue? (base : Nat) : Nat → List Char → Option Nat
  | value, [] => some value
  | value, c :: cs =>
    match digitValue? base c with
    | none => none
    | some digit => digitsValue? base (base * value + digit) cs

/-- One or more digits. -/
def unsigned? (base : Nat) : List Char → Option Nat
  | [] => none
  | c :: cs => digitsValue? base 0 (c :: cs)

/-- A numeral with an optional plus sign. -/
def numeral? (base : Nat) : List Char → Option Nat
  | '+' :: cs => unsigned? base cs
  | cs => unsigned? base cs

/-- A numeral whose value stays below a bound. -/
def numeralBelow? (base bound : Nat) (cs : List Char) : Option Nat :=
  (numeral? base cs).filter (· < bound)

/-- A byte in hexadecimal. -/
def hexByte? (cs : List Char) : Option UInt8 :=
  (numeralBelow? 16 256 cs).map UInt8.ofNat

/-- A number in decimal. -/
def decimal (n : Nat) : String :=
  String.ofList (Nat.toDigits 10 n)

/-- A number in hexadecimal, with zeros in front up to a width. -/
def hex (width n : Nat) : String :=
  String.ofList ((Nat.toDigits 16 n).leftpad width '0')

/-- A byte as two hexadecimal digits. -/
def hexByte (b : UInt8) : String :=
  hex 2 b.toNat

end Microcomputer.Text
