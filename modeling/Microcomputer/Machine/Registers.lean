import Microcomputer.Control.Bus
import Microcomputer.Instruction.Operand

/-!
# Registers

The four main registers, the register pairs whose halves are loaded one at a time, and the two banks of
flags.
-/

namespace Microcomputer

/-! ## Main registers -/

/-- The main registers. -/
structure Registers where
  a : UInt8 := 0
  b : UInt8 := 0
  x : UInt8 := 0
  y : UInt8 := 0
deriving DecidableEq, Repr

namespace Registers

/-- The value of a register. -/
def get (regs : Registers) : Register → UInt8
  | .a => regs.a
  | .b => regs.b
  | .x => regs.x
  | .y => regs.y

/-- The registers with another value in one. -/
def set (regs : Registers) (r : Register) (value : UInt8) : Registers :=
  match r with
  | .a => { regs with a := value }
  | .b => { regs with b := value }
  | .x => { regs with x := value }
  | .y => { regs with y := value }

theorem get_set (regs : Registers) (r s : Register) (value : UInt8) :
    (regs.set r value).get s = if r = s then value else regs.get s := by
  cases r <;> cases s <;> rfl

/-- The values in the order A, B, X, Y. -/
def toList (regs : Registers) : List UInt8 :=
  [regs.a, regs.b, regs.x, regs.y]

end Registers

/-! ## Register pairs -/

/-- A register of sixteen bits with two halves. -/
structure RegisterPair where
  low : UInt8 := 0
  high : UInt8 := 0
deriving DecidableEq, Repr

namespace RegisterPair

/-- The sixteen bits. -/
def value (p : RegisterPair) : UInt16 :=
  256 * p.high.toUInt16 + p.low.toUInt16

/-- The pair with given sixteen bits. -/
def ofValue (value : UInt16) : RegisterPair where
  low := value.toUInt8
  high := (value / 256).toUInt8

/-- The half that a side picks. -/
def half (p : RegisterPair) (side : Control.Side) : UInt8 :=
  if side.isLow then p.low else p.high

/-- The pair with another value in the half that a side picks. -/
def setHalf (p : RegisterPair) (side : Control.Side) (value : UInt8) : RegisterPair :=
  if side.isLow then { p with low := value } else { p with high := value }

/-- The pair with one added to all sixteen bits. -/
def next (p : RegisterPair) : RegisterPair :=
  ofValue (p.value + 1)

theorem toNat_value (p : RegisterPair) : p.value.toNat = 256 * p.high.toNat + p.low.toNat := by
  have h := p.high.toNat_lt
  have l := p.low.toNat_lt
  simp only [value, UInt16.toNat_add, UInt16.toNat_mul, UInt8.toNat_toUInt16, UInt16.reduceToNat]
  omega

@[simp] theorem ofValue_value (p : RegisterPair) : ofValue p.value = p := by
  have v := p.toNat_value
  obtain ⟨low, high⟩ := p
  have h := high.toNat_lt
  have l := low.toNat_lt
  simp only [ofValue, mk.injEq]
  constructor
  · apply UInt8.toNat_inj.mp
    simp only [UInt16.toNat_toUInt8, v]
    omega
  · apply UInt8.toNat_inj.mp
    simp only [UInt16.toNat_toUInt8, UInt16.toNat_div, UInt16.reduceToNat, v]
    omega

@[simp] theorem value_ofValue (value : UInt16) : (ofValue value).value = value := by
  have h := value.toNat_lt
  apply UInt16.toNat_inj.mp
  simp only [toNat_value, ofValue, UInt16.toNat_toUInt8, UInt16.toNat_div, UInt16.reduceToNat]
  omega

@[simp] theorem value_next (p : RegisterPair) : p.next.value = p.value + 1 :=
  value_ofValue _

theorem next_next (p : RegisterPair) : p.next.next = ofValue (p.value + 2) := by
  rw [next, value_next, UInt16.add_assoc]
  rfl

theorem next_next_next (p : RegisterPair) : p.next.next.next = ofValue (p.value + 3) := by
  rw [next, next_next, value_ofValue, UInt16.add_assoc]
  rfl

end RegisterPair

/-! ## Flags -/

/-- What the arithmetic logic unit tells about its last result. -/
structure Flags where
  carry : Bool := false
  zero : Bool := false
deriving DecidableEq, Repr

namespace Flags

/-- The names of the flags that are set. -/
def describe (flags : Flags) : String :=
  match flags.carry, flags.zero with
  | false, false => "(empty)"
  | true, false => "CARRY"
  | false, true => "ZERO"
  | true, true => "CARRY | ZERO"

end Flags

/-- Two banks of flags. Opcodes below 0x80 use bank 0 and the others bank 1. -/
structure FlagBanks where
  bank0 : Flags := {}
  bank1 : Flags := {}
deriving DecidableEq, Repr

namespace FlagBanks

/-- The flags of a bank, bank 1 for `true`. -/
def get (banks : FlagBanks) : Bool → Flags
  | false => banks.bank0
  | true => banks.bank1

/-- The banks with other flags in one. -/
def set (banks : FlagBanks) (bank : Bool) (flags : Flags) : FlagBanks :=
  match bank with
  | false => { banks with bank0 := flags }
  | true => { banks with bank1 := flags }

theorem get_set (banks : FlagBanks) (bank other : Bool) (flags : Flags) :
    (banks.set bank flags).get other = if bank = other then flags else banks.get other := by
  cases bank <;> cases other <;> rfl

@[simp] theorem get_set_self (banks : FlagBanks) (bank : Bool) (flags : Flags) :
    (banks.set bank flags).get bank = flags := by
  rw [get_set, if_pos rfl]

@[simp] theorem set_set (banks : FlagBanks) (bank : Bool) (flags flags' : Flags) :
    (banks.set bank flags).set bank flags' = banks.set bank flags' := by
  cases bank <;> rfl

end FlagBanks

end Microcomputer
