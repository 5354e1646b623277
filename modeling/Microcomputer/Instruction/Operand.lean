import Microcomputer.Text.Numeral
import Microcomputer.Vocabulary

/-!
# Operands

An operand is a register, a byte or an address. The kind of an argument says which operands it takes,
how many opcodes it spans and how many bytes it adds after the opcode.
-/

namespace Microcomputer

/-- The four main registers. -/
inductive Register where
  | a
  | b
  | x
  | y
deriving DecidableEq, Repr

namespace Register

/-- The code of a register, two bits. -/
def code : Register → Nat
  | a => 0
  | b => 1
  | x => 2
  | y => 3

/-- The register that the low two bits of a number name. -/
def ofBits (n : Nat) : Register :=
  match n % 4 with
  | 0 => a
  | 1 => b
  | 2 => x
  | _ => y

/-- The registers that fit a field of one bit. -/
def isNarrow : Register → Bool
  | a => true
  | b => true
  | _ => false

instance : Coded Register where
  members := [a, b, x, y]
  name
    | a => "A"
    | b => "B"
    | x => "X"
    | y => "Y"
  code := code

theorem code_lt (r : Register) : r.code < 4 := by
  cases r <;> decide

@[simp] theorem ofBits_code (r : Register) : ofBits r.code = r := by
  cases r <;> rfl

end Register

/-- What an argument of an instruction can be: A or B, any main register, a byte or an address. -/
inductive OperandKind where
  | ab
  | abxy
  | imm
  | addr
deriving DecidableEq, Repr

/-- An operand as it is written. -/
inductive Operand where
  | register (r : Register)
  | imm (value : UInt8)
  | addr (value : UInt16)
deriving DecidableEq, Repr

namespace OperandKind

instance : Vocabulary OperandKind where
  members := [ab, abxy, imm, addr]
  name
    | ab => "Ab"
    | abxy => "Abxy"
    | imm => "Imm"
    | addr => "Addr"

/-- The number of opcodes that an argument spans. -/
def width : OperandKind → Nat
  | ab => 2
  | abxy => 4
  | imm => 1
  | addr => 1

/-- The number of bytes that an argument adds after the opcode. -/
def size : OperandKind → Nat
  | ab => 0
  | abxy => 0
  | imm => 1
  | addr => 2

/-- The argument is a register. -/
def isRegister : OperandKind → Bool
  | ab => true
  | abxy => true
  | _ => false

/-- The operand can stand for the argument. -/
def accepts : OperandKind → Operand → Bool
  | ab, .register r => r.isNarrow
  | abxy, .register _ => true
  | imm, .imm _ => true
  | addr, .addr _ => true
  | _, _ => false

/-- The number of opcodes that a row of arguments spans; only the first two can be in the opcode. -/
def blockWidth (kinds : List OperandKind) : Nat :=
  ((kinds.take 2).map width).foldr (· * ·) 1

end OperandKind

namespace Operand

/-- The register that an operand names. -/
def register? : Operand → Option Register
  | register r => some r
  | _ => none

/-- The bytes that an operand adds after the opcode; an address has its low byte first. -/
def bytes : Operand → List UInt8
  | register _ => []
  | imm value => [value]
  | addr value => [value.toUInt8, (value / 256).toUInt8]

/-- The text of an operand. -/
def render : Operand → String
  | register r => Vocabulary.label r
  | imm value => "0x" ++ Text.hexByte value
  | addr value => "0x" ++ Text.hex 4 value.toNat

theorem length_bytes {kind : OperandKind} {operand : Operand} (h : kind.accepts operand) :
    operand.bytes.length = kind.size := by
  cases kind <;> cases operand <;> simp_all [OperandKind.accepts, bytes, OperandKind.size]

end Operand

end Microcomputer
