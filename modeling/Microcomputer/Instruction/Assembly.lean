import Microcomputer.Instruction.Encoding

/-!
# Assembling

A line names a mnemonic and operands. Composite forms, which stand for several instructions, go before
the instructions of the same mnemonic; of these the first that takes the operands is encoded.
-/

namespace Microcomputer

open Instruction

/-! ## Composite forms -/

/-- The instructions that a composite form stands for. -/
def composite? (mnemonic : String) (operands : List Operand) :
    Option (List (Instruction × List Operand)) :=
  match mnemonic, operands with
  | "incp", [] => some [(inc, [.register .x]), (incCarry, [.register .y])]
  | "decp", [] => some [(dec, [.register .x]), (decCarry, [.register .y])]
  | "addp", [.register r] => some [(addReg, [.register r, .register .x]), (incCarry, [.register .y])]
  | "addp", [.imm v] => some [(addImm, [.imm v, .register .x]), (incCarry, [.register .y])]
  | "subp", [.register r] => some [(subReg, [.register r, .register .x]), (decCarry, [.register .y])]
  | "subp", [.imm v] => some [(subImm, [.imm v, .register .x]), (decCarry, [.register .y])]
  | "xchg", [.register r, .register s] =>
    some [(xchgReg, [.register r, .register s]), (xchgRegFinish, [.register r])]
  | "gp", [.addr a] => some [(gpLow, [.addr a]), (gpHigh, [])]
  | "gpf", [.imm v] => some [(gpfLow, [.imm v]), (gpfHigh, [])]
  | "ldpo", [.imm v, .register r] =>
    some [(pairOffsetLow, [.imm v]), (pairOffsetHigh, []), (loadPairOffset, [.register r])]
  | "stpo", [.register r, .imm v] =>
    some [(pairOffsetLow, [.imm v]), (pairOffsetHigh, []), (storePairOffset, [.register r])]
  | _, _ => none

/-- The bytes of a composite form, none if the operands make no such form. -/
def encodeComposite? (mnemonic : String) (operands : List Operand) :
    Option (Except EncodeError (List UInt8)) :=
  (composite? mnemonic operands).map encodeAll

/-! ## Lines -/

/-- The instructions of a mnemonic in the order of the instruction set. -/
def Instruction.ofMnemonic (mnemonic : String) : List Instruction :=
  (Vocabulary.members : List Instruction).filter fun i => i.mnemonic == mnemonic

/-- The bytes of a line. -/
def assemble (mnemonic : String) (operands : List Operand) : Except EncodeError (List UInt8) :=
  match encodeComposite? mnemonic operands with
  | some bytes => bytes
  | none =>
    match ofMnemonic mnemonic with
    | [] => .error (.unknownMnemonic mnemonic)
    | candidates =>
      match candidates.findSome? fun i => (i.encode operands).toOption with
      | some bytes => .ok bytes
      | none => .error (.noMatchingForm mnemonic operands)

end Microcomputer
