import Microcomputer.Instruction.Basic

/-!
# Encoding instructions

An instruction is encoded as its opcode, with the registers in its low bits, followed by the bytes of
the other operands in order. The walk over encoded instructions goes from opcode to opcode.
-/

namespace Microcomputer

/-- Why an instruction cannot be encoded. -/
inductive EncodeError where
  | unknownMnemonic (mnemonic : String)
  | noMatchingForm (mnemonic : String) (operands : List Operand)
  | operandCount (instruction : Instruction) (expected found : Nat)
  | operandMismatch (instruction : Instruction) (position : Nat)
deriving DecidableEq, Repr

/-- The wording of an encoding error. -/
def EncodeError.message : EncodeError → String
  | unknownMnemonic mnemonic => "unknown instruction '" ++ mnemonic ++ "'"
  | noMatchingForm mnemonic operands =>
    "no form of '" ++ mnemonic ++ "' takes (" ++ ", ".intercalate (operands.map Operand.render) ++ ")"
  | operandCount instruction expected found =>
    Vocabulary.name instruction ++ " takes " ++ Text.decimal expected ++ " operands but " ++
      Text.decimal found ++ " were given"
  | operandMismatch instruction position =>
    "operand " ++ Text.decimal position ++ " of " ++ Vocabulary.name instruction ++ " has the wrong kind"

namespace Instruction

/-! ## One instruction -/

/-- The register fields of an opcode: the last register in bits 0 and 1, the one before it from bit 2
up. -/
def fields (registers : List Register) : UInt8 :=
  match registers.reverse with
  | [] => 0
  | [low] => UInt8.ofNat low.code
  | low :: high :: _ => UInt8.ofNat (4 * high.code) ||| UInt8.ofNat low.code

/-- The first position where an operand cannot stand for its argument. -/
def mismatch? (kinds : List OperandKind) (operands : List Operand) : Option Nat :=
  (kinds.zip operands).findIdx? fun (kind, operand) => !kind.accepts operand

/-- The bytes of an instruction with operands that fit. -/
def layout (i : Instruction) (operands : List Operand) : List UInt8 :=
  (i.opcode ||| fields (operands.filterMap Operand.register?)) :: operands.flatMap Operand.bytes

/-- The bytes of an instruction. -/
def encode (i : Instruction) (operands : List Operand) : Except EncodeError (List UInt8) :=
  if i.kinds.length ≠ operands.length then
    .error (.operandCount i i.kinds.length operands.length)
  else
    match mismatch? i.kinds operands with
    | some position => .error (.operandMismatch i position)
    | none => .ok (i.layout operands)

/-- The bytes of instructions in a row. -/
def encodeAll (parts : List (Instruction × List Operand)) : Except EncodeError (List UInt8) := do
  return (← parts.mapM fun (i, operands) => i.encode operands).flatten

/-! ## The walk -/

/-- The instructions that a walk meets, with their offsets. -/
def walkFrom (offset : Nat) : List UInt8 → List (Nat × Instruction)
  | [] => []
  | opcode :: rest =>
    match decode opcode with
    | none => []
    | some i => (offset, i) :: walkFrom (offset + i.size) (rest.drop (i.size - 1))
termination_by bytes => bytes.length
decreasing_by
  simp only [List.length_drop, List.length_cons]
  omega

/-- The walk from the start of the bytes. -/
def walk (bytes : List UInt8) : List (Nat × Instruction) :=
  walkFrom 0 bytes

end Instruction

end Microcomputer
