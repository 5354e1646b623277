import Mathlib.Data.List.Forall2
import Microcomputer.Machine.Registers
import Microcomputer.Proofs.Instruction.Blocks

/-!
# Operands in the bytes of an instruction

The opcode of an encoded instruction lies in the block of the instruction, with its registers in the low
bits, and the other operands follow it in order. So all operands can be read back.
-/

namespace Microcomputer

/-! ## Reading -/

/-- The register in a field of the opcode; a field for A or B has one bit. -/
def OperandKind.field (kind : OperandKind) (bits : Nat) : Register :=
  match kind with
  | ab => .ofBits (bits % 2)
  | _ => .ofBits bits

namespace Instruction

/-- The registers in the fields of an opcode. -/
def registersIn (kinds : List OperandKind) (opcode : UInt8) : List Register :=
  match (kinds.filter OperandKind.isRegister).reverse with
  | [] => []
  | [low] => [low.field opcode.toNat]
  | low :: high :: _ => [high.field (opcode.toNat / 4), low.field opcode.toNat]

/-- The operands for a row of arguments, registers from a list and the others from bytes. -/
def readOperands : List OperandKind → List Register → List UInt8 → Option (List Operand)
  | [], _, _ => some []
  | .ab :: kinds, r :: rs, bytes => (readOperands kinds rs bytes).map (.register r :: ·)
  | .abxy :: kinds, r :: rs, bytes => (readOperands kinds rs bytes).map (.register r :: ·)
  | .imm :: kinds, rs, value :: bytes => (readOperands kinds rs bytes).map (.imm value :: ·)
  | .addr :: kinds, rs, low :: high :: bytes =>
    (readOperands kinds rs bytes).map (.addr (256 * high.toUInt16 + low.toUInt16) :: ·)
  | _, _, _ => none

/-- The operands of an instruction from its bytes. -/
def operands? (i : Instruction) : List UInt8 → Option (List Operand)
  | [] => none
  | opcode :: bytes => readOperands i.kinds (registersIn i.kinds opcode) bytes

/-! ## Encodings that are accepted -/

theorem accepts_cases {kind : OperandKind} {operand : Operand} (h : kind.accepts operand) :
    (kind = .ab ∧ ∃ r, operand = .register r ∧ r.isNarrow) ∨
    (kind = .abxy ∧ ∃ r, operand = .register r) ∨
    (kind = .imm ∧ ∃ value, operand = .imm value) ∨ (kind = .addr ∧ ∃ value, operand = .addr value) := by
  cases kind <;> cases operand <;> simp_all [OperandKind.accepts]

/-- The operands stand for the arguments one by one. -/
abbrev Fits : List OperandKind → List Operand → Prop :=
  List.Forall₂ fun kind operand => kind.accepts operand

variable {i : Instruction} {kinds : List OperandKind} {operands : List Operand} {code : List UInt8}

theorem encode_eq_ok_iff :
    i.encode operands = .ok code ↔ Fits i.kinds operands ∧ i.layout operands = code := by
  have hfits : Fits i.kinds operands ↔
      i.kinds.length = operands.length ∧ mismatch? i.kinds operands = none := by
    unfold Fits
    rw [List.forall₂_iff_zip, mismatch?, List.findIdx?_eq_none_iff]
    simp
  rw [hfits]
  unfold encode
  split
  next hne => simp [hne]
  next heq =>
    have hlength := Decidable.of_not_not heq
    cases mismatch? i.kinds operands <;> simp [hlength]

/-- The registers of an encoded row, for all rows that fit the arguments. -/
def registerRows : List OperandKind → List (List Register)
  | [] => [[]]
  | .ab :: kinds => [.a, .b].flatMap fun r => (registerRows kinds).map (r :: ·)
  | .abxy :: kinds => [.a, .b, .x, .y].flatMap fun r => (registerRows kinds).map (r :: ·)
  | _ :: kinds => registerRows kinds

theorem mem_registerRows (h : Fits kinds operands) :
    operands.filterMap Operand.register? ∈ registerRows kinds := by
  induction h with
  | nil => exact List.mem_singleton.mpr rfl
  | cons hfit _ ih =>
    rcases accepts_cases hfit with ⟨rfl, r, rfl, hr⟩ | ⟨rfl, r, rfl⟩ | ⟨rfl, value, rfl⟩ | ⟨rfl, value, rfl⟩
    · refine List.mem_flatMap.mpr ⟨r, ?_, List.mem_map_of_mem ih⟩
      cases r <;> simp_all [Register.isNarrow]
    · refine List.mem_flatMap.mpr ⟨r, ?_, List.mem_map_of_mem ih⟩
      cases r <;> simp
    · exact ih
    · exact ih

/-! ## One instruction -/

/-- The opcode of an encoding stays in its block and keeps the registers apart. -/
theorem opcode_fields {registers : List Register} (h : registers ∈ registerRows i.kinds) :
    i.owns (i.opcode ||| fields registers) ∧
      registersIn i.kinds (i.opcode ||| fields registers) = registers := by
  have hall : ∀ i : Instruction, ∀ registers ∈ registerRows i.kinds,
      i.owns (i.opcode ||| fields registers) ∧
        registersIn i.kinds (i.opcode ||| fields registers) = registers := by
    decide
  exact hall i registers h

theorem length_flatMap_bytes (h : Fits kinds operands) :
    (operands.flatMap Operand.bytes).length + 1 = kinds.foldr (fun kind n => kind.size + n) 1 := by
  induction h with
  | nil => rfl
  | cons hfit _ ih =>
    rw [List.flatMap_cons, List.length_append, List.foldr_cons, Operand.length_bytes hfit]
    omega

theorem readOperands_bytes (h : Fits kinds operands) (rest : List UInt8) :
    readOperands kinds (operands.filterMap Operand.register?)
      (operands.flatMap Operand.bytes ++ rest) = some operands := by
  induction h with
  | nil => rfl
  | @cons _ _ kinds operands hfit _ ih =>
    rw [List.flatMap_cons, List.append_assoc]
    rcases accepts_cases hfit with ⟨rfl, r, rfl, -⟩ | ⟨rfl, r, rfl⟩ | ⟨rfl, value, rfl⟩ | ⟨rfl, value, rfl⟩
    · exact congrArg (Option.map (.register r :: ·)) ih
    · exact congrArg (Option.map (.register r :: ·)) ih
    · exact congrArg (Option.map (.imm value :: ·)) ih
    · have hvalue : 256 * (value / 256).toUInt8.toUInt16 + value.toUInt8.toUInt16 = value :=
        RegisterPair.value_ofValue value
      refine (congrArg (Option.map _) ih).trans ?_
      rw [hvalue]
      rfl

/-- An encoding begins with an opcode of its instruction, has its size, and holds its operands. -/
theorem encode_cases (h : i.encode operands = .ok code) : ∃ opcode bytes, code = opcode :: bytes ∧
    decode opcode = some i ∧ bytes.length + 1 = i.size ∧
      ∀ rest, i.operands? (opcode :: (bytes ++ rest)) = some operands := by
  obtain ⟨hfits, rfl⟩ := encode_eq_ok_iff.mp h
  obtain ⟨howns, hregisters⟩ := opcode_fields (mem_registerRows hfits)
  refine ⟨_, _, rfl, decode_eq_some_iff.mpr howns, length_flatMap_bytes hfits, fun rest => ?_⟩
  rw [operands?, hregisters]
  exact readOperands_bytes hfits rest

end Instruction

end Microcomputer
