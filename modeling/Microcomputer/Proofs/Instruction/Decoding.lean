import Microcomputer.Proofs.Instruction.Operands
import Microcomputer.Proofs.Outcome

/-!
# Decoding what was encoded

The walk over encoded instructions stops at the start of each of them and at the end of the last one, and
finds their operands there. So the bytes tell the instructions.
-/

namespace Microcomputer.Instruction

/-! ## The walk with operands -/

/-- The offsets where pieces of code begin that follow each other. -/
def starts (offset : Nat) : List (List UInt8) → List Nat
  | [] => []
  | code :: codes => offset :: starts (offset + code.length) codes

/-- The offset after the last instruction of a row of visits, or the one where the walk began. -/
def endFrom (offset : Nat) (visits : List (Nat × Instruction)) : Nat :=
  (visits.getLast?.map fun visit => visit.1 + visit.2.size).getD offset

/-- The instructions of a walk with their operands. -/
def disassemble (bytes : List UInt8) : List (Instruction × Option (List Operand)) :=
  (walk bytes).map fun visit => (visit.2, visit.2.operands? (bytes.drop visit.1))

/-! ## Encoded parts -/

/-- The parts are accepted one by one, with these encodings. -/
abbrev Encodes : List (Instruction × List Operand) → List (List UInt8) → Prop :=
  List.Forall₂ fun part code => part.1.encode part.2 = .ok code

variable {parts : List (Instruction × List Operand)} {codes : List (List UInt8)}

theorem encodeAll_eq_ok_iff {bytes : List UInt8} :
    encodeAll parts = .ok bytes ↔ ∃ codes, Encodes parts codes ∧ codes.flatten = bytes := by
  unfold encodeAll
  simp only [bind_eq_ok_iff, mapM_eq_ok_iff, pure, Except.pure, Except.ok.injEq]

/-! ## One step of the walk -/

theorem walkFrom_encode {i : Instruction} {operands : List Operand} {code : List UInt8}
    (h : i.encode operands = .ok code) (offset : Nat) (rest : List UInt8) :
    walkFrom offset (code ++ rest) = (offset, i) :: walkFrom (offset + code.length) rest := by
  obtain ⟨opcode, bytes, rfl, hdecode, hsize, -⟩ := encode_cases h
  rw [List.cons_append, walkFrom, hdecode, List.length_cons, hsize]
  simp only
  rw [← hsize, Nat.add_sub_cancel, List.drop_left]

theorem endFrom_cons (offset start : Nat) (i : Instruction) (visits : List (Nat × Instruction)) :
    endFrom offset ((start, i) :: visits) = endFrom (start + i.size) visits := by
  unfold endFrom
  rw [List.getLast?_cons]
  cases visits.getLast? <;> rfl

/-! ## The whole walk -/

theorem walkFrom_flatten (h : Encodes parts codes) (offset : Nat) :
    walkFrom offset codes.flatten = (starts offset codes).zip (parts.map Prod.fst) ∧
      endFrom offset (walkFrom offset codes.flatten) = offset + codes.flatten.length := by
  induction h generalizing offset with
  | nil =>
    rw [List.flatten_nil, walkFrom]
    exact ⟨rfl, rfl⟩
  | @cons part code parts codes hcode _ ih =>
    obtain ⟨hwalk, hend⟩ := ih (offset + code.length)
    have hsize : part.1.size = code.length := by
      obtain ⟨opcode, bytes, rfl, -, hsize, -⟩ := encode_cases hcode
      exact hsize.symm
    rw [List.flatten_cons, walkFrom_encode hcode, endFrom_cons, hsize, hend, hwalk, List.length_append]
    exact ⟨rfl, Nat.add_assoc _ _ _⟩

/-- The operands of each instruction are found at its start, whatever code stands before. -/
theorem read_walkFrom (h : Encodes parts codes) (before : List UInt8) :
    ((walkFrom before.length codes.flatten).map fun visit =>
        (visit.2, visit.2.operands? ((before ++ codes.flatten).drop visit.1))) =
      parts.map fun part => (part.1, some part.2) := by
  induction h generalizing before with
  | nil =>
    rw [List.flatten_nil, walkFrom]
    rfl
  | @cons part code parts codes hcode _ ih =>
    have hrest := ih (before ++ code)
    rw [List.length_append, List.append_assoc] at hrest
    obtain ⟨opcode, bytes, rfl, -, -, hread⟩ := encode_cases hcode
    rw [List.flatten_cons, walkFrom_encode hcode, List.map_cons, List.map_cons, hrest, List.drop_left]
    rw [List.cons_append, hread]

theorem disassemble_flatten (h : Encodes parts codes) :
    disassemble codes.flatten = parts.map fun part => (part.1, some part.2) :=
  read_walkFrom h []

theorem length_walk (h : Encodes parts codes) : (walk codes.flatten).length = parts.length := by
  have hparts := congrArg List.length (disassemble_flatten h)
  rwa [disassemble, List.length_map, List.length_map] at hparts

theorem eq_of_flatten_eq {others : List (Instruction × List Operand)} {otherCodes : List (List UInt8)}
    (h : Encodes parts codes) (ho : Encodes others otherCodes)
    (heq : otherCodes.flatten = codes.flatten) : others = parts := by
  have hparts := disassemble_flatten ho
  rw [heq, disassemble_flatten h] at hparts
  refine ((List.map_inj_right fun x y hxy => ?_).mp hparts).symm
  obtain ⟨hi, hoperands⟩ := Prod.mk.inj hxy
  exact Prod.ext hi (Option.some.inj hoperands)

/-- The bytes of accepted instructions in a row are decoded in one way only: the walk visits them at the
starts of their encodings up to the end of the bytes, finds their operands, and no others have the same
bytes. -/
theorem walk_of_encodes (h : Encodes parts codes) :
    encodeAll parts = .ok codes.flatten ∧
    walk codes.flatten = (starts 0 codes).zip (parts.map Prod.fst) ∧
    endFrom 0 (walk codes.flatten) = codes.flatten.length ∧
    disassemble codes.flatten = parts.map (fun part => (part.1, some part.2)) ∧
    ∀ others otherCodes, Encodes others otherCodes → otherCodes.flatten = codes.flatten →
      others = parts := by
  obtain ⟨hwalk, hend⟩ := walkFrom_flatten h 0
  refine ⟨encodeAll_eq_ok_iff.mpr ⟨codes, h, rfl⟩, hwalk, ?_, disassemble_flatten h, ?_⟩
  · exact hend.trans (Nat.zero_add _)
  · exact fun others otherCodes ho heq => eq_of_flatten_eq h ho heq

theorem walk_of_encodes_loope :
    Encodes [(.loope, [.imm 3, .register .b, .addr 0x1234]), (.halt, [])]
      [[0x11, 0x03, 0x34, 0x12], [0xFF]] ∧
    walk [0x11, 0x03, 0x34, 0x12, 0xFF] = [(0, .loope), (4, .halt)] ∧
    disassemble [0x11, 0x03, 0x34, 0x12, 0xFF] =
      [(.loope, some [.imm 3, .register .b, .addr 0x1234]), (.halt, some [])] := by
  have h : Encodes [(.loope, [.imm 3, .register .b, .addr 0x1234]), (.halt, [])]
      [[0x11, 0x03, 0x34, 0x12], [0xFF]] := .cons rfl (.cons rfl .nil)
  obtain ⟨-, hwalk, -, hparts, -⟩ := walk_of_encodes h
  exact ⟨h, hwalk, hparts⟩

end Microcomputer.Instruction
