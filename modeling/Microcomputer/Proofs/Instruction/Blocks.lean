import Microcomputer.Instruction.Encoding
import Microcomputer.Microcode.Routine

/-!
# Blocks of opcodes

The blocks of the instructions lie within the 256 opcodes, no two of them overlap and together they
leave none out, so an opcode is decoded to the one instruction that owns it.
-/

namespace Microcomputer

namespace Instruction

variable {i j : Instruction} {opcode : UInt8}

/-! ## All instructions -/

theorem mem_members (i : Instruction) : i ∈ (Vocabulary.members : List Instruction) := by
  cases i <;> decide

instance decidableForall (P : Instruction → Prop) [DecidablePred P] : Decidable (∀ i, P i) :=
  decidable_of_iff (∀ i ∈ (Vocabulary.members : List Instruction), P i)
    ⟨fun h i => h i (mem_members i), fun h i _ => h i⟩

/-- A property of all bytes can be evaluated, by the two digits of each. -/
theorem forall_byte {P : UInt8 → Prop} (h : ∀ high < 16, ∀ low < 16, P (.ofNat (16 * high + low)))
    (value : UInt8) : P value := by
  have hlt := value.toNat_lt
  have hvalue := h (value.toNat / 16) (by omega) (value.toNat % 16) (by omega)
  rwa [Nat.div_add_mod, UInt8.ofNat_toNat] at hvalue

/-! ## Owners -/

theorem block_le (i : Instruction) : i.opcode.toNat + i.blockWidth ≤ 256 := by
  revert i
  decide

theorem blocks_disjoint (i j : Instruction) : i = j ∨
    i.opcode.toNat + i.blockWidth ≤ j.opcode.toNat ∨ j.opcode.toNat + j.blockWidth ≤ i.opcode.toNat := by
  revert i j
  decide +kernel

theorem owns_iff : i.owns opcode ↔
    i.opcode.toNat ≤ opcode.toNat ∧ opcode.toNat < i.opcode.toNat + i.blockWidth := by
  simp only [owns, Bool.and_eq_true, decide_eq_true_eq, UInt8.le_iff_toNat_le]

theorem owns_unique (hi : i.owns opcode) (hj : j.owns opcode) : i = j := by
  rw [owns_iff] at hi hj
  rcases blocks_disjoint i j with h | h | h
  · exact h
  · omega
  · omega

theorem opcode_of_owns (h : i.owns opcode) (hwidth : i.blockWidth = 1) : opcode = i.opcode := by
  rw [owns_iff, hwidth] at h
  exact UInt8.toNat_inj.mp (by omega)

/-- The flag bank that the opcodes of the instruction select, bank 1 for true. -/
def bank (i : Instruction) : Bool :=
  i.opcode &&& flagBankBit != 0

theorem bank_of_owns (h : i.owns opcode) : (opcode &&& flagBankBit != 0) = i.bank := by
  have hbit : ∀ opcode : UInt8, (opcode &&& flagBankBit != 0) = decide (128 ≤ opcode.toNat) :=
    forall_byte (by decide)
  have hside : ∀ i : Instruction, i.opcode.toNat + i.blockWidth ≤ 128 ∨ 128 ≤ i.opcode.toNat := by
    decide
  rw [owns_iff] at h
  rw [bank, hbit, hbit, decide_eq_decide]
  rcases hside i with hi | hi <;> omega

theorem owns_of_decode (h : decode opcode = some i) : i.owns opcode :=
  List.find?_some (p := fun i : Instruction => i.owns opcode) h

theorem exists_decode (opcode : UInt8) : ∃ i, decode opcode = some i := by
  have h : ∀ opcode, (decode opcode).isSome := forall_byte (by decide)
  exact Option.isSome_iff_exists.mp (h opcode)

theorem exists_owner (opcode : UInt8) : ∃ i : Instruction, i.owns opcode :=
  (exists_decode opcode).imp fun _ => owns_of_decode

theorem decode_eq_some_iff : decode opcode = some i ↔ i.owns opcode := by
  constructor
  · exact owns_of_decode
  · intro hi
    obtain ⟨j, hj⟩ := exists_decode opcode
    rw [hj, owns_unique hi (owns_of_decode hj)]

end Instruction

namespace Microcode

open Instruction

variable {i : Instruction} {opcode : UInt8}

theorem mem_opcodes_iff {block : Block} (h : block.first.toNat + block.width ≤ 256) :
    opcode ∈ block.opcodes ↔
      block.first.toNat ≤ opcode.toNat ∧ opcode.toNat < block.first.toNat + block.width := by
  simp only [Block.opcodes, List.mem_map, List.mem_range]
  constructor
  · rintro ⟨k, hk, rfl⟩
    simp only [UInt8.toNat_add, UInt8.toNat_ofNat']
    omega
  · rintro ⟨hle, hlt⟩
    refine ⟨opcode.toNat - block.first.toNat, by omega, UInt8.toNat_inj.mp ?_⟩
    simp only [UInt8.toNat_add, UInt8.toNat_ofNat']
    omega

theorem mem_opcodes_blockOf : opcode ∈ (blockOf i).opcodes ↔ i.owns opcode := by
  rw [mem_opcodes_iff i.block_le, owns_iff]
  rfl

theorem mem_opcodes_singleton {first : UInt8} :
    opcode ∈ (⟨first, 1⟩ : Block).opcodes ↔ opcode = first := by
  have h := first.toNat_lt
  rw [mem_opcodes_iff (by simp only; omega), ← UInt8.toNat_inj]
  simp only
  omega

end Microcode

end Microcomputer
