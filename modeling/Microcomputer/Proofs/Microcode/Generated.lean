import Microcomputer.Machine.Registers
import Microcomputer.Proofs.Microcode.Compilation

/-!
# The generated control store

The microcode table is accepted, and its builder has for every instruction and all flags the steps of one
routine, at all opcodes of the instruction alike.
-/

namespace Microcomputer.Microcode

open Control (Word)
open Instruction

/-! ## The table -/

/-- The routine of an instruction under given flags. -/
def routine (i : Instruction) (flags : Flags) : Routine :=
  (table.find? fun r => r.instruction == i && r.admits flags.carry flags.zero).getD noOperation

/-- The control words of an instruction under given flags. -/
def words (i : Instruction) (flags : Flags) : List Word :=
  (routine i flags).steps.map Step.word

instance decidableForallFlags (P : Flags → Prop) [DecidablePred P] : Decidable (∀ flags, P flags) :=
  decidable_of_iff (∀ carry zero, P ⟨carry, zero⟩) ⟨fun h flags => h flags.carry flags.zero,
    fun h carry zero => h ⟨carry, zero⟩⟩

theorem table_fits : ∀ r ∈ table, r.placed.Fits := by
  decide

theorem table_disjoint : (table.map Routine.placed).Pairwise Placement.Disjoint := by
  refine List.pairwise_map.mpr (List.Pairwise.imp disjoint_placed ?_)
  decide

theorem table_ne_nop : ∀ r ∈ table, r.instruction ≠ .nop := by
  decide

theorem exists_mem_table (i : Instruction) (flags : Flags) :
    i = .nop ∨ ∃ r ∈ table, r.instruction = i ∧ r.admits flags.carry flags.zero := by
  revert i flags
  decide +kernel

/-- The routine of an instruction is the only one of the table that admits the flags. -/
theorem routine_eq : ∀ r ∈ table, ∀ flags : Flags, r.admits flags.carry flags.zero →
    routine r.instruction flags = r := by
  decide +kernel

theorem routine_nop (flags : Flags) : routine .nop flags = noOperation := by
  revert flags
  decide

theorem routine_mem (i : Instruction) (flags : Flags) : routine i flags ∈ noOperation :: table := by
  rcases exists_mem_table i flags with rfl | ⟨r, hr, rfl, ha⟩
  · rw [routine_nop]
    exact List.mem_cons_self
  · rw [routine_eq r hr flags ha]
    exact List.mem_cons_of_mem _ hr

theorem instruction_routine (i : Instruction) (flags : Flags) : (routine i flags).instruction = i := by
  rcases exists_mem_table i flags with rfl | ⟨r, hr, rfl, ha⟩
  · rw [routine_nop]
    rfl
  · rw [routine_eq r hr flags ha]

theorem admits_routine (i : Instruction) (flags : Flags) :
    (routine i flags).admits flags.carry flags.zero := by
  rcases exists_mem_table i flags with rfl | ⟨r, hr, rfl, ha⟩
  · rw [routine_nop]
    rfl
  · rw [routine_eq r hr flags ha]
    exact ha

/-! ## The builder of the table -/

/-- The finished builder of the table. -/
def generated : Builder :=
  generate.toOption.getD .fresh

theorem exists_generate : ∃ b filled : Builder, b.Holds (table.map Routine.placed) ∧
    filled.Holds (table.map Routine.placed ++ b.freeOpcodes.map noOperationAt) ∧
      generate = .ok filled.settle := by
  obtain ⟨b, hb⟩ := exists_addAll_iff.mpr ⟨table_fits, table_disjoint⟩
  have hholds := holds_of_addAll hb
  obtain ⟨filled, hfinal, hfilled⟩ := hholds.exists_finalize
  have hgen : generate = .ok filled.settle := by
    unfold generate
    rw [bind_eq_ok_iff]
    exact ⟨b, hb, hfinal⟩
  exact ⟨b, filled, hholds, hfilled, hgen⟩

theorem generated_eq {b : Builder} (h : generate = .ok b) : generated = b := by
  rw [generated, h]
  rfl

theorem generate_eq : generate = .ok generated := by
  obtain ⟨b, filled, -, -, h⟩ := exists_generate
  rw [generated_eq h, h]

/-- The generated store has at every opcode of an instruction the steps of its routine. -/
theorem slot_generated {i : Instruction} {opcode : UInt8} {cycle : Nat} (ho : i.owns opcode)
    (flags : Flags) (hc : cycle < cycleCount) :
    generated.slot (Control.address opcode (.ofNat cycle) flags.carry flags.zero) =
      (((routine i flags).steps[cycle]?).map fun s => Slot.word
        { word := s.word, instruction := i, step := cycle, origin := s.origin }).getD .idle := by
  obtain ⟨b, filled, hb, hf, h⟩ := exists_generate
  rw [generated_eq h]
  have hfree (hn : i = .nop) : opcode ∈ b.freeOpcodes := by
    rw [Builder.mem_freeOpcodes, isAssigned_iff hb, List.any_eq_true]
    rintro ⟨r, hr, hro⟩
    exact table_ne_nop r hr ((owns_unique hro ho).trans hn)
  -- the routine is placed in the row that the builder holds, and nothing else there covers the opcode
  have hplaced : ∃ p ∈ table.map Routine.placed ++ b.freeOpcodes.map noOperationAt,
      p.routine = routine i flags ∧ opcode ∈ p.block.opcodes := by
    rcases exists_mem_table i flags with hn | ⟨r, hr, rfl, ha⟩
    · refine ⟨noOperationAt opcode, List.mem_append_right _ (List.mem_map_of_mem (hfree hn)), ?_⟩
      rw [hn, routine_nop]
      exact ⟨rfl, mem_opcodes_singleton.mpr rfl⟩
    · refine ⟨r.placed, List.mem_append_left _ (List.mem_map_of_mem hr), ?_⟩
      rw [routine_eq r hr flags ha]
      exact ⟨rfl, mem_opcodes_blockOf.mpr ho⟩
  have honly : ∀ q ∈ table.map Routine.placed ++ b.freeOpcodes.map noOperationAt,
      q.Covers opcode cycle flags.carry flags.zero → q.routine = routine i flags := by
    intro q hq hcov
    rcases List.mem_append.mp hq with hq | hq
    · obtain ⟨r, hr, rfl⟩ := List.mem_map.mp hq
      rw [← owns_unique (mem_opcodes_blockOf.mp hcov.1) ho, routine_eq r hr flags hcov.2.1]
      rfl
    · obtain ⟨o, hfo, rfl⟩ := List.mem_map.mp hq
      obtain ⟨rfl, -⟩ := covers_noOperationAt.mp hcov
      rcases exists_mem_table i flags with hn | ⟨r, hr, rfl, -⟩
      · rw [hn, routine_nop]
        rfl
      · refine absurd ?_ (Builder.mem_freeOpcodes.mp hfo)
        exact (isAssigned_iff hb).mpr (List.any_eq_true.mpr ⟨r, hr, ho⟩)
  cases hs : (routine i flags).steps[cycle]? with
  | none =>
    refine hf.slot_settle_of_not_covers hc fun q hq hcov => ?_
    have hlt := hcov.2.2
    rw [honly q hq hcov] at hlt
    simp [List.getElem?_eq_getElem hlt] at hs
  | some s =>
    obtain ⟨p, hp, hr, hop⟩ := hplaced
    refine hf.slot_settle_of_mem hc hp (Placement.entryAt_eq_some_iff.mpr ⟨⟨hop, ?_, ?_⟩, s, ?_, ?_⟩)
    · rw [hr]
      exact admits_routine i flags
    · rw [hr]
      exact (List.getElem?_eq_some_iff.mp hs).1
    · rw [hr, hs]
    · rw [hr, instruction_routine]

theorem word_generated {i : Instruction} {opcode : UInt8} {cycle : Nat} (ho : i.owns opcode)
    (flags : Flags) (hc : cycle < cycleCount) :
    generated.store.word (Control.address opcode (.ofNat cycle) flags.carry flags.zero) =
      ((words i flags)[cycle]?).getD .idle := by
  rw [Builder.word_store, slot_generated ho flags hc, words, List.getElem?_map]
  cases (routine i flags).steps[cycle]? <;> rfl

end Microcomputer.Microcode
