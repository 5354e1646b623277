import Microcomputer.Machine.Run
import Microcomputer.Proofs.Control.Address

/-!
# What a cycle changes

A cycle loads one sink, so most of the machine stays as it is. For every part that the course of an
instruction depends on, the lemmas say which sinks change it, and to what.
-/

namespace Microcomputer.Machine

variable {m : Machine} {c : Cycle}

/-- A write to memory changes nothing else, also where nothing can be written. -/
theorem exists_ram (m : Machine) (a : UInt16) (value : UInt8) :
    ∃ ram, m.writeMemory a value = { m with ram } := by
  unfold writeMemory
  split
  · exact ⟨m.ram, rfl⟩
  · exact ⟨_, rfl⟩

/-! ## Parts that stay -/

theorem store_advance : (m.advance c).store = m.store := by
  obtain ⟨ram, hram⟩ := m.countCycle.exists_ram c.target c.primary
  simp only [advance, load, hram]
  split <;> rfl

theorem boot_advance : (m.advance c).boot = m.boot := by
  obtain ⟨ram, hram⟩ := m.countCycle.exists_ram c.target c.primary
  simp only [advance, load, hram]
  split <;> rfl

theorem flags_advance (h : c.word.sink ≠ .aluT) : (m.advance c).flags = m.flags := by
  obtain ⟨ram, hram⟩ := m.countCycle.exists_ram c.target c.primary
  simp only [advance, load, hram]
  split <;> first | rfl | contradiction

theorem regs_advance (h : c.word.sink ≠ .abxy) : (m.advance c).regs = m.regs := by
  obtain ⟨ram, hram⟩ := m.countCycle.exists_ram c.target c.primary
  simp only [advance, load, hram]
  split <;> first | rfl | contradiction

theorem memory_advance (h : c.word.sink ≠ .ram) (a : UInt16) :
    (m.advance c).memory a = m.memory a := by
  unfold advance load
  split <;> first | rfl | contradiction

/-! ## Parts that change -/

theorem i_advance : (m.advance c).i = if c.word.sink = .i then c.primary else m.i := by
  obtain ⟨ram, hram⟩ := m.countCycle.exists_ram c.target c.primary
  simp only [advance, load, hram]
  split <;> simp_all [countTick, countCycle, latch]

theorem d_advance : (m.advance c).d = if c.word.sink = .d then c.primary else m.d := by
  obtain ⟨ram, hram⟩ := m.countCycle.exists_ram c.target c.primary
  simp only [advance, load, hram]
  split <;> simp_all [countTick, countCycle, latch]

theorem pc_advance : (m.advance c).pc =
    match c.word.sink with
    | .pc => m.pc.setHalf c.word.side c.primary
    | .pcPlus => m.pc.next
    | .advancePcResetCycle => m.pc.next
    | _ => m.pc := by
  obtain ⟨ram, hram⟩ := m.countCycle.exists_ram c.target c.primary
  simp only [advance, load, hram]
  split <;> simp_all [countTick, countCycle, latch]

theorem sp_advance : (m.advance c).sp =
    match c.word.sink with
    | .sp => m.loadSp c.word.side c.primary
    | .spPlus => { m.sp with low := m.sp.low + 1 }
    | .spMinus => { m.sp with low := m.sp.low - 1 }
    | _ => m.sp := by
  obtain ⟨ram, hram⟩ := m.countCycle.exists_ram c.target c.primary
  simp only [advance, load, hram]
  split <;> simp_all [countTick, countCycle, latch, loadSp]

theorem maxSp_advance : (m.advance c).maxSp =
    if c.word.sink = .spPlus then max m.maxSp (m.advance c).sp.value else m.maxSp := by
  rw [sp_advance]
  obtain ⟨ram, hram⟩ := m.countCycle.exists_ram c.target c.primary
  simp only [advance, load, hram]
  split <;> simp_all [countTick, countCycle, latch]

theorem input_advance : (m.advance c).input = clocked (m.ticks + 1) m.input := by
  obtain ⟨ram, hram⟩ := m.countCycle.exists_ram c.target c.primary
  simp only [advance, load, hram]
  split <;> rfl

theorem activeFlags_advance (hi : c.word.sink ≠ .i) (ht : c.word.sink ≠ .aluT) :
    (m.advance c).activeFlags = m.activeFlags := by
  simp only [activeFlags, flagBank, flags_advance ht, i_advance, hi, if_false]

/-- A step of the arithmetic logic unit leaves its result in T and in the flags of the instruction. -/
theorem latch_advance (h : c.word.sink = .aluT) :
    (m.advance c).t = (Alu.byte c.primary c.side c.word.select c.word.logic c.word.carryIn).value ∧
      (m.advance c).activeFlags.zero =
        (Alu.byte c.primary c.side c.word.select c.word.logic c.word.carryIn).zero := by
  simp only [advance, countTick, load, countCycle, h, latch, activeFlags, flagBank,
    FlagBanks.get_set, if_true, and_self]

end Microcomputer.Machine
