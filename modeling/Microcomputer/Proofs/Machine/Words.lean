import Microcomputer.Proofs.Machine.Execution

/-!
# What the words of the table do

Every word of the microcode table updates a few parts of the machine and takes one tick. An instruction
is then an update of the machine as well, which evaluation of its words one after the other gives.
-/

namespace Microcomputer.Machine

open Control.Word (transfer arith)
open Microcode

/-! ## Memory -/

/-- The memory after a write, which has no effect on the bootstrap region. -/
def stored (ram : Vector UInt8 memorySize) (a : UInt16) (value : UInt8) : Vector UInt8 memorySize :=
  if a.toNat < bootSize then ram else ram.setIfInBounds (location a) value

theorem writeMemory_eq (m : Machine) (a : UInt16) (value : UInt8) :
    m.writeMemory a value = { m with ram := stored m.ram a value } := by
  have hset : m.ram.set (location a) value = m.ram.setIfInBounds (location a) value :=
    Vector.ext fun i hi => by rw [Vector.getElem_set, Vector.getElem_setIfInBounds]
  unfold writeMemory stored
  rw [hset]
  split <;> rfl

theorem memory_congr {m n : Machine} (hboot : m.boot = n.boot) (hram : m.ram = n.ram) :
    m.memory = n.memory := by
  funext a
  simp only [memory, hboot, hram]

/-! ## Fetching and stepping -/

variable (m : Machine)

theorem perform_fetch : m.perform fetch = { m.elapse 1 with i := m.memory m.pc.value } := rfl

theorem perform_stepPc : m.perform stepPc = { m.elapse 1 with pc := m.pc.next } := rfl

theorem perform_loadD : m.perform loadD = { m.elapse 1 with d := m.memory m.pc.value } := rfl

theorem perform_advance :
    m.perform Microcode.advance = { m.elapse 1 with pc := m.pc.next, cycle := 0 } := rfl

theorem perform_finish : m.perform Microcode.finish = { m.elapse 1 with cycle := 0 } := rfl

theorem perform_jumpHigh : m.perform (high (transfer .ram .pc)) =
    { m.elapse 1 with pc := { m.pc with high := m.memory m.pc.value } } := rfl

theorem perform_jumpLow : m.perform (low (transfer .d .pc)) =
    { m.elapse 1 with pc := { m.pc with low := m.d } } := rfl

theorem perform_write {w : Control.Word} (h : w.sink = .ram) : m.perform w =
    { m.elapse 1 with ram := stored m.ram (m.reading w).target (m.reading w).primary } := by
  obtain ⟨source, sink, side, pointer, select, logic, carryIn⟩ := w
  cases h
  exact congrArg countTick (m.writeMemory_eq _ _)

/-! ## The arithmetic logic unit -/

theorem perform_keepResult : m.perform keepResult =
    { m.elapse 1 with regs := m.regs.set (.ofBits m.i.toNat) m.t } := rfl

@[simp] theorem activeFlags_latch (result : Alu.Result UInt8) :
    (m.latch result).activeFlags = ⟨result.carry, result.zero⟩ :=
  m.flags.get_set_self m.flagBank _

@[simp] theorem latch_latch (result result' : Alu.Result UInt8) :
    (m.latch result).latch result' = m.latch result' :=
  congrArg (fun flags => { m with t := result'.value, flags }) (m.flags.set_set m.flagBank _ _)

end Microcomputer.Machine
