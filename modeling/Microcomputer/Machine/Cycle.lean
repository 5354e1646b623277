import Microcomputer.Alu.Byte
import Microcomputer.Machine.State

/-!
# One cycle

In a cycle the machine reads the control word of its opcode, cycle and flags, puts bytes on the buses
and loads one sink. Reading comes before loading, so a cycle is what the buses carry followed by the
state that this leads to.
-/

namespace Microcomputer

/-- What a cycle reads: the address and the word in the control store, the bytes on the primary and the
side bus and the address on the address bus. -/
structure Cycle where
  address : Control.Address
  word : Control.Word
  primary : UInt8
  side : UInt8
  target : UInt16
deriving DecidableEq, Repr

/-- The byte that a cycle sends to the output register. -/
def Cycle.output? (c : Cycle) : Option UInt8 :=
  match c.word.sink with
  | .out => some c.primary
  | _ => none

namespace Machine

/-! ## Reading -/

/-- The address of the next control word. -/
def wordAddress (m : Machine) : Control.Address :=
  Control.address m.i m.cycle m.activeFlags.carry m.activeFlags.zero

/-- The register that drives the primary bus. It is in the low field of the opcode, and in the high
field if the low one names the register to load. -/
def sourceRegister (m : Machine) (word : Control.Word) : Register :=
  match word.sink with
  | .abxy => .ofBits (m.i.toNat / 4)
  | _ => .ofBits m.i.toNat

/-- The byte on the primary bus. -/
def primary (m : Machine) (word : Control.Word) (target : UInt16) : UInt8 :=
  match word.source with
  | .abxy => m.regs.get (m.sourceRegister word)
  | .d => m.d
  | .input => m.input
  | .t => m.t
  | .ram => m.memory target
  | .pc => m.pc.half word.side
  | .sp => m.sp.half word.side
  | .bp => m.bp.half word.side

/-- The byte on the side bus: D, or the register A or B in the high field of the opcode. -/
def side (m : Machine) (word : Control.Word) : UInt8 :=
  match word.side with
  | .ab => m.regs.get (.ofBits (m.i.toNat / 4 % 2))
  | .d => m.d

/-- What the next cycle reads. -/
def sense (m : Machine) : Cycle :=
  let address := m.wordAddress
  let word := m.store.word address
  let target := (m.pair word.pointer).value
  { address, word, primary := m.primary word target, side := m.side word, target }

/-! ## Loading -/

/-- The high byte of the stack pointer has these bits always set. -/
def stackBase : UInt8 := (RegisterPair.ofValue stackAddress).high

/-- The stack pointer with another value in one half. -/
def loadSp (m : Machine) (side : Control.Side) (value : UInt8) : RegisterPair :=
  m.sp.setHalf side (if side.isLow then value else stackBase ||| value)

/-- The machine with a result of the arithmetic logic unit in T and in the flags of its bank. -/
def latch (m : Machine) (result : Alu.Result UInt8) : Machine :=
  { m with
    t := result.value
    flags := m.flags.set m.flagBank { carry := result.carry, zero := result.zero } }

/-- The machine after the sink of a cycle is loaded. -/
def load (m : Machine) (c : Cycle) : Machine :=
  match c.word.sink with
  | .none => m
  | .abxy => { m with regs := m.regs.set (.ofBits m.i.toNat) c.primary }
  | .d => { m with d := c.primary }
  | .out => { m with out := c.primary }
  | .aluT => m.latch (Alu.byte c.primary c.side c.word.select c.word.logic c.word.carryIn)
  | .resetCycle => { m with cycle := 0 }
  | .i => { m with i := c.primary }
  | .ram => m.writeMemory c.target c.primary
  | .pc => { m with pc := m.pc.setHalf c.word.side c.primary }
  | .sp => { m with sp := m.loadSp c.word.side c.primary }
  | .bp => { m with bp := m.bp.setHalf c.word.side c.primary }
  | .ma => { m with ma := m.ma.setHalf c.word.side c.primary }
  | .pcPlus => { m with pc := m.pc.next }
  | .spPlus =>
    let sp := { m.sp with low := m.sp.low + 1 }
    { m with sp, maxSp := max m.maxSp sp.value }
  | .spMinus => { m with sp := { m.sp with low := m.sp.low - 1 } }
  | .advancePcResetCycle => { m with pc := m.pc.next, cycle := 0 }

/-- The machine with its word counter one on. -/
def countCycle (m : Machine) : Machine :=
  { m with cycle := m.cycle + 1 }

/-- The input register after a number of ticks: the clock line changes at every full interval. -/
def clocked (ticks : Nat) (input : UInt8) : UInt8 :=
  if ticks % clockTicks = 0 then input ^^^ InputLines.clockBit else input

/-- The machine one tick later. -/
def countTick (m : Machine) : Machine :=
  { m with ticks := m.ticks + 1, input := clocked (m.ticks + 1) m.input }

/-- The machine after a cycle that read this. -/
def advance (m : Machine) (c : Cycle) : Machine :=
  (m.countCycle.load c).countTick

/-- The machine after its next cycle. -/
def tick (m : Machine) : Machine :=
  m.advance m.sense

/-! ## Counters -/

theorem cycle_writeMemory (m : Machine) (a : UInt16) (value : UInt8) :
    (m.writeMemory a value).cycle = m.cycle := by
  unfold writeMemory
  split <;> rfl

theorem ticks_writeMemory (m : Machine) (a : UInt16) (value : UInt8) :
    (m.writeMemory a value).ticks = m.ticks := by
  unfold writeMemory
  split <;> rfl

theorem cycle_latch (m : Machine) (result : Alu.Result UInt8) : (m.latch result).cycle = m.cycle := rfl

theorem ticks_latch (m : Machine) (result : Alu.Result UInt8) : (m.latch result).ticks = m.ticks := rfl

theorem cycle_load (m : Machine) (c : Cycle) :
    (m.load c).cycle = if c.word.sink.endsInstruction then 0 else m.cycle := by
  unfold load
  split <;> simp_all [Control.Sink.endsInstruction, cycle_writeMemory, cycle_latch]

theorem ticks_load (m : Machine) (c : Cycle) : (m.load c).ticks = m.ticks := by
  unfold load
  split <;> simp_all [ticks_writeMemory, ticks_latch]

/-- A cycle that does not end the instruction counts one on. -/
theorem cycle_advance (m : Machine) (c : Cycle) :
    (m.advance c).cycle = if c.word.sink.endsInstruction then 0 else m.cycle + 1 := by
  simp only [advance, countTick, cycle_load, countCycle]

theorem ticks_advance (m : Machine) (c : Cycle) : (m.advance c).ticks = m.ticks + 1 := by
  simp only [advance, countTick, ticks_load, countCycle]

end Machine

end Microcomputer
