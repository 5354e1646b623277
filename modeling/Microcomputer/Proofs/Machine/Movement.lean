import Microcomputer.Instruction.Assembly
import Microcomputer.Proofs.Machine.Frames
import Microcomputer.Proofs.Machine.Transfers

/-!
# Moving data

Lines that move data between the registers, memory and the input and output registers. Each makes the
transfer that it names and no other. Where a line has several instructions, they hand bytes on in D and MA
and a carry in the flags of bank 0.
-/

namespace Microcomputer

open Control (Word)
open Control.Word (transfer arith)
open Instruction
open Microcode

/-- The lines that move data. -/
inductive Movement where
  | mov (r s : Register)
  | movImm (v : UInt8) (r : Register)
  | ld (a : UInt16) (r : Register)
  | st (r : Register) (a : UInt16)
  | stImm (v : UInt8) (a : UInt16)
  | ldp (r : Register)
  | stp (r : Register)
  | stpImm (v : UInt8)
  | input (r : Register)
  | out (r : Register)
  | outImm (v : UInt8)
  | xchg (r s : Register)
  | xchgMem (a : UInt16) (r : Register)
  | gp (a : UInt16)
  | ldpo (v : UInt8) (r : Register)
  | stpo (r : Register) (v : UInt8)
deriving DecidableEq, Repr

namespace Movement

/-- The mnemonic and the operands of the line. -/
def line : Movement → String × List Operand
  | mov r s => ("mov", [.register r, .register s])
  | movImm v r => ("mov", [.imm v, .register r])
  | ld a r => ("ld", [.addr a, .register r])
  | st r a => ("st", [.register r, .addr a])
  | stImm v a => ("st", [.imm v, .addr a])
  | ldp r => ("ldp", [.register r])
  | stp r => ("stp", [.register r])
  | stpImm v => ("stp", [.imm v])
  | input r => ("in", [.register r])
  | out r => ("out", [.register r])
  | outImm v => ("out", [.imm v])
  | xchg r s => ("xchg", [.register r, .register s])
  | xchgMem a r => ("xchg", [.addr a, .register r])
  | gp a => ("gp", [.addr a])
  | ldpo v r => ("ldpo", [.imm v, .register r])
  | stpo r v => ("stpo", [.register r, .imm v])

/-- The instructions of the line. -/
def parts : Movement → List (Instruction × List Operand)
  | mov r s => [(.movReg, [.register r, .register s])]
  | movImm v r => [(.movImm, [.imm v, .register r])]
  | ld a r => [(.ld, [.addr a, .register r])]
  | st r a => [(.stReg, [.register r, .addr a])]
  | stImm v a => [(.stImm, [.imm v, .addr a])]
  | ldp r => [(.ldp, [.register r])]
  | stp r => [(.stpReg, [.register r])]
  | stpImm v => [(.stpImm, [.imm v])]
  | input r => [(.input, [.register r])]
  | out r => [(.outReg, [.register r])]
  | outImm v => [(.outImm, [.imm v])]
  | xchg r s => [(.xchgReg, [.register r, .register s]), (.xchgRegFinish, [.register r])]
  | xchgMem a r => [(.xchgMem, [.addr a, .register r])]
  | gp a => [(.gpLow, [.addr a]), (.gpHigh, [])]
  | ldpo v r => [(.pairOffsetLow, [.imm v]), (.pairOffsetHigh, []), (.loadPairOffset, [.register r])]
  | stpo r v => [(.pairOffsetLow, [.imm v]), (.pairOffsetHigh, []), (.storePairOffset, [.register r])]

theorem assemble_line (v : Movement) : assemble v.line.1 v.line.2 = encodeAll v.parts := by
  cases v <;> rfl

/-- The line adds a byte to the pair of Y and X, for which it needs the flags. -/
def addsOffset : Movement → Bool
  | ldpo _ _ | stpo _ _ => true
  | _ => false

/-- The transfer that the line names. An input is read in the second cycle. -/
def transfer (m : Machine) : Movement → Transfer
  | mov r s => { regs := m.regs.set s (m.regs.get r) }
  | movImm v r => { regs := m.regs.set r v }
  | ld a r => { regs := m.regs.set r (m.memory a) }
  | st r a => { regs := m.regs, writes := [(a, m.regs.get r)] }
  | stImm v a => { regs := m.regs, writes := [(a, v)] }
  | ldp r => { regs := m.regs.set r (m.memory m.xy.value) }
  | stp r => { regs := m.regs, writes := [(m.xy.value, m.regs.get r)] }
  | stpImm v => { regs := m.regs, writes := [(m.xy.value, v)] }
  | input r => { regs := m.regs.set r (m.elapse 1).input }
  | out r => { regs := m.regs, sent := [m.regs.get r] }
  | outImm v => { regs := m.regs, sent := [v] }
  | xchg r s => { regs := (m.regs.set s (m.regs.get r)).set r (m.regs.get s) }
  | xchgMem a r => { regs := m.regs.set r (m.memory a), writes := [(a, m.regs.get r)] }
  | gp a => { regs := { m.regs with x := (RegisterPair.ofValue a).low, y := (RegisterPair.ofValue a).high } }
  | ldpo v r => { regs := m.regs.set r (m.memory (m.xy.value + v.toUInt16)) }
  | stpo r v => { regs := m.regs, writes := [(m.xy.value + v.toUInt16, m.regs.get r)] }

end Movement

namespace Machine

variable {m : Machine} {i : Instruction} {r s : Register} {v : UInt8} {a : UInt16} {w : Word}

/-! ## Words -/

section

variable (m : Machine)

theorem perform_register (h : w.sink = .abxy) : m.perform w =
    { m.elapse 1 with regs := m.regs.set (.ofBits m.i.toNat) (m.reading w).primary } := by
  obtain ⟨source, sink, side, pointer, select, logic, carryIn⟩ := w
  cases h
  rfl

theorem perform_addressLow : m.perform (low (transfer .ram .ma)) =
    { m.elapse 1 with ma := { m.ma with low := m.memory m.pc.value } } := rfl

theorem perform_addressHigh : m.perform (high (transfer .ram .ma)) =
    { m.elapse 1 with ma := { m.ma with high := m.memory m.pc.value } } := rfl

theorem perform_offsetLow : m.perform (arith .abxy .d .aPlusB false) =
    (m.latch (Alu.byte (m.regs.get (.ofBits m.i.toNat)) m.d Alu.Arith.aPlusB.select false false)).elapse 1 :=
  rfl

theorem perform_offsetHigh (carryIn : Bool) : m.perform (arith .abxy .ab .a carryIn) =
    (m.latch (Alu.byte (m.regs.get (.ofBits m.i.toNat)) (m.side (arith .abxy .ab .a carryIn))
      Alu.Arith.a.select false carryIn)).elapse 1 := rfl

theorem perform_sumLow : m.perform (low (transfer .t .ma)) =
    { m.elapse 1 with ma := { m.ma with low := m.t } } := rfl

theorem perform_sumHigh : m.perform (high (transfer .t .ma)) =
    { m.elapse 1 with ma := { m.ma with high := m.t } } := rfl

end

/-! ## The word that moves the data -/

/-- The words that bring the address after the opcode to MA. -/
def addressWords : List Word :=
  [stepPc, low (transfer .ram .ma), stepPc, high (transfer .ram .ma)]

theorem makes_short (ht : Track i (fixed [w, Microcode.advance])) (hw : w.sink.moves)
    (hm : m.AtBoundary) (hi : i.owns (m.memory m.pc.value)) :
    m.Makes ((m.perform fetch).transferOf w) 1 := by
  have hrow : Track i (fixed ([] ++ w :: [Microcode.advance])) := ht
  have hmakes := makes_of_word hrow hw (by decide) hm hi
  simp only [follow, fixed, List.map, List.foldl] at hmakes
  exact hmakes

theorem makes_afterByte (ht : Track i (fixed ([stepPc] ++ w :: [Microcode.advance]))) (hw : w.sink.moves)
    (hm : m.AtBoundary) (hi : i.owns (m.memory m.pc.value)) : m.Makes
      ({ m.elapse 2 with i := m.memory m.pc.value, pc := m.pc.next }.transferOf w) 1 := by
  have hmakes := makes_of_word ht hw (by decide) hm hi
  simp only [follow, fixed, List.map, List.foldl, perform_fetch, perform_stepPc, elapse] at hmakes
  exact hmakes

theorem makes_afterAddress (ht : Track i (fixed (addressWords ++ w :: [Microcode.advance])))
    (hw : w.sink.moves) (hm : m.AtBoundary) (hi : i.owns (m.memory m.pc.value)) : m.Makes
      ({ m.elapse 5 with
        i := m.memory m.pc.value
        pc := m.pc.next.next
        ma := ⟨m.memory m.pc.next.value, m.memory m.pc.next.next.value⟩ }.transferOf w) 1 := by
  have hmakes := makes_of_word ht hw (by decide) hm hi
  simp only [follow, fixed, addressWords, List.map, List.foldl, perform_fetch, perform_stepPc,
    perform_addressLow, perform_addressHigh, elapse, memory] at hmakes ⊢
  exact hmakes

/-! ## Registers -/

theorem makes_movReg (hm : m.AtBoundary) (h : m.Executes movReg [.register r, .register s]) :
    m.Makes { regs := m.regs.set s (m.regs.get r) } 1 := by
  have htrack : Track movReg (fixed [transfer .abxy .abxy, Microcode.advance]) := by
    decide
  cases h.wideRegisters rfl
  exact makes_short htrack rfl hm h.owns

theorem makes_movImm (hm : m.AtBoundary) (h : m.Executes movImm [.imm v, .register r]) :
    m.Makes { regs := m.regs.set r v } 1 := by
  have htrack : Track movImm (fixed [stepPc, transfer .ram .abxy, Microcode.advance]) := by
    decide
  cases h.immRegister rfl
  exact makes_afterByte htrack rfl hm h.owns

/-- The first half of an exchange leaves the old value of its second register in D. -/
theorem makes_xchgReg (hm : m.AtBoundary) (h : m.Executes xchgReg [.register r, .register s]) :
    m.Makes { regs := m.regs.set s (m.regs.get r) } 1 ∧ m.stepped.d = m.regs.get s := by
  have htrack : Track xchgReg
      (fixed ([transfer .abxy .d] ++ transfer .abxy .abxy :: [Microcode.advance])) := by
    decide
  have hkeep (m : Machine) : m.perform (transfer .abxy .d) =
      { m.elapse 1 with d := m.regs.get (.ofBits m.i.toNat) } := rfl
  cases h.wideRegisters rfl
  constructor
  · have hmakes := makes_of_word htrack rfl (by decide) hm h.owns
    simp only [follow, fixed, List.map, List.foldl, perform_fetch, hkeep, elapse] at hmakes
    exact hmakes
  · rw [stepped_eq_follow htrack hm h.owns]
    rfl

/-- The second half of an exchange and that of `gp` take the byte that waits in D. -/
theorem makes_takeD (ht : Track i (fixed [transfer .d .abxy, Microcode.advance])) (hm : m.AtBoundary)
    (hi : i.owns (m.memory m.pc.value)) :
    m.Makes { regs := m.regs.set (.ofBits (m.memory m.pc.value).toNat) m.d } 1 :=
  makes_short ht rfl hm hi

theorem makes_xchg (hm : m.AtBoundary) (h : m.Executes xchgReg [.register r, .register s])
    (hfinish : m.stepped.Executes xchgRegFinish [.register r]) :
    m.Makes { regs := (m.regs.set s (m.regs.get r)).set r (m.regs.get s) } 2 := by
  obtain ⟨hfirst, hd⟩ := makes_xchgReg hm h
  obtain ⟨hr, -⟩ := List.cons.inj (hfinish.register rfl)
  have hsecond := makes_takeD (by decide) hm.stepped hfinish.owns
  rw [hfirst.regs, hd, ← Operand.register.inj hr] at hsecond
  exact hfirst.trans hsecond

/-- The first half of `gp` has X in its opcode, and leaves the high byte in D. -/
theorem makes_gpLow (hm : m.AtBoundary) (h : m.Executes gpLow [.addr a]) :
    m.Makes { regs := m.regs.set .x (RegisterPair.ofValue a).low } 1 ∧
      m.stepped.d = (RegisterPair.ofValue a).high := by
  have htrack : Track gpLow
      (fixed ([stepPc] ++ transfer .ram .abxy :: [stepPc, loadD, Microcode.advance])) := by
    decide
  have hload (m : Machine) := m.perform_register (w := transfer .ram .abxy) rfl
  have hx : Register.ofBits (m.memory m.pc.value).toNat = .x := by
    rw [opcode_of_owns h.owns rfl]
    rfl
  rw [← h.addr rfl, RegisterPair.ofValue_value, ← hx]
  constructor
  · have hmakes := makes_of_word htrack rfl (by decide) hm h.owns
    simp only [follow, fixed, List.map, List.foldl, perform_fetch, perform_stepPc, elapse,
      memory] at hmakes ⊢
    exact hmakes
  · rw [stepped_eq_follow htrack hm h.owns]
    simp only [follow, fixed, List.map, List.foldl, List.cons_append, List.nil_append, perform_fetch,
      perform_stepPc, hload, perform_loadD, perform_advance, elapse, memory]

theorem makes_gp (hm : m.AtBoundary) (h : m.Executes gpLow [.addr a])
    (hfinish : m.stepped.Executes gpHigh []) :
    m.Makes { regs := { m.regs with
      x := (RegisterPair.ofValue a).low, y := (RegisterPair.ofValue a).high } } 2 := by
  obtain ⟨hfirst, hd⟩ := makes_gpLow hm h
  have hsecond := makes_takeD (by decide) hm.stepped hfinish.owns
  rw [hfirst.regs, hd, opcode_of_owns hfinish.owns rfl] at hsecond
  exact hfirst.trans hsecond

/-! ## Memory -/

theorem makes_ld (hm : m.AtBoundary) (h : m.Executes ld [.addr a, .register r]) :
    m.Makes { regs := m.regs.set r (m.memory a) } 1 := by
  have htrack : Track ld
      (fixed (addressWords ++ (transfer .ram .abxy).withPointer .ma :: [Microcode.advance])) := by
    decide
  cases h.addrRegister rfl
  have hmakes := makes_afterAddress htrack rfl hm h.owns
  simp only [elapse, memory] at hmakes ⊢
  exact hmakes

theorem makes_stReg (hm : m.AtBoundary) (h : m.Executes stReg [.register r, .addr a]) :
    m.Makes { regs := m.regs, writes := [(a, m.regs.get r)] } 1 := by
  have htrack : Track stReg
      (fixed (addressWords ++ (transfer .abxy .ram).withPointer .ma :: [Microcode.advance])) := by
    decide
  cases h.registerAddr rfl
  exact makes_afterAddress htrack rfl hm h.owns

theorem makes_stImm (hm : m.AtBoundary) (h : m.Executes stImm [.imm v, .addr a]) :
    m.Makes { regs := m.regs, writes := [(a, v)] } 1 := by
  have htrack : Track stImm (fixed ((stepPc :: loadD :: addressWords) ++
      (transfer .d .ram).withPointer .ma :: [Microcode.advance])) := by
    decide
  cases h.immAddr rfl
  have hmakes := makes_of_word htrack rfl (by decide) hm h.owns
  simp only [follow, fixed, addressWords, List.map, List.foldl, perform_fetch, perform_stepPc,
    perform_loadD, perform_addressLow, perform_addressHigh, elapse, memory] at hmakes ⊢
  exact hmakes

/-- Loads of one byte go over Y and X, or over MA after the offset has been added. -/
theorem makes_load {p : Control.Pointer}
    (ht : Track i (fixed [(transfer .ram .abxy).withPointer p, Microcode.advance]))
    (hm : m.AtBoundary) (hi : i.owns (m.memory m.pc.value)) : m.Makes
      { regs := m.regs.set (.ofBits (m.memory m.pc.value).toNat) (m.memory (m.pair p).value) } 1 := by
  have hmakes := makes_short ht rfl hm hi
  cases p <;> exact hmakes

/-- Stores of one byte go over Y and X, or over MA after the offset has been added. -/
theorem makes_store {p : Control.Pointer}
    (ht : Track i (fixed [(transfer .abxy .ram).withPointer p, Microcode.advance]))
    (hm : m.AtBoundary) (hi : i.owns (m.memory m.pc.value)) : m.Makes
      { regs := m.regs
        writes := [((m.pair p).value, m.regs.get (.ofBits (m.memory m.pc.value).toNat))] } 1 := by
  have hmakes := makes_short ht rfl hm hi
  cases p <;> exact hmakes

theorem makes_stpImm (hm : m.AtBoundary) (h : m.Executes stpImm [.imm v]) :
    m.Makes { regs := m.regs, writes := [(m.xy.value, v)] } 1 := by
  have htrack : Track stpImm
      (fixed ([stepPc, loadD] ++ (transfer .d .ram).withPointer .xy :: [Microcode.advance])) := by
    decide
  have hmakes := makes_of_word htrack rfl (by decide) hm h.owns
  rw [← h.imm rfl]
  simp only [follow, fixed, List.map, List.foldl, perform_fetch, perform_stepPc, perform_loadD, elapse,
    memory] at hmakes ⊢
  exact hmakes

/-- An exchange with memory is two transfers: the byte that it reads waits in D until the register has been
written. -/
theorem makes_xchgMem (hm : m.AtBoundary) (h : m.Executes xchgMem [.addr a, .register r]) :
    m.Makes { regs := m.regs.set r (m.memory a), writes := [(a, m.regs.get r)] } 1 := by
  have htrack : Track xchgMem (fixed (addressWords ++ [(transfer .ram .d).withPointer .ma,
      (transfer .abxy .ram).withPointer .ma, transfer .d .abxy, Microcode.advance])) := by
    decide
  have hread (m : Machine) : m.perform ((transfer .ram .d).withPointer .ma) =
      { m.elapse 1 with d := m.memory m.ma.value } := rfl
  have hwrite (m : Machine) := m.perform_write (w := (transfer .abxy .ram).withPointer .ma) rfl
  cases h.addrRegister rfl
  have hmakes := makes_of_track htrack (forall_fixed (·.sink.moves) (by decide)) hm h.owns
  simp only [fixed, addressWords, List.map, List.cons_append, List.nil_append, transferAlong,
    perform_fetch, perform_stepPc, perform_addressLow, perform_addressHigh, hread, hwrite, elapse,
    memory] at hmakes ⊢
  exact hmakes

/-! ## Input and output -/

theorem makes_input (hm : m.AtBoundary) (h : m.Executes .input [.register r]) :
    m.Makes { regs := m.regs.set r (m.elapse 1).input } 1 := by
  have htrack : Track .input (fixed [transfer .input .abxy, Microcode.advance]) := by
    decide
  cases h.register rfl
  exact makes_short htrack rfl hm h.owns

theorem makes_outReg (hm : m.AtBoundary) (h : m.Executes outReg [.register r]) :
    m.Makes { regs := m.regs, sent := [m.regs.get r] } 1 := by
  have htrack : Track outReg (fixed [transfer .abxy .out, Microcode.advance]) := by
    decide
  cases h.register rfl
  exact makes_short htrack rfl hm h.owns

theorem makes_outImm (hm : m.AtBoundary) (h : m.Executes outImm [.imm v]) :
    m.Makes { regs := m.regs, sent := [v] } 1 := by
  have htrack : Track outImm (fixed [stepPc, transfer .ram .out, Microcode.advance]) := by
    decide
  rw [← h.imm rfl]
  exact makes_afterByte htrack rfl hm h.owns

/-! ## Offsets -/

/-- The first part of an offset adds the byte to X, with the sum in the low half of MA and the carry in
bank 0. -/
theorem makes_pairOffsetLow (hm : m.AtBoundary) (h : m.Executes pairOffsetLow [.imm v]) :
    m.Makes { regs := m.regs } 1 ∧ m.stepped.ma.low = m.regs.x + v ∧
      m.stepped.flags.bank0.carry = decide (256 ≤ m.regs.x.toNat + v.toNat) := by
  have htrack : Track pairOffsetLow (fixed [stepPc, loadD, arith .abxy .d .aPlusB false,
      low (transfer .t .ma), Microcode.advance]) := by
    decide
  have hopcode : m.memory m.pc.value = 0x0A := opcode_of_owns h.owns rfl
  refine ⟨makes_of_passes htrack (forall_fixed (·.sink.passes) (by decide)) hm h.owns, ?_⟩
  rw [stepped_eq_follow htrack hm h.owns, ← h.imm rfl]
  simp only [follow, fixed, List.map, List.foldl, perform_fetch, perform_stepPc, perform_loadD,
    perform_offsetLow, perform_sumLow, perform_advance, elapse, latch, Alu.byte_plus, hopcode, flagBank]
  exact ⟨rfl, rfl⟩

/-- The second part adds the carry to Y, with the sum in the high half of MA. -/
theorem makes_pairOffsetHigh (hm : m.AtBoundary) (h : m.Executes pairOffsetHigh []) :
    m.Makes { regs := m.regs } 1 ∧ m.stepped.ma = ⟨m.ma.low, m.regs.y + m.flags.bank0.carry.toUInt8⟩ := by
  have htrack : Track pairOffsetHigh ((fun flags => arith .abxy .ab .a flags.carry) ::
      fixed [high (transfer .t .ma), Microcode.advance]) := by
    decide
  have hopcode : m.memory m.pc.value = 0x0B := opcode_of_owns h.owns rfl
  refine ⟨makes_of_passes htrack ?_ hm h.owns, ?_⟩
  · exact List.forall_mem_cons.mpr ⟨fun _ => rfl, forall_fixed (·.sink.passes) (by decide)⟩
  rw [stepped_eq_follow htrack hm h.owns]
  simp only [follow, fixed, List.map, List.foldl, perform_fetch, perform_offsetHigh, perform_sumHigh,
    perform_advance, elapse, latch, Alu.byte_a, hopcode, flagBank, activeFlags]
  rfl

/-- After both parts MA is the sum of all sixteen bits. -/
theorem makes_pairOffset (hm : m.AtBoundary) (h : m.Executes pairOffsetLow [.imm v])
    (hhigh : m.stepped.Executes pairOffsetHigh []) : m.Makes { regs := m.regs } 2 ∧
      m.stepped.stepped.regs = m.regs ∧ m.stepped.stepped.memory = m.memory ∧
      (m.stepped.stepped.pair .ma).value = m.xy.value + v.toUInt16 := by
  obtain ⟨hfirst, hlow, hcarry⟩ := makes_pairOffsetLow hm h
  obtain ⟨hsecond, hma⟩ := makes_pairOffsetHigh hm.stepped hhigh
  have hregs : m.stepped.regs = m.regs := hfirst.regs
  refine ⟨?_, hsecond.regs.trans hregs, ?_, ?_⟩
  · rw [hregs] at hsecond
    exact hfirst.trans hsecond
  · exact hsecond.memory.trans hfirst.memory
  · rw [← RegisterPair.value_plus, pair, hma, hlow, hcarry, hregs]
    rfl

theorem makes_ldpo (hm : m.AtBoundary) (h : m.Executes pairOffsetLow [.imm v])
    (hhigh : m.stepped.Executes pairOffsetHigh [])
    (hload : m.stepped.stepped.Executes loadPairOffset [.register r]) :
    m.Makes { regs := m.regs.set r (m.memory (m.xy.value + v.toUInt16)) } 3 := by
  obtain ⟨hsum, hregs, hmemory, hma⟩ := makes_pairOffset hm h hhigh
  have hlast := makes_load (p := .ma) (by decide) hm.stepped.stepped hload.owns
  rw [← hload.narrow rfl rfl, hregs, hmemory, hma] at hlast
  exact hsum.trans hlast

theorem makes_stpo (hm : m.AtBoundary) (h : m.Executes pairOffsetLow [.imm v])
    (hhigh : m.stepped.Executes pairOffsetHigh [])
    (hstore : m.stepped.stepped.Executes storePairOffset [.register r]) :
    m.Makes { regs := m.regs, writes := [(m.xy.value + v.toUInt16, m.regs.get r)] } 3 := by
  obtain ⟨hsum, hregs, -, hma⟩ := makes_pairOffset hm h hhigh
  have hlast := makes_store (p := .ma) (by decide) hm.stepped.stepped hstore.owns
  rw [← hstore.narrow rfl rfl, hregs, hma] at hlast
  exact hsum.trans hlast

/-! ## Lines -/

theorem makes_transfer (v : Movement) (hm : m.AtBoundary) (h : m.ExecutesAll v.parts) :
    m.Makes (v.transfer m) v.parts.length := by
  cases v with
  | mov r s => exact makes_movReg hm h.1
  | movImm v r => exact makes_movImm hm h.1
  | ld a r => exact makes_ld hm h.1
  | st r a => exact makes_stReg hm h.1
  | stImm v a => exact makes_stImm hm h.1
  | ldp r =>
    cases h.1.register rfl
    exact makes_load (p := .xy) (by decide) hm h.1.owns
  | stp r =>
    cases h.1.register rfl
    exact makes_store (p := .xy) (by decide) hm h.1.owns
  | stpImm v => exact makes_stpImm hm h.1
  | input r => exact makes_input hm h.1
  | out r => exact makes_outReg hm h.1
  | outImm v => exact makes_outImm hm h.1
  | xchg r s => exact makes_xchg hm h.1 h.2.1
  | xchgMem a r => exact makes_xchgMem hm h.1
  | gp a => exact makes_gp hm h.1 h.2.1
  | ldpo v r => exact makes_ldpo hm h.1 h.2.1 h.2.2.1
  | stpo r v => exact makes_stpo hm h.1 h.2.1 h.2.2.1

/-- No part of a line jumps, and none but the last writes to memory. -/
theorem executesAll_parts (v : Movement) {codes : List (List UInt8)} (h : Encodes v.parts codes)
    (hm : m.AtBoundary) (hcode : m.bytesFrom m.pc.value codes.flatten.length = codes.flatten) :
    m.ExecutesAll v.parts ∧
      (stepped^[v.parts.length] m).pc.value = m.pc.value + .ofNat codes.flatten.length := by
  refine executesAll_of_encodes h hm hcode ?_ ?_
  · cases v <;> simp only [Movement.parts, List.forall_mem_cons] <;> decide
  · cases v <;> simp only [Movement.parts, List.dropLast, List.forall_mem_cons] <;> decide

/-- Only the parts of an offset work in the arithmetic logic unit, and with bank 0. -/
theorem flags_parts (v : Movement) (hm : m.AtBoundary) (h : m.ExecutesAll v.parts) :
    (stepped^[v.parts.length] m).flags.get true = m.flags.get true ∧
      (v.addsOffset = false → (stepped^[v.parts.length] m).flags = m.flags) := by
  cases hv : v.addsOffset with
  | false =>
    have hquiet : ∀ part ∈ v.parts, ∀ flags, ∀ w ∈ words part.1 flags, w.sink ≠ .aluT := by
      revert hv
      cases v <;> simp only [Movement.addsOffset, Movement.parts, List.forall_mem_cons] <;> decide
    have hflags := h.invariant (P := fun x => x.flags = m.flags) hm
      (fun x part hpart hx hexec hflags => (flags_stepped hx hexec.owns (hquiet part hpart)).trans hflags) rfl
    exact ⟨congrArg (·.get true) hflags, fun _ => hflags⟩
  | true =>
    have hbank : ∀ part ∈ v.parts, part.1.bank ≠ true := by
      revert hv
      cases v <;> simp only [Movement.addsOffset, Movement.parts, List.forall_mem_cons] <;> decide
    have hflags := h.invariant (P := fun x => x.flags.get true = m.flags.get true) hm
      (fun x part hpart hx hexec hflags => (get_flags_stepped hx hexec.owns (hbank part hpart)).trans hflags)
      rfl
    exact ⟨hflags, fun hfalse => nomatch hfalse⟩

/-- On the generated store the code of a line that moves data makes the transfer of the line. Nothing else
changes but the inner parts, of which PC goes on to the end of the code, the flags change in bank 0 alone
and only for an offset, and the input changes in its clock line alone. -/
theorem afterSteps_movement {b : Builder} (hb : generate = .ok b) (hstore : m.store = b.store)
    (hcycle : m.cycle = 0) (v : Movement) {code : List UInt8}
    (hline : assemble v.line.1 v.line.2 = .ok code)
    (hcode : m.bytesFrom m.pc.value code.length = code) (seen : Array UInt8) :
    let x := v.transfer m
    let last := m.afterSteps seen (walk code).length
    last.1 = (m.transferred x).withInner last.1 ∧ last.2 = seen ++ x.sent.toArray ∧
      (∀ a, last.1.memory a ≠ m.memory a → bootSize ≤ a.toNat ∧ ∃ value, (a, value) ∈ x.writes) ∧
      last.1.pc.value = m.pc.value + .ofNat code.length ∧ last.1.cycle = 0 ∧
      last.1.flags.get true = m.flags.get true ∧ (v.addsOffset = false → last.1.flags = m.flags) ∧
      last.1.input &&& ~~~InputLines.clockBit = m.input &&& ~~~InputLines.clockBit := by
  obtain rfl := generated_eq hb
  have hm : m.AtBoundary := ⟨hstore, hcycle⟩
  rw [v.assemble_line, encodeAll_eq_ok_iff] at hline
  obtain ⟨codes, hencodes, rfl⟩ := hline
  obtain ⟨hall, hpc⟩ := executesAll_parts v hencodes hm hcode
  obtain ⟨hbank, hflags⟩ := flags_parts v hm hall
  have hinput := hall.invariant
    (P := fun x => x.input &&& ~~~InputLines.clockBit = m.input &&& ~~~InputLines.clockBit) hm
    (fun x _ _ _ _ hinput => x.input_stepped.trans hinput) rfl
  have hcarries := makes_transfer v hm hall seen
  have hend := (hm.iterate_stepped v.parts.length).cycle
  rw [← machine_afterSteps m seen] at hpc hbank hflags hinput hend
  rw [length_walk hencodes]
  refine ⟨hcarries.machine, hcarries.seen, fun a ha => ?_, hpc, hend, hbank, hflags, hinput⟩
  rw [hcarries.memory] at ha
  exact memory_transferred_ne ha

/-- The address of a load with an offset goes on from the end of memory at its beginning. -/
theorem afterSteps_movement_ldpo :
    let m : Machine :=
      { store := generated.store, boot := bootOf #[0x0A, 0x03, 0x0B, 0x08], regs := { x := 0xFE, y := 0xFF } }
    let code : List UInt8 := [0x0A, 0x03, 0x0B, 0x08]
    let last := m.afterSteps #[] (walk code).length
    (generate = .ok generated ∧ m.store = generated.store ∧ m.cycle = 0) ∧
      assemble "ldpo" [.imm 3, .register .a] = .ok code ∧
      m.bytesFrom m.pc.value code.length = code ∧
      last.1.regs = { a := 0x03, x := 0xFE, y := 0xFF } ∧ last.1.pc.value = 4 ∧ last.2 = #[] := by
  intro m code last
  have hboot : m.boot = bootOf #[0x0A, 0x03, 0x0B, 0x08] := rfl
  have hcode : m.bytesFrom m.pc.value code.length = code := by
    rw [show m.pc.value = 0 from rfl, bytesFrom_of_boot hboot (by decide)]
    rfl
  have hline : assemble (Movement.ldpo 3 .a).line.1 (Movement.ldpo 3 .a).line.2 = .ok code := rfl
  obtain ⟨hmachine, hseen, -, hpc, -⟩ :=
    afterSteps_movement (m := m) generate_eq rfl rfl (.ldpo 3 .a) hline hcode #[]
  have haddress : m.xy.value + (3 : UInt8).toUInt16 = 1 := by
    decide
  have hbyte : m.bytesFrom 1 1 = [0x03] := by
    rw [bytesFrom_of_boot hboot (by decide)]
    rfl
  have hregs : last.1.regs = m.regs.set .a (m.memory (m.xy.value + (3 : UInt8).toUInt16)) :=
    congrArg Machine.regs hmachine
  refine ⟨⟨generate_eq, rfl, rfl⟩, hline, hcode, ?_, hpc, hseen⟩
  rw [hregs, haddress, (List.cons.inj hbyte).1]
  rfl

end Machine

end Microcomputer
