import Microcomputer.Proofs.Alu.Sum
import Microcomputer.Proofs.Machine.Code

/-!
# The stack

The stack grows upwards. Single bytes are pushed and popped by steps of the low half of SP, which stay
within a page; space is taken and given back by sums and differences of the whole of SP, whose high byte
is kept in the stack area.
-/

namespace Microcomputer

open Control (Word)
open Control.Word (transfer arith)
open Microcode

/-! ## Steps of the low half -/

namespace RegisterPair

/-- The pair with one added to its low half. -/
def up (p : RegisterPair) : RegisterPair :=
  { p with low := p.low + 1 }

/-- The pair with one taken from its low half. -/
def down (p : RegisterPair) : RegisterPair :=
  { p with low := p.low - 1 }

@[simp] theorem down_up (p : RegisterPair) : p.up.down = p :=
  congrArg (RegisterPair.mk · p.high) (UInt8.add_sub_cancel _ _)

theorem value_inj {p q : RegisterPair} (h : p.value = q.value) : p = q := by
  rw [← ofValue_value p, h, ofValue_value]

theorem up_ne (p : RegisterPair) : p.up ≠ p := by
  intro h
  have hlow := congrArg (fun q => q.low.toNat) h
  simp only [up, UInt8.toNat_add, UInt8.reduceToNat] at hlow
  omega

end RegisterPair

namespace Machine

open Instruction

variable {m : Machine} {i : Instruction}

/-! ## Words -/

section

variable (m : Machine)

theorem perform_spPlus : m.perform (transfer .abxy .spPlus) =
    { m.elapse 1 with sp := m.sp.up, maxSp := max m.maxSp m.sp.up.value } := rfl

theorem perform_spMinus : m.perform (transfer .abxy .spMinus) = { m.elapse 1 with sp := m.sp.down } := rfl

theorem perform_push {w : Word} (hsink : w.sink = .ram) (hpointer : w.pointer = .sp) :
    m.perform w = { m.elapse 1 with ram := stored m.ram m.sp.value (m.primary w m.sp.value) } := by
  rw [perform_write m hsink, reading, hpointer]
  rfl

theorem perform_popHigh : m.perform ((high (transfer .ram .pc)).withPointer .sp) =
    { m.elapse 1 with pc := { m.pc with high := m.memory m.sp.value } } := rfl

theorem perform_popLow : m.perform ((low (transfer .ram .pc)).withPointer .sp) =
    { m.elapse 1 with pc := { m.pc with low := m.memory m.sp.value } } := rfl

theorem perform_arithLow (f : Alu.Arith) (carryIn : Bool) : m.perform (arith .sp .low f carryIn) =
    (m.latch (Alu.byte m.sp.low m.d f.select false carryIn)).elapse 1 := rfl

theorem perform_arithHigh (f : Alu.Arith) (carryIn : Bool) : m.perform (arith .sp .high f carryIn) =
    (m.latch (Alu.byte m.sp.high (m.side (arith .sp .high f carryIn)) f.select false carryIn)).elapse 1 :=
  rfl

theorem perform_spLow : m.perform (low (transfer .t .sp)) =
    { m.elapse 1 with sp := { m.sp with low := m.t } } := rfl

theorem perform_spHigh : m.perform (high (transfer .t .sp)) =
    { m.elapse 1 with sp := { m.sp with high := stackBase ||| m.t } } := rfl

end

/-! ## Push -/

theorem stepped_pushReg (hm : m.AtBoundary) (hi : pushReg.owns (m.memory m.pc.value)) :
    m.stepped =
      { (m.writeMemory m.sp.value (m.regs.get (.ofBits (m.memory m.pc.value).toNat))).elapse 4 with
        i := m.memory m.pc.value
        pc := m.pc.next
        sp := m.sp.up
        maxSp := max m.maxSp m.sp.up.value
        cycle := 0 } := by
  have htrack : Track .pushReg (fixed
      [(transfer .abxy .ram).withPointer .sp, transfer .abxy .spPlus, Microcode.advance]) := by
    decide
  have hpush (m : Machine) := m.perform_push (w := (transfer .abxy .ram).withPointer .sp) rfl rfl
  rw [stepped_eq_follow htrack hm hi]
  simp only [follow, fixed, List.map, List.foldl, perform_fetch, hpush, perform_spPlus, perform_advance,
    elapse, memory, writeMemory_eq]
  rfl

theorem stepped_pushImm (hm : m.AtBoundary) (hi : pushImm.owns (m.memory m.pc.value)) :
    m.stepped = { (m.writeMemory m.sp.value (m.memory m.pc.next.value)).elapse 6 with
      i := m.memory m.pc.value
      d := m.memory m.pc.next.value
      pc := m.pc.next.next
      sp := m.sp.up
      maxSp := max m.maxSp m.sp.up.value
      cycle := 0 } := by
  have htrack : Track .pushImm (fixed [stepPc, loadD, (transfer .d .ram).withPointer .sp,
      transfer .abxy .spPlus, Microcode.advance]) := by
    decide
  have hpush (m : Machine) := m.perform_push (w := (transfer .d .ram).withPointer .sp) rfl rfl
  rw [stepped_eq_follow htrack hm hi]
  simp only [follow, fixed, List.map, List.foldl, perform_fetch, perform_stepPc, perform_loadD, hpush,
    perform_spPlus, perform_advance, elapse, memory, writeMemory_eq]
  rfl

theorem pc_stepped_pushImm {operands : List Operand} (hm : m.AtBoundary)
    (hexec : m.Executes pushImm operands) : m.stepped.pc.value = m.pc.value + 2 := by
  rw [stepped_pushImm hm hexec.owns, RegisterPair.next_next]
  exact RegisterPair.value_ofValue _

/-! ## Pop -/

theorem stepped_pop (hm : m.AtBoundary) (hi : pop.owns (m.memory m.pc.value)) :
    m.stepped = { m.elapse 4 with
      i := m.memory m.pc.value
      regs := m.regs.set (.ofBits (m.memory m.pc.value).toNat) (m.memory m.sp.down.value)
      pc := m.pc.next
      sp := m.sp.down
      cycle := 0 } := by
  have htrack : Track .pop (fixed
      [transfer .abxy .spMinus, (transfer .ram .abxy).withPointer .sp, Microcode.advance]) := by
    decide
  have hpop (m : Machine) : m.perform ((transfer .ram .abxy).withPointer .sp) =
      { m.elapse 1 with regs := m.regs.set (.ofBits m.i.toNat) (m.memory m.sp.value) } := rfl
  rw [stepped_eq_follow htrack hm hi]
  simp only [follow, fixed, List.map, List.foldl, perform_fetch, perform_spMinus, hpop, perform_advance,
    elapse, memory]
  rfl

/-! ## Call and return -/

/-- The machine with an address in the two cells that SP points to next, low byte first. -/
def pushAddress (m : Machine) (address : RegisterPair) : Machine :=
  (m.writeMemory m.sp.value address.low).writeMemory m.sp.up.value address.high

theorem stepped_call (hm : m.AtBoundary) (hi : call.owns (m.memory m.pc.value)) :
    let pushed := m.pushAddress m.pc.next.next
    m.stepped = { pushed.elapse 11 with
      i := m.memory m.pc.value
      d := m.memory m.pc.next.value
      pc := ⟨m.memory m.pc.next.value, pushed.memory m.pc.next.next.value⟩
      sp := m.sp.up.up
      maxSp := max (max m.maxSp m.sp.up.value) m.sp.up.up.value
      cycle := 0 } := by
  have htrack : Track .call (fixed
      [stepPc, loadD, stepPc, (low (transfer .pc .ram)).withPointer .sp, transfer .abxy .spPlus,
        (high (transfer .pc .ram)).withPointer .sp, transfer .abxy .spPlus, high (transfer .ram .pc),
        low (transfer .d .pc), Microcode.finish]) := by
    decide
  have hlow (m : Machine) := m.perform_push (w := (low (transfer .pc .ram)).withPointer .sp) rfl rfl
  have hhigh (m : Machine) := m.perform_push (w := (high (transfer .pc .ram)).withPointer .sp) rfl rfl
  rw [stepped_eq_follow htrack hm hi]
  simp only [follow, fixed, List.map, List.foldl, perform_fetch, perform_stepPc, perform_loadD, hlow,
    hhigh, perform_spPlus, perform_jumpHigh, perform_jumpLow, perform_finish, elapse, memory, pushAddress,
    writeMemory_eq]
  rfl

/-- The address that a return finds in the two cells below SP. -/
def poppedAddress (m : Machine) : RegisterPair where
  low := m.memory m.sp.down.down.value
  high := m.memory m.sp.down.value

theorem stepped_ret (hm : m.AtBoundary) (hi : ret.owns (m.memory m.pc.value)) :
    m.stepped = { m.elapse 6 with
      i := m.memory m.pc.value
      pc := m.poppedAddress.next
      sp := m.sp.down.down
      cycle := 0 } := by
  have htrack : Track .ret (fixed
      [transfer .abxy .spMinus, (high (transfer .ram .pc)).withPointer .sp, transfer .abxy .spMinus,
        (low (transfer .ram .pc)).withPointer .sp, Microcode.advance]) := by
    decide
  rw [stepped_eq_follow htrack hm hi]
  simp only [follow, fixed, List.map, List.foldl, perform_fetch, perform_spMinus, perform_popHigh,
    perform_popLow, perform_advance, elapse, memory, poppedAddress]
  rfl

/-! ## Space -/

/-- A stack pointer with a number of bytes taken, over both halves. -/
def reserve (sp : RegisterPair) (count : UInt8) : RegisterPair where
  low := sp.low + count
  high := stackBase ||| (sp.high + (decide (256 ≤ sp.low.toNat + count.toNat)).toUInt8)

/-- A stack pointer with a number of bytes given back, over both halves. -/
def release (sp : RegisterPair) (count : UInt8) : RegisterPair where
  low := sp.low - count
  high := stackBase ||| (sp.high - 1 + (decide (count ≤ sp.low)).toUInt8)

/-- The words that add a byte in the code to SP or take it away, over both halves. -/
def spaceTrack (lowF highF : Alu.Arith) (carryIn : Bool) : List (Flags → Word) :=
  fixed [stepPc, loadD, arith .sp .low lowF carryIn, low (transfer .t .sp)] ++
    (fun flags => arith .sp .high highF flags.carry) :: fixed [high (transfer .t .sp), Microcode.advance]

/-- The carry of the low half chooses the word of the high half, which does not look at the side bus. -/
theorem stepped_space {lowF highF : Alu.Arith} {carryIn : Bool} {lower upper : Alu.Result UInt8}
    (ht : Track i (spaceTrack lowF highF carryIn))
    (hlower : Alu.byte m.sp.low (m.memory m.pc.next.value) lowF.select false carryIn = lower)
    (hupper : ∀ side, Alu.byte m.sp.high side highF.select false lower.carry = upper)
    (hm : m.AtBoundary) (hi : i.owns (m.memory m.pc.value)) : m.stepped = { m.elapse 8 with
      i := m.memory m.pc.value
      d := m.memory m.pc.next.value
      t := upper.value
      pc := m.pc.next.next
      sp := ⟨lower.value, stackBase ||| upper.value⟩
      flags := m.flags.set (m.memory m.pc.value &&& flagBankBit != 0) ⟨upper.carry, upper.zero⟩
      cycle := 0 } := by
  rw [stepped_eq_follow ht hm hi]
  simp only [memory] at hlower
  simp only [spaceTrack, follow, fixed, List.map, List.cons_append, List.nil_append, List.foldl, perform_fetch,
    perform_stepPc, perform_loadD, perform_arithLow, perform_arithHigh, perform_spLow, perform_spHigh,
    perform_advance, elapse, memory, latch, activeFlags, flagBank, hlower, hupper, FlagBanks.get_set_self,
    FlagBanks.set_set]
  rfl

theorem stepped_alloc (hm : m.AtBoundary) (hi : alloc.owns (m.memory m.pc.value)) :
    let count := m.memory m.pc.next.value
    let carries := decide (256 ≤ m.sp.low.toNat + count.toNat)
    let upper := Alu.Result.of (m.sp.high + carries.toUInt8) (256 ≤ m.sp.high.toNat + carries.toNat)
    m.stepped = { m.elapse 8 with
      i := m.memory m.pc.value
      d := count
      t := upper.value
      pc := m.pc.next.next
      sp := reserve m.sp count
      flags := m.flags.set (m.memory m.pc.value &&& flagBankBit != 0) ⟨upper.carry, upper.zero⟩
      cycle := 0 } :=
  stepped_space (by decide) (Alu.byte_plus _ _) (fun _ => Alu.byte_a _ _ _) hm hi

theorem stepped_free (hm : m.AtBoundary) (hi : free.owns (m.memory m.pc.value)) :
    let count := m.memory m.pc.next.value
    let enough := decide (count ≤ m.sp.low)
    let upper := Alu.Result.of (m.sp.high - 1 + enough.toUInt8) (1 ≤ m.sp.high.toNat + enough.toNat)
    m.stepped = { m.elapse 8 with
      i := m.memory m.pc.value
      d := count
      t := upper.value
      pc := m.pc.next.next
      sp := release m.sp count
      flags := m.flags.set (m.memory m.pc.value &&& flagBankBit != 0) ⟨upper.carry, upper.zero⟩
      cycle := 0 } :=
  stepped_space (by decide) (Alu.byte_difference _ _) (fun _ => Alu.byte_aMinusOne _ _ _) hm hi

theorem pc_sp_stepped_alloc {n : UInt8} (hm : m.AtBoundary) (hexec : m.Executes alloc [.imm n]) :
    m.stepped.pc.value = m.pc.value + 2 ∧ m.stepped.sp = reserve m.sp n := by
  rw [stepped_alloc hm hexec.owns, RegisterPair.next_next, hexec.imm rfl]
  exact ⟨RegisterPair.value_ofValue _, rfl⟩

/-- A return that drops bytes gives them back after it has popped the address. -/
theorem stepped_retImm (hm : m.AtBoundary) (hi : retImm.owns (m.memory m.pc.value)) :
    let count := m.memory m.pc.next.value
    let enough := decide (count ≤ m.sp.down.down.low)
    let upper := Alu.Result.of (m.sp.high - 1 + enough.toUInt8) (1 ≤ m.sp.high.toNat + enough.toNat)
    m.stepped = { m.elapse 12 with
      i := m.memory m.pc.value
      d := count
      t := upper.value
      pc := m.poppedAddress.next
      sp := release m.sp.down.down count
      flags := m.flags.set (m.memory m.pc.value &&& flagBankBit != 0) ⟨upper.carry, upper.zero⟩
      cycle := 0 } := by
  have htrack : Track .retImm
      (fixed [stepPc, loadD, transfer .abxy .spMinus, (high (transfer .ram .pc)).withPointer .sp,
        transfer .abxy .spMinus, (low (transfer .ram .pc)).withPointer .sp,
        arith .sp .low .aMinusBMinusOne true, low (transfer .t .sp)] ++
      (fun flags => arith .sp .high .aMinusOne flags.carry) ::
        fixed [high (transfer .t .sp), Microcode.advance]) := by
    decide
  rw [stepped_eq_follow htrack hm hi]
  simp only [follow, fixed, List.map, List.cons_append, List.nil_append, List.foldl, perform_fetch,
    perform_stepPc, perform_loadD, perform_spMinus, perform_popHigh, perform_popLow, perform_arithLow,
    perform_arithHigh, perform_spLow, perform_spHigh, perform_advance, elapse, memory, latch,
    activeFlags, flagBank, Alu.byte_difference, Alu.byte_aMinusOne, Alu.Result.of,
    FlagBanks.get_set_self, FlagBanks.set_set, poppedAddress, release]
  rfl

end Machine

end Microcomputer
