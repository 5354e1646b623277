import Microcomputer.Proofs.Machine.Calls

/-!
# Stack frames

Entering a frame saves BP in two cells of the stack and makes BP point 32 bytes below the new SP. The
distance is an opcode, read again under PC: `enter` takes its own opcode and one more away, and `leave` has
the distance as its opcode and adds it. So a `leave` finds the saved BP from BP alone, wherever SP is by
then.
-/

namespace Microcomputer

open Control (Word)
open Control.Word (transfer arith)
open Microcode

/-! ## Sums over both halves -/

namespace RegisterPair

variable (p : RegisterPair) (n : UInt8)

/-- The pair with a byte added to all sixteen bits. -/
def plus : RegisterPair where
  low := p.low + n
  high := p.high + (decide (256 ≤ p.low.toNat + n.toNat)).toUInt8

/-- The pair with a byte taken from all sixteen bits. -/
def minus : RegisterPair where
  low := p.low - n
  high := p.high - 1 + (decide (n ≤ p.low)).toUInt8

theorem value_plus : (p.plus n).value = p.value + n.toUInt16 := by
  have hlow := p.low.toNat_lt
  have hhigh := p.high.toNat_lt
  have hn := n.toNat_lt
  apply UInt16.toNat_inj.mp
  rw [UInt16.toNat_add, toNat_value, toNat_value, UInt8.toNat_toUInt16, plus, UInt8.toNat_add,
    UInt8.toNat_add, Alu.toNat_toUInt8]
  by_cases h : 256 ≤ p.low.toNat + n.toNat
  · rw [decide_eq_true h, Bool.toNat_true]
    omega
  · rw [decide_eq_false h, Bool.toNat_false]
    omega

theorem value_minus : (p.minus n).value = p.value - n.toUInt16 := by
  have hlow := p.low.toNat_lt
  have hhigh := p.high.toNat_lt
  have hn := n.toNat_lt
  apply UInt16.toNat_inj.mp
  simp only [UInt16.toNat_sub, toNat_value, UInt8.toNat_toUInt16, minus, UInt8.toNat_add,
    UInt8.toNat_sub, Alu.toNat_toUInt8, UInt8.reduceToNat, UInt8.le_iff_toNat_le]
  by_cases h : n.toNat ≤ p.low.toNat
  · rw [decide_eq_true h, Bool.toNat_true]
    omega
  · rw [decide_eq_false h, Bool.toNat_false]
    omega

@[simp] theorem plus_minus : (p.minus n).plus n = p := by
  apply value_inj
  rw [value_plus, value_minus]
  exact UInt16.sub_add_cancel _ _

end RegisterPair

namespace Machine

open Instruction

variable {m r : Machine}

/-! ## Words -/

section

variable (m : Machine)

theorem perform_frameLow (f : Alu.Arith) (carryIn : Bool) : m.perform (arith .bp .low f carryIn) =
    (m.latch (Alu.byte m.bp.low m.d f.select false carryIn)).elapse 1 := rfl

theorem perform_frameHigh (f : Alu.Arith) (carryIn : Bool) : m.perform (arith .bp .high f carryIn) =
    (m.latch (Alu.byte m.bp.high (m.side (arith .bp .high f carryIn)) f.select false carryIn)).elapse 1 :=
  rfl

theorem perform_bpLow : m.perform (low (transfer .t .bp)) =
    { m.elapse 1 with bp := { m.bp with low := m.t } } := rfl

theorem perform_bpHigh : m.perform (high (transfer .t .bp)) =
    { m.elapse 1 with bp := { m.bp with high := m.t } } := rfl

theorem perform_popBpHigh : m.perform ((high (transfer .ram .bp)).withPointer .sp) =
    { m.elapse 1 with bp := { m.bp with high := m.memory m.sp.value } } := rfl

theorem perform_popBpLow : m.perform ((low (transfer .ram .bp)).withPointer .sp) =
    { m.elapse 1 with bp := { m.bp with low := m.memory m.sp.value } } := rfl

end

/-! ## Enter -/

theorem stepped_enter (hm : m.AtBoundary) (hi : enter.owns (m.memory m.pc.value)) :
    let pushed := m.pushAddress m.bp
    let size := pushed.memory m.pc.value
    let top := m.sp.up.up
    let enough := decide (size.toNat + 1 ≤ top.low.toNat)
    let upper := Alu.Result.of (top.high - 1 + enough.toUInt8) (1 ≤ top.high.toNat + enough.toNat)
    m.stepped = { pushed.elapse 11 with
      i := m.memory m.pc.value
      d := size
      t := upper.value
      pc := m.pc.next
      sp := top
      bp := ⟨top.low - size - 1 + false.toUInt8, upper.value⟩
      maxSp := max (max m.maxSp m.sp.up.value) top.value
      flags := m.flags.set (m.memory m.pc.value &&& flagBankBit != 0) ⟨upper.carry, upper.zero⟩
      cycle := 0 } := by
  have htrack : Track .enter
      (fixed [(low (transfer .bp .ram)).withPointer .sp, transfer .abxy .spPlus,
        (high (transfer .bp .ram)).withPointer .sp, transfer .abxy .spPlus, loadD,
        arith .sp .low .aMinusBMinusOne false, low (transfer .t .bp)] ++
      (fun flags => arith .sp .high .aMinusOne flags.carry) ::
        fixed [high (transfer .t .bp), Microcode.advance]) := by
    decide
  have hlow (m : Machine) := m.perform_push (w := (low (transfer .bp .ram)).withPointer .sp) rfl rfl
  have hhigh (m : Machine) := m.perform_push (w := (high (transfer .bp .ram)).withPointer .sp) rfl rfl
  rw [stepped_eq_follow htrack hm hi]
  simp only [follow, fixed, List.map, List.cons_append, List.nil_append, List.foldl, perform_fetch,
    hlow, hhigh, perform_spPlus, perform_loadD, perform_arithLow, perform_arithHigh, perform_bpLow,
    perform_bpHigh, perform_advance, elapse, memory, latch, activeFlags, flagBank,
    Alu.byte_aMinusBMinusOne, Alu.byte_aMinusOne, Alu.Result.of, FlagBanks.get_set_self,
    FlagBanks.set_set, pushAddress, writeMemory_eq]
  rfl

theorem pc_stepped_enter (hm : m.AtBoundary) (hi : enter.owns (m.memory m.pc.value)) :
    m.stepped.pc.value = m.pc.value + 1 := by
  rw [stepped_enter hm hi]
  exact m.pc.value_next

/-- The new BP lies 32 bytes below the new SP if the opcode under PC is still there. -/
theorem bp_stepped_enter (hm : m.AtBoundary) (henter : m.Executes .enter [])
    (hlow : m.pc.value ≠ m.sp.value) (hhigh : m.pc.value ≠ m.sp.up.value) :
    m.stepped.bp = m.sp.up.up.minus 32 := by
  have hsize : (m.pushAddress m.bp).memory m.pc.value = 0x1F := by
    rw [memory_pushAddress_of_ne hlow hhigh]
    exact opcode_of_owns henter.owns rfl
  have htaken (low : UInt8) : low - 0x1F - 1 + false.toUInt8 = low - 32 := by
    revert low
    exact forall_byte (by decide)
  rw [stepped_enter hm henter.owns, hsize]
  exact congrArg (RegisterPair.mk · _) (htaken _)

/-! ## Leave -/

theorem stepped_leave (hm : m.AtBoundary) (hi : leave.owns (m.memory m.pc.value)) :
    let size := m.memory m.pc.value
    let top := reserve m.bp size
    let carries := decide (256 ≤ m.bp.low.toNat + size.toNat)
    let upper := Alu.Result.of (m.bp.high + carries.toUInt8) (256 ≤ m.bp.high.toNat + carries.toNat)
    m.stepped = { m.elapse 11 with
      i := size
      d := size
      t := upper.value
      pc := m.pc.next
      sp := top.down.down
      bp := ⟨m.memory top.down.down.value, m.memory top.down.value⟩
      flags := m.flags.set (size &&& flagBankBit != 0) ⟨upper.carry, upper.zero⟩
      cycle := 0 } := by
  have htrack : Track .leave
      (fixed [loadD, arith .bp .low .aPlusB false, low (transfer .t .sp)] ++
      (fun flags => arith .bp .high .a flags.carry) ::
        fixed [high (transfer .t .sp), transfer .abxy .spMinus,
          (high (transfer .ram .bp)).withPointer .sp, transfer .abxy .spMinus,
          (low (transfer .ram .bp)).withPointer .sp, Microcode.advance]) := by
    decide
  rw [stepped_eq_follow htrack hm hi]
  simp only [follow, fixed, List.map, List.cons_append, List.nil_append, List.foldl, perform_fetch,
    perform_loadD, perform_frameLow, perform_frameHigh, perform_spLow, perform_spHigh, perform_spMinus,
    perform_popBpHigh, perform_popBpLow, perform_advance, elapse, memory, latch, activeFlags, flagBank,
    Alu.byte_plus, Alu.byte_a, Alu.Result.of, FlagBanks.get_set_self, FlagBanks.set_set, reserve]
  rfl

/-- BP and the two cells that an `enter` wrote are as it left them. -/
structure KeepsFrame (before after r : Machine) : Prop where
  bp : r.bp = after.bp
  low : r.memory before.sp.value = after.memory before.sp.value
  high : r.memory before.sp.up.value = after.memory before.sp.up.value

theorem reserve_eq (p : RegisterPair) (n : UInt8) :
    reserve p n = { p.plus n with high := stackBase ||| (p.plus n).high } := rfl

theorem memory_stepped_enter (hm : m.AtBoundary) (hi : enter.owns (m.memory m.pc.value)) :
    m.stepped.memory = (m.pushAddress m.bp).memory := by
  rw [stepped_enter hm hi]
  exact memory_congr rfl rfl

/-- Wherever SP is, a machine that keeps its frame takes SP and BP back from it. -/
theorem KeepsFrame.stepped_leave (h : KeepsFrame m m.stepped r) (hm : m.AtBoundary)
    (hsp : 0xF0 ≤ m.sp.high) (henter : m.Executes .enter []) (hlow : m.pc.value ≠ m.sp.value)
    (hhigh : m.pc.value ≠ m.sp.up.value) (hr : r.AtBoundary) (hleave : r.Executes .leave []) :
    r.stepped.sp = m.sp ∧ r.stepped.bp = m.bp := by
  have hsize : r.memory r.pc.value = 32 := opcode_of_owns hleave.owns rfl
  have hbp : r.bp = m.sp.up.up.minus 32 := h.bp.trans (bp_stepped_enter hm henter hlow hhigh)
  have htop : reserve r.bp (r.memory r.pc.value) = m.sp.up.up := by
    rw [hsize, hbp, reserve_eq, RegisterPair.plus_minus, or_stackBase (show 0xF0 ≤ m.sp.up.up.high from hsp)]
  obtain ⟨hsaved, hsaved'⟩ := memory_pushAddress m.bp hsp
  rw [Machine.stepped_leave hr hleave.owns, htop, RegisterPair.down_up, RegisterPair.down_up]
  refine ⟨rfl, ?_⟩
  show RegisterPair.mk _ _ = m.bp
  rw [h.low, h.high, memory_stepped_enter hm henter.owns, hsaved, hsaved']

/-- On the generated store `enter` saves BP in two cells of one page and points it 32 bytes below the new
SP, and a `leave` from any later state that keeps BP and these cells brings back SP and BP as they were,
wherever SP is by then. -/
theorem step_enter_leave {σ : Type} {b : Builder} (hb : generate = .ok b) (hstore : m.store = b.store)
    (hcycle : m.cycle = 0) (hsp : 0xF0 ≤ m.sp.high) (henter : m.Executes .enter [])
    (hlow : m.pc.value ≠ m.sp.value) (hhigh : m.pc.value ≠ m.sp.up.value) (o : Observer σ) (seen : σ) :
    let after := (m.step o seen).machine
    after.memory m.sp.value = m.bp.low ∧ after.memory m.sp.up.value = m.bp.high ∧
      after.sp = m.sp.up.up ∧ after.bp.value = after.sp.value - 32 ∧
      ∀ r : Machine, r.store = b.store → r.cycle = 0 → KeepsFrame m after r → r.Executes .leave [] →
        ∀ (o' : Observer σ) (seen' : σ),
          (r.step o' seen').machine.sp = m.sp ∧ (r.step o' seen').machine.bp = m.bp := by
  obtain rfl := generated_eq hb
  have hm : m.AtBoundary := ⟨hstore, hcycle⟩
  have htop : m.stepped.sp = m.sp.up.up := by
    rw [stepped_enter hm henter.owns]
  obtain ⟨hsaved, hsaved'⟩ := memory_pushAddress m.bp hsp
  simp only [machine_step]
  refine ⟨?_, ?_, htop, ?_, fun r hstore hcycle hkeeps hleave _ _ => ?_⟩
  · rw [memory_stepped_enter hm henter.owns, hsaved]
  · rw [memory_stepped_enter hm henter.owns, hsaved']
  · rw [bp_stepped_enter hm henter hlow hhigh, htop]
    exact RegisterPair.value_minus _ 32
  · exact hkeeps.stepped_leave hm hsp henter hlow hhigh ⟨hstore, hcycle⟩ hleave

/-- Between the two bytes of BP the low half of SP wraps around, and the frame is left with five bytes on
the stack. -/
theorem step_enter_leave_wrap :
    let m : Machine :=
      { store := generated.store, boot := bootOf #[0x1F, 0x1C, 0x05, 0x20], sp := ⟨0xFF, 0xF0⟩,
        bp := ⟨0x34, 0x12⟩ }
    (generate = .ok generated ∧ m.store = generated.store ∧ m.cycle = 0) ∧
      m.Executes .enter [] ∧ m.stepped.Executes .alloc [.imm 5] ∧
      m.stepped.stepped.Executes .leave [] ∧
      m.stepped.bp.value = 0xEFE1 ∧ m.stepped.stepped.sp.value = 0xF006 ∧
      (m.stepped.stepped.step Observer.silent ()).machine.sp = m.sp ∧
      (m.stepped.stepped.step Observer.silent ()).machine.bp = m.bp := by
  intro m
  have hm : m.AtBoundary := ⟨rfl, rfl⟩
  have henter : m.Executes .enter [] := executes_of_boot rfl rfl (by decide) (by rfl)
  obtain ⟨-, -, hsp, hbp, h⟩ :=
    step_enter_leave generate_eq rfl rfl (by decide) henter (by decide) (by decide) Observer.silent ()
  rw [machine_step] at hsp hbp h
  have hpc : m.stepped.pc.value = 1 := pc_stepped_enter hm henter.owns
  have halloc : m.stepped.Executes .alloc [.imm 5] :=
    executes_of_boot m.boot_stepped hpc (by decide) (by rfl)
  obtain ⟨hmoved, hreserved⟩ := pc_sp_stepped_alloc hm.stepped halloc
  have hleave : m.stepped.stepped.Executes .leave [] := by
    have hpc' : m.stepped.stepped.pc.value = 3 := by
      rw [hmoved, hpc]
      rfl
    exact executes_of_boot (m.stepped.boot_stepped.trans m.boot_stepped) hpc' (by decide) (by rfl)
  have hkeeps (x : Machine) (hx : x.AtBoundary) (hi : alloc.owns (x.memory x.pc.value)) :
      KeepsFrame m x x.stepped := by
    rw [stepped_alloc hx hi]
    exact ⟨rfl, rfl, rfl⟩
  have hr : m.stepped.stepped.AtBoundary := hm.stepped.stepped
  have hafter := h m.stepped.stepped hr.store hr.cycle (hkeeps m.stepped hm.stepped halloc.owns) hleave
    Observer.silent ()
  refine ⟨⟨generate_eq, rfl, rfl⟩, henter, halloc, hleave, ?_, ?_, hafter⟩
  · rw [hbp, hsp]
    decide
  · rw [hreserved, hsp]
    decide

end Machine

end Microcomputer
