import Mathlib.Algebra.BigOperators.Group.List.Basic
import Mathlib.Algebra.Ring.Int.Defs
import Microcomputer.Proofs.Machine.Frames
import Microcomputer.Proofs.Machine.Lines

/-!
# Space on the stack

Taking space and giving it back adds to SP and subtracts from it over both halves, and the high byte that comes
out has the base of the stack put into it. What runs out of the stack area at one end so comes in at the other,
and a row of such steps moves SP by the sum of their sizes, whatever their order.
-/

namespace Microcomputer

open Control.Word (transfer logical)
open Instruction
open Microcode

/-- The address in the stack area that a number stands for. The area has 4096 cells. -/
def inStack (a : Int) : Int :=
  0xF000 + a % 4096

theorem inStack_inStack_add (a b : Int) : inStack (inStack a + b) = inStack (a + b) := by
  unfold inStack
  omega

theorem inStack_of_le {a : UInt16} (h : stackAddress ≤ a) : (a.toNat : Int) = inStack a.toNat := by
  have hlt := a.toNat_lt
  have hle : 0xF000 ≤ a.toNat := UInt16.le_iff_toNat_le.mp h
  unfold inStack
  omega

/-- A step of the stack pointer by instructions that take space or give it back. -/
inductive Reservation where
  | alloc (n : UInt8)
  | free (n : UInt8)
deriving DecidableEq, Repr

namespace Reservation

/-- The instruction with its operands. -/
def part : Reservation → Instruction × List Operand
  | alloc n => (.alloc, [.imm n])
  | free n => (.free, [.imm n])

/-- The cells that are taken, negative if they are given back. -/
def size : Reservation → Int
  | alloc n => n.toNat
  | free n => -n.toNat

end Reservation

namespace Machine

variable {m x y : Machine} {n : UInt8} {a d : Int}

/-! ## Stack pointers -/

theorem value_or_stackBase (p : RegisterPair) :
    (({ p with high := stackBase ||| p.high } : RegisterPair).value.toNat : Int) = inStack p.value.toNat := by
  have hlow := p.low.toNat_lt
  have hbase : ∀ high : UInt8, (stackBase ||| high).toNat = 0xF0 + high.toNat % 16 := forall_byte (by decide)
  have hvalue : ({ p with high := stackBase ||| p.high } : RegisterPair).value.toNat =
      256 * (0xF0 + p.high.toNat % 16) + p.low.toNat := by
    rw [← hbase]
    exact RegisterPair.toNat_value _
  rw [hvalue, p.toNat_value, inStack]
  omega

theorem value_reserve (p : RegisterPair) (n : UInt8) :
    ((reserve p n).value.toNat : Int) = inStack (p.value.toNat + n.toNat) := by
  have hp := p.value.toNat_lt
  have hn := n.toNat_lt
  rw [reserve_eq, value_or_stackBase, p.value_plus, UInt16.toNat_add, UInt8.toNat_toUInt16, inStack, inStack]
  omega

theorem value_release (p : RegisterPair) (n : UInt8) :
    ((release p n).value.toNat : Int) = inStack (p.value.toNat - n.toNat) := by
  have hp := p.value.toNat_lt
  have hn := n.toNat_lt
  have hrelease : release p n = { p.minus n with high := stackBase ||| (p.minus n).high } := rfl
  rw [hrelease, value_or_stackBase, p.value_minus, UInt16.toNat_sub, UInt8.toNat_toUInt16, inStack, inStack]
  omega

/-! ## Instructions -/

/-- SP comes to the address that a number stands for, and registers, BP and memory stay as they are. -/
structure MovesSp (a : Int) (before after : Machine) : Prop where
  sp : (after.sp.value.toNat : Int) = inStack a
  regs : after.regs = before.regs
  bp : after.bp = before.bp
  memory : after.memory = before.memory

theorem MovesSp.trans (h : MovesSp a m x) (h' : MovesSp (x.sp.value.toNat + d) x y) : MovesSp (a + d) m y where
  sp := by rw [h'.sp, h.sp, inStack_inStack_add]
  regs := h'.regs.trans h.regs
  bp := h'.bp.trans h.bp
  memory := h'.memory.trans h.memory

theorem MovesSp.le (h : MovesSp a m x) : stackAddress ≤ x.sp.value := by
  have hsp := h.sp
  unfold inStack at hsp
  apply UInt16.le_iff_toNat_le.mpr
  show 0xF000 ≤ x.sp.value.toNat
  omega

theorem stepped_rstsp (hm : m.AtBoundary) (hi : rstsp.owns (m.memory m.pc.value)) :
    m.stepped = { m.elapse 5 with
      i := m.memory m.pc.value
      t := 0
      pc := m.pc.next
      sp := .ofValue stackAddress
      flags := m.flags.set (m.memory m.pc.value &&& flagBankBit != 0) ⟨false, true⟩
      cycle := 0 } := by
  have htrack : Track .rstsp (fixed [logical .d .ab .zero, low (transfer .t .sp), high (transfer .t .sp),
      Microcode.advance]) := by
    decide
  have hzero (m : Machine) : m.perform (logical .d .ab .zero) = (m.latch (.of 0 false)).elapse 1 := by
    rw [← Alu.byte_zero m.d (m.side (logical .d .ab .zero))]
    rfl
  rw [stepped_eq_follow htrack hm hi]
  simp only [follow, fixed, List.map, List.foldl, perform_fetch, hzero, perform_spLow, perform_spHigh,
    perform_advance, elapse, memory, latch, flagBank, Alu.Result.of]
  rfl

theorem movesSp_reservation (hm : m.AtBoundary) (r : Reservation) (h : m.Executes r.part.1 r.part.2) :
    MovesSp (m.sp.value.toNat + r.size) m m.stepped := by
  cases r with
  | alloc n =>
    have hstepped := stepped_alloc hm h.owns
    rw [h.imm rfl] at hstepped
    rw [hstepped]
    exact ⟨value_reserve m.sp n, rfl, rfl, memory_congr rfl rfl⟩
  | free n =>
    have hstepped := stepped_free hm h.owns
    rw [h.imm rfl] at hstepped
    rw [hstepped]
    exact ⟨value_release m.sp n, rfl, rfl, memory_congr rfl rfl⟩

theorem movesSp_retImm (hm : m.AtBoundary) (h : m.Executes retImm [.imm n]) :
    MovesSp (({ m.sp with low := m.sp.low - 2 } : RegisterPair).value.toNat - n.toNat) m m.stepped := by
  have hdown : m.sp.down.down = { m.sp with low := m.sp.low - 2 } := by
    refine congrArg (RegisterPair.mk · m.sp.high) ?_
    exact forall_byte (P := fun low => low - 1 - 1 = low - 2) (by decide) m.sp.low
  have hstepped := stepped_retImm hm h.owns
  rw [h.imm rfl, hdown] at hstepped
  rw [hstepped]
  exact ⟨value_release _ n, rfl, rfl, memory_congr rfl rfl⟩

theorem movesSp_rstsp (hm : m.AtBoundary) (h : m.Executes rstsp []) : MovesSp 0 m m.stepped := by
  rw [stepped_rstsp hm h.owns]
  exact ⟨rfl, rfl, rfl, memory_congr rfl rfl⟩

/-! ## Rows of reservations -/

theorem ExecutesAll.movesSp {rs : List Reservation} (h : m.ExecutesAll (rs.map Reservation.part))
    (hm : m.AtBoundary) (hsp : stackAddress ≤ m.sp.value) :
    MovesSp (m.sp.value.toNat + (rs.map Reservation.size).sum) m (stepped^[rs.length] m) := by
  induction rs generalizing m with
  | nil =>
    simp only [List.map_nil, List.sum_nil, Int.add_zero]
    exact ⟨inStack_of_le hsp, rfl, rfl, rfl⟩
  | cons r rs ih =>
    obtain ⟨hexec, hrest⟩ := h
    have hfirst := movesSp_reservation hm r hexec
    rw [List.map_cons, List.sum_cons, ← Int.add_assoc, List.length_cons, Function.iterate_succ_apply]
    exact hfirst.trans (ih hrest hm.stepped hfirst.le)

/-- On the generated store taking space, giving it back, a return that drops bytes and a reset of SP bring it to
the address in the stack area that the sum or difference stands for, and leave the registers, BP and memory as
they are. A row of reservations moves SP by the sum of their sizes, so that those in another order end at the
same place. -/
theorem step_space {σ : Type} {b : Builder} (hb : generate = .ok b) (hstore : m.store = b.store)
    (hcycle : m.cycle = 0) (o : Observer σ) (seen : σ) :
    (∀ r : Reservation, m.Executes r.part.1 r.part.2 →
      MovesSp (m.sp.value.toNat + r.size) m (m.step o seen).machine) ∧
    (∀ n, m.Executes retImm [.imm n] →
      MovesSp (({ m.sp with low := m.sp.low - 2 } : RegisterPair).value.toNat - n.toNat) m
        (m.step o seen).machine) ∧
    (m.Executes rstsp [] → MovesSp 0 m (m.step o seen).machine) ∧
    (stackAddress ≤ m.sp.value → ∀ rs : List Reservation, m.ExecutesAll (rs.map Reservation.part) →
      MovesSp (m.sp.value.toNat + (rs.map Reservation.size).sum) m (m.afterSteps #[] rs.length).1 ∧
      ∀ m' : Machine, m'.store = b.store → m'.cycle = 0 → m'.sp = m.sp → ∀ rs' : List Reservation,
        rs'.Perm rs → m'.ExecutesAll (rs'.map Reservation.part) →
          (m'.afterSteps #[] rs'.length).1.sp = (m.afterSteps #[] rs.length).1.sp) := by
  obtain rfl := generated_eq hb
  have hm : m.AtBoundary := ⟨hstore, hcycle⟩
  rw [machine_step]
  refine ⟨fun r => movesSp_reservation hm r, fun n => movesSp_retImm hm, movesSp_rstsp hm, fun hsp rs h => ?_⟩
  have hmoves := h.movesSp hm hsp
  rw [machine_afterSteps]
  refine ⟨hmoves, fun m' hstore' hcycle' hsame rs' hperm h' => ?_⟩
  have hmoves' := h'.movesSp ⟨hstore', hcycle'⟩ (hsame ▸ hsp)
  have hsum : (rs'.map Reservation.size).sum = (rs.map Reservation.size).sum := (hperm.map _).sum_eq
  have hvalue : (stepped^[rs'.length] m').sp.value.toNat = (stepped^[rs.length] m).sp.value.toNat := by
    apply Int.ofNat.inj
    show ((stepped^[rs'.length] m').sp.value.toNat : Int) = (stepped^[rs.length] m).sp.value.toNat
    rw [hmoves'.sp, hmoves.sp, hsame, hsum]
  rw [machine_afterSteps]
  exact RegisterPair.value_inj (UInt16.toNat_inj.mp hvalue)

/-- Giving back more than was taken leads to the end of the area, and taking it again leads back. -/
theorem step_space_wrap :
    let m : Machine :=
      { store := generated.store, boot := bootOf #[0x1D, 0x20, 0x1C, 0x30], sp := .ofValue 0xF010 }
    let rs : List Reservation := [.free 0x20, .alloc 0x30]
    (generate = .ok generated ∧ m.store = generated.store ∧ m.cycle = 0) ∧ stackAddress ≤ m.sp.value ∧
      m.ExecutesAll (rs.map Reservation.part) ∧
      ((m.step Observer.silent ()).machine.sp.value.toNat : Int) = 0xFFF0 ∧
      ((m.afterSteps #[] 2).1.sp.value.toNat : Int) = 0xF020 := by
  intro m rs
  have hboot : m.boot = bootOf #[0x1D, 0x20, 0x1C, 0x30] := rfl
  have hcode : m.bytesFrom m.pc.value 4 = [0x1D, 0x20, 0x1C, 0x30] := by
    rw [show m.pc.value = 0 from rfl, bytesFrom_of_boot hboot (by decide)]
    rfl
  have hencode : encodeAll (rs.map Reservation.part) = .ok [0x1D, 0x20, 0x1C, 0x30] := rfl
  have hall := (afterSteps_of_encodeAll hencode ⟨rfl, rfl⟩ hcode (by decide) (by decide) #[]).1
  have hsp : stackAddress ≤ m.sp.value := by
    decide
  have hfirst : inStack (m.sp.value.toNat + (Reservation.free 0x20).size) = 0xFFF0 := by
    decide
  have hboth : inStack (m.sp.value.toNat + (rs.map Reservation.size).sum) = 0xF020 := by
    decide
  obtain ⟨hone, -, -, hrow⟩ := step_space (m := m) generate_eq rfl rfl Observer.silent ()
  exact ⟨⟨generate_eq, rfl, rfl⟩, hsp, hall, (hone (.free 0x20) hall.1).sp.trans hfirst,
    (hrow hsp rs hall).1.sp.trans hboth⟩

end Machine

end Microcomputer
