import Microcomputer.Instruction.Assembly
import Microcomputer.Proofs.Machine.Memory
import Microcomputer.Proofs.Machine.Movement

/-!
# Cells of a frame

A cell of a frame lies at an offset from BP. Loads and stores bring the sum of both to MA, and a line that asks
for the address brings it to Y and X, the high byte by way of D. The high half of the sum takes its carry from
the flags of bank 0, as the low half left them. A byte that was stored is loaded again as long as nothing else
is written to its cell and BP comes back.
-/

namespace Microcomputer

open Control (Word)
open Control.Word (transfer arith)
open Instruction
open Microcode

/-- The lines that access the cells of a frame. -/
inductive FrameAccess where
  | ldf (k : UInt8) (r : Register)
  | stf (r : Register) (k : UInt8)
  | stfImm (k v : UInt8)
  | gpf (k : UInt8)
deriving DecidableEq, Repr

/-- The address of the cell at an offset. -/
def Machine.frameCell (m : Machine) (k : UInt8) : UInt16 :=
  m.bp.value + k.toUInt16

namespace FrameAccess

/-- The mnemonic and the operands of the line. -/
def line : FrameAccess → String × List Operand
  | ldf k r => ("ldf", [.imm k, .register r])
  | stf r k => ("stf", [.register r, .imm k])
  | stfImm k v => ("stf", [.imm k, .imm v])
  | gpf k => ("gpf", [.imm k])

/-- The instructions of the line. -/
def parts : FrameAccess → List (Instruction × List Operand)
  | ldf k r => [(.ldf, [.imm k, .register r])]
  | stf r k => [(.stfReg, [.register r, .imm k])]
  | stfImm k v => [(.stfImm, [.imm k, .imm v])]
  | gpf k => [(.gpfLow, [.imm k]), (.gpfHigh, [])]

theorem assemble_line (a : FrameAccess) : assemble a.line.1 a.line.2 = encodeAll a.parts := by
  cases a <;> rfl

/-- The offset of the cell. -/
def offset : FrameAccess → UInt8
  | ldf k _ | stf _ k | stfImm k _ | gpf k => k

/-- The registers after the line. -/
def regs (m : Machine) : FrameAccess → Registers
  | ldf k r => m.regs.set r (m.memory (m.frameCell k))
  | stf _ _ | stfImm _ _ => m.regs
  | gpf k => { m.regs with
    x := (RegisterPair.ofValue (m.frameCell k)).low, y := (RegisterPair.ofValue (m.frameCell k)).high }

/-- The byte that the line stores. -/
def value? (m : Machine) : FrameAccess → Option UInt8
  | stf r _ => some (m.regs.get r)
  | stfImm _ v => some v
  | _ => none

/-- The transfer of the line. -/
def transfer (m : Machine) (a : FrameAccess) : Transfer where
  regs := a.regs m
  writes := (a.value? m).toList.map (m.frameCell a.offset, ·)

end FrameAccess

namespace Machine

variable {m : Machine} {i : Instruction} {r : Register} {k v : UInt8} {w : Word}

/-! ## The address in MA -/

/-- The words that bring BP with the byte after the opcode added to MA. -/
def frameAddressTrack : List (Flags → Word) :=
  fixed [stepPc, loadD, arith .bp .low .aPlusB false, low (transfer .t .ma)] ++
    (fun flags => arith .bp .high .a flags.carry) :: fixed [high (transfer .t .ma)]

theorem passes_frameAddressTrack : ∀ w ∈ frameAddressTrack, ∀ flags, (w flags).sink.passes := by
  refine List.forall_mem_append.mpr ⟨forall_fixed (·.sink.passes) (by decide), ?_⟩
  exact List.forall_mem_cons.mpr ⟨fun _ => rfl, forall_fixed (·.sink.passes) (by decide)⟩

theorem follow_frameAddressTrack (m : Machine) :
    let k := m.memory m.pc.next.value
    (m.perform fetch).follow frameAddressTrack = { m.elapse 7 with
      i := m.memory m.pc.value
      d := k
      t := (m.bp.plus k).high
      pc := m.pc.next
      ma := m.bp.plus k
      flags := m.flags.set (m.memory m.pc.value &&& flagBankBit != 0)
        ⟨256 ≤ m.bp.high.toNat + (decide (256 ≤ m.bp.low.toNat + k.toNat)).toNat, (m.bp.plus k).high == 0⟩ } := by
  simp only [frameAddressTrack, follow, fixed, List.map, List.cons_append, List.nil_append, List.foldl,
    perform_fetch, perform_stepPc, perform_loadD, perform_frameLow, perform_frameHigh, perform_sumLow,
    perform_sumHigh, elapse, memory, latch, activeFlags, flagBank, Alu.byte_plus, Alu.byte_a, Alu.Result.of,
    FlagBanks.get_set_self, FlagBanks.set_set]
  rfl

theorem makes_frameAccess (ht : Track i (frameAddressTrack ++ (fun _ => w) :: fixed [Microcode.advance]))
    (hw : w.sink.moves) (hm : m.AtBoundary) (hi : i.owns (m.memory m.pc.value)) :
    m.Makes (((m.perform fetch).follow frameAddressTrack).transferOf w) 1 :=
  makes_of_move ht hw passes_frameAddressTrack (forall_fixed (·.sink.passes) (by decide)) hm hi

/-! ## Loads and stores -/

theorem makes_ldf (hm : m.AtBoundary) (h : m.Executes ldf [.imm k, .register r]) :
    m.Makes { regs := m.regs.set r (m.memory (m.frameCell k)) } 1 := by
  have htrack : Track ldf (frameAddressTrack ++
      (fun _ => (transfer .ram .abxy).withPointer .ma) :: fixed [Microcode.advance]) := by
    decide
  have hmakes := makes_frameAccess htrack rfl hm h.owns
  cases h.immRegister rfl
  rw [follow_frameAddressTrack] at hmakes
  rw [frameCell, ← RegisterPair.value_plus]
  exact hmakes

theorem makes_stfReg (hm : m.AtBoundary) (h : m.Executes stfReg [.register r, .imm k]) :
    m.Makes { regs := m.regs, writes := [(m.frameCell k, m.regs.get r)] } 1 := by
  have htrack : Track stfReg (frameAddressTrack ++
      (fun _ => (transfer .abxy .ram).withPointer .ma) :: fixed [Microcode.advance]) := by
    decide
  have hmakes := makes_frameAccess htrack rfl hm h.owns
  cases h.registerImm rfl
  rw [follow_frameAddressTrack] at hmakes
  rw [frameCell, ← RegisterPair.value_plus]
  exact hmakes

/-- The offset comes first, so D has been used for it when the byte to store is read. -/
theorem makes_stfImm (hm : m.AtBoundary) (h : m.Executes stfImm [.imm k, .imm v]) :
    m.Makes { regs := m.regs, writes := [(m.frameCell k, v)] } 1 := by
  have htrack : Track stfImm ((frameAddressTrack ++ fixed [stepPc, loadD]) ++
      (fun _ => (transfer .d .ram).withPointer .ma) :: fixed [Microcode.advance]) := by
    decide
  have hpre : ∀ w ∈ frameAddressTrack ++ fixed [stepPc, loadD], ∀ flags, (w flags).sink.passes :=
    List.forall_mem_append.mpr ⟨passes_frameAddressTrack, forall_fixed (·.sink.passes) (by decide)⟩
  have hmakes := makes_of_move htrack rfl hpre (forall_fixed (·.sink.passes) (by decide)) hm h.owns
  cases h.immImm rfl
  rw [follow_append, follow_frameAddressTrack] at hmakes
  simp only [follow, fixed, List.map, List.foldl, perform_stepPc, perform_loadD, elapse, memory] at hmakes
  rw [frameCell, ← RegisterPair.value_plus]
  exact hmakes

/-! ## The address in Y and X -/

/-- The first half has X in its opcode, and leaves the high byte in D. -/
theorem makes_gpfLow (hm : m.AtBoundary) (h : m.Executes gpfLow [.imm k]) :
    m.Makes { regs := m.regs.set .x (m.bp.plus k).low } 1 ∧ m.stepped.d = (m.bp.plus k).high := by
  have htrack : Track gpfLow (fixed [stepPc, loadD, arith .bp .low .aPlusB false] ++
      (fun _ => keepResult) :: (fun flags => arith .bp .high .a flags.carry) ::
        fixed [transfer .t .d, Microcode.advance]) := by
    decide
  have hpost : ∀ w ∈ (fun flags : Flags => arith .bp .high .a flags.carry) ::
      fixed [transfer .t .d, Microcode.advance], ∀ flags, (w flags).sink.passes :=
    List.forall_mem_cons.mpr ⟨fun _ => rfl, forall_fixed (·.sink.passes) (by decide)⟩
  have hkeep (m : Machine) : m.perform (transfer .t .d) = { m.elapse 1 with d := m.t } := rfl
  have hx : Register.ofBits (m.memory m.pc.value).toNat = .x := by
    rw [opcode_of_owns h.owns rfl]
    rfl
  rw [← h.imm rfl, ← hx]
  constructor
  · have hmakes := makes_of_move htrack rfl (forall_fixed (·.sink.passes) (by decide)) hpost hm h.owns
    simp only [follow, fixed, List.map, List.foldl, perform_fetch, perform_stepPc, perform_loadD,
      perform_frameLow, elapse, memory, latch, Alu.byte_plus, Alu.Result.of] at hmakes
    exact hmakes
  · rw [stepped_eq_follow htrack hm h.owns]
    simp only [follow, fixed, List.map, List.cons_append, List.nil_append, List.foldl, perform_fetch,
      perform_stepPc, perform_loadD, perform_frameLow, perform_frameHigh, perform_keepResult, hkeep,
      perform_advance, elapse, memory, latch, activeFlags, flagBank, Alu.byte_plus, Alu.byte_a, Alu.Result.of,
      FlagBanks.get_set_self]
    rfl

theorem makes_gpf (hm : m.AtBoundary) (h : m.Executes gpfLow [.imm k]) (hfinish : m.stepped.Executes gpfHigh []) :
    m.Makes { regs := { m.regs with
      x := (RegisterPair.ofValue (m.frameCell k)).low
      y := (RegisterPair.ofValue (m.frameCell k)).high } } 2 := by
  obtain ⟨hfirst, hd⟩ := makes_gpfLow hm h
  have hsecond := makes_takeD (by decide) hm.stepped hfinish.owns
  rw [hfirst.regs, hd, opcode_of_owns hfinish.owns rfl] at hsecond
  rw [frameCell, ← RegisterPair.value_plus, RegisterPair.ofValue_value]
  exact hfirst.trans hsecond

/-! ## Lines -/

theorem makes_frameTransfer (a : FrameAccess) (hm : m.AtBoundary) (h : m.ExecutesAll a.parts) :
    m.Makes (a.transfer m) a.parts.length := by
  cases a with
  | ldf k r => exact makes_ldf hm h.1
  | stf r k => exact makes_stfReg hm h.1
  | stfImm k v => exact makes_stfImm hm h.1
  | gpf k => exact makes_gpf hm h.1 h.2.1

theorem bank1_frameParts (a : FrameAccess) (hm : m.AtBoundary) (h : m.ExecutesAll a.parts) :
    (stepped^[a.parts.length] m).flags.bank1 = m.flags.bank1 := by
  have hbank : ∀ part ∈ a.parts, part.1.bank ≠ true := by
    cases a <;> simp only [FrameAccess.parts, List.forall_mem_cons] <;> decide
  exact h.invariant (P := fun x => x.flags.get true = m.flags.get true) hm
    (fun x part hpart hx hexec hflags => (get_flags_stepped hx hexec.owns (hbank part hpart)).trans hflags) rfl

theorem memory_frameTransfer (m : Machine) (a : FrameAccess) (c : UInt16) :
    (m.transferred (a.transfer m)).memory c =
      if c = m.frameCell a.offset ∧ bootSize ≤ c.toNat then (a.value? m).getD (m.memory c) else m.memory c := by
  cases hvalue : a.value? m with
  | none =>
    have hsame : (m.transferred (a.transfer m)).memory = m.memory := by
      rw [FrameAccess.transfer, hvalue]
      exact memory_congr rfl rfl
    rw [hsame, Option.getD_none, ite_self]
  | some v =>
    have hwritten : (m.transferred (a.transfer m)).memory = (m.writeMemory (m.frameCell a.offset) v).memory := by
      rw [FrameAccess.transfer, hvalue, writeMemory_eq]
      exact memory_congr rfl rfl
    rw [hwritten, memory_writeMemory, Option.getD_some]
    by_cases hc : c = m.frameCell a.offset
    · subst hc
      simp
    · simp [hc, Ne.symm hc]

/-- What the code of a line does at a boundary. -/
structure FrameEffect (a : FrameAccess) (before after : Machine) : Prop where
  regs : after.regs = a.regs before
  memory : ∀ c, after.memory c =
    if c = before.frameCell a.offset ∧ bootSize ≤ c.toNat then (a.value? before).getD (before.memory c)
    else before.memory c
  bp : after.bp = before.bp
  sp : after.sp = before.sp
  bank1 : after.flags.bank1 = before.flags.bank1

theorem frameEffect_afterSteps (a : FrameAccess) (hm : m.AtBoundary) {code : List UInt8}
    (hline : assemble a.line.1 a.line.2 = .ok code) (hcode : m.bytesFrom m.pc.value code.length = code)
    (seen : Array UInt8) :
    FrameEffect a m (m.afterSteps seen (walk code).length).1 ∧
      (m.afterSteps seen (walk code).length).1.pc.value = m.pc.value + .ofNat code.length := by
  have hstraight : ∀ part ∈ a.parts, part.1.isStraight := by
    cases a <;> simp only [FrameAccess.parts, List.forall_mem_cons] <;> decide
  have hquiet : ∀ part ∈ a.parts.dropLast, ∀ flags, ∀ w ∈ words part.1 flags, w.sink ≠ .ram := by
    cases a <;> simp only [FrameAccess.parts, List.dropLast, List.forall_mem_cons] <;> decide
  rw [a.assemble_line] at hline
  obtain ⟨hall, hlength, hmachine, hpc⟩ := afterSteps_of_encodeAll hline hm hcode hstraight hquiet seen
  have hcarries := makes_frameTransfer a hm hall seen
  have hbank := bank1_frameParts a hm hall
  rw [hlength]
  rw [← hmachine] at hpc hbank
  have hlast := hcarries.machine
  refine ⟨⟨congrArg Machine.regs hlast, fun c => ?_, (congrArg Machine.bp hlast :), (congrArg Machine.sp hlast :),
    hbank⟩, hpc⟩
  rw [hcarries.memory]
  exact m.memory_frameTransfer a c

/-- On the generated store a load from a frame takes the byte at BP plus the offset, stores put one there,
without effect in the bootstrap region, and Y and X can take the address itself. BP, SP, the flags of bank 1,
the other registers and all other cells stay as they are. What was stored outside the bootstrap region is what a
load from the same offset takes later, after whatever was done in between, if it left the cell alone and BP is
the same again. -/
theorem afterSteps_frameAccess {b : Builder} (hb : generate = .ok b) (hstore : m.store = b.store)
    (hcycle : m.cycle = 0) (a : FrameAccess) {code : List UInt8}
    (hline : assemble a.line.1 a.line.2 = .ok code)
    (hcode : m.bytesFrom m.pc.value code.length = code) (seen : Array UInt8) :
    let last := (m.afterSteps seen (walk code).length).1
    FrameEffect a m last ∧ last.pc.value = m.pc.value + .ofNat code.length ∧ last.cycle = 0 ∧
      ∀ v, a.value? m = some v → bootSize ≤ (m.frameCell a.offset).toNat →
        ∀ operations, last.Untouched (m.frameCell a.offset) operations → (last.after operations).bp = m.bp →
          ∀ (r : Register) (code' : List UInt8), assemble "ldf" [.imm a.offset, .register r] = .ok code' →
            (last.after operations).bytesFrom (last.after operations).pc.value code'.length = code' →
            ∀ seen', ((last.after operations).afterSteps seen' (walk code').length).1.regs =
              (last.after operations).regs.set r v := by
  obtain rfl := generated_eq hb
  have hm : m.AtBoundary := ⟨hstore, hcycle⟩
  obtain ⟨heffect, hpc⟩ := frameEffect_afterSteps a hm hline hcode seen
  have hlast : (m.afterSteps seen (walk code).length).1.AtBoundary := by
    rw [machine_afterSteps]
    exact hm.iterate_stepped _
  intro last
  refine ⟨heffect, hpc, hlast.cycle, ?_⟩
  intro v hvalue hcell operations huntouched hbp r code' hline' hcode' seen'
  have hload := (frameEffect_afterSteps (.ldf a.offset r) (hlast.after operations) hline' hcode' seen').1
  have hstored : (last.after operations).memory (m.frameCell a.offset) = v := by
    rw [huntouched.memory hcell, heffect.memory, if_pos ⟨rfl, hcell⟩, hvalue]
    rfl
  have hsame : (last.after operations).frameCell a.offset = m.frameCell a.offset := by
    rw [frameCell, frameCell, hbp]
  rw [hload.regs, FrameAccess.regs, hsame, hstored]

/-- The address of the cell carries into the next page, and the load comes right after the store. -/
theorem afterSteps_frameAccess_stf :
    let image : Array UInt8 := #[0x07, 0x05, 0x03, 0x70, 0x05]
    let m : Machine := { store := generated.store, boot := bootOf image, bp := .ofValue 0x1FFE }
    let last := (m.afterSteps #[] (walk [0x07, 0x05, 0x03]).length).1
    (generate = .ok generated ∧ m.store = generated.store ∧ m.cycle = 0) ∧
      assemble "stf" [.imm 5, .imm 3] = .ok [0x07, 0x05, 0x03] ∧
      m.bytesFrom m.pc.value 3 = [0x07, 0x05, 0x03] ∧ last.memory 0x2003 = 3 ∧ last.regs = m.regs ∧
      assemble "ldf" [.imm 5, .register .a] = .ok [0x70, 0x05] ∧
      last.bytesFrom last.pc.value 2 = [0x70, 0x05] ∧
      (last.afterSteps #[] (walk [0x70, 0x05]).length).1.regs.a = 3 := by
  intro image m last
  have hboot : m.boot = bootOf image := rfl
  have hline : assemble (FrameAccess.stfImm 5 3).line.1 (FrameAccess.stfImm 5 3).line.2 =
      .ok [0x07, 0x05, 0x03] := rfl
  have hcode : m.bytesFrom m.pc.value 3 = [0x07, 0x05, 0x03] := by
    rw [show m.pc.value = 0 from rfl, bytesFrom_of_boot hboot (by decide)]
    rfl
  obtain ⟨heffect, hpc, -, hload⟩ := afterSteps_frameAccess generate_eq rfl rfl (.stfImm 5 3) hline hcode #[]
  have hlastBoot : (m.afterSteps #[] (walk [0x07, 0x05, 0x03]).length).1.boot = bootOf image := by
    rw [machine_afterSteps, boot_iterate_stepped, hboot]
  have hlast : (m.afterSteps #[] (walk [0x07, 0x05, 0x03]).length).1 = last := rfl
  rw [hlast] at heffect hpc hload hlastBoot
  -- The effect of the store is all that counts; the machine after it is not to be evaluated.
  clear_value last
  have hcell : m.frameCell 5 = 0x2003 := by
    decide
  have hmemory : last.memory 0x2003 = 3 := by
    rw [heffect.memory, if_pos ⟨hcell.symm, by decide⟩]
    rfl
  have hcode' : last.bytesFrom last.pc.value 2 = [0x70, 0x05] := by
    have hnext : last.pc.value = 3 := by
      rw [hpc]
      rfl
    rw [hnext, bytesFrom_of_boot hlastBoot (by decide)]
    rfl
  have hnil (x : Machine) : x.after [] = x := rfl
  have hafter := hload 3 rfl (by decide) [] (List.forall_mem_nil _)
  rw [hnil] at hafter
  have hregs := hafter heffect.bp .a [0x70, 0x05] rfl hcode' #[]
  exact ⟨⟨generate_eq, rfl, rfl⟩, hline, hcode, hmemory, heffect.regs, rfl, hcode', congrArg Registers.a hregs⟩

end Machine

end Microcomputer
