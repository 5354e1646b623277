import Microcomputer.Proofs.Alu.Comparison
import Microcomputer.Proofs.Machine.Code

/-!
# Instructions of the arithmetic logic unit

What the logic, shift, arithmetic and comparison instructions compute is stated in terms of bytes and
shown of the microcode. Most of them have one step of the arithmetic logic unit. A shift to the right and
a swap of nibbles are chains of steps on T, in which each carry chooses the variant of the next word.
-/

namespace Microcomputer

open Control (Word)
open Control.Word (arith logical)
open Microcode

/-! ## What the instructions compute -/

/-- The effect of an instruction of the arithmetic logic unit: the flag bank that it belongs to, whether
its register takes the result, and the result as a function of the register, the source and the carry of
bank 1. -/
structure AluOperation where
  bank : Bool
  keeps : Bool
  result : UInt8 → UInt8 → Bool → Alu.Result UInt8

namespace Instruction

open Alu.Result (of)

/-- The instructions of the arithmetic logic unit. The carry of the logic functions is the one that the
unit has for the arithmetic function of the same select lines. -/
def aluOperation? : Instruction → Option AluOperation
  | not => some ⟨false, true, fun r _ _ => of (~~~r) false⟩
  | andReg | andImm => some ⟨false, true, fun r s _ => of (r &&& s) (r &&& s != 0)⟩
  | orReg | orImm => some ⟨false, true, fun r s _ => of (r ||| s) (256 ≤ (r ||| ~~~s).toNat + r.toNat)⟩
  | xorReg | xorImm => some ⟨false, true, fun r s _ => of (r ^^^ s) (s < r)⟩
  | shl => some ⟨false, true, fun r _ _ => of (r <<< 1) (128 ≤ r)⟩
  | shr => some ⟨false, true, fun r _ _ => of (r >>> 1) (r % 2 == 1)⟩
  | clr => some ⟨false, true, fun _ _ _ => of 0 false⟩
  | swap => some ⟨false, true, fun r _ _ => of (joinNibbles (lowNibble r) (highNibble r)) false⟩
  | inc => some ⟨true, true, fun r _ _ => of (r + 1) (256 ≤ r.toNat + 1)⟩
  | incCarry => some ⟨true, true, fun r _ c => of (r + c.toUInt8) (256 ≤ r.toNat + c.toNat)⟩
  | dec => some ⟨true, true, fun r _ _ => of (r - 1) (1 ≤ r.toNat)⟩
  | decCarry => some ⟨true, true, fun r _ c => of (r - 1 + c.toUInt8) (1 ≤ r.toNat + c.toNat)⟩
  | addReg | addImm => some ⟨true, true, fun r s _ => of (r + s) (256 ≤ r.toNat + s.toNat)⟩
  | addCarryReg | addCarryImm =>
    some ⟨true, true, fun r s c => of (r + s + c.toUInt8) (256 ≤ r.toNat + s.toNat + c.toNat)⟩
  | subReg | subImm => some ⟨true, true, fun r s _ => of (r - s) (s ≤ r)⟩
  | subCarryReg | subCarryImm =>
    some ⟨true, true, fun r s c => of (r - s - 1 + c.toUInt8) (s.toNat + 1 ≤ r.toNat + c.toNat)⟩
  | cmpReg | cmpImm => some ⟨true, false, fun r s _ => of (r - s) (s ≤ r)⟩
  | _ => none

end Instruction

/-- The register that an instruction of the arithmetic logic unit works on and the value of its source; a
register without a source is its own. -/
def Registers.aluArguments? (regs : Registers) : List Operand → Option (Register × UInt8)
  | [.register r] => some (r, regs.get r)
  | [.register s, .register r] => some (r, regs.get s)
  | [.imm value, .register r] => some (r, value)
  | _ => none

/-! ## One step -/

/-- What the lines of the arithmetic logic unit carry in one step. -/
structure AluStep where
  select : Nibble
  logic : Bool
  carryIn : Bool

namespace AluStep

/-- An arithmetic function with a carry in. -/
def arith (f : Alu.Arith) (carryIn : Bool) : AluStep :=
  { select := f.select, logic := false, carryIn }

/-- A logic function. -/
def logical (f : Alu.Logic) : AluStep :=
  { select := f.select, logic := true, carryIn := false }

/-- The step on two bytes. -/
def apply (step : AluStep) (a b : UInt8) : Alu.Result UInt8 :=
  Alu.byte a b step.select step.logic step.carryIn

/-- The word that makes the step on a register, with D on the side bus for a byte in the code. -/
def word (step : AluStep) (immediate : Bool) : Word :=
  { source := .abxy, sink := .aluT, side := if immediate then .d else .ab, select := step.select,
    logic := step.logic, carryIn := step.carryIn }

end AluStep

namespace Instruction

/-- The step of an instruction that has only one, under a carry. -/
def aluStep? : Instruction → Option (Bool → AluStep)
  | not => some fun _ => .logical .notA
  | andReg | andImm => some fun _ => .logical .and
  | orReg | orImm => some fun _ => .logical .or
  | xorReg | xorImm => some fun _ => .logical .xor
  | shl => some fun _ => .arith .aPlusA false
  | clr => some fun _ => .logical .zero
  | inc => some fun _ => .arith .a true
  | incCarry => some fun carry => .arith .a carry
  | dec => some fun _ => .arith .aMinusOne false
  | decCarry => some fun carry => .arith .aMinusOne carry
  | addReg | addImm => some fun _ => .arith .aPlusB false
  | addCarryReg | addCarryImm => some fun carry => .arith .aPlusB carry
  | subReg | subImm | cmpReg | cmpImm => some fun _ => .arith .aMinusBMinusOne true
  | subCarryReg | subCarryImm => some fun carry => .arith .aMinusBMinusOne carry
  | _ => none

variable {i : Instruction} {f : AluOperation} {step : Bool → AluStep}

/-- The step computes the result; an instruction of one register does not look at the side bus. -/
theorem apply_aluStep (hf : i.aluOperation? = some f) (hstep : i.aluStep? = some step) (r : UInt8)
    {s side : UInt8} (hs : i.kinds = [.abxy] ∨ side = s) (carry : Bool) :
    (step carry).apply r side = f.result r s carry := by
  have hsource (h : i.kinds ≠ [.abxy]) : side = s := hs.resolve_left h
  cases i <;> cases hf <;> cases hstep
  case not => exact Alu.byte_notA r side
  case clr => exact Alu.byte_zero r side
  case shl => exact Alu.byte_double r side
  case inc => exact Alu.byte_a r side true
  case incCarry => exact Alu.byte_a r side carry
  case dec => exact Alu.byte_predecessor r side
  case decCarry => exact Alu.byte_aMinusOne r side carry
  all_goals rw [hsource (by decide)]
  case andReg | andImm => exact Alu.byte_and r s
  case orReg | orImm => exact Alu.byte_or r s
  case xorReg | xorImm => exact Alu.byte_xor r s
  case addReg | addImm => exact Alu.byte_plus r s
  case addCarryReg | addCarryImm => exact Alu.byte_aPlusB r s carry
  case subCarryReg | subCarryImm => exact Alu.byte_aMinusBMinusOne r s carry
  all_goals exact Alu.byte_difference r s

end Instruction

namespace Machine

open Instruction

variable {m : Machine} {i : Instruction}

/-- The machine after an instruction that brought a result of the arithmetic logic unit to T and to the
flags, and to its register if that keeps it. The source can be a byte in the code, which goes to D. -/
def settle (m : Machine) (n : Nat) (immediate keeps : Bool) (result : Alu.Result UInt8) : Machine :=
  { m.elapse n with
    i := m.memory m.pc.value
    pc := if immediate then m.pc.next.next else m.pc.next
    d := if immediate then m.memory m.pc.next.value else m.d
    t := result.value
    regs := if keeps then m.regs.set (.ofBits (m.memory m.pc.value).toNat) result.value else m.regs
    flags := m.flags.set (m.memory m.pc.value &&& flagBankBit != 0) ⟨result.carry, result.zero⟩
    cycle := 0 }

/-- The words of an instruction with one step of the arithmetic logic unit. -/
def aluTrack (immediate keeps : Bool) (step : Bool → AluStep) : List (Flags → Word) :=
  fixed (if immediate then [stepPc, loadD] else []) ++
    (fun flags => (step flags.carry).word immediate) ::
      fixed (if keeps then [keepResult, Microcode.advance] else [Microcode.advance])

theorem track_alu {f : AluOperation} {step : Bool → AluStep} (hf : i.aluOperation? = some f)
    (hstep : i.aluStep? = some step) : Track i (aluTrack (i.size != 1) f.keeps step) := by
  have h : ∀ i : Instruction, i.aluOperation?.all fun f => i.aluStep?.all fun step =>
      decide (Track i (aluTrack (i.size != 1) f.keeps step)) := by
    decide
  have htrack := h i
  rw [hf, hstep] at htrack
  exact of_decide_eq_true htrack

theorem follow_aluTrack (m : Machine) (immediate keeps : Bool) (step : Bool → AluStep) :
    (m.perform fetch).follow (aluTrack immediate keeps step) =
      m.settle (3 + 2 * immediate.toNat + keeps.toNat) immediate keeps
        ((step (m.flags.get (m.memory m.pc.value &&& flagBankBit != 0)).carry).apply
          (m.regs.get (.ofBits (m.memory m.pc.value).toNat))
          (if immediate then m.memory m.pc.next.value
            else m.regs.get (.ofBits ((m.memory m.pc.value).toNat / 4 % 2)))) := by
  have hword (m : Machine) (step : AluStep) : m.perform (step.word immediate) =
      (m.latch (step.apply (m.regs.get (.ofBits m.i.toNat))
        (if immediate then m.d else m.regs.get (.ofBits (m.i.toNat / 4 % 2))))).elapse 1 := by
    cases immediate <;> rfl
  cases immediate <;> cases keeps
  all_goals
    simp only [aluTrack, fixed, follow, List.map, List.foldl, Bool.false_eq_true, if_false, if_true,
      List.nil_append, List.cons_append, perform_fetch, perform_stepPc, perform_loadD, hword,
      perform_keepResult, perform_advance, settle, elapse, latch, activeFlags, flagBank, memory]
    rfl

/-! ## Chains of steps -/

/-- A step on T: an arithmetic function with a fixed carry in, or with the carry of the step before. -/
abbrev ChainStep := Alu.Arith × Option Bool

/-- The word of a step on T. -/
def chainWord (step : ChainStep) (flags : Flags) : Word :=
  arith .t .ab step.1 (step.2.getD flags.carry)

/-- The result of a step on T, over what the side bus carries. -/
def chainResult (side : UInt8) (result : Alu.Result UInt8) (step : ChainStep) : Alu.Result UInt8 :=
  Alu.byte result.value side step.1.select false (step.2.getD result.carry)

/-- A chain passes value and carry from step to step and changes nothing else. -/
theorem follow_chain (m : Machine) (steps : List ChainStep) (result : Alu.Result UInt8) (n : Nat) :
    ((m.latch result).elapse n).follow (steps.map chainWord) =
      (m.latch (steps.foldl (chainResult (m.side (arith .t .ab .a false))) result)).elapse
        (n + steps.length) := by
  induction steps generalizing result n with
  | nil => rfl
  | cons step steps ih =>
    have hflags : ((m.latch result).elapse n).activeFlags = ⟨result.carry, result.zero⟩ :=
      m.activeFlags_latch result
    have hstep : ((m.latch result).elapse n).perform
        (chainWord step ((m.latch result).elapse n).activeFlags) =
          (m.latch (chainResult (m.side (arith .t .ab .a false)) result step)).elapse (n + 1) := by
      rw [hflags]
      exact congrArg (elapse · (n + 1)) (m.latch_latch result _)
    rw [List.map_cons, List.foldl_cons, List.length_cons, follow, List.foldl_cons, hstep,
      Nat.add_comm steps.length, ← Nat.add_assoc]
    exact ih _ _

/-- The steps of a shift to the right after the first one. -/
def shrSteps : List ChainStep :=
  List.replicate 7 (.aPlusA, none)

/-- The steps of a swap of nibbles after the first one. -/
def swapSteps : List ChainStep :=
  (.a, none) :: (List.replicate 3 [(.aPlusA, some false), (.a, none)]).flatten

/-- The result of a step that does not depend on the side bus, as a sum. -/
def chainSum (result : Alu.Result UInt8) (step : ChainStep) : Alu.Result UInt8 :=
  let total := step.1.total result.value.toNat 0 + (step.2.getD result.carry).toNat
  .of (.ofNat total) (256 ≤ total)

theorem foldl_chainResult {steps : List ChainStep} (hsteps : ∀ step ∈ steps, step.1 = .a ∨ step.1 = .aPlusA)
    (side : UInt8) (result : Alu.Result UInt8) :
    steps.foldl (chainResult side) result = steps.foldl chainSum result := by
  refine List.foldl_ext _ _ _ fun result step hstep => ?_
  rw [chainResult, Alu.byte_arith]
  obtain ⟨f, carryIn⟩ := step
  rcases hsteps _ hstep with h | h <;> cases h <;> rfl

theorem foldl_shrSteps (r side : UInt8) :
    shrSteps.foldl (chainResult side) (.of (r <<< 1) (128 ≤ r)) = .of (r >>> 1) (r % 2 == 1) := by
  -- Without the side bus the register is all that the result depends on.
  rw [foldl_chainResult (by decide)]
  revert r
  exact forall_byte (by decide)

theorem foldl_swapSteps (r side : UInt8) :
    swapSteps.foldl (chainResult side) (.of (r <<< 1) (128 ≤ r)) =
      .of (joinNibbles (lowNibble r) (highNibble r)) false := by
  rw [foldl_chainResult (by decide)]
  revert r
  exact forall_byte (by decide)

/-- The words of an instruction that works on T in a chain of steps. -/
def chainTrack (steps : List ChainStep) : List (Flags → Word) :=
  (fun _ => arith .abxy .ab .aPlusA false) ::
    (steps.map chainWord ++ fixed [keepResult, Microcode.advance])

theorem track_shr : Track .shr (chainTrack shrSteps) := by
  decide

theorem track_swap : Track .swap (chainTrack swapSteps) := by
  decide

theorem follow_chainTrack (m : Machine) (steps : List ChainStep) :
    let r := m.regs.get (.ofBits (m.memory m.pc.value).toNat)
    let side := m.regs.get (.ofBits ((m.memory m.pc.value).toNat / 4 % 2))
    (m.perform fetch).follow (chainTrack steps) =
      m.settle (4 + steps.length) false true
        (steps.foldl (chainResult side) (.of (r <<< 1) (128 ≤ r))) := by
  intro r side
  have hfirst : (m.perform fetch).perform (arith .abxy .ab .aPlusA false) =
      ({ m with i := m.memory m.pc.value }.latch (.of (r <<< 1) (128 ≤ r))).elapse 2 := by
    rw [← Alu.byte_double r side]
    rfl
  have hchain := { m with i := m.memory m.pc.value }.follow_chain steps (.of (r <<< 1) (128 ≤ r)) 2
  rw [chainTrack, follow, List.foldl_cons, hfirst, ← follow, follow_append, hchain,
    Nat.add_right_comm 2 2]
  rfl

/-! ## One instruction -/

variable {f : AluOperation} {operands : List Operand} {r : Register} {s : UInt8}

theorem kinds_of_aluOperation (hf : i.aluOperation? = some f) :
    i.kinds = [.abxy] ∨ i.kinds = [.ab, .abxy] ∨ i.kinds = [.imm, .abxy] := by
  have h : ∀ i : Instruction, i.aluOperation?.isSome →
      i.kinds = [.abxy] ∨ i.kinds = [.ab, .abxy] ∨ i.kinds = [.imm, .abxy] := by
    decide
  exact h i (by rw [hf]; rfl)

theorem bank_of_aluOperation (hf : i.aluOperation? = some f) : i.bank = f.bank := by
  have h : ∀ i : Instruction, i.aluOperation?.all (i.bank == ·.bank) := by
    decide
  have hbank := h i
  rw [hf] at hbank
  exact beq_iff_eq.mp hbank

theorem result_of_bank (hf : i.aluOperation? = some f) (hbank : f.bank = false) (r s : UInt8)
    (carry carry' : Bool) : f.result r s carry = f.result r s carry' := by
  cases i <;> cases hf <;> first | rfl | contradiction

/-- The register is in the opcode, and the source is in the opcode or in the byte after it. -/
theorem Executes.aluArguments (hexec : m.Executes i operands) (hf : i.aluOperation? = some f)
    (hargs : m.regs.aluArguments? operands = some (r, s)) :
    r = .ofBits (m.memory m.pc.value).toNat ∧ (i.kinds = [.abxy] ∨
      i.kinds = [.ab, .abxy] ∧ s = m.regs.get (.ofBits ((m.memory m.pc.value).toNat / 4 % 2)) ∨
      i.kinds = [.imm, .abxy] ∧ s = m.memory m.pc.next.value) := by
  rcases kinds_of_aluOperation hf with hk | hk | hk
  · rw [hexec.register hk] at hargs
    cases hargs
    exact ⟨rfl, .inl hk⟩
  · rw [hexec.registers hk] at hargs
    cases hargs
    exact ⟨rfl, .inr (.inl ⟨hk, rfl⟩)⟩
  · rw [hexec.immRegister hk] at hargs
    cases hargs
    exact ⟨rfl, .inr (.inr ⟨hk, rfl⟩)⟩

theorem exists_stepped_eq_settle (hm : m.AtBoundary) (hexec : m.Executes i operands)
    (hf : i.aluOperation? = some f) (hargs : m.regs.aluArguments? operands = some (r, s)) :
    ∃ n, m.stepped =
      m.settle n (i.size != 1) f.keeps (f.result (m.regs.get r) s m.flags.bank1.carry) := by
  have hbank := (bank_of_owns hexec.owns).trans (bank_of_aluOperation hf)
  obtain ⟨hr, hs⟩ := hexec.aluArguments hf hargs
  have hcarry : f.result (m.regs.get r) s (m.flags.get f.bank).carry =
      f.result (m.regs.get r) s m.flags.bank1.carry := by
    cases hb : f.bank with
    | false => exact result_of_bank hf hb _ _ _ _
    | true => rfl
  have hshape : ∀ i : Instruction, i.aluOperation?.isSome →
      i = .shr ∨ i = .swap ∨ i.aluStep?.isSome := by
    decide
  -- The unit cannot shift to the right, so shr and swap work on T in a chain; the others take one step.
  rcases hshape i (by rw [hf]; rfl) with rfl | rfl | hstep
  · obtain rfl := Option.some.inj hf
    refine ⟨4 + shrSteps.length, ?_⟩
    rw [stepped_eq_follow track_shr hm hexec.owns, follow_chainTrack, foldl_shrSteps, ← hr]
    rfl
  · obtain rfl := Option.some.inj hf
    refine ⟨4 + swapSteps.length, ?_⟩
    rw [stepped_eq_follow track_swap hm hexec.owns, follow_chainTrack, foldl_swapSteps, ← hr]
    rfl
  · obtain ⟨step, hstep⟩ := Option.isSome_iff_exists.mp hstep
    refine ⟨3 + 2 * (i.size != 1).toNat + f.keeps.toNat, ?_⟩
    rw [stepped_eq_follow (track_alu hf hstep) hm hexec.owns, follow_aluTrack, ← hr, hbank,
      apply_aluStep hf hstep (m.regs.get r) ?_, hcarry]
    rcases hs with hk | ⟨hk, rfl⟩ | ⟨hk, rfl⟩
    · exact .inl hk
    · rw [size, hk]
      exact .inr rfl
    · rw [size, hk]
      exact .inr rfl

theorem stepped_aluOperation (hm : m.AtBoundary) (hexec : m.Executes i operands)
    (hf : i.aluOperation? = some f) (hargs : m.regs.aluArguments? operands = some (r, s)) :
    let result := f.result (m.regs.get r) s m.flags.bank1.carry
    ∃ n, m.stepped = { m.elapse n with
      i := m.memory m.pc.value
      pc := .ofValue (m.pc.value + .ofNat i.size)
      d := if i.size = 1 then m.d else s
      t := result.value
      regs := if f.keeps then m.regs.set r result.value else m.regs
      flags := m.flags.set f.bank ⟨result.carry, result.zero⟩
      cycle := 0 } := by
  obtain ⟨n, hn⟩ := exists_stepped_eq_settle hm hexec hf hargs
  obtain ⟨hr, hs⟩ := hexec.aluArguments hf hargs
  refine ⟨n, ?_⟩
  rw [hn, settle, ← hr, bank_of_owns hexec.owns, bank_of_aluOperation hf]
  rcases hs with hk | ⟨hk, -⟩ | ⟨hk, rfl⟩
  · rw [size, hk]
    rfl
  · rw [size, hk]
    rfl
  · rw [size, hk]
    simp only [RegisterPair.next_next]
    rfl

/-- On the generated store every instruction of the arithmetic logic unit computes what is stated of it,
in its register and in the flags of its bank, and changes nothing else but I, PC, T, the time, and D where
the source is a byte in the code. -/
theorem step_aluOperation {σ : Type} {b : Builder} (hb : generate = .ok b) (hstore : m.store = b.store)
    (hcycle : m.cycle = 0) (hexec : m.Executes i operands) (hf : i.aluOperation? = some f)
    (hargs : m.regs.aluArguments? operands = some (r, s)) (o : Observer σ) (seen : σ) :
    let result := f.result (m.regs.get r) s m.flags.bank1.carry
    ∃ n,
      (m.step o seen).machine = { m.elapse n with
        i := m.memory m.pc.value
        pc := .ofValue (m.pc.value + .ofNat i.size)
        d := if i.size = 1 then m.d else s
        t := result.value
        regs := if f.keeps then m.regs.set r result.value else m.regs
        flags := m.flags.set f.bank ⟨result.carry, result.zero⟩
        cycle := 0 } ∧
      (m.elapse n).input &&& ~~~InputLines.clockBit = m.input &&& ~~~InputLines.clockBit := by
  have hm : m.AtBoundary := ⟨by rw [hstore, generated_eq hb], hcycle⟩
  obtain ⟨n, hn⟩ := stepped_aluOperation hm hexec hf hargs
  exact ⟨n, (m.machine_step o seen).trans hn, m.input_elapse n⟩

/-- The carry of bank 1 makes 250 and 5 a sum of 256. -/
theorem step_aluOperation_addc :
    let m : Machine :=
      { store := generated.store, boot := bootOf #[0xB4, 0x05], regs := { a := 250 },
        flags := { bank1 := { carry := true } } }
    (generate = .ok generated ∧ m.store = generated.store ∧ m.cycle = 0) ∧
      m.Executes .addCarryImm [.imm 5, .register .a] ∧
      (m.step Observer.silent ()).machine.regs.a = 0 ∧
      (m.step Observer.silent ()).machine.flags.bank1 = { carry := true, zero := true } ∧
      (m.step Observer.silent ()).machine.pc.value = 2 := by
  intro m
  have hexec : m.Executes .addCarryImm [.imm 5, .register .a] :=
    executes_of_boot rfl rfl (by decide) (by rfl)
  obtain ⟨n, hn, -⟩ := step_aluOperation generate_eq rfl rfl hexec rfl rfl Observer.silent ()
  have hresult : Alu.Result.of (250 + 5 + true.toUInt8)
      (256 ≤ (250 : UInt8).toNat + (5 : UInt8).toNat + true.toNat) = ⟨0, true, true⟩ := by
    decide
  refine ⟨⟨generate_eq, rfl, rfl⟩, hexec, ?_, ?_, ?_⟩
  · exact (congrArg (·.regs.a) hn).trans (congrArg (·.value) hresult)
  · exact (congrArg (·.flags.bank1) hn).trans (congrArg (fun r => Flags.mk r.carry r.zero) hresult)
  · exact (congrArg (·.pc.value) hn).trans (RegisterPair.value_ofValue 2)

end Machine

end Microcomputer
