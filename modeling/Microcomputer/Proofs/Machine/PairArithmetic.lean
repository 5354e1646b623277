import Microcomputer.Instruction.Assembly
import Microcomputer.Proofs.Machine.Arithmetic
import Microcomputer.Proofs.Machine.Frames
import Microcomputer.Proofs.Machine.Transfers

/-!
# Counting in the pair of Y and X

The arithmetic logic unit works on bytes, so a sum over the pair takes two instructions. The one on X leaves
its carry in bank 1, where the one on Y takes it up. A difference has its carry set where nothing is borrowed,
in both halves and so in the whole.
-/

namespace Microcomputer

open Instruction
open Microcode

/-! ## Carries of all sixteen bits -/

namespace RegisterPair

variable (p : RegisterPair) (n : UInt8)

theorem carry_plus : decide (256 ≤ p.high.toNat + (decide (256 ≤ p.low.toNat + n.toNat)).toNat) =
    decide (65536 ≤ p.value.toNat + n.toNat) := by
  have hhigh := p.high.toNat_lt
  have hlow := p.low.toNat_lt
  have hn := n.toNat_lt
  rw [toNat_value, decide_eq_decide]
  by_cases h : 256 ≤ p.low.toNat + n.toNat
  · rw [decide_eq_true h, Bool.toNat_true]
    omega
  · rw [decide_eq_false h, Bool.toNat_false]
    omega

theorem carry_minus : decide (1 ≤ p.high.toNat + (decide (n ≤ p.low)).toNat) =
    decide (n.toNat ≤ p.value.toNat) := by
  have hlow := p.low.toNat_lt
  have hn := n.toNat_lt
  simp only [toNat_value, decide_eq_decide, UInt8.le_iff_toNat_le]
  by_cases h : n.toNat ≤ p.low.toNat
  · rw [decide_eq_true h, Bool.toNat_true]
    omega
  · rw [decide_eq_false h, Bool.toNat_false]
    omega

end RegisterPair

/-! ## Lines -/

/-- The lines that count in the pair of Y and X. -/
inductive PairOperation where
  | incp
  | decp
  | addp (r : Register)
  | addpImm (v : UInt8)
  | subp (r : Register)
  | subpImm (v : UInt8)
deriving DecidableEq, Repr

namespace PairOperation

/-- The mnemonic and the operands of the line. -/
def line : PairOperation → String × List Operand
  | incp => ("incp", [])
  | decp => ("decp", [])
  | addp r => ("addp", [.register r])
  | addpImm v => ("addp", [.imm v])
  | subp r => ("subp", [.register r])
  | subpImm v => ("subp", [.imm v])

/-- The line counts down. -/
def isDown : PairOperation → Bool
  | decp | subp _ | subpImm _ => true
  | _ => false

/-- What the line adds to the pair, or takes from it. -/
def amount (regs : Registers) : PairOperation → UInt8
  | incp | decp => 1
  | addp r | subp r => regs.get r
  | addpImm v | subpImm v => v

/-- The instruction on X. -/
def low : PairOperation → Instruction × List Operand
  | incp => (inc, [.register .x])
  | decp => (dec, [.register .x])
  | addp r => (addReg, [.register r, .register .x])
  | addpImm v => (addImm, [.imm v, .register .x])
  | subp r => (subReg, [.register r, .register .x])
  | subpImm v => (subImm, [.imm v, .register .x])

/-- The instruction on Y. -/
def high (o : PairOperation) : Instruction × List Operand :=
  (if o.isDown then decCarry else incCarry, [.register .y])

theorem assemble_line (o : PairOperation) : assemble o.line.1 o.line.2 = encodeAll [o.low, o.high] := by
  cases o <;> rfl

/-- The pair after the line. -/
def count (o : PairOperation) (p : RegisterPair) (n : UInt8) : RegisterPair :=
  if o.isDown then p.minus n else p.plus n

/-- The carry that the instruction on X leaves to the one on Y. -/
def lowCarry (o : PairOperation) (x n : UInt8) : Bool :=
  if o.isDown then n ≤ x else 256 ≤ x.toNat + n.toNat

/-- The carry of all sixteen bits. -/
def carry (o : PairOperation) (p : RegisterPair) (n : UInt8) : Bool :=
  if o.isDown then n.toNat ≤ p.value.toNat else 65536 ≤ p.value.toNat + n.toNat

theorem value_count (o : PairOperation) (p : RegisterPair) (n : UInt8) :
    (o.count p n).value = if o.isDown then p.value - n.toUInt16 else p.value + n.toUInt16 := by
  unfold count
  split
  · exact p.value_minus n
  · exact p.value_plus n

end PairOperation

namespace Machine

open Alu.Result (of)

variable {m : Machine} {o : PairOperation}

/-! ## The two halves -/

/-- The instruction on X computes the low half and leaves a carry, whatever carry there was. -/
theorem aluOperation_low (o : PairOperation) (regs : Registers) : ∃ f s,
    o.low.1.aluOperation? = some f ∧ regs.aluArguments? o.low.2 = some (.x, s) ∧ f.bank = true ∧
      f.keeps = true ∧ ∀ p : RegisterPair, ∀ c, f.result p.low s c =
        of (o.count p (o.amount regs)).low (o.lowCarry p.low (o.amount regs)) := by
  cases o with
  | decp =>
    refine ⟨_, _, rfl, rfl, rfl, rfl, fun p c => congrArg (of _) (decide_eq_decide.mpr ?_)⟩
    have hone : (1 : UInt8) ≤ p.low ↔ 1 ≤ p.low.toNat := UInt8.le_iff_toNat_le
    exact hone.symm
  | _ => exact ⟨_, _, rfl, rfl, rfl, rfl, fun _ _ => rfl⟩

/-- The instruction on Y takes that carry and leaves the one of all sixteen bits. -/
theorem aluOperation_high (o : PairOperation) : ∃ f,
    o.high.1.aluOperation? = some f ∧ f.bank = true ∧ f.keeps = true ∧
      ∀ (p : RegisterPair) (n s : UInt8), f.result p.high s (o.lowCarry p.low n) =
        of (o.count p n).high (o.carry p n) := by
  unfold PairOperation.high PairOperation.lowCarry PairOperation.count PairOperation.carry
  cases o.isDown with
  | false => exact ⟨_, rfl, rfl, rfl, fun p n _ => congrArg (of _) (p.carry_plus n)⟩
  | true => exact ⟨_, rfl, rfl, rfl, fun p n _ => congrArg (of _) (p.carry_minus n)⟩

/-- An instruction that counts in bank 1 and keeps its result changes a register and the flags of that bank,
but for the inner parts. -/
theorem stepped_kept {i : Instruction} {f : AluOperation} {operands : List Operand} {r : Register}
    {s value : UInt8} {carry : Bool} (hm : m.AtBoundary) (hexec : m.Executes i operands)
    (hf : i.aluOperation? = some f) (hargs : m.regs.aluArguments? operands = some (r, s)) (hbank : f.bank = true)
    (hkeeps : f.keeps = true) (hresult : f.result (m.regs.get r) s m.flags.bank1.carry = of value carry) :
    m.stepped = (m.transferred { regs := m.regs.set r value }).withInner m.stepped ∧
      m.stepped.flags = { m.flags with bank1 := ⟨carry, value == 0⟩ } := by
  obtain ⟨k, hk⟩ := stepped_aluOperation hm hexec hf hargs
  rw [hresult, hbank, hkeeps] at hk
  rw [hk]
  exact ⟨rfl, rfl⟩

theorem stepped_count (hm : m.AtBoundary) (h : m.ExecutesAll [o.low, o.high]) :
    let n := o.amount m.regs
    let p := o.count m.xy n
    m.stepped.stepped =
        (m.transferred { regs := { m.regs with x := p.low, y := p.high } }).withInner m.stepped.stepped ∧
      m.stepped.stepped.flags = { m.flags with bank1 := ⟨o.carry m.xy n, p.high == 0⟩ } := by
  intro n p
  obtain ⟨hexecLow, hexecHigh, -⟩ := h
  obtain ⟨f, s, hf, hargs, hbank, hkeeps, hresult⟩ := aluOperation_low o m.regs
  obtain ⟨hlow, hflags⟩ := stepped_kept hm hexecLow hf hargs hbank hkeeps (hresult m.xy _)
  have hregs : m.stepped.regs = { m.regs with x := p.low } := congrArg Machine.regs hlow
  have hy : m.stepped.regs.get .y = m.regs.y := by
    rw [hregs]
    rfl
  have hcarry : m.stepped.flags.bank1.carry = o.lowCarry m.regs.x n := congrArg (·.bank1.carry) hflags
  obtain ⟨g, hg, hbank', hkeeps', hresult'⟩ := aluOperation_high o
  have hhighResult : g.result (m.stepped.regs.get .y) (m.stepped.regs.get .y) m.stepped.flags.bank1.carry =
      of p.high (o.carry m.xy n) := by
    rw [hy, hcarry]
    exact hresult' m.xy n _
  obtain ⟨hhigh, hflags'⟩ := stepped_kept hm.stepped hexecHigh hg rfl hbank' hkeeps' hhighResult
  rw [hregs] at hhigh
  rw [hflags] at hflags'
  exact ⟨eq_transferred_trans hlow hhigh, hflags'⟩

/-! ## The whole line -/

theorem executesAll_count (hm : m.AtBoundary) {code : List UInt8} (h : encodeAll [o.low, o.high] = .ok code)
    (hcode : m.bytesFrom m.pc.value code.length = code) (seen : Array UInt8) :
    m.ExecutesAll [o.low, o.high] ∧ (m.afterSteps seen (walk code).length).1 = m.stepped.stepped ∧
      m.stepped.stepped.pc.value = m.pc.value + .ofNat code.length := by
  have hlow : o.low.1.isStraight := by
    cases o <;> rfl
  have hhigh : o.high.1.isStraight := by
    unfold PairOperation.high
    cases o.isDown <;> rfl
  have hquiet : ∀ flags, ∀ w ∈ words o.low.1 flags, w.sink ≠ .ram := by
    cases o <;> simp only [PairOperation.low] <;> decide
  obtain ⟨hall, hlength, hmachine, hpc⟩ := afterSteps_of_encodeAll h hm hcode
    (List.forall_mem_cons.mpr ⟨hlow, List.forall_mem_singleton.mpr hhigh⟩)
    (List.forall_mem_singleton.mpr hquiet) seen
  rw [hlength]
  exact ⟨hall, hmachine, hpc⟩

/-- On the generated store a line that counts in the pair leaves the sum or the difference of all sixteen bits
in Y and X and its carry in bank 1. A and B, SP, BP, memory and the flags of bank 0 stay as they are. -/
theorem afterSteps_pairOperation {b : Builder} (hb : generate = .ok b) (hstore : m.store = b.store)
    (hcycle : m.cycle = 0) (o : PairOperation) {code : List UInt8}
    (hline : assemble o.line.1 o.line.2 = .ok code)
    (hcode : m.bytesFrom m.pc.value code.length = code) (seen : Array UInt8) :
    let n := o.amount m.regs
    let last := (m.afterSteps seen (walk code).length).1
    last.xy.value = (if o.isDown then m.xy.value - n.toUInt16 else m.xy.value + n.toUInt16) ∧
      last.flags.bank1.carry =
        (if o.isDown then n.toNat ≤ m.xy.value.toNat else 65536 ≤ m.xy.value.toNat + n.toNat : Bool) ∧
      last.regs.a = m.regs.a ∧ last.regs.b = m.regs.b ∧ last.sp = m.sp ∧ last.bp = m.bp ∧
      last.memory = m.memory ∧ last.flags.bank0 = m.flags.bank0 ∧
      last.pc.value = m.pc.value + .ofNat code.length ∧ last.cycle = 0 := by
  obtain rfl := generated_eq hb
  have hm : m.AtBoundary := ⟨hstore, hcycle⟩
  rw [o.assemble_line] at hline
  obtain ⟨hall, hmachine, hpc⟩ := executesAll_count hm hline hcode seen
  obtain ⟨hlast, hflags⟩ := stepped_count hm hall
  have hxy : m.stepped.stepped.xy = o.count m.xy (o.amount m.regs) := by
    rw [hlast]
    rfl
  have hmemory : m.stepped.stepped.memory = m.memory := by
    rw [hlast]
    exact memory_congr rfl rfl
  have hbank : m.stepped.stepped.flags.bank0 = m.flags.bank0 := by
    rw [hflags]
  rw [hmachine]
  refine ⟨?_, ?_, congrArg (·.regs.a) hlast, congrArg (·.regs.b) hlast, (congrArg Machine.sp hlast :),
    (congrArg Machine.bp hlast :), hmemory, hbank, hpc, hm.stepped.stepped.cycle⟩
  · rw [hxy, o.value_count]
  · rw [hflags]
    rfl

/-- Three taken from two borrows out of the pair, whatever carry the flags had. -/
theorem afterSteps_pairOperation_subp :
    let m : Machine :=
      { store := generated.store, boot := bootOf #[0xBA, 0x03, 0x8F], regs := { a := 7, x := 2 },
        flags := { bank0 := { carry := true }, bank1 := { carry := true } } }
    let code : List UInt8 := [0xBA, 0x03, 0x8F]
    let last := (m.afterSteps #[] (walk code).length).1
    (generate = .ok generated ∧ m.store = generated.store ∧ m.cycle = 0) ∧
      assemble "subp" [.imm 3] = .ok code ∧ m.bytesFrom m.pc.value code.length = code ∧
      last.xy.value = 0xFFFF ∧ last.flags.bank1.carry = false ∧ last.regs.a = 7 ∧
      last.flags.bank0 = { carry := true } ∧ last.pc.value = 3 := by
  intro m code last
  have hline : assemble (PairOperation.subpImm 3).line.1 (PairOperation.subpImm 3).line.2 = .ok code := rfl
  have hboot : m.boot = bootOf #[0xBA, 0x03, 0x8F] := rfl
  have hcode : m.bytesFrom m.pc.value code.length = code := by
    rw [show m.pc.value = 0 from rfl, bytesFrom_of_boot hboot (by decide)]
    rfl
  obtain ⟨hxy, hcarry, ha, -, -, -, -, hbank, hpc, -⟩ :=
    afterSteps_pairOperation (m := m) generate_eq rfl rfl (.subpImm 3) hline hcode #[]
  have hdifference : m.xy.value - (3 : UInt8).toUInt16 = 0xFFFF := by
    decide
  have hborrow : decide ((3 : UInt8).toNat ≤ m.xy.value.toNat) = false := by
    decide
  exact ⟨⟨generate_eq, rfl, rfl⟩, hline, hcode, hxy.trans hdifference, hcarry.trans hborrow, ha, hbank, hpc⟩

end Machine

end Microcomputer
