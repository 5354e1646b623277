import Microcomputer.Proofs.Machine.Arithmetic

/-!
# Comparison and branch

A comparison leaves in bank 1 how its source and its register relate, instructions of bank 0 and those
without arithmetic leave bank 1 alone, and a conditional jump decides by it. So a jump finds the relation
of the last comparison, however many such instructions lie between them.
-/

namespace Microcomputer

open Microcode

/-! ## Relations -/

namespace Instruction

/-- The conditional jumps with the relations of a source and a register that they stand for. -/
def relations : List (Instruction × (UInt8 → UInt8 → Bool)) :=
  [(je, fun s r => s == r), (jne, fun s r => s != r), (jg, fun s r => r < s), (jge, fun s r => r ≤ s),
    (jl, fun s r => s < r), (jle, fun s r => s ≤ r)]

/-- On the flags that a comparison leaves, the condition of a jump is its relation. -/
theorem condition_of_relation {j : Instruction} {holds : UInt8 → UInt8 → Bool}
    (hj : (j, holds) ∈ relations) :
    ∃ taken, (j, taken) ∈ conditions ∧ ∀ s r : UInt8, taken (s ≤ r) (r - s == 0) = holds s r := by
  have hzero (s r : UInt8) : (r - s == 0) = decide (r.toNat = s.toNat) := by
    rw [Alu.sub_beq_zero, Bool.beq_eq_decide_eq, decide_eq_decide, UInt8.toNat_inj]
  simp only [relations, List.mem_cons, List.not_mem_nil, or_false, Prod.mk.injEq] at hj
  rcases hj with ⟨rfl, rfl⟩ | ⟨rfl, rfl⟩ | ⟨rfl, rfl⟩ | ⟨rfl, rfl⟩ | ⟨rfl, rfl⟩ | ⟨rfl, rfl⟩
  · refine ⟨_, .head _, fun s r => ?_⟩
    rw [Alu.sub_beq_zero, Bool.beq_comm]
  · refine ⟨_, .tail _ (.head _), fun s r => ?_⟩
    rw [Alu.sub_beq_zero, Bool.beq_comm]
    rfl
  · refine ⟨_, .tail _ (.tail _ (.head _)), fun s r => ?_⟩
    rw [← decide_not, decide_eq_decide, UInt8.not_le]
  · refine ⟨_, .tail _ (.tail _ (.tail _ (.head _))), fun s r => ?_⟩
    rw [hzero, ← decide_not, ← Bool.decide_or, decide_eq_decide, UInt8.le_iff_toNat_le, UInt8.le_iff_toNat_le]
    omega
  · refine ⟨_, .tail _ (.tail _ (.tail _ (.tail _ (.head _)))), fun s r => ?_⟩
    rw [hzero, ← decide_not, ← Bool.decide_and, decide_eq_decide, UInt8.le_iff_toNat_le, UInt8.lt_iff_toNat_lt]
    omega
  · exact ⟨_, .tail _ (.tail _ (.tail _ (.tail _ (.tail _ (.head _))))), fun s r => rfl⟩

end Instruction

namespace Machine

open Instruction

variable {m : Machine} {i j : Instruction}

/-! ## Between comparison and jump -/

theorem bank1_stepped (hm : m.AtBoundary)
    (hout : m.memory m.pc.value < 0x80 ∨ 0xCB < m.memory m.pc.value) :
    m.stepped.flags.bank1 = m.flags.bank1 := by
  obtain ⟨i, hi⟩ := exists_owner (m.memory m.pc.value)
  -- Opcodes from 0x80 on select bank 1, but those after the arithmetic block have no step that sets flags.
  have hblock : ∀ i : Instruction, i.bank = false ∨
      0x80 ≤ i.opcode.toNat ∧ i.opcode.toNat + i.blockWidth ≤ 0xCC ∨
      ∀ flags, ∀ w ∈ words i flags, w.sink ≠ .aluT := by
    decide
  rcases hblock i with hbank | ⟨hlow, hhigh⟩ | hq
  · have hother : i.bank ≠ true := by
      rw [hbank]
      decide
    exact get_flags_stepped hm hi hother
  · simp only [owns_iff, UInt8.lt_iff_toNat_lt, UInt8.reduceToNat] at hi hout
    omega
  · rw [flags_stepped hm hi hq]

theorem bank1_iterate_stepped (hm : m.AtBoundary) (n : Nat)
    (hout : ∀ k < n, let opcode := (stepped^[k] m).memory (stepped^[k] m).pc.value
      opcode < 0x80 ∨ 0xCB < opcode) :
    (stepped^[n] m).flags.bank1 = m.flags.bank1 := by
  induction n with
  | zero => rfl
  | succ n ih =>
    rw [Function.iterate_succ_apply', bank1_stepped (hm.iterate_stepped n) (hout n n.lt_succ_self)]
    exact ih fun k hk => hout k (Nat.lt_succ_of_lt hk)

/-! ## Jumps -/

theorem words_condition : ∀ p ∈ conditions, ∀ flags : Flags, words p.1 flags =
    if p.2 flags.carry flags.zero then jumpWords else skipWords := by
  decide

theorem follow_jumpWords (m : Machine) : (m.perform fetch).follow (fixed (jumpWords.drop 1)) =
    { m.elapse 7 with
      i := m.memory m.pc.value
      d := m.memory m.pc.next.value
      pc := ⟨m.memory m.pc.next.value, m.memory m.pc.next.next.value⟩
      cycle := 0 } := by
  simp only [jumpWords, fixed, follow, List.drop, List.map, List.foldl, perform_fetch, perform_stepPc,
    perform_loadD, perform_jumpHigh, perform_jumpLow, perform_finish, elapse, memory]
  rfl

theorem follow_skipWords (m : Machine) : (m.perform fetch).follow (fixed (skipWords.drop 1)) =
    { m.elapse 4 with i := m.memory m.pc.value, pc := m.pc.next.next.next, cycle := 0 } := by
  simp only [skipWords, fixed, follow, List.drop, List.map, List.foldl, perform_fetch, perform_stepPc,
    perform_advance, elapse, memory]
  rfl

/-- A conditional jump looks at bank 1 and changes nothing but PC, I and D. -/
theorem stepped_condition {taken : Bool → Bool → Bool} {t : UInt16} (hm : m.AtBoundary)
    (hj : (j, taken) ∈ conditions) (hexec : m.Executes j [.addr t]) :
    m.stepped =
      if taken m.flags.bank1.carry m.flags.bank1.zero then
        { m.elapse 7 with
          i := m.memory m.pc.value, d := m.memory m.pc.next.value, pc := .ofValue t, cycle := 0 }
      else { m.elapse 4 with i := m.memory m.pc.value, pc := .ofValue (m.pc.value + 3), cycle := 0 } := by
  have hform : ∀ p ∈ conditions, p.1.bank ∧ p.1.kinds = [.addr] := by
    decide
  obtain ⟨hbank, hkinds⟩ := hform _ hj
  have hflags : (m.perform fetch).activeFlags = m.flags.bank1 := by
    show m.flags.get (m.memory m.pc.value &&& flagBankBit != 0) = _
    rw [bank_of_owns hexec.owns, hbank]
    rfl
  have hwords := words_condition _ hj m.flags.bank1
  rw [← hflags] at hwords ⊢
  split at hwords
  next htaken =>
    have hjump : words j (m.perform fetch).activeFlags = fetch :: jumpWords.drop 1 := hwords
    rw [if_pos htaken, stepped_eq_follow_fixed hm hexec.owns hjump (by decide) (by decide) (by decide),
      follow_jumpWords, ← hexec.addr hkinds, RegisterPair.ofValue_value]
  next htaken =>
    have hskip : words j (m.perform fetch).activeFlags = fetch :: skipWords.drop 1 := hwords
    rw [if_neg htaken, stepped_eq_follow_fixed hm hexec.owns hskip (by decide) (by decide) (by decide),
      follow_skipWords, RegisterPair.next_next_next]

/-! ## Compare and branch -/

/-- A comparison leaves in bank 1 how its source and its register relate. -/
theorem bank1_compare {c : Instruction} {operands : List Operand} {r : Register} {s : UInt8}
    (hm : m.AtBoundary) (hc : c = .cmpReg ∨ c = .cmpImm) (hexec : m.Executes c operands)
    (hargs : m.regs.aluArguments? operands = some (r, s)) :
    m.stepped.flags.bank1 = ⟨s ≤ m.regs.get r, m.regs.get r - s == 0⟩ := by
  have hf : c.aluOperation? = some ⟨true, false, fun r s _ => .of (r - s) (s ≤ r)⟩ := by
    rcases hc with rfl | rfl <;> rfl
  obtain ⟨n, hn⟩ := stepped_aluOperation hm hexec hf hargs
  rw [hn]
  rfl

/-- On the generated store a conditional jump decides by how the source and the register of the last
comparison related, whatever instructions outside the arithmetic block lie between them, and it changes
no register, memory cell, stack pointer, frame pointer or flag. -/
theorem step_relation {σ : Type} {b : Builder} (hb : generate = .ok b) (hstore : m.store = b.store)
    (hcycle : m.cycle = 0) {c : Instruction} (hc : c = .cmpReg ∨ c = .cmpImm) {operands : List Operand}
    (hcompare : m.Executes c operands) {r : Register} {source : UInt8}
    (hargs : m.regs.aluArguments? operands = some (r, source)) (n : Nat)
    (hgap : ∀ k < n, let opcode := (stepped^[k] m.stepped).memory (stepped^[k] m.stepped).pc.value
      opcode < 0x80 ∨ 0xCB < opcode)
    {holds : UInt8 → UInt8 → Bool} (hj : (j, holds) ∈ relations) {t : UInt16}
    (hjump : (stepped^[n] m.stepped).Executes j [.addr t]) (o : Observer σ) (seen : σ) :
    let before := stepped^[n] m.stepped
    let after := (before.step o seen).machine
    after.pc.value = (if holds source (m.regs.get r) then t else before.pc.value + 3) ∧
      after.regs = before.regs ∧ (∀ a, after.memory a = before.memory a) ∧ after.sp = before.sp ∧
      after.bp = before.bp ∧ after.flags = before.flags := by
  intro before after
  have hm : m.AtBoundary := ⟨by rw [hstore, generated_eq hb], hcycle⟩
  obtain ⟨taken, htaken, hrelation⟩ := condition_of_relation hj
  have hflags : before.flags.bank1 = ⟨source ≤ m.regs.get r, m.regs.get r - source == 0⟩ :=
    (bank1_iterate_stepped hm.stepped n hgap).trans (bank1_compare hm hc hcompare hargs)
  have hafter : after = _ :=
    (before.machine_step o seen).trans (stepped_condition (hm.stepped.iterate_stepped n) htaken hjump)
  rw [hflags, hrelation] at hafter
  rw [hafter]
  split
  · exact ⟨RegisterPair.value_ofValue _, rfl, fun _ => rfl, rfl, rfl, rfl⟩
  · exact ⟨RegisterPair.value_ofValue _, rfl, fun _ => rfl, rfl, rfl, rfl⟩

/-- Between the comparison and the jump a register changes and another bank of flags. -/
theorem step_relation_jge :
    let m : Machine :=
      { store := generated.store, boot := bootOf #[0xC8, 0x07, 0x24, 0xFC, 0x34, 0x12], regs := { a := 3 } }
    (generate = .ok generated ∧ m.store = generated.store ∧ m.cycle = 0) ∧
      m.Executes .cmpImm [.imm 7, .register .a] ∧ m.stepped.Executes .not [.register .a] ∧
      m.stepped.stepped.Executes .jge [.addr 0x1234] ∧
      (m.stepped.stepped.step Observer.silent ()).machine.pc.value = 0x1234 := by
  intro m
  have hm : m.AtBoundary := ⟨rfl, rfl⟩
  have hcompare : m.Executes .cmpImm [.imm 7, .register .a] :=
    executes_of_boot rfl rfl (by decide) (by rfl)
  obtain ⟨n₁, h₁⟩ := stepped_aluOperation hm hcompare rfl rfl
  have hpc₁ : m.stepped.pc.value = 2 := (congrArg (·.pc.value) h₁).trans (RegisterPair.value_ofValue 2)
  have hnot : m.stepped.Executes .not [.register .a] :=
    executes_of_boot m.boot_stepped hpc₁ (by decide) (by rfl)
  obtain ⟨n₂, h₂⟩ := stepped_aluOperation hm.stepped hnot rfl rfl
  have hpc₂ : m.stepped.stepped.pc.value = 3 := by
    refine (congrArg (·.pc.value) h₂).trans ((RegisterPair.value_ofValue _).trans ?_)
    rw [hpc₁]
    rfl
  have hjump : m.stepped.stepped.Executes .jge [.addr 0x1234] :=
    executes_of_boot (m.stepped.boot_stepped.trans m.boot_stepped) hpc₂ (by decide) (by rfl)
  have hgap : ∀ k < 1, let opcode := (stepped^[k] m.stepped).memory (stepped^[k] m.stepped).pc.value
      opcode < 0x80 ∨ 0xCB < opcode := by
    have hlt : (m.stepped.memory m.stepped.pc.value).toNat < 0x80 :=
      Nat.lt_of_lt_of_le (owns_iff.mp hnot.owns).2 (by decide)
    have hopcode : m.stepped.memory m.stepped.pc.value < 0x80 := UInt8.lt_iff_toNat_lt.mpr hlt
    intro k hk
    obtain rfl := Nat.lt_one_iff.mp hk
    rw [Function.iterate_zero_apply]
    exact .inl hopcode
  have h := step_relation generate_eq rfl rfl (.inr rfl) hcompare rfl 1 hgap
    (.tail _ (.tail _ (.tail _ (.head _)))) (by rw [Function.iterate_one]; exact hjump) Observer.silent ()
  rw [Function.iterate_one] at h
  exact ⟨⟨generate_eq, rfl, rfl⟩, hcompare, hnot, hjump, h.1.trans (if_pos (by decide))⟩

end Machine

end Microcomputer
