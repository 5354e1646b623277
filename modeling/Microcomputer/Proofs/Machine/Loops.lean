import Microcomputer.Proofs.Machine.Lines
import Microcomputer.Proofs.Machine.Movement

/-!
# Loops

A loop instruction compares its register with a limit and either goes on after itself or steps the register
and jumps. The step is one of the arithmetic logic unit, so it may change the zero flag that chose the jump;
from there on both variants have the same words. Where the body of a loop comes back with the register and
the instruction as they were, the register runs through all bytes up to the limit.
-/

namespace Microcomputer

open Control (Word)
open Control.Word (transfer arith logical)
open Instruction
open Microcode

/-! ## Loop instructions -/

/-- A loop instruction with its operands. It counts up to a limit or down to zero. -/
inductive Loop where
  | up (limit : UInt8) (r : Register) (target : UInt16)
  | down (r : Register) (target : UInt16)

namespace Loop

/-- The instruction with its operands. -/
def part : Loop → Instruction × List Operand
  | up limit r target => (.loope, [.imm limit, .register r, .addr target])
  | down r target => (.loopz, [.register r, .addr target])

/-- The register that counts. -/
def register : Loop → Register
  | up _ r _ => r
  | down r _ => r

/-- The address that the loop jumps to. -/
def target : Loop → UInt16
  | up _ _ target => target
  | down _ target => target

/-- The value at which the loop is left. -/
def limit : Loop → UInt8
  | up limit _ _ => limit
  | down _ _ => 0

/-- The next value of the register. -/
def next : Loop → UInt8 → UInt8
  | up _ _ _, value => value + 1
  | down _ _, value => value - 1

/-- How often the loop jumps before it is left. -/
def rounds : Loop → UInt8 → Nat
  | up limit _ _, value => (limit - value).toNat
  | down _ _, value => value.toNat

variable {loop : Loop} {value : UInt8}

theorem rounds_limit : loop.rounds loop.limit = 0 := by
  cases loop <;> simp [rounds, limit]

theorem rounds_next (h : value ≠ loop.limit) : loop.rounds (loop.next value) + 1 = loop.rounds value := by
  have hne : value.toNat ≠ loop.limit.toNat := fun heq => h (UInt8.toNat_inj.mp heq)
  have hvalue := value.toNat_lt
  cases loop with
  | up limit r target =>
    have hlimit := limit.toNat_lt
    simp only [rounds, next, Loop.limit, UInt8.toNat_sub, UInt8.toNat_add, UInt8.reduceToNat] at hne ⊢
    omega
  | down r target =>
    simp only [rounds, next, Loop.limit, UInt8.toNat_sub, UInt8.reduceToNat] at hne ⊢
    omega

/-! ## Words -/

/-- The words after the fetch up to the comparison. -/
def head : Loop → List Word
  | up _ _ _ => [stepPc, loadD, compareD]
  | down _ _ => [logical .d .ab .zero, transfer .t .d, compareD]

/-- The word that steps the register. -/
def stepWord : Loop → Word
  | up _ _ _ => arith .abxy .ab .a true
  | down _ _ => arith .abxy .ab .aMinusOne false

/-- The words after the comparison. -/
def ending (loop : Loop) (leave : Bool) : List Word :=
  (loopSteps leave loop.stepWord).map Step.word

theorem words_part (loop : Loop) (flags : Flags) :
    words loop.part.1 flags = fetch :: (loop.head ++ loop.ending flags.zero) := by
  have hup : ∀ flags : Flags, words .loope flags = fetch :: ([stepPc, loadD, compareD] ++
      (loopSteps flags.zero (arith .abxy .ab .a true)).map Step.word) := by
    decide
  have hdown : ∀ flags : Flags, words .loopz flags = fetch ::
      ([logical .d .ab .zero, transfer .t .d, compareD] ++
        (loopSteps flags.zero (arith .abxy .ab .aMinusOne false)).map Step.word) := by
    decide
  cases loop with
  | up limit r target => exact hup flags
  | down r target => exact hdown flags

theorem endsInstruction_head (loop : Loop) : ∀ w ∈ loop.head, w.sink.endsInstruction = false := by
  cases loop <;> simp [head, stepPc, loadD, compareD, transfer, logical, arith, Control.Sink.endsInstruction]

theorem length_head (loop : Loop) : loop.head.length = 3 := by
  cases loop <;> rfl

/-- Which words follow the comparison depends on the zero flag alone. -/
theorem drop_words_part (loop : Loop) (flags : Flags) :
    (words loop.part.1 flags).drop 4 = loop.ending flags.zero := by
  rw [words_part]
  exact List.drop_left' loop.length_head

/-- The words after its two variants have met again. -/
def tail (loop : Loop) : List Word :=
  [high (transfer .ram .pc), low (transfer .d .pc), loop.stepWord, keepResult, Microcode.finish]

/-- The last byte before the target. -/
def beforeTarget (p : RegisterPair) : Loop → RegisterPair
  | up _ _ _ => p.next
  | down _ _ => p

end Loop

namespace Machine

variable {m : Machine} {loop : Loop} {k n : Nat} {w : Word} {ws : List Word}

/-! ## One loop instruction -/

theorem perform_compareD (m : Machine) : m.perform compareD =
    (m.latch (.of (m.regs.get (.ofBits m.i.toNat) - m.d)
      (m.d ≤ m.regs.get (.ofBits m.i.toNat)))).elapse 1 := by
  rw [← Alu.byte_difference]
  rfl

theorem perform_clearT (m : Machine) : m.perform (logical .d .ab .zero) =
    (m.latch (.of 0 false)).elapse 1 := by
  rw [← Alu.byte_zero (a := m.d) (b := m.side (logical .d .ab .zero))]
  rfl

theorem perform_keepD (m : Machine) : m.perform (transfer .t .d) = { m.elapse 1 with d := m.t } := rfl

theorem perform_stepWord (m : Machine) (loop : Loop) : ∃ carry zero, m.perform loop.stepWord =
    (m.latch ⟨loop.next (m.regs.get (.ofBits m.i.toNat)), carry, zero⟩).elapse 1 := by
  cases loop with
  | up limit r target =>
    have hplus := Alu.byte_a (m.regs.get (.ofBits m.i.toNat)) (m.side (arith .abxy .ab .a true)) true
    exact ⟨_, _, congrArg (fun result => (m.latch result).elapse 1) hplus⟩
  | down r target =>
    have hminus := Alu.byte_predecessor (m.regs.get (.ofBits m.i.toNat))
      (m.side (arith .abxy .ab .aMinusOne false))
    exact ⟨_, _, congrArg (fun result => (m.latch result).elapse 1) hminus⟩

/-- The machine after the comparison of a loop instruction. -/
def compared (m : Machine) (loop : Loop) : Machine :=
  let value := m.regs.get loop.register
  ({ m with
    i := m.memory m.pc.value
    pc := loop.beforeTarget m.pc
    d := loop.limit }.latch (.of (value - loop.limit) (loop.limit ≤ value))).elapse 4

theorem register_eq (hexec : m.Executes loop.part.1 loop.part.2) :
    loop.register = .ofBits (m.memory m.pc.value).toNat := by
  cases loop with
  | up limit r target =>
    have hoperands := hexec.immRegisterAddr rfl
    simp only [Loop.part, List.cons.injEq, Operand.register.injEq] at hoperands
    exact hoperands.2.1
  | down r target =>
    have hoperands := hexec.registerAddr rfl
    simp only [Loop.part, List.cons.injEq, Operand.register.injEq] at hoperands
    exact hoperands.1

theorem target_eq (hexec : m.Executes loop.part.1 loop.part.2) :
    loop.target = (⟨m.memory (loop.beforeTarget m.pc).next.value,
      m.memory (loop.beforeTarget m.pc).next.next.value⟩ : RegisterPair).value := by
  cases loop with
  | up limit r target =>
    have hoperands := hexec.immRegisterAddr rfl
    simp only [Loop.part, List.cons.injEq, Operand.addr.injEq, and_true] at hoperands
    exact hoperands.2.2
  | down r target =>
    have hoperands := hexec.registerAddr rfl
    simp only [Loop.part, List.cons.injEq, Operand.addr.injEq, and_true] at hoperands
    exact hoperands.2

theorem follow_head (loop : Loop) (hexec : m.Executes loop.part.1 loop.part.2) :
    (m.perform fetch).follow (fixed loop.head) = m.compared loop := by
  cases loop with
  | up limit r target =>
    have hoperands := hexec.immRegisterAddr rfl
    simp only [Loop.part, List.cons.injEq, Operand.imm.injEq, Operand.register.injEq] at hoperands
    obtain ⟨rfl, rfl, -⟩ := hoperands
    simp only [Loop.head, compared, Loop.register, Loop.limit, Loop.beforeTarget, fixed, follow, List.map,
      List.foldl, perform_fetch, perform_stepPc, perform_loadD, perform_compareD, elapse, latch, memory]
    rfl
  | down r target =>
    have hoperands := hexec.registerAddr rfl
    simp only [Loop.part, List.cons.injEq, Operand.register.injEq] at hoperands
    obtain ⟨rfl, -⟩ := hoperands
    simp only [Loop.head, compared, Loop.register, Loop.limit, Loop.beforeTarget, fixed, follow, List.map,
      List.foldl, perform_fetch, perform_clearT, perform_keepD, perform_compareD, elapse, latch, memory,
      flagBank, Alu.Result.of, FlagBanks.set_set]
    rfl

theorem zero_compared (m : Machine) (loop : Loop) :
    (m.compared loop).activeFlags.zero = (m.regs.get loop.register == loop.limit) := by
  have hlatch := congrArg Flags.zero ({ m with
    i := m.memory m.pc.value
    pc := loop.beforeTarget m.pc
    d := loop.limit }.activeFlags_latch (.of (m.regs.get loop.register - loop.limit)
      (loop.limit ≤ m.regs.get loop.register)))
  exact hlatch.trans (Alu.sub_beq_zero _ _)

theorem stepped_eq_compared (hm : m.AtBoundary) (hexec : m.Executes loop.part.1 loop.part.2) :
    m.stepped = execute (words loop.part.1) 8 4 (m.compared loop) := by
  have hhead : execute (words loop.part.1) (loop.head.length + 8) 1 (m.perform fetch) =
      execute (words loop.part.1) 8 (1 + loop.head.length) ((m.perform fetch).follow (fixed loop.head)) :=
    execute_prefix (F := fun _ => True) (fun flags _ => ⟨_, by rw [loop.words_part]; rfl⟩)
      loop.endsInstruction_head (fun _ _ _ _ => trivial) trivial
  rw [loop.length_head, m.follow_head loop hexec] at hhead
  rw [stepped_eq_execute hm hexec.owns, ← hhead]

/-- A loop at its limit goes on after itself. -/
theorem stepped_loop_of_eq (hm : m.AtBoundary) (hexec : m.Executes loop.part.1 loop.part.2)
    (h : m.regs.get loop.register = loop.limit) :
    m.stepped = { (m.compared loop).elapse 3 with
      pc := (loop.beforeTarget m.pc).next.next.next
      cycle := 0 } := by
  have hdrop : (words loop.part.1 (m.compared loop).activeFlags).drop 4 = loop.ending true := by
    rw [loop.drop_words_part, zero_compared, h, beq_self_eq_true]
  have hsteps : execute (words loop.part.1) (2 + 6) 4 (m.compared loop) =
      execute (words loop.part.1) 6 (4 + 2) ((m.compared loop).follow (fixed [stepPc, stepPc])) :=
    execute_quiet [stepPc, stepPc] (by rw [hdrop]; exact ⟨_, rfl⟩) (by decide)
  have hlast : (words loop.part.1 (m.compared loop).activeFlags)[4 + 2]? = some Microcode.advance := by
    rw [← List.getElem?_drop, hdrop]
    rfl
  rw [stepped_eq_compared hm hexec]
  exact hsteps.trans (execute_last (m := (m.compared loop).follow (fixed [stepPc, stepPc])) hlast rfl)

/-- A loop that is not at its limit steps its register and jumps. -/
theorem stepped_loop_of_ne (hm : m.AtBoundary) (hexec : m.Executes loop.part.1 loop.part.2)
    (h : m.regs.get loop.register ≠ loop.limit) : ∃ flags d,
    m.stepped = { (m.compared loop).elapse 8 with
      d, flags
      t := loop.next (m.regs.get loop.register)
      pc := .ofValue loop.target
      regs := m.regs.set loop.register (loop.next (m.regs.get loop.register))
      cycle := 0 } := by
  have hdrop : (words loop.part.1 (m.compared loop).activeFlags).drop 4 = loop.ending false := by
    rw [loop.drop_words_part, zero_compared, beq_false_of_ne h]
  have hsteps : execute (words loop.part.1) (3 + 5) 4 (m.compared loop) =
      execute (words loop.part.1) 5 (4 + 3) ((m.compared loop).follow (fixed [stepPc, loadD, stepPc])) :=
    execute_quiet [stepPc, loadD, stepPc] (by rw [hdrop]; exact ⟨_, rfl⟩) (by decide)
  have htail (x : Machine) : execute (words loop.part.1) 5 7 x = x.follow (fixed (loop.tail)) := by
    refine execute_eq_follow (fun flags => ?_) (fun flags => ?_) (Nat.le_refl _)
    · rw [← List.drop_drop (i := 3) (j := 4), loop.drop_words_part]
      cases flags.zero <;> rfl
    · cases loop <;> rfl
  choose carry zero hstep using fun x : Machine => x.perform_stepWord loop
  rw [stepped_eq_compared hm hexec]
  rw [hsteps.trans (htail _), target_eq hexec, register_eq hexec]
  simp only [compared, Loop.tail, fixed, follow, List.map, List.foldl, perform_stepPc, perform_loadD,
    perform_jumpHigh, perform_jumpLow, hstep, perform_keepResult, perform_finish, elapse, latch, memory,
    RegisterPair.ofValue_value]
  exact ⟨_, _, rfl⟩

theorem pc_stepped_loop_of_eq (hm : m.AtBoundary) (hexec : m.Executes loop.part.1 loop.part.2)
    (h : m.regs.get loop.register = loop.limit) :
    m.stepped.pc.value = m.pc.value + .ofNat loop.part.1.size := by
  rw [stepped_loop_of_eq hm hexec h]
  cases loop with
  | up limit r target =>
    simp only [Loop.beforeTarget, RegisterPair.value_next, UInt16.add_assoc]
    rfl
  | down r target =>
    simp only [Loop.beforeTarget, RegisterPair.value_next, UInt16.add_assoc]
    rfl

theorem jump_stepped_loop (hm : m.AtBoundary) (hexec : m.Executes loop.part.1 loop.part.2)
    (h : m.regs.get loop.register ≠ loop.limit) :
    m.stepped.pc.value = loop.target ∧
      m.stepped.regs.get loop.register = loop.next (m.regs.get loop.register) ∧
      m.stepped.memory = m.memory := by
  obtain ⟨flags, d, hjump⟩ := stepped_loop_of_ne hm hexec h
  rw [hjump]
  refine ⟨RegisterPair.value_ofValue _, ?_, memory_congr rfl rfl⟩
  exact (m.regs.get_set _ _ _).trans (if_pos rfl)

/-! ## Visits -/

/-- The times before a number of instructions at which PC is at an address. -/
def visits (m : Machine) (p : UInt16) (n : Nat) : List Nat :=
  (List.range n).filter fun k => (stepped^[k] m).pc.value == p

theorem visits_add (m : Machine) (p : UInt16) (k n : Nat) :
    m.visits p (k + n) = m.visits p k ++ ((stepped^[k] m).visits p n).map (k + ·) := by
  have hlater : (fun j => (stepped^[j] m).pc.value == p) ∘ (k + ·) =
      fun j => (stepped^[j] (stepped^[k] m)).pc.value == p := by
    funext j
    rw [Function.comp_apply, Nat.add_comm k, Function.iterate_add_apply]
  rw [visits, visits, visits, List.range_add, List.filter_append, List.filter_map, hlater]

theorem visits_eq_nil {p : UInt16} (h : ∀ k < n, (stepped^[k] m).pc.value ≠ p) : m.visits p n = [] := by
  rw [visits, List.filter_eq_nil_iff]
  intro k hk
  simpa using h k (List.mem_range.mp hk)

theorem visits_one (m : Machine) : m.visits m.pc.value 1 = [0] := by
  simp [visits]

/-! ## Runs of a loop -/

/-- So many instructions bring the machine to an address for the first time, with the register of a loop
and the bytes that stand there as they were. -/
structure ComesBack (m : Machine) (loop : Loop) (p : UInt16) (n : Nat) : Prop where
  pc : (stepped^[n] m).pc.value = p
  first : ∀ k < n, (stepped^[k] m).pc.value ≠ p
  register : (stepped^[n] m).regs.get loop.register = m.regs.get loop.register
  code : (stepped^[n] m).bytesFrom p loop.part.1.size = m.bytesFrom p loop.part.1.size

/-- So many instructions are the run of a loop that stands at PC: it is executed once for every round and
once more, each time but the last it steps its register and jumps, and then it goes on after itself. -/
structure LoopRun (m : Machine) (loop : Loop) (n : Nat) : Prop where
  count : (m.visits m.pc.value n).length = loop.rounds (m.regs.get loop.register) + 1
  executes : ∀ j k, (m.visits m.pc.value n)[j]? = some k →
    (stepped^[k] m).Executes loop.part.1 loop.part.2 ∧
      (stepped^[k] m).regs.get loop.register = loop.next^[j] (m.regs.get loop.register)
  jumps : ∀ j k, (m.visits m.pc.value n)[j]? = some k → j < loop.rounds (m.regs.get loop.register) →
    (stepped^[k + 1] m).pc.value = loop.target ∧
      (stepped^[k + 1] m).regs.get loop.register = loop.next ((stepped^[k] m).regs.get loop.register)
  leaves : ∀ k, (m.visits m.pc.value n)[loop.rounds (m.regs.get loop.register)]? = some k → k + 1 = n
  pc : (stepped^[n] m).pc.value = m.pc.value + .ofNat loop.part.1.size
  register : (stepped^[n] m).regs.get loop.register = loop.limit

theorem loopRun_one (hm : m.AtBoundary) (hexec : m.Executes loop.part.1 loop.part.2)
    (h : m.regs.get loop.register = loop.limit) : m.LoopRun loop 1 := by
  have hrounds : loop.rounds (m.regs.get loop.register) = 0 := by
    rw [h, Loop.rounds_limit]
  have hfirst (j k : Nat) (hk : (m.visits m.pc.value 1)[j]? = some k) : j = 0 ∧ k = 0 := by
    rw [visits_one, List.getElem?_singleton] at hk
    split at hk
    · exact ⟨‹_›, (Option.some.inj hk).symm⟩
    · cases hk
  constructor
  · rw [visits_one, hrounds]
    rfl
  · intro j k hk
    obtain ⟨rfl, rfl⟩ := hfirst j k hk
    exact ⟨hexec, rfl⟩
  · intro j k _ hj
    omega
  · intro k hk
    rw [(hfirst _ k hk).2]
  · exact pc_stepped_loop_of_eq hm hexec h
  · rw [Function.iterate_one, stepped_loop_of_eq hm hexec h]
    exact h

theorem visits_round {back : Nat} {p : UInt16} (hm : m.pc.value = p)
    (hback : ∀ k < back, (stepped^[k] m.stepped).pc.value ≠ p) : m.visits p (back + 1 + n) =
      0 :: ((stepped^[back + 1] m).visits p n).map (back + 1 + ·) := by
  subst hm
  rw [visits_add, Nat.add_comm back, visits_add, visits_one, Function.iterate_one, visits_eq_nil hback]
  rfl

/-- A round in front of a run of a loop gives a run of the loop. -/
theorem LoopRun.round {back : Nat} (hm : m.AtBoundary) (hexec : m.Executes loop.part.1 loop.part.2)
    (h : m.regs.get loop.register ≠ loop.limit) (hback : m.stepped.ComesBack loop m.pc.value back)
    (hrun : (stepped^[back + 1] m).LoopRun loop n) : m.LoopRun loop (back + 1 + n) := by
  obtain ⟨hpc, hregister, -⟩ := jump_stepped_loop hm hexec h
  have hrounds := Loop.rounds_next h
  have hvalue : (stepped^[back + 1] m).regs.get loop.register = loop.next (m.regs.get loop.register) :=
    hback.register.trans hregister
  have hplace : (stepped^[back + 1] m).pc.value = m.pc.value := hback.pc
  have hvisits := visits_round (n := n) rfl hback.first
  obtain ⟨count, executes, jumps, leaves, pc, register⟩ := hrun
  simp only [hvalue, hplace] at count executes jumps leaves pc
  have hlater (k : Nat) : stepped^[back + 1 + k] m = stepped^[k] (stepped^[back + 1] m) := by
    rw [Nat.add_comm, Function.iterate_add_apply]
  constructor
  · rw [hvisits, List.length_cons, List.length_map, count, hrounds]
  · intro j k hk
    rw [hvisits] at hk
    cases j with
    | zero =>
      cases hk
      exact ⟨hexec, rfl⟩
    | succ j =>
      rw [List.getElem?_cons_succ, List.getElem?_map, Option.map_eq_some_iff] at hk
      obtain ⟨k, hk, rfl⟩ := hk
      rw [hlater, Function.iterate_succ_apply]
      exact executes j k hk
  · intro j k hk hj
    rw [hvisits] at hk
    cases j with
    | zero =>
      cases hk
      exact ⟨hpc, hregister⟩
    | succ j =>
      rw [List.getElem?_cons_succ, List.getElem?_map, Option.map_eq_some_iff] at hk
      obtain ⟨k, hk, rfl⟩ := hk
      rw [Nat.add_assoc (back + 1), hlater, hlater]
      exact jumps j k hk (by omega)
  · intro k hk
    rw [hvisits, ← hrounds, List.getElem?_cons_succ, List.getElem?_map, Option.map_eq_some_iff] at hk
    obtain ⟨k, hk, rfl⟩ := hk
    rw [Nat.add_assoc (back + 1), leaves k hk]
  · rw [hlater, pc]
  · rw [hlater, register]

/-- On the generated store a loop whose body comes back to it, with its register and its own bytes as they
were, is executed once for every value of the register up to its limit. -/
theorem exists_loopRun {b : Builder} (hb : generate = .ok b) (hstore : m.store = b.store)
    (hcycle : m.cycle = 0) (hexec : m.Executes loop.part.1 loop.part.2)
    (hbody : ∀ k, (stepped^[k] m).pc.value = m.pc.value → (stepped^[k + 1] m).pc.value = loop.target →
      ∃ back, (stepped^[k + 1] m).ComesBack loop m.pc.value back) :
    ∃ n, m.LoopRun loop n := by
  have hm : m.AtBoundary := ⟨by rw [hstore, generated_eq hb], hcycle⟩
  clear hstore hcycle
  induction hrounds : loop.rounds (m.regs.get loop.register) generalizing m with
  | zero =>
    refine ⟨1, loopRun_one hm hexec ?_⟩
    by_contra h
    have := Loop.rounds_next h
    omega
  | succ rounds ih =>
    have h : m.regs.get loop.register ≠ loop.limit := by
      intro h
      rw [h, Loop.rounds_limit] at hrounds
      cases hrounds
    obtain ⟨hpc, hregister, hmemory⟩ := jump_stepped_loop hm hexec h
    obtain ⟨back, hback⟩ := hbody 0 rfl hpc
    have hplace : (stepped^[back + 1] m).pc.value = m.pc.value := hback.pc
    have hvalue : (stepped^[back + 1] m).regs.get loop.register = loop.next (m.regs.get loop.register) :=
      hback.register.trans hregister
    have hcode : (stepped^[back + 1] m).bytesFrom m.pc.value loop.part.1.size =
        m.bytesFrom m.pc.value loop.part.1.size :=
      hback.code.trans (bytesFrom_congr fun j _ => congrFun hmemory _)
    have hagain : (stepped^[back + 1] m).Executes loop.part.1 loop.part.2 := by
      rw [Executes, hplace, hcode]
      exact hexec
    have hleft := Loop.rounds_next h
    have hlater (k : Nat) : stepped^[k] (stepped^[back + 1] m) = stepped^[k + (back + 1)] m :=
      (Function.iterate_add_apply _ _ _ _).symm
    obtain ⟨n, hrun⟩ : ∃ n, (stepped^[back + 1] m).LoopRun loop n := by
      refine ih hagain (fun k hk ht => ?_) (hm.iterate_stepped _) (by rw [hvalue]; omega)
      rw [hlater, hplace] at hk
      rw [hlater, Nat.add_right_comm] at ht ⊢
      rw [hplace]
      exact hbody (k + (back + 1)) hk ht
    exact ⟨_, hrun.round hm hexec h hback⟩

/-- The body sends the register to the output register. -/
theorem exists_loopRun_out :
    let loop : Loop := .down .b 0
    let m : Machine :=
      { store := generated.store, boot := bootOf #[0xF5, 0x15, 0x00, 0x00], regs := { b := 2 }, pc := ⟨1, 0⟩ }
    (generate = .ok generated ∧ m.store = generated.store ∧ m.cycle = 0) ∧
      m.Executes .loopz [.register .b, .addr 0] ∧
      (∀ k, (stepped^[k] m).pc.value = 1 → (stepped^[k + 1] m).pc.value = 0 →
        ∃ back, (stepped^[k + 1] m).ComesBack loop 1 back) ∧
      ∃ n, (m.visits 1 n).length = 3 ∧ (stepped^[n] m).pc.value = 4 ∧
        (stepped^[n] m).regs.get .b = 0 := by
  intro loop m
  have hm : m.AtBoundary := ⟨rfl, rfl⟩
  have hboot (k : Nat) : (stepped^[k] m).boot = m.boot := by
    induction k with
    | zero => rfl
    | succ k ih => rw [Function.iterate_succ_apply', boot_stepped, ih]
  have hexec : m.Executes .loopz [.register .b, .addr 0] := executes_of_boot rfl rfl (by decide) (by rfl)
  have hbody (k : Nat) (ht : (stepped^[k] m).pc.value = 0) : (stepped^[k] m).ComesBack loop 1 1 := by
    have hx : (stepped^[k] m).AtBoundary := hm.iterate_stepped k
    have hout : (stepped^[k] m).Executes .outReg [.register .b] :=
      executes_of_boot (hboot k) ht (by decide) (by rfl)
    have hnext := pc_stepped_of_fallsThrough hx hout.owns rfl
    rw [ht] at hnext
    constructor
    · exact hnext
    · intro j hj
      obtain rfl := Nat.lt_one_iff.mp hj
      rw [Function.iterate_zero_apply, ht]
      decide
    · exact congrArg (·.get .b) (makes_outReg hx hout).regs
    · rw [Function.iterate_one, bytesFrom_of_boot (hboot k) (by decide),
        bytesFrom_of_boot ((stepped^[k] m).boot_stepped.trans (hboot k)) (by decide)]
  obtain ⟨n, hrun⟩ : ∃ n, m.LoopRun loop n :=
    exists_loopRun generate_eq rfl rfl hexec fun k _ ht => ⟨1, hbody (k + 1) ht⟩
  exact ⟨⟨generate_eq, rfl, rfl⟩, hexec, fun k _ ht => ⟨1, hbody (k + 1) ht⟩, n, hrun.count, hrun.pc,
    hrun.register⟩

end Machine

end Microcomputer
