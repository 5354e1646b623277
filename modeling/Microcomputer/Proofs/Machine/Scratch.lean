import Microcomputer.Proofs.Alu.Sum
import Microcomputer.Proofs.Machine.Code
import Microcomputer.Proofs.Machine.Length
import Microcomputer.Proofs.Machine.Runs
import Microcomputer.Proofs.Microcode.Latches

/-!
# What programs cannot see

Two machines that differ in their latches and in the output register alone run alike. In every cycle both
read one word, it depends on latches that they agree on, and so they agree afterwards on what it loads. At
the end of an instruction they agree on what it leaves for the instructions that it prepares.
-/

namespace Microcomputer

open Control (Word)
open Instruction
open Microcode

/-! ## Cycles that load the same -/

/-- The result that the arithmetic logic unit has in a cycle. -/
def Cycle.result (c : Cycle) : Alu.Result UInt8 :=
  Alu.byte c.primary c.side c.word.select c.word.logic c.word.carryIn

/-- Two cycles with one word load the same. -/
structure Cycle.LoadsAlike (c c' : Cycle) : Prop where
  word : c'.word = c.word
  primary : c.word.sink ≠ .aluT → c'.primary = c.primary
  target : c.word.sink = .ram → c'.target = c.target
  result : c.word.sink = .aluT → c'.result = c.result

theorem Cycle.LoadsAlike.output? {c c' : Cycle} (h : c.LoadsAlike c') : c'.output? = c.output? := by
  unfold Cycle.output?
  rw [h.word]
  split
  next hsink => rw [h.primary (by rw [hsink]; decide)]
  next => rfl

namespace Machine

variable {m n : Machine} {w : Word} {c c' : Cycle}

/-- The value of a latch. -/
def latched (m : Machine) : Latch → UInt8
  | .i => m.i
  | .d => m.d
  | .t => m.t
  | .maLow => m.ma.low
  | .maHigh => m.ma.high

/-- Two machines agree on these latches. -/
abbrev AgreeOn (m n : Machine) (latches : List Latch) : Prop :=
  ∀ l ∈ latches, n.latched l = m.latched l

/-- Two machines agree on all that a program can name, and on the time. -/
structure Alike (m n : Machine) : Prop where
  regs : n.regs = m.regs
  pc : n.pc = m.pc
  sp : n.sp = m.sp
  bp : n.bp = m.bp
  flags : n.flags = m.flags
  memory : ∀ a, n.memory a = m.memory a
  input : n.input = m.input
  ticks : n.ticks = m.ticks

namespace Alike

theorem pair {p : Control.Pointer} (h : Alike m n) (hp : AgreeOn m n (pointerLatches p)) :
    n.pair p = m.pair p := by
  cases p with
  | pc => exact h.pc
  | ma =>
    have hlow : n.ma.low = m.ma.low := hp .maLow (by simp [pointerLatches])
    have hhigh : n.ma.high = m.ma.high := hp .maHigh (by simp [pointerLatches])
    exact congrArg₂ RegisterPair.mk hlow hhigh
  | sp => exact h.sp
  | xy => simp only [Machine.pair, xy, h.regs]

theorem primary (h : Alike m n) (hs : AgreeOn m n (sourceLatches w)) :
    (n.reading w).primary = (m.reading w).primary := by
  obtain ⟨source, sink, side, pointer, select, logic, carryIn⟩ := w
  simp only [reading, Machine.primary]
  cases source with
  | abxy =>
    have hi : n.i = m.i := hs .i (by simp [sourceLatches])
    simp only [h.regs, sourceRegister, hi]
  | d => exact hs .d (by simp [sourceLatches])
  | input => exact h.input
  | t => exact hs .t (by simp [sourceLatches])
  | ram => simp only [h.pair hs, h.memory]
  | pc => simp only [h.pc]
  | sp => simp only [h.sp]
  | bp => simp only [h.bp]

theorem side (h : Alike m n) (halu : w.sink = .aluT) (hs : AgreeOn m n (sinkLatches w)) :
    n.side w = m.side w := by
  unfold Machine.side
  split
  next hside =>
    have hi : n.i = m.i := hs .i (by simp [sinkLatches, halu, hside])
    simp only [h.regs, hi]
  next hside => exact hs .d (by simp [sinkLatches, halu, hside])

theorem reading (h : Alike m n) (hr : AgreeOn m n (reads w)) :
    (m.reading w).LoadsAlike (n.reading w) := by
  obtain ⟨hsource, hsink⟩ := List.forall_mem_append.mp hr
  by_cases hzero : w = .logical w.source w.side .zero
  · rw [hzero]
    -- The buses may carry anything, as the result is zero all the same.
    refine ⟨rfl, fun hsink => absurd rfl hsink, fun hsink => (nomatch hsink), fun _ => ?_⟩
    exact (Alu.byte_zero _ _).trans (Alu.byte_zero _ _).symm
  · rw [if_neg hzero] at hsource
    have hprimary := h.primary hsource
    refine ⟨rfl, fun _ => hprimary, fun hram => ?_, fun halu => ?_⟩
    · have hlatches : sinkLatches w = pointerLatches w.pointer := by
        simp only [sinkLatches, show w.sink = .ram from hram]
      exact congrArg RegisterPair.value (h.pair (hlatches ▸ hsink))
    · simp only [Cycle.result, hprimary]
      exact congrArg (Alu.byte _ · _ _ _) (h.side halu hsink)

theorem load (h : Alike m n) (hs : AgreeOn m n (sinkLatches c.word)) (hc : c.LoadsAlike c') :
    Alike (m.load c) (n.load c') := by
  cases hsink : c.word.sink <;> simp only [Machine.load, hc.word, hsink]
  case none => exact h
  case abxy =>
    have hi : n.i = m.i := hs .i (by simp [sinkLatches, hsink])
    exact { h with regs := by simp only [h.regs, hi, hc.primary (by simp [hsink])] }
  case aluT =>
    have hresult := hc.result hsink
    simp only [Cycle.result, hc.word] at hresult
    have hi : n.i = m.i := hs .i (by cases hside : c.word.side <;> simp [sinkLatches, hsink, hside])
    exact { h with flags := by simp only [latch, hresult, flagBank, h.flags, hi] }
  case ram =>
    rw [hc.target hsink, hc.primary (by simp [hsink]), writeMemory_eq, writeMemory_eq]
    refine { h with memory := fun a => ?_ }
    rw [← writeMemory_eq, ← writeMemory_eq, memory_writeMemory, memory_writeMemory, h.memory]
  case pc => exact { h with pc := by simp only [h.pc, hc.primary (by simp [hsink])] }
  case sp => exact { h with sp := by simp only [loadSp, h.sp, hc.primary (by simp [hsink])] }
  case bp => exact { h with bp := by simp only [h.bp, hc.primary (by simp [hsink])] }
  case pcPlus => exact { h with pc := by simp only [h.pc] }
  case spPlus => exact { h with sp := by simp only [h.sp] }
  case spMinus => exact { h with sp := by simp only [h.sp] }
  case advancePcResetCycle => exact { h with pc := by simp only [h.pc] }
  all_goals exact { h with }

end Alike

theorem latched_load {l : Latch} (hc : c.LoadsAlike c')
    (hl : l ∈ loads c.word ∨ n.latched l = m.latched l) :
    (n.load c').latched l = (m.load c).latched l := by
  cases hsink : c.word.sink <;> simp only [Machine.load, hc.word, hsink] <;> simp only [loads, hsink] at hl
  case i => cases l <;> simp_all [latched, hc.primary (by simp [hsink])]
  case d => cases l <;> simp_all [latched, hc.primary (by simp [hsink])]
  case aluT =>
    have hresult := hc.result hsink
    simp only [Cycle.result, hc.word] at hresult
    cases l <;> simp_all [latched, latch]
  case ma =>
    cases hside : c.word.side <;> cases l <;>
      simp_all [latched, RegisterPair.setHalf, Control.Side.isLow, hc.primary (by simp [hsink])]
  case ram =>
    rw [writeMemory_eq, writeMemory_eq]
    exact hl.resolve_left List.not_mem_nil
  all_goals exact hl.resolve_left List.not_mem_nil

/-! ## Two runs -/

/-- Two machines have come to states that are alike and have sent the same outputs. They agree on the
latches that they have learned and on those that they agreed on before. -/
structure AgreeAfter (learned : List Latch) (m n : Machine) (x y : Machine × Array UInt8) : Prop where
  alike : Alike x.1 y.1
  seen : y.2 = x.2
  latched : ∀ l, l ∈ learned ∨ n.latched l = m.latched l → y.1.latched l = x.1.latched l

namespace AgreeAfter

variable {learned learned' : List Latch} {x y x' y' : Machine × Array UInt8}

theorem mono (h : AgreeAfter learned m n x y)
    (hl : ∀ l ∈ learned', l ∈ learned ∨ n.latched l = m.latched l) : AgreeAfter learned' m n x y :=
  ⟨h.alike, h.seen, fun l hl' => h.latched l (hl'.elim (hl l) .inr)⟩

theorem trans (h : AgreeAfter learned m n x y) (h' : AgreeAfter learned' x.1 y.1 x' y') :
    AgreeAfter learned' m n x' y' :=
  ⟨h'.alike, h'.seen, fun l hl => h'.latched l (hl.imp_right fun hs => h.latched l (.inr hs))⟩

end AgreeAfter

theorem Alike.tick (h : Alike m n) (hm : m.sense.word = w) (hn : n.sense.word = w)
    (hr : AgreeOn m n (reads w)) (seen : Array UInt8) :
    AgreeAfter (loads w) m n (m.tick, Observer.outputs.note m m.sense seen)
      (n.tick, Observer.outputs.note n n.sense seen) := by
  have hm' : m.sense = m.reading w := hm ▸ rfl
  have hn' : n.sense = n.reading w := hn ▸ rfl
  have hc := h.reading hr
  have hcount : Alike m.countCycle n.countCycle := { h with }
  have hload := hcount.load (fun l hl => hr l (List.mem_append_right _ hl)) hc
  rw [Machine.tick, Machine.tick, hm', hn']
  constructor
  case alike =>
    exact { hload with
      input := by simp only [Machine.advance, countTick, hload.input, hload.ticks]
      ticks := by simp only [Machine.advance, countTick, hload.ticks] }
  case seen =>
    show Observer.outputs.note n (n.reading w) seen = Observer.outputs.note m (m.reading w) seen
    unfold Observer.note
    rw [hc.output?]
    rfl
  case latched => exact fun l hl => latched_load (m := m.countCycle) (n := n.countCycle) hc hl

/-- If the instruction goes on in both machines, what they come to from their next states counts. -/
theorem AgreeAfter.finish {learned learned' : List Latch} {seen : Array UInt8}
    (htick : AgreeAfter learned m n (m.tick, Observer.outputs.note m m.sense seen)
      (n.tick, Observer.outputs.note n n.sense seen))
    (hm : m.tick.cycle ≠ 0) (hn : n.tick.cycle ≠ 0)
    (h : ∀ seen', AgreeAfter learned' m.tick n.tick (m.tick.finish Observer.outputs seen')
      (n.tick.finish Observer.outputs seen')) :
    AgreeAfter learned' m n (m.finish Observer.outputs seen) (n.finish Observer.outputs seen) := by
  have hseen : Observer.outputs.note n n.sense seen = Observer.outputs.note m m.sense seen := htick.seen
  rw [finish_tick hm, finish_tick hn, hseen]
  exact htick.trans (h _)

theorem Alike.activeFlags (h : Alike m n) (hi : n.i = m.i) : n.activeFlags = m.activeFlags := by
  simp only [Machine.activeFlags, flagBank, h.flags, hi]

theorem Alike.finish {i : Instruction} {k limit : Nat} {flags : Flags} {known : Option (List Latch)}
    {current : List Latch} (hl : Leads (words i) learn (fun known => knows i known) limit k flags known)
    (hcurrent : known = some current) (hflags : m.activeFlags = flags) (hm : m.At i k) (hn : n.At i k)
    (h : Alike m n) (hi : n.i = m.i) (hknown : AgreeOn m n current) (seen : Array UInt8) :
    AgreeAfter i.leaves m n (m.finish Observer.outputs seen) (n.finish Observer.outputs seen) := by
  -- Along the paths: the flags are the same in both machines, so both perform the word in turn.
  induction hl generalizing m n current seen with
  | @last _ k flags known w hw hsink he hq =>
    subst hflags hcurrent
    obtain ⟨final, hfinal, hleaves⟩ := exists_of_knows hq
    obtain ⟨hreads, rfl⟩ := of_learn_eq_some hfinal
    have hwm := hm.word_sense hw
    have hwn := hn.word_sense ((h.activeFlags hi).symm ▸ hw)
    have htick := h.tick hwm hwn (fun l hl => hknown l (hreads hl)) seen
    have hend {x : Machine} (hx : x.sense.word = w) : x.finish Observer.outputs seen =
        (x.tick, Observer.outputs.note x x.sense seen) := by
      have hcycle : x.tick.cycle = 0 := by
        rw [Machine.tick, cycle_advance, hx, he]
        rfl
      rw [Machine.finish]
      exact if_pos hcycle
    rw [hend hwm, hend hwn]
    refine htick.mono fun l hl => ?_
    exact (List.mem_append.mp (hleaves hl)).imp_right (hknown l)
  | @next _ k flags known w hw hsink he hnext ih =>
    subst hflags hcurrent
    obtain ⟨final, hfinal⟩ := (hnext _ (.inr rfl)).exists_known
    obtain ⟨hreads, rfl⟩ := of_learn_eq_some hfinal
    have hw' := (h.activeFlags hi).symm ▸ hw
    have htick := h.tick (hm.word_sense hw) (hn.word_sense hw') (fun l hl => hknown l (hreads hl)) seen
    have hm' := hm.next hw hsink he
    have hn' := hn.next hw' hsink he
    refine htick.finish (hm'.cycle_ne (At.lt hw)) (hn'.cycle_ne (At.lt hw'))
      (ih _ (hm.activeFlags_tick hw hsink) hfinal rfl hm' hn' htick.alike ?_ ?_)
    · exact htick.latched .i (.inr hi)
    · intro l hl
      exact htick.latched l ((List.mem_append.mp hl).imp_right (hknown l))

theorem Alike.instruction {i : Instruction} (h : Alike m n) (hm : m.AtBoundary) (hn : n.AtBoundary)
    (hi : i.owns (m.memory m.pc.value)) (hneeds : AgreeOn m n i.needs) (seen : Array UInt8) :
    AgreeAfter i.leaves m n (m.finish Observer.outputs seen) (n.finish Observer.outputs seen) := by
  obtain ⟨_, hm0⟩ := hm.exists_at
  obtain ⟨_, hn0⟩ := hn.exists_at
  have hi' : i.owns (n.memory n.pc.value) := by rwa [h.memory, h.pc]
  have hm1 := hm0.first hi
  have hn1 := hn0.first hi'
  have htick := h.tick hm0.word_first hn0.word_first (fun l hl => (nomatch hl)) seen
  have hopcode : n.tick.latched .i = m.tick.latched .i := htick.latched .i (.inl List.mem_cons_self)
  refine htick.finish (hm1.cycle_ne (by decide)) (hn1.cycle_ne (by decide))
    (htick.alike.finish (leads_knows i _) rfl rfl hm1 hn1 hopcode fun l hl => ?_)
  rcases List.mem_cons.mp hl with rfl | hl
  · exact hopcode
  · exact htick.latched l (.inr (hneeds l hl))

/-! ## Many instructions -/

/-- The opcode that comes after so many instructions. -/
def opcodeAfter (m : Machine) (k : Nat) : UInt8 :=
  (stepped^[k] m).memory (stepped^[k] m).pc.value

/-- The instruction after `k` others comes right after those that prepare it. -/
def Prepared (m : Machine) (k : Nat) : Prop :=
  ∀ i : Instruction, i.owns (m.opcodeAfter k) → ∀ j p, i.preparation[j]? = some p →
    j < k ∧ p.owns (m.opcodeAfter (k - 1 - j))

theorem prepared_of_owns {i : Instruction} {k : Nat} (hi : i.owns (m.opcodeAfter k))
    (h : ∀ j p, i.preparation[j]? = some p → j < k ∧ p.owns (m.opcodeAfter (k - 1 - j))) :
    m.Prepared k := by
  intro i' hi'
  rw [owns_unique hi' hi]
  exact h

/-- What every instruction of a run has left for others is still known at its end. -/
theorem Alike.afterSteps {count : Nat} (h : Alike m n) (hm : m.AtBoundary) (hn : n.AtBoundary)
    (hprepared : ∀ k < count, m.Prepared k) (seen : Array UInt8) :
    let x := m.afterSteps seen count
    let y := n.afterSteps seen count
    Alike x.1 y.1 ∧ y.2 = x.2 ∧
      ∀ k < count, ∀ p : Instruction, p.owns (m.opcodeAfter k) → AgreeOn x.1 y.1 p.leaves := by
  induction count with
  | zero => exact ⟨h, rfl, fun k hk => absurd hk (Nat.not_lt_zero k)⟩
  | succ count ih =>
    obtain ⟨halike, hseen, hleft⟩ := ih fun k hk => hprepared k (Nat.lt_succ_of_lt hk)
    obtain ⟨i, hi⟩ := exists_owner (m.opcodeAfter count)
    have hx : (m.afterSteps seen count).1.AtBoundary := by
      rw [machine_afterSteps]
      exact hm.iterate_stepped count
    have hy : (n.afterSteps seen count).1.AtBoundary := by
      rw [machine_afterSteps]
      exact hn.iterate_stepped count
    have hi' : i.owns ((m.afterSteps seen count).1.memory (m.afterSteps seen count).1.pc.value) := by
      rwa [machine_afterSteps]
    have hneeds : AgreeOn (m.afterSteps seen count).1 (n.afterSteps seen count).1 i.needs := by
      intro l hl
      obtain ⟨p, hp, hl⟩ := List.mem_flatMap.mp hl
      obtain ⟨j, hj⟩ := List.mem_iff_getElem?.mp hp
      obtain ⟨hlt, howns⟩ := hprepared count count.lt_succ_self i hi j p hj
      exact hleft _ (by omega) p howns l hl
    have hnext := halike.instruction hx hy hi' hneeds (m.afterSteps seen count).2
    simp only [afterSteps_succ, hseen]
    refine ⟨hnext.alike, hnext.seen, fun k hk p hp l hl => hnext.latched l ?_⟩
    rcases Nat.lt_succ_iff_lt_or_eq.mp hk with hk | rfl
    · exact .inr (hleft k hk p hp l hl)
    · exact .inl (owns_unique hp hi ▸ hl)

/-- On the generated store two machines that agree on all but I, D, T, MA and the output register run
alike, as long as the second part of an operation comes only after the first. -/
theorem afterSteps_alike {b : Builder} {count : Nat} (hb : generate = .ok b) (hm : m.store = b.store)
    (hn : n.store = b.store) (hcm : m.cycle = 0) (hcn : n.cycle = 0) (h : Alike m n)
    (hprepared : ∀ k < count, m.Prepared k) (seen : Array UInt8) :
    Alike (m.afterSteps seen count).1 (n.afterSteps seen count).1 ∧
      (n.afterSteps seen count).2 = (m.afterSteps seen count).2 := by
  obtain rfl := generated_eq hb
  obtain ⟨halike, hseen, -⟩ := h.afterSteps ⟨hm, hcm⟩ ⟨hn, hcn⟩ hprepared seen
  exact ⟨halike, hseen⟩

/-- The exchange of two registers goes over D, whatever was there, and one of them is sent out. -/
theorem afterSteps_alike_xchg :
    let m : Machine :=
      { store := generated.store, boot := bootOf #[0x62, 0x5C, 0xF4], regs := { a := 1, x := 2 } }
    let n : Machine := { m with i := 0xFF, d := 0xAA, t := 0x55, ma := ⟨0x34, 0x12⟩, out := 7 }
    (generate = .ok generated ∧ m.store = generated.store ∧ n.store = generated.store ∧ m.cycle = 0 ∧
      n.cycle = 0) ∧ Alike m n ∧ (∀ k < 3, m.Prepared k) ∧
      m.stepped.Executes .xchgRegFinish [.register .a] ∧
      Alike (m.afterSteps #[] 3).1 (n.afterSteps #[] 3).1 ∧
      (n.afterSteps #[] 3).2 = (m.afterSteps #[] 3).2 := by
  intro m n
  have hm : m.AtBoundary := ⟨rfl, rfl⟩
  have halike (x : Machine) (i d t out : UInt8) (ma : RegisterPair) : Alike x { x with i, d, t, ma, out } :=
    ⟨rfl, rfl, rfl, rfl, rfl, fun _ => rfl, rfl, rfl⟩
  have hprepared {x : Machine} (h0 : xchgReg.owns (x.memory x.pc.value))
      (h1 : xchgRegFinish.owns (x.stepped.memory x.stepped.pc.value))
      (h2 : outReg.owns (x.stepped.stepped.memory x.stepped.stepped.pc.value)) :
      ∀ k < 3, x.Prepared k := by
    intro k hk
    match k with
    | 0 => exact prepared_of_owns h0 fun j p hp => (nomatch hp)
    | 1 =>
      refine prepared_of_owns h1 fun j p hp => ?_
      match j, hp with
      | 0, rfl => exact ⟨Nat.zero_lt_one, h0⟩
    | 2 => exact prepared_of_owns h2 fun j p hp => (nomatch hp)
  have hfirst : m.Executes .xchgReg [.register .a, .register .x] :=
    executes_of_boot rfl rfl (by decide) (by rfl)
  have hpc1 : m.stepped.pc.value = 1 := pc_stepped_of_fallsThrough hm hfirst.owns rfl
  have hsecond : m.stepped.Executes .xchgRegFinish [.register .a] :=
    executes_of_boot m.boot_stepped hpc1 (by decide) (by rfl)
  have hpc2 : m.stepped.stepped.pc.value = 2 := by
    rw [pc_stepped_of_fallsThrough hm.stepped hsecond.owns rfl, hpc1]
    rfl
  have hthird : m.stepped.stepped.Executes .outReg [.register .a] :=
    executes_of_boot (m.stepped.boot_stepped.trans m.boot_stepped) hpc2 (by decide) (by rfl)
  have hall := hprepared hfirst.owns hsecond.owns hthird.owns
  have hn : Alike m n := halike m 0xFF 0xAA 0x55 7 ⟨0x34, 0x12⟩
  exact ⟨⟨generate_eq, rfl, rfl, rfl, rfl⟩, hn, hall, hsecond,
    afterSteps_alike (m := m) (n := n) generate_eq rfl rfl rfl rfl hn hall #[]⟩

end Machine

end Microcomputer
