import Microcomputer.Proofs.Machine.Code
import Microcomputer.Proofs.Machine.Runs

/-!
# The two banks of flags

An opcode selects the bank that its instruction reads and writes. The first cycle of an instruction is
still under the opcode before, but it is the same fetch for all opcodes and flags. So an instruction of one
bank neither changes the other bank nor depends on it, and neither does a run of such instructions.
-/

namespace Microcomputer

open Control (Word)
open Instruction
open Microcode

theorem FlagBanks.set_comm {bank other : Bool} (h : other ≠ bank) (banks : FlagBanks)
    (flags flags' : Flags) :
    (banks.set bank flags).set other flags' = (banks.set other flags').set bank flags := by
  cases bank <;> cases other <;> first | rfl | contradiction

namespace Machine

variable {m n : Machine} {i : Instruction} {bank : Bool} {flags : Flags} {w : Word} {c : Cycle}

/-- The machine with other flags in one bank. -/
def withFlags (bank : Bool) (flags : Flags) (m : Machine) : Machine :=
  { m with flags := m.flags.set bank flags }

/-- The instruction under PC belongs to the other bank: those with an opcode below 0x80 spare bank 1, the
others bank 0. -/
def Spares (m : Machine) (bank : Bool) : Prop :=
  decide (m.memory m.pc.value < 0x80) = bank

/-! ## One cycle -/

theorem load_withFlags (h : c.word.sink ≠ .aluT ∨ m.flagBank ≠ bank) :
    (m.withFlags bank flags).load c = (m.load c).withFlags bank flags := by
  obtain ⟨address, ⟨source, sink, side, pointer, select, logic, carryIn⟩, primary, side', target⟩ := c
  cases sink with
  | ram =>
    simp only [load, writeMemory]
    split <;> rfl
  | aluT =>
    have hother := h.resolve_left fun hne => hne rfl
    let result := Alu.byte primary side' select logic carryIn
    exact congrArg (fun flags => { m with t := result.value, flags })
      (m.flags.set_comm hother flags ⟨result.carry, result.zero⟩)
  | _ => rfl

theorem perform_withFlags (h : w.sink ≠ .aluT ∨ m.flagBank ≠ bank) :
    (m.withFlags bank flags).perform w = (m.perform w).withFlags bank flags :=
  congrArg countTick (load_withFlags (c := m.reading w) h)

theorem tick_withFlags (hm : m.sense.word = w) (hn : (m.withFlags bank flags).sense.word = w)
    (h : w.sink ≠ .aluT ∨ m.flagBank ≠ bank) :
    (m.withFlags bank flags).tick = m.tick.withFlags bank flags := by
  have hm' : m.sense = m.reading w := hm ▸ rfl
  have hn' : (m.withFlags bank flags).sense = (m.withFlags bank flags).reading w := hn ▸ rfl
  rw [tick, tick, hm', hn', advance_reading, advance_reading, perform_withFlags h]
  rfl

/-- The bytes on the buses do not depend on the flags. -/
theorem note_withFlags (hm : m.sense.word = w) (hn : (m.withFlags bank flags).sense.word = w)
    (seen : Array UInt8) : Observer.outputs.note (m.withFlags bank flags)
      (m.withFlags bank flags).sense seen = Observer.outputs.note m m.sense seen := by
  have hm' : m.sense = m.reading w := hm ▸ rfl
  have hn' : (m.withFlags bank flags).sense = (m.withFlags bank flags).reading w := hn ▸ rfl
  rw [hm', hn']
  rfl

theorem word_withFlags (h : m.flagBank ≠ bank) :
    (m.withFlags bank flags).sense.word = m.sense.word := by
  have hactive : (m.withFlags bank flags).activeFlags = m.activeFlags :=
    (m.flags.get_set bank m.flagBank flags).trans (if_neg h.symm)
  show m.store.word (Control.address m.i m.cycle (m.withFlags bank flags).activeFlags.carry
    (m.withFlags bank flags).activeFlags.zero) = _
  rw [hactive]
  rfl

/-! ## One instruction -/

theorem spares_iff (hi : i.owns (m.memory m.pc.value)) : m.Spares bank ↔ i.bank ≠ bank := by
  have hbit : ∀ opcode : UInt8, (opcode &&& flagBankBit != 0) = !decide (opcode < 0x80) :=
    forall_byte (by decide)
  rw [← bank_of_owns hi, hbit, Spares]
  cases decide (m.memory m.pc.value < 0x80) <;> cases bank <;> decide

/-- An instruction is being fetched, or it is on its way to the end. -/
def Underway (i : Instruction) (m : Machine) : Prop :=
  (m.AtBoundary ∧ i.owns (m.memory m.pc.value)) ∨
    ∃ start limit, OnCourse i (fun d => (!i.isStraight || d == some i.size)) start limit m

theorem Underway.tick (h : m.Underway i) (hcycle : m.tick.cycle ≠ 0) : m.tick.Underway i := by
  rcases h with ⟨hm, hi⟩ | ⟨start, limit, h⟩
  · obtain ⟨j, hj⟩ := hm.exists_at
    exact .inr ⟨_, _, hj.onCourse hi⟩
  · have htick := h.tick
    rw [if_neg hcycle] at htick
    exact .inr ⟨start, limit, htick⟩

/-- Both machines read the same word, and it works with the other bank if it works with flags at all. -/
theorem Underway.word (h : m.Underway i) (hbank : i.bank ≠ bank) (flags : Flags) :
    (m.withFlags bank flags).sense.word = m.sense.word ∧
      (m.sense.word.sink ≠ .aluT ∨ m.flagBank ≠ bank) := by
  rcases h with ⟨hm, -⟩ | ⟨start, limit, k, n, d, hm, -⟩
  · have hm' : (m.withFlags bank flags).AtBoundary := ⟨hm.store, hm.cycle⟩
    obtain ⟨j, hj⟩ := hm.exists_at
    obtain ⟨j', hj'⟩ := hm'.exists_at
    rw [hj.word_first, hj'.word_first]
    exact ⟨rfl, .inl (by decide)⟩
  · have hother : m.flagBank ≠ bank := by
      rwa [flagBank, bank_of_owns hm.owns]
    exact ⟨word_withFlags hother, .inr hother⟩

theorem finish_withFlags (hm : m.AtBoundary) (hs : m.Spares bank) (flags : Flags) (seen : Array UInt8) :
    let last := m.finish Observer.outputs seen
    (m.withFlags bank flags).finish Observer.outputs seen = (last.1.withFlags bank flags, last.2) := by
  obtain ⟨i, hi⟩ := exists_owner (m.memory m.pc.value)
  refine finish_map (withFlags bank flags) (P := Underway i) (fun _ => rfl) (fun m h => ?_)
    (fun m h hcycle => h.tick hcycle) (.inl ⟨hm, hi⟩) seen
  obtain ⟨hword, hsink⟩ := h.word ((spares_iff hi).mp hs) flags
  exact ⟨tick_withFlags rfl hword hsink, note_withFlags rfl hword⟩

theorem Spares.get_flags_stepped (hs : m.Spares bank) (hm : m.AtBoundary) :
    m.stepped.flags.get bank = m.flags.get bank := by
  obtain ⟨i, hi⟩ := exists_owner (m.memory m.pc.value)
  exact Machine.get_flags_stepped hm hi ((spares_iff hi).mp hs)

/-! ## Many instructions -/

theorem afterSteps_withFlags {count : Nat} (hm : m.AtBoundary)
    (hs : ∀ k < count, (stepped^[k] m).Spares bank) (flags : Flags) (seen : Array UInt8) :
    let last := m.afterSteps seen count
    (m.withFlags bank flags).afterSteps seen count = (last.1.withFlags bank flags, last.2) ∧
      last.1.flags.get bank = m.flags.get bank := by
  induction count with
  | zero => exact ⟨rfl, rfl⟩
  | succ count ih =>
    obtain ⟨hlast, hkept⟩ := ih fun k hk => hs k (Nat.lt_succ_of_lt hk)
    have hspares : (m.afterSteps seen count).1.Spares bank := by
      rw [machine_afterSteps]
      exact hs count count.lt_succ_self
    have hboundary : (m.afterSteps seen count).1.AtBoundary := by
      rw [machine_afterSteps]
      exact hm.iterate_stepped count
    simp only [afterSteps_succ, hlast, finish_withFlags hboundary hspares flags]
    refine ⟨trivial, ?_⟩
    rw [finish_silent, ← stepped_eq_finish, hspares.get_flags_stepped hboundary, hkept]

/-- All instructions that begin before a limit spare the bank. -/
def SparesUntil (limit : Nat) (bank : Bool) (m : Machine) : Prop :=
  ∀ k, (stepped^[k] m).ticks < limit → (stepped^[k] m).Spares bank

theorem runUntil_withFlags {limit : Nat} (hm : m.AtBoundary) (hs : m.SparesUntil limit bank)
    (flags : Flags) (seen : Array UInt8) :
    let last := runUntil Observer.outputs limit m seen
    runUntil Observer.outputs limit (m.withFlags bank flags) seen =
        (last.1.withFlags bank flags, last.2) ∧
      last.1.flags.get bank = m.flags.get bank := by
  have hnext (x : Machine) (s : Array UInt8) (hx : x.AtBoundary ∧ x.SparesUntil limit bank) :
      (x.finish Observer.outputs s).1.AtBoundary ∧
        (x.finish Observer.outputs s).1.SparesUntil limit bank := by
    rw [finish_silent, ← stepped_eq_finish]
    exact ⟨hx.1.stepped, fun k => hx.2 (k + 1)⟩
  constructor
  · refine runUntil_map (withFlags bank flags) (P := fun x => x.AtBoundary ∧ x.SparesUntil limit bank)
      (fun _ => rfl) (fun x s hlt hx => ?_) ⟨hm, hs⟩ seen
    exact ⟨finish_withFlags hx.1 (hx.2 0 hlt) flags s, hnext x s hx⟩
  · refine (runUntil_invariant (o := Observer.outputs)
      (P := fun x _ => (x.AtBoundary ∧ x.SparesUntil limit bank) ∧ x.flags.get bank = m.flags.get bank)
      (fun x s hlt hx => ⟨hnext x s hx.1, ?_⟩) ⟨⟨hm, hs⟩, rfl⟩).2
    have hspares : x.Spares bank := hx.1.2 0 hlt
    rw [finish_silent, ← stepped_eq_finish, hspares.get_flags_stepped hx.1.1, hx.2]

theorem run_withFlags {ticks : Nat} (hm : m.AtBoundary) (hs : m.SparesUntil (m.ticks + ticks) bank)
    (flags : Flags) (seen : Array UInt8) :
    let x := m.run Observer.outputs ticks seen
    (m.withFlags bank flags).run Observer.outputs ticks seen =
        { x with machine := x.machine.withFlags bank flags } ∧
      x.machine.flags.get bank = m.flags.get bank := by
  intro x
  obtain ⟨hlast, hkept⟩ := runUntil_withFlags hm hs flags seen
  -- A run sets the running flag first, which makes no difference to the instructions.
  have hrun (y : Machine) : y.run Observer.outputs ticks seen =
      let last := runUntil Observer.outputs (y.ticks + ticks) y seen
      conclude Observer.outputs y.ticks (last.1.withRunning true, last.2) :=
    congrArg _ (runUntil_withRunning (fun value (seen : Array UInt8) => seen.push value) _ true y seen)
  have hx : x = _ := hrun m
  refine ⟨?_, ?_⟩
  · rw [hrun, hx]
    exact congrArg (fun last => conclude Observer.outputs m.ticks (last.1.withRunning true, last.2)) hlast
  · rw [hx]
    exact hkept

/-- On the generated store an instruction of one bank leaves the other bank alone and does the same
whatever flags it holds. So do any number of instructions of that bank, and any run of them: started with
other flags in the other bank, they lead to the same machine but for these flags, and send the same
outputs in the same time. -/
theorem step_other_bank {b : Builder} (hb : generate = .ok b) (hstore : m.store = b.store)
    (hcycle : m.cycle = 0) (bank : Bool) (flags : Flags) (seen : Array UInt8) :
    let n := m.withFlags bank flags
    (m.Spares bank →
      let x := m.step Observer.outputs seen
      n.step Observer.outputs seen = { x with machine := x.machine.withFlags bank flags } ∧
        x.machine.flags.get bank = m.flags.get bank) ∧
    (∀ count, (∀ k < count, (stepped^[k] m).Spares bank) →
      let x := m.afterSteps seen count
      n.afterSteps seen count = (x.1.withFlags bank flags, x.2) ∧
        x.1.flags.get bank = m.flags.get bank) ∧
    ∀ ticks, m.SparesUntil (m.ticks + ticks) bank →
      let x := m.run Observer.outputs ticks seen
      n.run Observer.outputs ticks seen = { x with machine := x.machine.withFlags bank flags } ∧
        x.machine.flags.get bank = m.flags.get bank := by
  obtain rfl := generated_eq hb
  have hm : m.AtBoundary := ⟨hstore, hcycle⟩
  refine ⟨fun hs => ⟨?_, ?_⟩, fun count hs => afterSteps_withFlags hm hs flags seen,
    fun ticks hs => run_withFlags hm hs flags seen⟩
  · exact congrArg (conclude Observer.outputs m.ticks) (finish_withFlags hm hs flags seen)
  · rw [machine_step, hs.get_flags_stepped hm]

/-- The complement of a register sets flags, those of bank 0. -/
theorem step_other_bank_not :
    let m : Machine := { store := generated.store, boot := bootOf #[0x24] }
    let n := m.withFlags true ⟨true, true⟩
    let x := m.step Observer.outputs #[]
    (generate = .ok generated ∧ m.store = generated.store ∧ m.cycle = 0 ∧ m.Executes .not [.register .a]) ∧
      m.Spares true ∧ m.SparesUntil (m.ticks + 1) true ∧
      n.step Observer.outputs #[] = { x with machine := x.machine.withFlags true ⟨true, true⟩ } ∧
      (n.run Observer.outputs 1 #[]).machine =
        (m.run Observer.outputs 1 #[]).machine.withFlags true ⟨true, true⟩ := by
  intro m n x
  have hexec : m.Executes .not [.register .a] := executes_of_boot rfl rfl (by decide) (by rfl)
  have hspares : m.Spares true := (spares_iff hexec.owns).mpr (by decide)
  have huntil : m.SparesUntil (m.ticks + 1) true := by
    intro k hk
    cases k with
    | zero => exact hspares
    | succ k =>
      rw [Function.iterate_succ_apply', stepped_eq_finish] at hk
      exact absurd hk (Nat.not_lt.mpr (Nat.le_trans (Nat.succ_le_succ (Nat.zero_le _))
        (ticks_lt_finish Observer.silent (stepped^[k] m) ())))
  obtain ⟨hstep, -, hrun⟩ := step_other_bank (m := m) generate_eq rfl rfl true ⟨true, true⟩ #[]
  exact ⟨⟨generate_eq, rfl, rfl, hexec⟩, hspares, huntil, (hstep hspares).1,
    congrArg Outcome.machine (hrun 1 huntil).1⟩

end Machine

end Microcomputer
