import Microcomputer.Proofs.Machine.Advance
import Microcomputer.Proofs.Microcode.Paths

/-!
# The course of an instruction

A machine over the generated store reads in every cycle the words of the instruction in I under the flags
of that cycle. What holds along every path through these words therefore holds in every course that the
machine can take.
-/

namespace Microcomputer

/-- The observer that collects every cycle with the machine that it begins in. -/
def Observer.cycles : Observer (List (Machine × Cycle)) where
  cycle m c seen := seen ++ [(m, c)]

theorem Observer.note_cycles (m : Machine) (c : Cycle) (seen : List (Machine × Cycle)) :
    Observer.cycles.note m c seen = seen ++ [(m, c)] := by
  unfold note
  split <;> rfl

theorem Observer.forall_note_cycles {P : Machine × Cycle → Prop} {m : Machine} {c : Cycle}
    {seen : List (Machine × Cycle)} (hseen : ∀ x ∈ seen, P x) (hc : P (m, c)) :
    ∀ x ∈ Observer.cycles.note m c seen, P x := by
  rw [note_cycles]
  exact List.forall_mem_append.mpr ⟨hseen, List.forall_mem_singleton.mpr hc⟩

namespace Machine

open Control (Word)
open Instruction
open Microcode

variable {σ : Type} {o : Observer σ} {m : Machine} {i : Instruction} {k : Nat} {w : Word}

/-! ## One cycle -/

theorem primary_sense :
    m.sense.primary = m.primary m.sense.word (m.pair m.sense.word.pointer).value := rfl

theorem side_sense : m.sense.side = m.side m.sense.word := rfl

/-- The machine is over the generated store and has read so many words of an instruction. -/
structure At (m : Machine) (i : Instruction) (k : Nat) : Prop where
  store : m.store = generated.store
  owns : i.owns m.i
  cycle : m.cycle = .ofNat k

/-- What a cycle reads is a step that the table, or the routine of all other opcodes, has for the
instruction in I under its flags. -/
def Authored (b : Builder) (m : Machine) (c : Cycle) : Prop :=
  ∃ r ∈ noOperation :: table, ∃ s, r.instruction.owns m.i ∧
    r.admits m.activeFlags.carry m.activeFlags.zero ∧ r.steps[m.cycle.toNat]? = some s ∧
    c.word = s.word ∧ b.slot c.address = .word
      { word := s.word, instruction := r.instruction, step := m.cycle.toNat, origin := s.origin }

/-- An authored word fetches an opcode exactly in the first cycle, and there are at most twelve. -/
theorem Authored.cycle {b : Builder} {m : Machine} {c : Cycle} (h : Authored b m c) :
    (c.word.sink = .i ↔ m.cycle = 0) ∧ m.cycle.toNat < 12 := by
  have hsteps : ∀ r ∈ noOperation :: table, ∀ p ∈ r.steps.zipIdx,
      (p.1.word.sink = .i ↔ p.2 = 0) ∧ p.2 < 12 := by
    decide
  obtain ⟨r, hr, s, -, -, hs, hword, -⟩ := h
  have hp := hsteps r hr (s, m.cycle.toNat) (List.mem_zipIdx_iff_getElem?.mpr hs)
  rw [hword]
  exact ⟨hp.1.trans (UInt8.toNat_inj (b := 0)), hp.2⟩

/-- The machine is over the generated store and between two instructions. -/
structure AtBoundary (m : Machine) : Prop where
  store : m.store = generated.store
  cycle : m.cycle = 0

theorem AtBoundary.exists_at (h : m.AtBoundary) : ∃ i, m.At i 0 :=
  (exists_owner m.i).imp fun _ ho => ⟨h.store, ho, h.cycle⟩

namespace At

theorem lt (hw : (words i m.activeFlags)[k]? = some w) : k < cycleCount :=
  Nat.lt_of_lt_of_le (List.getElem?_eq_some_iff.mp hw).1 (length_words_le i m.activeFlags)

theorem toNat_cycle (h : m.At i k) (hk : k < cycleCount) : m.cycle.toNat = k := by
  rw [h.cycle, UInt8.toNat_ofNat']
  simp only [cycleCount] at hk
  omega

theorem cycle_ne (h : m.At i (k + 1)) (hk : k < cycleCount) : m.cycle ≠ 0 := by
  intro hcycle
  have hzero := h.cycle
  rw [hcycle, ← UInt8.toNat_inj, UInt8.toNat_ofNat'] at hzero
  simp only [cycleCount, UInt8.reduceToNat] at hk hzero
  omega

theorem word_sense (h : m.At i k) (hw : (words i m.activeFlags)[k]? = some w) : m.sense.word = w := by
  have hk := lt hw
  show m.store.word (Control.address m.i m.cycle m.activeFlags.carry m.activeFlags.zero) = w
  rw [h.store, h.cycle, word_generated h.owns _ hk, hw]
  rfl

theorem authored (h : m.At i k) (hw : (words i m.activeFlags)[k]? = some w) :
    Authored generated m m.sense := by
  have hk := lt hw
  have hword := h.word_sense hw
  rw [words, List.getElem?_map, Option.map_eq_some_iff] at hw
  obtain ⟨s, hs, rfl⟩ := hw
  have hslot := slot_generated h.owns m.activeFlags hk
  rw [hs] at hslot
  refine ⟨routine i m.activeFlags, routine_mem i _, s, ?_, admits_routine i _, ?_, hword, ?_⟩
  · rw [instruction_routine]
    exact h.owns
  · rw [h.toNat_cycle hk]
    exact hs
  · rw [instruction_routine, h.toNat_cycle hk]
    show generated.slot (Control.address m.i m.cycle m.activeFlags.carry m.activeFlags.zero) = _
    rw [h.cycle]
    exact hslot

theorem next (h : m.At i k) (hw : (words i m.activeFlags)[k]? = some w) (hi : w.sink ≠ .i)
    (he : w.sink.endsInstruction = false) : m.tick.At i (k + 1) := by
  have hword := h.word_sense hw
  refine ⟨store_advance.trans h.store, ?_, ?_⟩
  · rw [Machine.tick, i_advance, hword, if_neg hi]
    exact h.owns
  · rw [Machine.tick, cycle_advance, hword, he, h.cycle]
    exact (UInt8.ofNat_add k 1).symm

theorem activeFlags_tick (h : m.At i k) (hw : (words i m.activeFlags)[k]? = some w) (hi : w.sink ≠ .i) :
    w.sink = .aluT ∨ m.tick.activeFlags = m.activeFlags := by
  have hword := h.word_sense hw
  by_cases ht : w.sink = .aluT
  · exact .inl ht
  · exact .inr (activeFlags_advance (by rwa [hword]) (by rwa [hword]))

/-! ## The first cycle -/

/-- The first cycle of an instruction, whatever was in I, brings the opcode under PC to I. -/
theorem word_first (h : m.At i 0) : m.sense.word = fetch :=
  h.word_sense (words_zero i m.activeFlags)

theorem i_first (h : m.At i 0) : m.tick.i = m.memory m.pc.value := by
  rw [Machine.tick, i_advance, primary_sense, h.word_first]
  rfl

theorem first {j : Instruction} (h : m.At i 0) (hj : j.owns (m.memory m.pc.value)) : m.tick.At j 1 := by
  refine ⟨store_advance.trans h.store, ?_, ?_⟩
  · rw [h.i_first]
    exact hj
  · rw [Machine.tick, cycle_advance, h.word_first, h.cycle]
    rfl

theorem first_quiet (h : m.At i 0) : m.tick.pc = m.pc ∧ m.tick.regs = m.regs ∧
    m.tick.flags = m.flags ∧ ∀ a, m.tick.memory a = m.memory a := by
  have hword := h.word_first
  refine ⟨?_, regs_advance ?_, flags_advance ?_, memory_advance ?_⟩
  · rw [Machine.tick, pc_advance, hword]
    rfl
  all_goals
    rw [hword]
    decide

end At

/-! ## To the end of the instruction -/

theorem finish_tick {s : σ} (h : m.tick.cycle ≠ 0) :
    m.finish o s = m.tick.finish o (o.note m m.sense s) := by
  rw [finish]
  exact if_neg h

/-- What every cycle preserves until the instruction ends, and its last cycle turns into another
property, holds when it has ended. -/
theorem finish_invariant {P E : Machine → σ → Prop}
    (hnext : ∀ m s, P m s → m.tick.cycle ≠ 0 → P m.tick (o.note m m.sense s))
    (hlast : ∀ m s, P m s → m.tick.cycle = 0 → E m.tick (o.note m m.sense s))
    {m : Machine} {s : σ} (h : P m s) : E (m.finish o s).1 (m.finish o s).2 := by
  fun_induction finish o m s with
  | case1 m s c seen next hend => exact hlast m s h hend
  | case2 m s c seen next hend ih => exact ih (hnext m s h hend)

/-- PC has moved by a distance, if there is one. -/
def Moved (start : UInt16) (m : Machine) (distance : Option Nat) : Prop :=
  ∀ n, distance = some n → m.pc.value = start + .ofNat n

theorem Moved.tick {start : UInt16} {distance : Option Nat} (h : Moved start m distance) :
    Moved start m.tick (displace m.sense.word distance) := by
  intro n hn
  have hpc := pc_advance (m := m) (c := m.sense)
  have hstep {k : Nat} (hk : distance.map (· + 1) = some k) :
      m.pc.next.value = start + UInt16.ofNat k := by
    obtain ⟨k, hd, rfl⟩ := Option.map_eq_some_iff.mp hk
    rw [RegisterPair.next, RegisterPair.value_ofValue, h k hd, UInt16.add_assoc]
    exact congrArg (start + ·) (UInt16.ofNat_add k 1).symm
  rw [Machine.tick, hpc]
  revert hn
  unfold displace
  split
  next hsink =>
    simp only [hsink]
    exact hstep
  next hsink =>
    simp only [hsink]
    exact hstep
  next =>
    intro hn
    cases hn
  next =>
    intro hn
    split <;> first | contradiction | exact h n hn

section

variable {Q : Option Nat → Prop} {start : UInt16} {limit : Nat}

/-- All paths from here end the instruction, by a limit of ticks and with a good distance. -/
def OnCourse (i : Instruction) (Q : Option Nat → Prop) (start : UInt16) (limit : Nat) (m : Machine) : Prop :=
  ∃ k n d, m.At i k ∧ Leads (words i) displace Q n k m.activeFlags d ∧ Moved start m d ∧
    m.ticks + n ≤ limit

/-- The instruction has ended by a limit of ticks and with a good distance. -/
def Ended (Q : Option Nat → Prop) (start : UInt16) (limit : Nat) (m : Machine) : Prop :=
  m.AtBoundary ∧ m.ticks ≤ limit ∧ ∃ d, Q d ∧ Moved start m d

theorem OnCourse.authored (h : OnCourse i Q start limit m) : Authored generated m m.sense := by
  obtain ⟨k, n, d, hm, hl, -, -⟩ := h
  cases hl with
  | last hw => exact hm.authored hw
  | next hw => exact hm.authored hw

theorem OnCourse.tick (h : OnCourse i Q start limit m) :
    if m.tick.cycle = 0 then Ended Q start limit m.tick else OnCourse i Q start limit m.tick := by
  obtain ⟨k, n, d, hm, hl, hd, hn⟩ := h
  have hticks : m.tick.ticks = m.ticks + 1 := ticks_advance m m.sense
  have hmoved := hd.tick
  cases hl with
  | last hw hi he hq =>
    rw [hm.word_sense hw] at hmoved
    have hcycle : m.tick.cycle = 0 := by
      rw [Machine.tick, cycle_advance, hm.word_sense hw, he]
      rfl
    rw [if_pos hcycle]
    exact ⟨⟨store_advance.trans hm.store, hcycle⟩, by omega, _, hq, hmoved⟩
  | next hw hi he hnext =>
    rw [hm.word_sense hw] at hmoved
    have hm' := hm.next hw hi he
    rw [if_neg (hm'.cycle_ne (At.lt hw))]
    exact ⟨_, _, _, hm', hnext _ (hm.activeFlags_tick hw hi), hmoved, by omega⟩

/-- An instruction on course comes to its end, and what was seen until then is authored. The property of
what was seen is any that authored cycles preserve. -/
theorem OnCourse.finish {S : σ → Prop}
    (hS : ∀ m s, S s → Authored generated m m.sense → S (o.note m m.sense s))
    (h : OnCourse i Q start limit m) {s : σ} (hs : S s) :
    S (m.finish o s).2 ∧ Ended Q start limit (m.finish o s).1 := by
  refine finish_invariant (o := o) (P := fun m s => S s ∧ OnCourse i Q start limit m)
    (E := fun m s => S s ∧ Ended Q start limit m) ?_ ?_ ⟨hs, h⟩
  · intro m s ⟨hs, h⟩ hcycle
    have htick := h.tick
    rw [if_neg hcycle] at htick
    exact ⟨hS m s hs h.authored, htick⟩
  · intro m s ⟨hs, h⟩ hcycle
    have htick := h.tick
    rw [if_pos hcycle] at htick
    exact ⟨hS m s hs h.authored, htick⟩

end

/-- The fetch of an instruction brings it on course. -/
theorem At.onCourse {j : Instruction} (h : m.At j 0) (hi : i.owns (m.memory m.pc.value)) :
    OnCourse i (fun d => (!i.isStraight || d == some i.size)) m.tick.pc.value (m.ticks + 12) m.tick := by
  have hmoved : Moved m.tick.pc.value m.tick (some 0) := by
    rintro _ ⟨⟩
    exact (UInt16.add_zero _).symm
  have hticks : m.tick.ticks = m.ticks + 1 := ticks_advance m m.sense
  exact ⟨1, 11, some 0, h.first hi, leads_size i _, hmoved, by omega⟩

/-- From a boundary on, one instruction comes to the next boundary within twelve cycles and reads
authored words only. -/
theorem finish_of_boundary {S : σ → Prop}
    (hS : ∀ m s, S s → Authored generated m m.sense → S (o.note m m.sense s))
    {m : Machine} (hm : m.AtBoundary) {s : σ} (hs : S s) :
    S (m.finish o s).2 ∧ (m.finish o s).1.AtBoundary ∧ (m.finish o s).1.ticks ≤ m.ticks + 12 := by
  obtain ⟨j, h⟩ := hm.exists_at
  obtain ⟨i, hi⟩ := exists_owner (m.memory m.pc.value)
  have hfirst := hS m s hs (h.authored (words_zero j m.activeFlags))
  obtain ⟨hend, hm', ht, -⟩ := (h.onCourse hi).finish hS hfirst
  rw [finish_tick ((h.first hi).cycle_ne (by decide))]
  exact ⟨hend, hm', ht⟩

end Machine

end Microcomputer
