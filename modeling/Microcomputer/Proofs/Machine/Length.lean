import Microcomputer.Proofs.Alu.Comparison
import Microcomputer.Proofs.Machine.Execution

/-!
# The length of instructions

The microcode steps PC over exactly the bytes that an instruction is encoded with. Straight instructions
do so along all their paths; a jump does so where its condition fails and a loop where its comparison
finds the end.
-/

namespace Microcomputer.Machine

open Control (Word)
open Instruction
open Microcode

variable {σ : Type} {o : Observer σ} {m : Machine} {i : Instruction} {k : Nat} {w : Word}

/-- The instruction under PC, if it is this one, goes on with the one after it. A jump looks at the flags
of bank 1, a loop at the register in the low field of the opcode. -/
def fallsThrough (m : Machine) (i : Instruction) : Bool :=
  let flags := m.flags.bank1
  let counter := m.regs.get (.ofBits (m.memory m.pc.value).toNat)
  match i with
  | je => !flags.zero
  | jne => flags.zero
  | jg => flags.carry
  | jge => flags.carry && !flags.zero
  | jl => !(flags.carry && !flags.zero)
  | jle => !flags.carry
  | loope => counter == m.memory (m.pc.value + 1)
  | loopz => counter == 0
  | i => i.isStraight

/-! ## The comparison of a loop -/

theorem At.zero_compareD (h : m.At i k) (hw : (words i m.activeFlags)[k]? = some compareD) :
    m.tick.activeFlags.zero = (m.regs.get (.ofBits m.i.toNat) == m.d) := by
  have hword := h.word_sense hw
  have hzero := (latch_advance (m := m) (c := m.sense) (by rw [hword]; rfl)).2
  rw [primary_sense, side_sense, hword] at hzero
  exact hzero.trans (Alu.zero_compare _ _)

/-- A word that steps PC, loads D or works in the arithmetic logic unit leaves all else alone that the
comparison of a loop reads. -/
theorem At.quiet (h : m.At i k) (hw : (words i m.activeFlags)[k]? = some w)
    (hs : w.sink ∈ [.pcPlus, .d, .aluT]) :
    m.tick.At i (k + 1) ∧ m.tick.i = m.i ∧ m.tick.regs = m.regs ∧ ∀ a, m.tick.memory a = m.memory a := by
  have hne : ∀ sink ∈ [Control.Sink.pcPlus, .d, .aluT],
      sink ≠ .i ∧ sink ≠ .abxy ∧ sink ≠ .ram ∧ sink.endsInstruction = false := by
    decide
  obtain ⟨hi, habxy, hram, hend⟩ := hne _ hs
  have hword := h.word_sense hw
  refine ⟨h.next hw hi hend, ?_, regs_advance (by rwa [hword]), memory_advance (by rwa [hword])⟩
  rw [tick, i_advance, hword, if_neg hi]

theorem At.compare {w₁ w₂ : Word} (h : m.At i 1) (hw₁ : (words i m.activeFlags)[1]? = some w₁)
    (hw₂ : (words i m.tick.activeFlags)[2]? = some w₂)
    (hw₃ : (words i m.tick.tick.activeFlags)[3]? = some compareD)
    (hs₁ : w₁.sink ∈ [.pcPlus, .d, .aluT]) (hs₂ : w₂.sink ∈ [.pcPlus, .d, .aluT]) (s : σ) :
    (∃ t, m.finish o s = m.tick.tick.tick.finish o t) ∧ m.tick.tick.tick.At i 4 ∧
      m.tick.tick.tick.pc = m.tick.tick.pc ∧
      m.tick.tick.tick.activeFlags.zero = (m.regs.get (.ofBits m.i.toNat) == m.tick.tick.d) := by
  obtain ⟨h2, i1, r1, -⟩ := h.quiet hw₁ hs₁
  obtain ⟨h3, i2, r2, -⟩ := h2.quiet hw₂ hs₂
  obtain ⟨h4, -⟩ := h3.quiet hw₃ (by decide)
  refine ⟨?_, h4, ?_, ?_⟩
  · rw [finish_tick (h2.cycle_ne (by decide)), finish_tick (h3.cycle_ne (by decide)),
      finish_tick (h4.cycle_ne (by decide))]
    exact ⟨_, rfl⟩
  · rw [tick, pc_advance, h3.word_sense hw₃]
    rfl
  · rw [h3.zero_compareD hw₃, r2, r1, i2, i1]

/-- A `loope` compares its register with the byte after the opcode. -/
theorem At.finish_loope (h : m.At .loope 1) (s : σ) : ∃ (n : Machine) (t : σ),
    m.finish o s = n.finish o t ∧ n.At .loope 4 ∧ n.pc = m.pc.next ∧
      n.activeFlags.zero = (m.regs.get (.ofBits m.i.toNat) == m.memory m.pc.next.value) := by
  have w1 := (words_loope m.activeFlags).1
  have w2 := (words_loope m.tick.activeFlags).2.1
  have w3 := (words_loope m.tick.tick.activeFlags).2.2
  obtain ⟨h2, -, -, mem1⟩ := h.quiet w1 (by decide)
  have pc1 : m.tick.pc = m.pc.next := by
    rw [tick, pc_advance, h.word_sense w1]
    rfl
  have pc2 : m.tick.tick.pc = m.tick.pc := by
    rw [tick, pc_advance, h2.word_sense w2]
    rfl
  have d2 : m.tick.tick.d = m.memory m.pc.next.value := by
    rw [tick, d_advance, primary_sense, h2.word_sense w2, ← pc1]
    exact mem1 _
  obtain ⟨⟨t, ht⟩, h4, pc3, hzero⟩ := h.compare (o := o) w1 w2 w3 (by decide) (by decide) s
  exact ⟨_, t, ht, h4, pc3.trans (pc2.trans pc1), d2 ▸ hzero⟩

/-- A `loopz` compares its register with zero. -/
theorem At.finish_loopz (h : m.At .loopz 1) (s : σ) : ∃ (n : Machine) (t : σ),
    m.finish o s = n.finish o t ∧ n.At .loopz 4 ∧ n.pc = m.pc ∧
      n.activeFlags.zero = (m.regs.get (.ofBits m.i.toNat) == 0) := by
  have w1 := (words_loopz m.activeFlags).1
  have w2 := (words_loopz m.tick.activeFlags).2.1
  have w3 := (words_loopz m.tick.tick.activeFlags).2.2
  obtain ⟨h2, -⟩ := h.quiet w1 (by decide)
  have pc1 : m.tick.pc = m.pc := by
    rw [tick, pc_advance, h.word_sense w1]
    rfl
  have pc2 : m.tick.tick.pc = m.tick.pc := by
    rw [tick, pc_advance, h2.word_sense w2]
    rfl
  have t1 : m.tick.t = 0 := by
    have hword := h.word_sense w1
    have ht := (latch_advance (m := m) (c := m.sense) (by rw [hword]; rfl)).1
    rw [hword] at ht
    exact ht.trans (Alu.value_zero _ _ _)
  have d2 : m.tick.tick.d = 0 := by
    rw [tick, d_advance, primary_sense, h2.word_sense w2]
    exact t1
  obtain ⟨⟨t, ht⟩, h4, pc3, hzero⟩ := h.compare (o := o) w1 w2 w3 (by decide) (by decide) s
  exact ⟨_, t, ht, h4, pc3.trans (pc2.trans pc1), d2 ▸ hzero⟩

/-! ## One instruction -/

theorem fallsThrough_cases (h : m.fallsThrough i) : i.isStraight ∨
    (∃ taken, (i, taken) ∈ conditions ∧ taken m.flags.bank1.carry m.flags.bank1.zero = false) ∨
    (i = .loope ∧ m.regs.get (.ofBits (m.memory m.pc.value).toNat) == m.memory (m.pc.value + 1)) ∨
    (i = .loopz ∧ m.regs.get (.ofBits (m.memory m.pc.value).toNat) == 0) := by
  unfold fallsThrough at h
  split at h
  · exact .inr (.inl ⟨_, .head _, by simpa using h⟩)
  · exact .inr (.inl ⟨_, .tail _ (.head _), by simpa using h⟩)
  · exact .inr (.inl ⟨_, .tail _ (.tail _ (.head _)), by simpa using h⟩)
  · exact .inr (.inl ⟨_, .tail _ (.tail _ (.tail _ (.head _))), by grind⟩)
  · exact .inr (.inl ⟨_, .tail _ (.tail _ (.tail _ (.tail _ (.head _)))),
      by simpa only [Bool.not_eq_true'] using h⟩)
  · exact .inr (.inl ⟨_, .tail _ (.tail _ (.tail _ (.tail _ (.tail _ (.head _))))), by simpa using h⟩)
  · exact .inr (.inr (.inl ⟨rfl, h⟩))
  · exact .inr (.inr (.inr ⟨rfl, h⟩))
  · exact .inl h

theorem At.activeFlags_condition {taken : Bool → Bool → Bool} (h : m.At i k)
    (hi : (i, taken) ∈ conditions) : m.activeFlags = m.flags.bank1 := by
  have hbank : ∀ p ∈ conditions, p.1.bank := by
    decide
  rw [activeFlags, flagBank, bank_of_owns h.owns, hbank _ hi]
  rfl

theorem At.finish_pc {start : UInt16} {n distance size : Nat} {s : σ} (h : m.At i k)
    (hl : Leads (words i) displace (fun d => d == some size) n k m.activeFlags (some distance))
    (hpc : m.pc.value = start + .ofNat distance) :
    (m.finish o s).1.pc.value = start + .ofNat size := by
  have hmoved : Moved start m (some distance) := by
    rintro _ ⟨⟩
    exact hpc
  have hcourse : OnCourse i _ start (m.ticks + n) m := ⟨k, n, some distance, h, hl, hmoved, Nat.le_refl _⟩
  obtain ⟨-, -, -, d, hd, hend⟩ :=
    hcourse.finish (o := o) (S := fun _ => True) (fun _ _ _ _ => trivial) (s := s) trivial
  exact hend size (beq_iff_eq.mp hd)

theorem finish_size {s : σ} (hm : m.AtBoundary) (hi : i.owns (m.memory m.pc.value))
    (hf : m.fallsThrough i) : (m.finish o s).1.pc.value = m.pc.value + .ofNat i.size := by
  obtain ⟨j, h⟩ := hm.exists_at
  have h1 := h.first hi
  obtain ⟨hpc, hregs, hflags, hmemory⟩ := h.first_quiet
  have hstart : m.tick.pc.value = m.pc.value + .ofNat 0 := by
    rw [hpc]
    exact (UInt16.add_zero _).symm
  have hnext : m.pc.next.value = m.pc.value + .ofNat 1 := RegisterPair.value_ofValue _
  rw [finish_tick (h1.cycle_ne (by decide))]
  rcases fallsThrough_cases hf with hstraight | ⟨taken, ht, hflag⟩ | ⟨rfl, hcount⟩ | ⟨rfl, hcount⟩
  · have hl := leads_size i m.tick.activeFlags
    simp only [hstraight, Bool.not_true, Bool.false_or] at hl
    exact h1.finish_pc hl hstart
  · refine h1.finish_pc (leads_skip ht ?_) hstart
    rw [h1.activeFlags_condition ht, hflags]
    exact hflag
  · obtain ⟨n, t, hn, h4, hpc4, hzero⟩ := h1.finish_loope (o.note m m.sense s)
    rw [h.i_first, hregs, hpc, hmemory, hnext] at hzero
    rw [hn]
    refine h4.finish_pc (leads_exit (.head _) (hzero.trans hcount)) ?_
    rw [hpc4, hpc, hnext]
  · obtain ⟨n, t, hn, h4, hpc4, hzero⟩ := h1.finish_loopz (o.note m m.sense s)
    rw [h.i_first, hregs] at hzero
    rw [hn]
    refine h4.finish_pc (leads_exit (.tail _ (.head _)) (hzero.trans hcount)) ?_
    rw [hpc4, hstart]

theorem pc_stepped_of_fallsThrough (hm : m.AtBoundary) (hi : i.owns (m.memory m.pc.value))
    (hf : m.fallsThrough i) : m.stepped.pc.value = m.pc.value + .ofNat i.size := by
  rw [stepped_eq_finish]
  exact finish_size hm hi hf

theorem fallsThrough_of_isStraight (h : i.isStraight) : m.fallsThrough i := by
  unfold fallsThrough
  split <;> first | exact h | cases h

/-- In a machine over the generated store an instruction that goes on with the next one moves PC by the
size of its encoding, and no instruction fetches an opcode but in its first cycle. -/
theorem step_length {b : Builder} (hb : generate = .ok b) {m : Machine} (hs : m.store = b.store)
    (hc : m.cycle = 0) (o : Observer σ) (s : σ) :
    (∀ i, decode (m.memory m.pc.value) = some i → m.fallsThrough i →
      (m.step o s).machine.pc.value = m.pc.value + .ofNat i.size) ∧
    ∀ x ∈ (m.step Observer.cycles []).seen, x.2.word.sink = .i ↔ x.1.cycle = 0 := by
  have hm : m.AtBoundary := ⟨by rw [hs, generated_eq hb], hc⟩
  constructor
  · intro i hi hf
    exact finish_size hm (owns_of_decode hi) hf
  · refine (finish_of_boundary (o := Observer.cycles)
      (S := fun seen : List (Machine × Cycle) => ∀ x ∈ seen, x.2.word.sink = .i ↔ x.1.cycle = 0)
      (fun m seen hseen hread => ?_) hm ?_).1
    · exact Observer.forall_note_cycles hseen hread.cycle.1
    · exact fun x hx => nomatch hx

/-- After a reset the flags are clear, so a `je` at the start of the bootstrap image is passed over. -/
theorem step_length_je :
    let m : Machine := { store := generated.store, boot := bootOf #[0xF9, 0x34, 0x12] }
    (generate = .ok generated ∧ m.store = generated.store ∧ m.cycle = 0) ∧
      decode (m.memory m.pc.value) = some .je ∧ m.fallsThrough .je ∧
      (m.step Observer.silent ()).machine.pc.value = 3 := by
  intro m
  have hbyte : m.memory m.pc.value = 0xF9 := by
    simp [m, memory, bootOf, RegisterPair.value, bootSize]
  have hdecode : decode (m.memory m.pc.value) = some .je := by
    rw [hbyte]
    decide
  exact ⟨⟨generate_eq, rfl, rfl⟩, hdecode, rfl,
    (step_length generate_eq rfl rfl Observer.silent ()).1 .je hdecode rfl⟩

end Microcomputer.Machine
