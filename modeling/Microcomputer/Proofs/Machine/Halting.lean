import Microcomputer.Proofs.Machine.History
import Microcomputer.Proofs.Machine.Words

/-!
# Halting

The instruction `halt` leaves PC where it is and does nothing but fetch itself again. So a machine that has
come to it changes no more, however long it runs: time passes, and nothing is sent out.
-/

namespace Microcomputer.Machine

open Instruction
open Microcode

variable {σ : Type} {m : Machine}

/-! ## Time -/

theorem inputAfter_add (j k ticks : Nat) (input : UInt8) :
    inputAfter (j + k) ticks input = inputAfter k (ticks + j) (inputAfter j ticks input) := by
  induction k with
  | zero => rfl
  | succ k ih => rw [← Nat.add_assoc, inputAfter, inputAfter, ih, ← Nat.add_assoc]

theorem elapse_elapse (m : Machine) (j k : Nat) : (m.elapse j).elapse k = m.elapse (j + k) := by
  simp only [elapse, inputAfter_add, Nat.add_assoc]

/-! ## The instruction -/

/-- The machine is between two instructions, and the next one is `halt`. -/
structure Halted (m : Machine) : Prop extends AtBoundary m where
  opcode : m.memory m.pc.value = 0xFF

/-- The machine after so many times `halt`, each of two ticks. -/
def spun (m : Machine) (n : Nat) : Machine :=
  { m.elapse (2 * n) with i := if n = 0 then m.i else 0xFF }

theorem spun_spun (m : Machine) (running : Bool) (j k : Nat) :
    ((m.spun j).withRunning running).spun k = (m.spun (j + k)).withRunning running := by
  have htime := m.elapse_elapse (2 * j) (2 * k)
  have hi : (if k = 0 then if j = 0 then m.i else 0xFF else 0xFF) =
      if j + k = 0 then m.i else (0xFF : UInt8) := by
    split <;> simp_all
  rw [← Nat.mul_add] at htime
  exact congr (congrArg (fun (x : Machine) i => { x with running, i }) htime) hi

theorem note_ofOutput {c : Cycle} (h : c.word.sink ≠ .out) (f : UInt8 → σ → σ) (s : σ) :
    (Observer.ofOutput f).note m c s = s := by
  have hnone : c.output? = none := by
    unfold Cycle.output?
    split <;> first | rfl | contradiction
  rw [Observer.note, hnone]
  rfl

namespace Halted

theorem spun (h : m.Halted) (n : Nat) : (m.spun n).Halted :=
  ⟨⟨h.store, h.cycle⟩, h.opcode⟩

theorem withRunning (h : m.Halted) (running : Bool) : (m.withRunning running).Halted :=
  ⟨⟨h.store, h.cycle⟩, h.opcode⟩

theorem owns (h : m.Halted) : halt.owns (m.memory m.pc.value) := by
  rw [h.opcode]
  decide

/-- The first word is the fetch, whatever opcode stands in I; the only other one ends the instruction. -/
theorem sense_eq (h : m.Halted) : m.sense.word = fetch ∧ m.tick.sense.word = Microcode.finish ∧
    m.tick.cycle ≠ 0 ∧ m.tick.tick.cycle = 0 := by
  have hwords : ∀ flags, (words halt flags)[1]? = some Microcode.finish := by
    decide
  obtain ⟨i, hfirst⟩ := h.exists_at
  have hlast := hfirst.first h.owns
  have hfinish := hlast.word_sense (hwords _)
  refine ⟨hfirst.word_first, hfinish, hlast.cycle_ne (by decide), ?_⟩
  rw [tick.eq_def m.tick, cycle_advance, hfinish]
  rfl

theorem finish_eq (h : m.Halted) (f : UInt8 → σ → σ) (s : σ) :
    m.finish (.ofOutput f) s = (m.spun 1, s) := by
  have htrack : Track .halt (fixed [Microcode.finish]) := by
    decide
  have hmachine : (m.finish (.ofOutput f) s).1 = m.spun 1 := by
    rw [finish_silent, ← stepped_eq_finish, stepped_eq_follow htrack h.toAtBoundary h.owns]
    simp only [follow, fixed, List.map, List.foldl, perform_fetch, perform_finish, h.opcode]
    exact congrArg (fun cycle => { m.spun 1 with cycle }) h.cycle.symm
  have hseen : (m.finish (.ofOutput f) s).2 = s := by
    obtain ⟨hfetch, hfinish, hgoes, hends⟩ := h.sense_eq
    rw [finish_tick hgoes, note_ofOutput (by rw [hfetch]; decide), finish]
    refine (congrArg Prod.snd (if_pos hends)).trans (note_ofOutput ?_ f s)
    rw [hfinish]
    decide
  exact Prod.ext hmachine hseen

/-! ## Runs -/

theorem runUntil_eq (h : m.Halted) (f : UInt8 → σ → σ) (limit : Nat) (s : σ) :
    runUntil (.ofOutput f) limit m s = (m.spun ((limit - m.ticks + 1) / 2), s) := by
  fun_induction runUntil (.ofOutput f) limit m s with
  | case1 m s hlt ih =>
    rw [h.finish_eq] at ih ⊢
    have hticks : (m.spun 1).ticks = m.ticks + 2 := rfl
    rw [ih (h.spun 1), hticks]
    have hcount : 1 + (limit - (m.ticks + 2) + 1) / 2 = (limit - m.ticks + 1) / 2 := by
      omega
    rw [← hcount]
    exact congrArg (·, s) (m.spun_spun m.running 1 _)
  | case2 m s hge =>
    rw [show (limit - m.ticks + 1) / 2 = 0 by omega]
    rfl

end Halted

/-! ## Operations -/

namespace Operation

/-- The operation executes instructions. -/
def executes : Operation → Bool
  | run _ | step => true
  | _ => false

/-- How often an operation executes `halt` once the machine has come to it. -/
def spins : Operation → Nat
  | run n => (n + 1) / 2
  | step => 1
  | _ => 0

end Operation

/-- How often operations in order execute `halt`. -/
def spins : List Operation → Nat
  | [] => 0
  | operation :: operations => operation.spins + spins operations

theorem Halted.apply_eq (h : m.Halted) {operation : Operation} (hop : operation.executes)
    (f : UInt8 → σ → σ) (s : σ) : ∃ running,
      operation.apply (.ofOutput f) (m, s) = ((m.spun operation.spins).withRunning running, s) := by
  cases operation with
  | run n =>
    have hrun := (h.withRunning true).runUntil_eq f (m.ticks + n) s
    have hcount : (m.ticks + n - (m.withRunning true).ticks + 1) / 2 = (n + 1) / 2 := by
      rw [show (m.withRunning true).ticks = m.ticks from rfl, Nat.add_sub_cancel_left]
    rw [hcount] at hrun
    exact ⟨true, hrun⟩
  | step => exact ⟨m.running, h.finish_eq f s⟩
  | _ => cases hop

theorem Halted.exists_operate (h : m.Halted) {operations : List Operation}
    (hops : ∀ operation ∈ operations, operation.executes) (f : UInt8 → σ → σ) (s : σ) : ∃ running,
      m.operate (.ofOutput f) s operations = ((m.spun (spins operations)).withRunning running, s) := by
  induction operations generalizing m with
  | nil => exact ⟨m.running, rfl⟩
  | cons operation operations ih =>
    rw [List.forall_mem_cons] at hops
    obtain ⟨running, hfirst⟩ := h.apply_eq hops.1 f s
    obtain ⟨running', hrest⟩ := ih ((h.spun operation.spins).withRunning running) hops.2
    refine ⟨running', ?_⟩
    rw [operate, List.foldl_cons, hfirst]
    refine hrest.trans ?_
    rw [spun_spun]
    rfl

theorem spins_eq_zero_iff {operations : List Operation}
    (hops : ∀ operation ∈ operations, operation.executes) :
    spins operations = 0 ↔ ∀ operation ∈ operations, operation = .run 0 := by
  induction operations with
  | nil => simp [spins]
  | cons operation operations ih =>
    rw [List.forall_mem_cons] at hops
    have hfirst : operation.spins = 0 ↔ operation = .run 0 := by
      cases operation with
      | run n =>
        rw [Operation.run.injEq, Operation.spins]
        omega
      | step => simp [Operation.spins]
      | _ => cases hops.1
    rw [spins, Nat.add_eq_zero_iff, hfirst, ih hops.2, List.forall_mem_cons]

/-- A machine that has come to `halt` stays as it is through all runs and steps, whoever observes it: only
the time goes on and the machine may be marked as running, and the opcode of `halt` is in I once an
instruction was executed. No byte is sent to the output register. -/
theorem operate_halted {b : Builder} (hb : generate = .ok b) (hstore : m.store = b.store)
    (hcycle : m.cycle = 0) (hopcode : m.memory m.pc.value = 0xFF) {operations : List Operation}
    (hops : ∀ operation ∈ operations, operation.executes) (o : Observer σ) (s : σ) :
    let last := (m.operate o s operations).1
    let n := spins operations
    last = { m with
      i := if n = 0 then m.i else 0xFF
      ticks := m.ticks + 2 * n
      input := inputAfter (2 * n) m.ticks m.input
      running := last.running } ∧
    (n = 0 ↔ ∀ operation ∈ operations, operation = .run 0) ∧
    last.input &&& ~~~InputLines.clockBit = m.input &&& ~~~InputLines.clockBit ∧
    ∀ (τ : Type) (f : UInt8 → τ → τ) (seen : τ), (m.operate (.ofOutput f) seen operations).2 = seen := by
  intro last n
  obtain rfl := generated_eq hb
  have hm : m.Halted := ⟨⟨hstore, hcycle⟩, hopcode⟩
  obtain ⟨running, hlast⟩ := hm.exists_operate hops (fun _ seen => seen) ()
  have hmachine : last = (m.spun n).withRunning running := by
    rw [show last = _ from machine_operate o m s operations, ← machine_operate, hlast]
  rw [hmachine]
  refine ⟨rfl, spins_eq_zero_iff hops, m.input_elapse _, fun τ f seen => ?_⟩
  obtain ⟨running, hseen⟩ := hm.exists_operate hops f seen
  rw [hseen]

/-- The clock line goes on while the machine spins. -/
theorem operate_halted_clock :
    let m : Machine := { store := generated.store, boot := bootOf #[0xFF], i := 0x53, ticks := 124999 }
    let operations : List Operation := [.run 3, .step]
    let last := m.operate Observer.outputs #[] operations
    (generate = .ok generated ∧ m.store = generated.store ∧ m.cycle = 0) ∧
      m.memory m.pc.value = 0xFF ∧ (∀ operation ∈ operations, operation.executes) ∧
      last.1 = { m with i := 0xFF, ticks := 125005, input := 0x10, running := last.1.running } ∧
      last.2 = #[] := by
  intro m operations last
  have hopcode : m.memory m.pc.value = 0xFF := by
    simp [m, memory, bootOf, RegisterPair.value, bootSize]
  have hops : ∀ operation ∈ operations, operation.executes := by
    decide
  have hinput : inputAfter (2 * spins operations) 124999 0 = 0x10 := by
    decide
  obtain ⟨hlast, -, -, hseen⟩ := operate_halted generate_eq rfl rfl hopcode hops Observer.outputs #[]
  refine ⟨⟨generate_eq, rfl, rfl⟩, hopcode, hops, hlast.trans ?_, ?_⟩
  · exact congrArg (fun input => { m with i := 0xFF, ticks := 125005, input, running := last.1.running }) hinput
  · exact hseen (Array UInt8) (fun value seen => seen.push value) #[]

end Microcomputer.Machine
