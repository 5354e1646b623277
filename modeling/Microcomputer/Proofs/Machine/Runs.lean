import Microcomputer.Proofs.Machine.Execution
import Microcomputer.Proofs.Machine.Operations

/-!
# Runs

A run executes one instruction after the other until its limit is reached, over any control store. So it
is the same as single steps up to that limit, and it can be cut into two runs at any number of ticks. What
a change of the machine leaves alone in every cycle it leaves alone in a whole run.
-/

namespace Microcomputer

variable {σ : Type}

/-- The observer that sees the bytes sent to the output register, and nothing else. -/
def Observer.ofOutput (f : UInt8 → σ → σ) : Observer σ where
  output := f

namespace Machine

variable {o : Observer σ} {m : Machine} {limit : Nat}

/-! ## A number of instructions -/

/-- The machine and its outputs after so many instructions. -/
def afterSteps (m : Machine) (seen : Array UInt8) (k : Nat) : Machine × Array UInt8 :=
  m.operate Observer.outputs seen (List.replicate k .step)

theorem afterSteps_succ (m : Machine) (seen : Array UInt8) (k : Nat) : m.afterSteps seen (k + 1) =
    (m.afterSteps seen k).1.finish Observer.outputs (m.afterSteps seen k).2 := by
  rw [afterSteps, List.replicate_succ', operate, List.foldl_append]
  rfl

theorem afterSteps_add (m : Machine) (seen : Array UInt8) (j k : Nat) : m.afterSteps seen (j + k) =
    (m.afterSteps seen j).1.afterSteps (m.afterSteps seen j).2 k := by
  rw [afterSteps, ← List.replicate_append_replicate, operate, List.foldl_append]
  rfl

theorem machine_afterSteps (m : Machine) (seen : Array UInt8) (k : Nat) :
    (m.afterSteps seen k).1 = stepped^[k] m := by
  induction k with
  | zero => rfl
  | succ k ih =>
    rw [afterSteps_succ, finish_silent, ← stepped_eq_finish, ih, Function.iterate_succ_apply']

/-! ## Invariants -/

/-- What every instruction before the limit preserves, a run preserves. -/
theorem runUntil_invariant {P : Machine → σ → Prop}
    (hfinish : ∀ m s, m.ticks < limit → P m s → P (m.finish o s).1 (m.finish o s).2) {s : σ} (h : P m s) :
    P (runUntil o limit m s).1 (runUntil o limit m s).2 := by
  fun_induction runUntil o limit m s with
  | case1 m s hlt ih => exact ih (hfinish m s hlt h)
  | case2 m s hge => exact h

/-! ## Changes that instructions carry along -/

section

variable (g : Machine → Machine) {P : Machine → Prop}

/-- A change of the machine that every cycle carries along unseen is carried along by the instruction. -/
theorem finish_map (hcycle : ∀ m, (g m).cycle = m.cycle)
    (htick : ∀ m, P m → (g m).tick = g m.tick ∧ ∀ s, o.note (g m) (g m).sense s = o.note m m.sense s)
    (hnext : ∀ m, P m → m.tick.cycle ≠ 0 → P m.tick) (h : P m) (s : σ) :
    (g m).finish o s = (g (m.finish o s).1, (m.finish o s).2) := by
  fun_induction finish o m s with
  | case1 m s c seen next hend =>
    obtain ⟨ht, hn⟩ := htick m h
    have hend' : (g m).tick.cycle = 0 := by
      rw [ht, hcycle]
      exact hend
    rw [finish]
    refine (if_pos hend').trans ?_
    rw [hn]
    exact congrArg (·, seen) ht
  | case2 m s c seen next hend ih =>
    obtain ⟨ht, hn⟩ := htick m h
    have hend' : (g m).tick.cycle ≠ 0 := by
      rw [ht, hcycle]
      exact hend
    rw [finish_tick hend', ht, hn]
    exact ih (hnext m h hend)

/-- A change of the machine that every instruction before the limit carries along is carried along by the
run. -/
theorem runUntil_map (hticks : ∀ m, (g m).ticks = m.ticks)
    (hfinish : ∀ m s, m.ticks < limit → P m →
      (g m).finish o s = (g (m.finish o s).1, (m.finish o s).2) ∧ P (m.finish o s).1)
    (h : P m) (s : σ) :
    runUntil o limit (g m) s = (g (runUntil o limit m s).1, (runUntil o limit m s).2) := by
  fun_induction runUntil o limit m s with
  | case1 m s hlt ih =>
    obtain ⟨hg, hp⟩ := hfinish m s hlt h
    rw [runUntil, if_pos (by rwa [hticks]), hg]
    exact ih hp
  | case2 m s hge =>
    rw [runUntil, if_neg (by rwa [hticks])]

end

/-! ## The running flag -/

/-- The machine with another value in the flag that tells whether it runs. -/
def withRunning (running : Bool) (m : Machine) : Machine :=
  { m with running }

theorem load_withRunning (running : Bool) (c : Cycle) :
    (m.withRunning running).load c = (m.load c).withRunning running := by
  obtain ⟨address, ⟨source, sink, side, pointer, select, logic, carryIn⟩, primary, side', target⟩ := c
  cases sink with
  | ram =>
    simp only [load, writeMemory]
    split <;> rfl
  | _ => rfl

theorem tick_withRunning (running : Bool) (m : Machine) :
    (m.withRunning running).tick = m.tick.withRunning running :=
  congrArg countTick (m.countCycle.load_withRunning running m.sense)

theorem finish_withRunning (f : UInt8 → σ → σ) (running : Bool) (m : Machine) (s : σ) :
    let last := m.finish (.ofOutput f) s
    (m.withRunning running).finish (.ofOutput f) s = (last.1.withRunning running, last.2) :=
  finish_map (withRunning running) (P := fun _ => True) (fun _ => rfl)
    (fun m _ => ⟨tick_withRunning running m, fun _ => rfl⟩) (fun _ _ _ => trivial) trivial s

theorem runUntil_withRunning (f : UInt8 → σ → σ) (limit : Nat) (running : Bool) (m : Machine) (s : σ) :
    let last := runUntil (.ofOutput f) limit m s
    runUntil (.ofOutput f) limit (m.withRunning running) s = (last.1.withRunning running, last.2) :=
  runUntil_map (withRunning running) (P := fun _ => True) (fun _ => rfl)
    (fun m s _ _ => ⟨finish_withRunning f running m s, trivial⟩) trivial s

/-! ## Steps and cuts -/

theorem runUntil_of_le (h : limit ≤ m.ticks) (s : σ) : runUntil o limit m s = (m, s) := by
  rw [runUntil, if_neg (Nat.not_lt.mpr h)]

/-- A run until one limit and then until another that is not lower is one run. -/
theorem runUntil_runUntil {limit' : Nat} (h : limit ≤ limit') (m : Machine) (s : σ) :
    runUntil o limit' (runUntil o limit m s).1 (runUntil o limit m s).2 = runUntil o limit' m s := by
  fun_induction runUntil o limit m s with
  | case1 m s hlt ih =>
    rw [ih, runUntil.eq_def o limit' m s, if_pos (Nat.lt_of_lt_of_le hlt h)]
  | case2 m s hge => rfl

/-- Without updates to be seen, single steps until a limit are a run until that limit. -/
theorem stepUntil_eq_runUntil (f : UInt8 → σ → σ) (m : Machine) (s : σ) :
    stepUntil (.ofOutput f) limit m s = runUntil (.ofOutput f) limit m s := by
  fun_induction runUntil (.ofOutput f) limit m s with
  | case1 m s hlt ih =>
    rw [stepUntil, if_pos hlt]
    exact ih
  | case2 m s hge => rw [stepUntil, if_neg hge]

theorem stepUntil_eq_run (f : UInt8 → σ → σ) (m : Machine) (n : Nat) (s : σ) :
    let whole := m.run (.ofOutput f) n s
    stepUntil (.ofOutput f) (m.ticks + n) m s = (whole.machine.withRunning m.running, whole.seen) := by
  intro whole
  have hwhole : (whole.machine, whole.seen) =
      runUntil (.ofOutput f) (m.ticks + n) (m.withRunning true) s := rfl
  rw [runUntil_withRunning] at hwhole
  obtain ⟨hmachine, hseen⟩ := Prod.mk.inj hwhole
  -- The flag of the machine comes back unchanged, as it does from a run that starts with its own.
  have hown := runUntil_withRunning f (m.ticks + n) m.running m s
  rw [stepUntil_eq_runUntil, hmachine, hseen]
  exact hown

theorem ticks_le_run (m : Machine) (n : Nat) (s : σ) : m.ticks ≤ (m.run o n s).machine.ticks :=
  ticks_le_runUntil o (m.withRunning true) s

/-- A run for part of the ticks is on the way of the whole run. -/
theorem runUntil_run {n total : Nat} (h : n ≤ total) (f : UInt8 → σ → σ) (m : Machine) (s : σ) :
    let first := m.run (.ofOutput f) n s
    runUntil (.ofOutput f) (m.ticks + total) first.machine first.seen =
      runUntil (.ofOutput f) (m.ticks + total) (m.withRunning true) s :=
  runUntil_runUntil (Nat.add_le_add_left h m.ticks) (m.withRunning true) s

/-- A run for the ticks that are left goes to the end of the whole run, and nowhere if the first part has
already passed it. -/
theorem run_rest {n total : Nat} (h : n ≤ total) (f : UInt8 → σ → σ) (m : Machine) (s : σ) :
    let first := m.run (.ofOutput f) n s
    first.machine.run (.ofOutput f) (total - first.elapsed) first.seen =
      conclude (.ofOutput f) first.machine.ticks
        (runUntil (.ofOutput f) (m.ticks + total) (m.withRunning true) s) := by
  intro first
  have hrunning : first.machine.withRunning true = first.machine :=
    (congrArg Prod.fst (runUntil_withRunning f (m.ticks + n) true (m.withRunning true) s)).symm
  have hticks : m.ticks ≤ first.machine.ticks := m.ticks_le_run n s
  have helapsed : first.elapsed = first.machine.ticks - m.ticks := rfl
  show conclude _ _ (runUntil _ _ (first.machine.withRunning true) _) = _
  rw [hrunning, ← runUntil_run h]
  rcases Nat.le_total (m.ticks + total) first.machine.ticks with hpast | hbefore
  · rw [runUntil_of_le hpast, runUntil_of_le (by omega)]
  · rw [show first.machine.ticks + (total - first.elapsed) = m.ticks + total by omega]

/-- Over any control store a run is the row of single steps that are made while its number of ticks has
not passed, with the same outputs, and it can be cut in two: a run for part of the ticks and a run for
those that are left, none if the first one has gone past them. -/
theorem run_eq_steps_and_cut (f : UInt8 → σ → σ) (m : Machine) (s : σ) {n total : Nat} (h : n ≤ total) :
    let o := Observer.ofOutput f
    let first := m.run o n s
    let second := first.machine.run o (total - first.elapsed) first.seen
    let whole := m.run o total s
    stepUntil o (m.ticks + n) m s = (first.machine.withRunning m.running, first.seen) ∧
      second.machine = whole.machine ∧ second.seen = whole.seen ∧
      first.elapsed + second.elapsed = whole.elapsed := by
  intro o first second whole
  have hsecond : second = conclude o first.machine.ticks
      (runUntil o (m.ticks + total) (m.withRunning true) s) := run_rest h f m s
  have hstart : m.ticks ≤ first.machine.ticks := m.ticks_le_run n s
  have hend : first.machine.ticks ≤ whole.machine.ticks :=
    Nat.le_trans (ticks_le_runUntil _ first.machine first.seen)
      (Nat.le_of_eq (congrArg (·.1.ticks) (runUntil_run h f m s)))
  refine ⟨stepUntil_eq_run f m n s, ?_, ?_, ?_⟩
  · rw [hsecond]
    rfl
  · rw [hsecond]
    rfl
  · rw [hsecond]
    show first.machine.ticks - m.ticks + (whole.machine.ticks - first.machine.ticks) =
      whole.machine.ticks - m.ticks
    omega

/-- No word of the empty control store ends an instruction, so the first part has long gone past ten
ticks when it stops. -/
theorem run_eq_steps_and_cut_blank :
    let m := ofStore .blank
    let first := m.run Observer.outputs 3 #[]
    3 ≤ 10 ∧ stepUntil Observer.outputs (m.ticks + 3) m #[] = (first.machine.withRunning false, first.seen) ∧
      (first.machine.run Observer.outputs (10 - first.elapsed) first.seen).machine =
        (m.run Observer.outputs 10 #[]).machine := by
  intro m first
  have h := run_eq_steps_and_cut (fun value (seen : Array UInt8) => seen.push value) m #[]
    (show 3 ≤ 10 by decide)
  exact ⟨by decide, h.1, h.2.1⟩

end Machine

end Microcomputer
