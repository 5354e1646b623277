import Microcomputer.Machine.Cycle

/-!
# Running

An instruction lasts until the word counter is zero again, which it is after 256 cycles at the latest.
A run executes whole instructions until enough ticks have passed. What a run shows goes to an observer,
which folds it into a state of its own and has no influence on the machine. It returns the ticks that
passed, as long as the tick counter does not overflow.
-/

namespace Microcomputer

/-- An observer of a running machine: it sees every cycle before it takes effect, every byte sent to the
output register, and the machine at the end of every run. -/
structure Observer (σ : Type) where
  cycle : Machine → Cycle → σ → σ := fun _ _ s => s
  output : UInt8 → σ → σ := fun _ s => s
  update : Machine → σ → σ := fun _ s => s

namespace Observer

/-- The observer that sees nothing. -/
def silent : Observer Unit := {}

/-- The observer that collects the bytes sent to the output register. -/
def outputs : Observer (Array UInt8) where
  output value seen := seen.push value

/-- What the observer has seen after a cycle. -/
def note {σ : Type} (o : Observer σ) (m : Machine) (c : Cycle) (s : σ) : σ :=
  match c.output? with
  | some value => o.output value (o.cycle m c s)
  | none => o.cycle m c s

end Observer

namespace Machine

variable {σ : Type} (o : Observer σ)

/-! ## One instruction -/

/-- A cycle that does not end the instruction leaves fewer cycles. -/
theorem remaining_advance {m : Machine} {c : Cycle} (h : (m.advance c).cycle ≠ 0) :
    255 - (m.advance c).cycle.toNat < 255 - m.cycle.toNat := by
  rw [cycle_advance] at h ⊢
  split at h
  next => exact absurd rfl h
  next hends =>
    have hlt := m.cycle.toNat_lt
    have hne : (m.cycle + 1).toNat ≠ 0 := fun e => h (UInt8.toNat_inj.mp e)
    simp only [hends, UInt8.toNat_add, UInt8.reduceToNat] at hne ⊢
    simp only [Bool.false_eq_true, ↓reduceIte, UInt8.toNat_add, UInt8.reduceToNat]
    omega

/-- The machine and what was seen at the end of the instruction. -/
def finish (m : Machine) (s : σ) : Machine × σ :=
  let c := m.sense
  let seen := o.note m c s
  let next := m.advance c
  if next.cycle = 0 then (next, seen) else finish next seen
termination_by 255 - m.cycle.toNat
decreasing_by exact remaining_advance (m := m) (c := m.sense) ‹_›

theorem ticks_lt_finish (m : Machine) (s : σ) : m.ticks < (m.finish o s).1.ticks := by
  fun_induction finish o m s with
  | case1 m s c seen next h =>
    exact Nat.lt_of_lt_of_eq (Nat.lt_succ_self _) (ticks_advance m c).symm
  | case2 m s c seen next h ih =>
    have ht : next.ticks = m.ticks + 1 := ticks_advance m c
    omega

/-! ## Many instructions -/

/-- The machine and what was seen once a number of ticks is reached. -/
def runUntil (limit : Nat) (m : Machine) (s : σ) : Machine × σ :=
  if m.ticks < limit then
    runUntil limit (m.finish o s).1 (m.finish o s).2
  else (m, s)
termination_by limit - m.ticks
decreasing_by
  have h := m.ticks_lt_finish o s
  omega

theorem ticks_le_runUntil {limit : Nat} (m : Machine) (s : σ) :
    m.ticks ≤ (runUntil o limit m s).1.ticks := by
  fun_induction runUntil o limit m s with
  | case1 m s hlt ih => exact Nat.le_trans (Nat.le_of_lt (m.ticks_lt_finish o s)) ih
  | case2 m s hge => exact Nat.le_refl _

/-- What a run leads to: the machine, what was seen, and the ticks that passed. -/
structure Outcome (σ : Type) where
  machine : Machine
  seen : σ
  elapsed : Nat

/-- The number of 64 bits that is returned: the ticks that passed. There is none once the tick counter has
overflowed on the way. -/
def Outcome.returned? {σ : Type} (outcome : Outcome σ) : Option UInt64 :=
  if outcome.machine.ticks < UInt64.size then some (.ofNat outcome.elapsed) else none

theorem Outcome.isSome_returned? {outcome : Outcome σ} :
    outcome.returned?.isSome ↔ outcome.machine.ticks < UInt64.size := by
  unfold returned?
  split
  next h => simp [h]
  next h => simp [h]

/-- The outcome of a run that began at a number of ticks. -/
def conclude (start : Nat) (last : Machine × σ) : Outcome σ where
  machine := last.1
  seen := o.update last.1 last.2
  elapsed := last.1.ticks - start

theorem toNat_of_returned? {start : Nat} {last : Machine × σ} {r : UInt64}
    (h : (conclude o start last).returned? = some r) : r.toNat = (conclude o start last).elapsed := by
  unfold Outcome.returned? at h
  split at h
  next hlt =>
    have hle : (conclude o start last).elapsed ≤ last.1.ticks := Nat.sub_le _ _
    rw [← Option.some.inj h, UInt64.toNat_ofNat_of_lt' (Nat.lt_of_le_of_lt hle hlt)]
  next => cases h

/-- Executes one instruction. -/
def step (m : Machine) (s : σ) : Outcome σ :=
  conclude o m.ticks (m.finish o s)

theorem ticks_step (m : Machine) (s : σ) :
    (m.step o s).machine.ticks = m.ticks + (m.step o s).elapsed := by
  have h := m.ticks_lt_finish o s
  simp only [step, conclude]
  omega

/-- Executes instructions one by one, each with its own update, while a number of ticks is not
reached. -/
def stepUntil (limit : Nat) (m : Machine) (s : σ) : Machine × σ :=
  if m.ticks < limit then
    stepUntil limit (m.step o s).machine (m.step o s).seen
  else (m, s)
termination_by limit - m.ticks
decreasing_by
  have h := m.ticks_lt_finish o s
  simp only [step, conclude]
  omega

/-- Executes instructions until at least a number of ticks has passed. -/
def run (n : Nat) (m : Machine) (s : σ) : Outcome σ :=
  conclude o m.ticks (runUntil o (m.ticks + n) { m with running := true } s)

theorem ticks_run (n : Nat) (m : Machine) (s : σ) :
    (m.run o n s).machine.ticks = m.ticks + (m.run o n s).elapsed := by
  have h : m.ticks ≤ (runUntil o (m.ticks + n) { m with running := true } s).1.ticks :=
    ticks_le_runUntil o { m with running := true } s
  simp only [run, conclude]
  omega

/-- What a run returns is as late as the run is, and it returns if the tick counter has room for that. -/
theorem returned?_run_of_elapsed {n : UInt64} {late : Nat} {m : Machine} {s : σ}
    (hge : n.toNat ≤ (m.run o n.toNat s).elapsed) (hle : (m.run o n.toNat s).elapsed ≤ n.toNat + late) :
    (∀ r, (m.run o n.toNat s).returned? = some r → n ≤ r ∧ r.toNat ≤ n.toNat + late) ∧
      (m.ticks + n.toNat + late < UInt64.size → (m.run o n.toNat s).returned?.isSome) := by
  refine ⟨fun r hr => ?_, fun hroom => Outcome.isSome_returned?.mpr ?_⟩
  · rw [UInt64.le_iff_toNat_le, toNat_of_returned? o hr]
    exact ⟨hge, hle⟩
  · have hticks := ticks_run o n.toNat m s
    omega

end Machine

end Microcomputer
