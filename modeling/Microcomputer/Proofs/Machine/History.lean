import Mathlib.Data.List.DropRight
import Microcomputer.Proofs.Machine.Reachable
import Microcomputer.Proofs.Machine.Runs

/-!
# Histories

The history of a machine is what has been done to it since its last reset: the operations in order, each
with the machine that it found, and the cycles that these operations went through. A law between a machine
and its history need only be shown of a reset, of one cycle and of what is set from outside.
-/

namespace Microcomputer

/-! ## The latest value -/

section

variable {α β : Type} (f : α → Option β)

/-- The value of the last element that has one. -/
def latest? (xs : List α) : Option β :=
  xs.reverse.findSome? f

theorem latest?_concat (xs : List α) (x : α) :
    latest? f (xs ++ [x]) = (f x).or (latest? f xs) := by
  rw [latest?, List.reverse_concat, List.findSome?_cons]
  cases f x with
  | none => rfl
  | some y => rfl

end

namespace Machine

variable {σ : Type} {o : Observer σ} {m : Machine}

/-! ## One operation -/

theorem runUntil_silent (limit : Nat) (m : Machine) (s : σ) :
    (runUntil o limit m s).1 = (runUntil Observer.silent limit m ()).1 := by
  fun_induction runUntil o limit m s with
  | case1 m s hlt ih => rw [ih, finish_silent, runUntil.eq_def Observer.silent limit m, if_pos hlt]
  | case2 m s hge => rw [runUntil, if_neg hge]

section

variable {P : Machine → List (Machine × Cycle) → Prop} {seen : List (Machine × Cycle)}

theorem finish_extends (htick : ∀ m seen, P m seen → P m.tick (seen ++ [(m, m.sense)])) (h : P m seen) :
    P (m.finish Observer.cycles seen).1 (m.finish Observer.cycles seen).2 := by
  have hnote (m : Machine) (seen : List (Machine × Cycle)) (h : P m seen) :
      P m.tick (Observer.cycles.note m m.sense seen) := by
    rw [Observer.note_cycles]
    exact htick m seen h
  exact finish_invariant (fun m seen h _ => hnote m seen h) (fun m seen h _ => hnote m seen h) h

theorem runUntil_extends (htick : ∀ m seen, P m seen → P m.tick (seen ++ [(m, m.sense)])) {limit : Nat}
    (h : P m seen) :
    P (runUntil Observer.cycles limit m seen).1 (runUntil Observer.cycles limit m seen).2 :=
  runUntil_invariant (fun _ _ _ h => finish_extends htick h) h

end

namespace Operation

/-- The operation begins a new history. -/
def resets : Operation → Bool
  | reset | stop => true
  | _ => false

/-- The machine after an operation. -/
def result (operation : Operation) (m : Machine) : Machine :=
  (operation.apply Observer.silent (m, ())).1

/-- The cycles that an operation goes through, each with the machine that it begins in. -/
def cycles (operation : Operation) (m : Machine) : List (Machine × Cycle) :=
  (operation.apply Observer.cycles (m, [])).2

theorem machine_apply (operation : Operation) (o : Observer σ) (m : Machine) (s : σ) :
    (operation.apply o (m, s)).1 = operation.result m := by
  cases operation with
  | run n => exact runUntil_silent _ _ _
  | step => exact m.finish_silent o s
  | _ => rfl

section

variable {P : Machine → List (Machine × Cycle) → Prop}

/-- What every cycle and everything set from outside preserves, an operation without a reset preserves. -/
theorem extends_invariant (htick : ∀ m seen, P m seen → P m.tick (seen ++ [(m, m.sense)]))
    (hset : ∀ (m : Machine) input boot running seen, P m seen → P { m with input, boot, running } seen)
    {operation : Operation} (hkeep : operation.resets = false) (seen : List (Machine × Cycle))
    (h : P m seen) : P (operation.result m) (seen ++ operation.cycles m) := by
  -- The operation begins with nothing seen, so its cycles come behind those seen before.
  have htick' (m : Machine) (later : List (Machine × Cycle)) (h : P m (seen ++ later)) :
      P m.tick (seen ++ (later ++ [(m, m.sense)])) := by
    rw [← List.append_assoc]
    exact htick m _ h
  have hnone : P m (seen ++ []) := by
    rw [List.append_nil]
    exact h
  rw [← operation.machine_apply Observer.cycles m []]
  cases operation with
  | run n =>
    exact runUntil_extends (P := fun m later => P m (seen ++ later)) htick' (hset _ _ _ true _ hnone)
  | step => exact finish_extends (P := fun m later => P m (seen ++ later)) htick' hnone
  | setInput value =>
    obtain ⟨input, hinput⟩ := m.exists_input value
    show P (m.setInput value) (seen ++ [])
    rw [hinput]
    exact hset _ _ _ _ _ hnone
  | loadBoot image =>
    show P ((loading image).after m) (seen ++ [])
    rw [after_loading]
    exact hset _ _ _ _ _ hnone
  | pause => exact hset _ _ _ false _ hnone
  | reset => cases hkeep
  | stop => cases hkeep

end

theorem forall_cycles {P : Machine → Prop} (htick : ∀ m, P m → P m.tick)
    (hset : ∀ m running, P m → P { m with running }) (h : P m) (operation : Operation) :
    ∀ x ∈ operation.cycles m, P x.1 := by
  have htick' (m : Machine) (seen : List (Machine × Cycle)) (h : P m ∧ ∀ x ∈ seen, P x.1) :
      P m.tick ∧ ∀ x ∈ seen ++ [(m, m.sense)], P x.1 :=
    ⟨htick m h.1, List.forall_mem_append.mpr ⟨h.2, List.forall_mem_singleton.mpr h.1⟩⟩
  have hnil : ∀ x ∈ ([] : List (Machine × Cycle)), P x.1 := fun _ hx => nomatch hx
  cases operation with
  | run n => exact (runUntil_extends htick' ⟨hset m true h, hnil⟩).2
  | step => exact (finish_extends htick' ⟨h, hnil⟩).2
  | _ => exact hnil

end Operation

/-! ## Many operations -/

/-- The machine after operations in order. -/
def after (m : Machine) (operations : List Operation) : Machine :=
  (m.operate Observer.silent () operations).1

theorem after_concat (m : Machine) (operations : List Operation) (operation : Operation) :
    m.after (operations ++ [operation]) = operation.result (m.after operations) := by
  rw [after, operate, List.foldl_append]
  rfl

theorem AtBoundary.after (hm : m.AtBoundary) (operations : List Operation) : (m.after operations).AtBoundary :=
  hm.operate Observer.silent () operations

theorem machine_operate (o : Observer σ) (m : Machine) (s : σ) (operations : List Operation) :
    (m.operate o s operations).1 = m.after operations := by
  induction operations using List.reverseRecOn with
  | nil => rfl
  | append_singleton operations operation ih =>
    rw [after_concat, ← ih, operate, List.foldl_append]
    exact operation.machine_apply o _ _

/-- Operations in order, each with the machine that it finds. -/
def timeline : Machine → List Operation → List (Machine × Operation)
  | _, [] => []
  | m, operation :: operations => (m, operation) :: timeline (operation.result m) operations

theorem timeline_concat (m : Machine) (operations : List Operation) (operation : Operation) :
    m.timeline (operations ++ [operation]) =
      m.timeline operations ++ [(m.after operations, operation)] := by
  induction operations generalizing m with
  | nil => rfl
  | cons first operations ih => exact congrArg ((m, first) :: ·) (ih (first.result m))

/-- The tick counter keeps to its 64 bits in all of the operations. -/
def InTime (m : Machine) (operations : List Operation) : Prop :=
  ∀ entry ∈ m.timeline operations, (entry.2.result entry.1).ticks < UInt64.size

theorem InTime.ticks_after {operations : List Operation} (h : m.InTime operations)
    (hm : m.ticks < UInt64.size) : (m.after operations).ticks < UInt64.size := by
  induction operations generalizing m with
  | nil => exact hm
  | cons operation operations ih =>
    obtain ⟨hfirst, hrest⟩ := List.forall_mem_cons.mp h
    exact ih hrest hfirst

/-- The operations since the last reset, each with the machine that it found. -/
def history (m : Machine) (operations : List Operation) : List (Machine × Operation) :=
  (m.timeline operations).rtakeWhile fun entry => !entry.2.resets

theorem history_concat (m : Machine) (operations : List Operation) (operation : Operation) :
    m.history (operations ++ [operation]) =
      if operation.resets then [] else m.history operations ++ [(m.after operations, operation)] := by
  rw [history, timeline_concat, List.rtakeWhile_concat]
  cases operation.resets with
  | false => rfl
  | true => rfl

example : (m.history [.setInput 3, .reset, .setInput 5, .pause]).map Prod.snd = [.setInput 5, .pause] :=
  rfl

/-- The cycles since the last reset, each with the machine that it began in. -/
def recentCycles (m : Machine) (operations : List Operation) : List (Machine × Cycle) :=
  (m.history operations).flatMap fun entry => entry.2.cycles entry.1

/-! ## Laws of histories -/

/-- What holds after a reset, and is preserved by the operations that do not reset the machine, holds of
every new machine with its history. -/
theorem history_invariant {P : Machine → List (Machine × Operation) → Prop}
    (hreset : ∀ m : Machine, P m.reset [])
    (hkeep : ∀ m history (operation : Operation), operation.resets = false → P m history →
      P (operation.result m) (history ++ [(m, operation)]))
    (store : Control.Store) (operations : List Operation) :
    P ((ofStore store).after operations) ((ofStore store).history operations) := by
  -- From the end, since a reset as the last operation discards all before it.
  induction operations using List.reverseRecOn with
  | nil => exact hreset (ofStore store)
  | append_singleton operations operation ih =>
    rw [after_concat, history_concat]
    cases operation with
    | reset => exact hreset _
    | stop => exact hreset _
    | _ => exact hkeep _ _ _ rfl ih

theorem recentCycles_invariant {P : Machine → List (Machine × Cycle) → Prop}
    (hreset : ∀ m : Machine, P m.reset [])
    (htick : ∀ m seen, P m seen → P m.tick (seen ++ [(m, m.sense)]))
    (hset : ∀ (m : Machine) input boot running seen, P m seen → P { m with input, boot, running } seen)
    (store : Control.Store) (operations : List Operation) :
    P ((ofStore store).after operations) ((ofStore store).recentCycles operations) := by
  refine history_invariant (P := fun m history => P m (history.flatMap fun entry => entry.2.cycles entry.1))
    hreset (fun m history operation hresets h => ?_) store operations
  rw [List.flatMap_append, List.flatMap_singleton]
  exact Operation.extends_invariant htick hset hresets _ h

end Machine

end Microcomputer
