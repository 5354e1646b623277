import Microcomputer.Proofs.Machine.Execution
import Microcomputer.Proofs.Machine.Operations

/-!
# Reachable states

The states that operations bring a new machine to. A property of all of them need only be shown of the new
machine, of one cycle, and of what is set from outside.
-/

namespace Microcomputer.Machine

open Microcode

variable {σ : Type} {o : Observer σ} {store : Control.Store} {m : Machine}

/-- Operations on a new machine over the control store lead to this machine. -/
def Reachable (store : Control.Store) (m : Machine) : Prop :=
  ∃ operations, m = ((ofStore store).operate Observer.silent () operations).1

/-! ## Invariants -/

section

variable {P : Machine → Prop}

theorem finish_preserves (htick : ∀ m, P m → P m.tick) (h : P m) (s : σ) : P (m.finish o s).1 :=
  finish_invariant (P := fun m _ => P m) (E := fun m _ => P m) (fun m _ h _ => htick m h)
    (fun m _ h _ => htick m h) h

theorem runUntil_preserves (htick : ∀ m, P m → P m.tick) (limit : Nat) (h : P m) (s : σ) :
    P (runUntil o limit m s).1 := by
  fun_induction runUntil o limit m s with
  | case1 m s hlt ih => exact ih (finish_preserves htick h s)
  | case2 m s hge => exact h

/-- What every cycle, every reset and everything set from outside preserves, every operation preserves. -/
theorem Operation.apply_preserves (htick : ∀ m, P m → P m.tick) (hreset : ∀ m, P m → P m.reset)
    (hset : ∀ (m : Machine) input boot running, P m → P { m with input, boot, running })
    (operation : Operation) {last : Machine × σ} (h : P last.1) : P (operation.apply o last).1 := by
  cases operation with
  | run n => exact runUntil_preserves htick _ (hset _ _ _ true h) _
  | step => exact finish_preserves htick h _
  | setInput value =>
    obtain ⟨input, hinput⟩ := last.1.exists_input value
    show P (last.1.setInput value)
    rw [hinput]
    exact hset _ _ _ _ h
  | loadBoot image =>
    show P ((loading image).after last.1)
    rw [after_loading]
    exact hset _ _ _ _ h
  | pause => exact hset _ _ _ false h
  | reset => exact hreset _ h
  | stop => exact hreset _ (hset _ _ _ false h)

theorem Reachable.invariant (hm : Reachable store m) (hstart : P (ofStore store))
    (htick : ∀ m, P m → P m.tick) (hreset : ∀ m, P m → P m.reset)
    (hset : ∀ (m : Machine) input boot running, P m → P { m with input, boot, running }) : P m := by
  obtain ⟨operations, rfl⟩ := hm
  exact operate_invariant (P := fun last => P last.1)
    (fun operation _ h => operation.apply_preserves htick hreset hset h) hstart operations

end

theorem Reachable.boundary (hm : Reachable generated.store m) : m.AtBoundary := by
  obtain ⟨operations, rfl⟩ := hm
  have hstart : (ofStore generated.store).AtBoundary := ⟨rfl, rfl⟩
  exact hstart.operate Observer.silent () operations

theorem reachable_of_boot {image : List UInt8} (h : image.length ≤ bootSize) :
    Reachable store { store, boot := bootOf image.toArray } := by
  refine ⟨[.loadBoot image], ?_⟩
  show _ = (loading image).after (ofStore store)
  rw [after_loading, if_neg (Nat.not_lt.mpr h)]
  rfl

theorem Reachable.stepped (hm : Reachable store m) : Reachable store m.stepped := by
  obtain ⟨operations, rfl⟩ := hm
  refine ⟨operations ++ [.step], ?_⟩
  rw [operate, operate, List.foldl_append, List.foldl_cons, List.foldl_nil,
    ← machine_step _ Observer.silent ()]
  rfl

/-! ## The stack pointer -/

theorem stackBase_le_or (value : UInt8) : 0xF0 ≤ stackBase ||| value := by
  revert value
  exact Instruction.forall_byte (by decide)

theorem or_stackBase {value : UInt8} (h : 0xF0 ≤ value) : stackBase ||| value = value :=
  Instruction.forall_byte (P := fun value => 0xF0 ≤ value → stackBase ||| value = value)
    (by decide) value h

theorem le_high_sp_tick (h : 0xF0 ≤ m.sp.high) : 0xF0 ≤ m.tick.sp.high := by
  rw [tick, sp_advance]
  -- Only a load of the high half matters, and it puts the base in.
  split
  · rw [loadSp, RegisterPair.setHalf]
    split
    · exact h
    · exact stackBase_le_or _
  all_goals exact h

theorem Reachable.le_high_sp (hm : Reachable store m) : 0xF0 ≤ m.sp.high := by
  have hstart : 0xF0 ≤ (RegisterPair.ofValue stackAddress).high := by
    decide
  exact hm.invariant (P := fun m => 0xF0 ≤ m.sp.high) hstart (fun _ => le_high_sp_tick)
    (fun _ _ => hstart) (fun _ _ _ _ h => h)

end Microcomputer.Machine
