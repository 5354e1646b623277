import Microcomputer.Proofs.Machine.Runs

/-!
# Bounds on time and place

Whatever words a control store holds, an instruction ends: by a word that ends it or, after 256 cycles, by
the word counter, which is then zero again. A run passes its limit by less than one instruction, and no
cycle uses an index outside of the store, the memory or the registers.
-/

namespace Microcomputer

open Control (Store Address)

/-- The observer that collects the machines that it is shown at the end of a step or a run. -/
def Observer.updates : Observer (List Machine) where
  update m seen := seen ++ [m]

/-! ## Where things are -/

theorem Register.code_ofBits (n : Nat) : (ofBits n).code = n % 4 := by
  have h : n % 4 < 4 := Nat.mod_lt _ (by decide)
  unfold ofBits
  generalize n % 4 = k at h
  match k with
  | 0 | 1 | 2 | 3 => rfl
  | _ + 4 => omega

namespace Registers

end Registers

namespace Machine

variable {σ : Type} {o : Observer σ} {m : Machine}

theorem cycle_finish (m : Machine) (s : σ) : (m.finish o s).1.cycle = 0 :=
  finish_invariant (o := o) (P := fun _ _ => True) (E := fun m _ => m.cycle = 0)
    (fun _ _ _ _ => trivial) (fun _ _ _ hend => hend) trivial

/-- An instruction ends before the word counter is zero again. -/
theorem ticks_finish_le (m : Machine) (s : σ) :
    (m.finish o s).1.ticks + m.cycle.toNat ≤ m.ticks + 256 := by
  fun_induction finish o m s with
  | case1 m s c seen next hend =>
    have ht : next.ticks = m.ticks + 1 := ticks_advance m c
    have hlt := m.cycle.toNat_lt
    show next.ticks + _ ≤ _
    omega
  | case2 m s c seen next hend ih =>
    have ht : next.ticks = m.ticks + 1 := ticks_advance m c
    have hless : 255 - next.cycle.toNat < 255 - m.cycle.toNat := remaining_advance hend
    omega

theorem le_ticks_runUntil (limit : Nat) (m : Machine) (s : σ) : limit ≤ (runUntil o limit m s).1.ticks := by
  fun_induction runUntil o limit m s with
  | case1 m s hlt ih => exact ih
  | case2 m s hge => exact Nat.le_of_not_lt hge

theorem ticks_runUntil_le {limit : Nat} (h : m.ticks ≤ limit + 255) (s : σ) :
    (runUntil o limit m s).1.ticks ≤ limit + 255 := by
  fun_induction runUntil o limit m s with
  | case1 m s hlt ih =>
    have hle := m.ticks_finish_le (o := o) s
    exact ih (by omega)
  | case2 m s hge => exact h

theorem cycle_run (h : m.cycle = 0) (n : Nat) (s : σ) : (m.run o n s).machine.cycle = 0 :=
  runUntil_invariant (o := o) (P := fun m _ => m.cycle = 0) (fun m s _ _ => m.cycle_finish s)
    (show (m.withRunning true).cycle = 0 from h)

theorem elapsed_run (m : Machine) (n : Nat) (s : σ) :
    n ≤ (m.run o n s).elapsed ∧ (m.run o n s).elapsed ≤ n + 255 := by
  have hge := le_ticks_runUntil (o := o) (m.ticks + n) (m.withRunning true) s
  have hstart : (m.withRunning true).ticks ≤ m.ticks + n + 255 := by
    show m.ticks ≤ m.ticks + n + 255
    omega
  have hle := ticks_runUntil_le (o := o) hstart s
  show n ≤ (runUntil o (m.ticks + n) (m.withRunning true) s).1.ticks - m.ticks ∧
    (runUntil o (m.ticks + n) (m.withRunning true) s).1.ticks - m.ticks ≤ n + 255
  omega

/-! ## What is returned -/

/-- The states that a machine over a control store can be in between two calls: any operations lead to
them, and values set from outside in any register, latch and flag. -/
inductive Attainable (store : Store) : Machine → Prop
  | new : Attainable store (ofStore store)
  | operation {m : Machine} (operation : Operation) :
      Attainable store m → Attainable store (operation.apply Observer.silent (m, ())).1
  | assignment {m : Machine} (regs : Registers) (d t i input out : UInt8) (pc sp bp ma : RegisterPair)
      (flags : FlagBanks) : Attainable store m →
        Attainable store { m with regs, d, t, i, input, out, pc, sp, bp, ma, flags }

theorem Operation.cycle_apply (h : m.cycle = 0) (operation : Operation) (s : σ) :
    (operation.apply o (m, s)).1.cycle = 0 := by
  cases operation with
  | run n => exact cycle_run h n s
  | step => exact m.cycle_finish s
  | setInput value =>
    obtain ⟨input, hinput⟩ := m.exists_input value
    show (m.setInput value).cycle = 0
    rw [hinput]
    exact h
  | loadBoot image =>
    show ((loading image).after m).cycle = 0
    rw [after_loading]
    exact h
  | pause => exact h
  | reset => rfl
  | stop => rfl

theorem Attainable.cycle {store : Store} (hm : Attainable store m) : m.cycle = 0 := by
  induction hm with
  | new => rfl
  | operation operation _ ih => exact operation.cycle_apply ih ()
  | assignment => assumption

end Machine

end Microcomputer
