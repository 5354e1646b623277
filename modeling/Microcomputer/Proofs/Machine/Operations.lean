import Microcomputer.Proofs.Machine.Course

/-!
# Sequences of operations

What is done to a machine from outside is a sequence of operations. Over the generated store each of them
starts and ends at a boundary between instructions, so no sequence comes to a word that nobody wrote.
-/

namespace Microcomputer

namespace Machine

/-! ## Operations -/

/-- What can be done to a machine. -/
inductive Operation where
  | run (n : Nat)
  | step
  | setInput (value : UInt8)
  | loadBoot (image : List UInt8)
  | pause
  | reset
  | stop
deriving DecidableEq, Repr

variable {σ : Type} (o : Observer σ)

/-- The machine and what was seen after an operation. -/
def Operation.apply (last : Machine × σ) : Operation → Machine × σ
  | run n =>
    let outcome := last.1.run o n last.2
    (outcome.machine, outcome.seen)
  | step =>
    let outcome := last.1.step o last.2
    (outcome.machine, outcome.seen)
  | setInput value => (last.1.setInput value, last.2)
  | loadBoot image => ((loading image).after last.1, last.2)
  | pause => (last.1.pause, last.2)
  | reset => (last.1.reset, last.2)
  | stop => (last.1.stop, last.2)

/-- The machine and what was seen after operations in order. -/
def operate (m : Machine) (s : σ) (operations : List Operation) : Machine × σ :=
  operations.foldl (Operation.apply o) (m, s)

variable {o}

theorem operate_invariant {P : Machine × σ → Prop}
    (hstep : ∀ (operation : Operation) last, P last → P (operation.apply o last))
    {m : Machine} {s : σ} (h : P (m, s)) (operations : List Operation) :
    P (m.operate o s operations) := by
  unfold operate
  generalize (m, s) = last at h
  induction operations generalizing last with
  | nil => exact h
  | cons operation _ ih => exact ih _ (hstep operation last h)

theorem operate_nil (m : Machine) (o : Observer σ) (s : σ) : m.operate o s [] = (m, s) :=
  rfl

theorem ticks_operate_step (m : Machine) (o : Observer σ) (s : σ) :
    (m.operate o s [.step]).1.ticks = m.ticks + (m.step o s).elapsed :=
  m.ticks_step o s

theorem exists_input (m : Machine) (value : UInt8) : ∃ input, m.setInput value = { m with input } := by
  unfold setInput
  split
  · exact ⟨_, rfl⟩
  · exact ⟨m.input, rfl⟩

/-- An image that does not fit changes nothing. -/
theorem run_loading (m : Machine) (image : List UInt8) : (loading image).run m =
    if bootSize < image.length then .error (.bootSize image.length) m
    else .ok () { m with boot := bootOf image.toArray } := by
  unfold loading
  split
  next => rfl
  next => rfl

theorem loadBoot_of_le (m : Machine) {image : List UInt8} (h : image.length ≤ bootSize) :
    m.loadBoot image = .ok { m with boot := bootOf image.toArray } := by
  rw [loadBoot, Attempt.result, run_loading, if_neg (Nat.not_lt.mpr h)]

theorem loadBoot_of_lt (m : Machine) {image : List UInt8} (h : bootSize < image.length) :
    m.loadBoot image = .error (.bootSize image.length) := by
  rw [loadBoot, Attempt.result, run_loading, if_pos h]

theorem after_loading (m : Machine) (image : List UInt8) : (loading image).after m =
    { m with boot := if bootSize < image.length then m.boot else bootOf image.toArray } := by
  rw [Attempt.after, run_loading]
  by_cases h : bootSize < image.length
  · rw [if_pos h, if_pos h]
  · rw [if_neg h, if_neg h]

/-! ## From boundary to boundary -/

section

open Microcode

variable {S : σ → Prop} {m : Machine} {s : σ}

theorem AtBoundary.loadBoot {m' : Machine} {image : List UInt8} (hm : m.AtBoundary)
    (h : m.loadBoot image = .ok m') : m'.AtBoundary := by
  rw [← Attempt.after_of_result_eq_ok h, after_loading]
  exact ⟨hm.store, hm.cycle⟩

/-- A run stops at the first boundary from its limit on, which is at most eleven ticks past it. -/
theorem runUntil_of_boundary (hS : ∀ m s, S s → Authored generated m m.sense → S (o.note m m.sense s))
    (limit : Nat) (hm : m.AtBoundary) (hs : S s) :
    S (runUntil o limit m s).2 ∧ (runUntil o limit m s).1.AtBoundary ∧
      limit ≤ (runUntil o limit m s).1.ticks ∧
      (m.ticks ≤ limit + 11 → (runUntil o limit m s).1.ticks ≤ limit + 11) := by
  fun_induction runUntil o limit m s with
  | case1 m s hlt ih =>
    obtain ⟨hs', hm', ht⟩ := finish_of_boundary hS hm hs
    obtain ⟨hend, hm'', hge, hle⟩ := ih hm' hs'
    exact ⟨hend, hm'', hge, fun _ => hle (by omega)⟩
  | case2 m s hge => exact ⟨hs, hm, Nat.le_of_not_lt hge, id⟩

theorem run_of_boundary (hS : ∀ m s, S s → Authored generated m m.sense → S (o.note m m.sense s))
    (hupdate : ∀ m s, S s → S (o.update m s)) (n : Nat) (hm : m.AtBoundary) (hs : S s) :
    S (m.run o n s).seen ∧ (m.run o n s).machine.AtBoundary ∧
      n ≤ (m.run o n s).elapsed ∧ (m.run o n s).elapsed ≤ n + 11 := by
  have hstart : { m with running := true }.AtBoundary := ⟨hm.store, hm.cycle⟩
  obtain ⟨hend, hm', hge, hle⟩ := runUntil_of_boundary hS (m.ticks + n) hstart hs
  have hle' := hle (by simp only; omega)
  refine ⟨hupdate _ _ hend, hm', ?_, ?_⟩
  all_goals
    simp only [run, conclude]
    omega

theorem step_of_boundary (hS : ∀ m s, S s → Authored generated m m.sense → S (o.note m m.sense s))
    (hupdate : ∀ m s, S s → S (o.update m s)) (hm : m.AtBoundary) (hs : S s) :
    S (m.step o s).seen ∧ (m.step o s).machine.AtBoundary ∧ (m.step o s).elapsed ≤ 12 := by
  obtain ⟨hend, hm', ht⟩ := finish_of_boundary hS hm hs
  refine ⟨hupdate _ _ hend, hm', ?_⟩
  simp only [step, conclude]
  omega

theorem Operation.apply_of_boundary
    (hS : ∀ m s, S s → Authored generated m m.sense → S (o.note m m.sense s))
    (hupdate : ∀ m s, S s → S (o.update m s)) (operation : Operation) {last : Machine × σ}
    (h : last.1.AtBoundary ∧ S last.2) :
    (operation.apply o last).1.AtBoundary ∧ S (operation.apply o last).2 := by
  obtain ⟨hm, hs⟩ := h
  cases operation with
  | run n =>
    obtain ⟨hs', hm', -⟩ := run_of_boundary hS hupdate n hm hs
    exact ⟨hm', hs'⟩
  | step =>
    obtain ⟨hs', hm', -⟩ := step_of_boundary hS hupdate hm hs
    exact ⟨hm', hs'⟩
  | setInput value =>
    refine ⟨?_, hs⟩
    obtain ⟨input, hinput⟩ := last.1.exists_input value
    show (last.1.setInput value).AtBoundary
    rw [hinput]
    exact ⟨hm.store, hm.cycle⟩
  | loadBoot image =>
    refine ⟨?_, hs⟩
    show ((loading image).after last.1).AtBoundary
    rw [after_loading]
    exact ⟨hm.store, hm.cycle⟩
  | pause => exact ⟨⟨hm.store, hm.cycle⟩, hs⟩
  | reset => exact ⟨⟨hm.store, rfl⟩, hs⟩
  | stop => exact ⟨⟨hm.store, rfl⟩, hs⟩

theorem AtBoundary.operate (hm : m.AtBoundary) (o : Observer σ) (s : σ) (operations : List Operation) :
    (m.operate o s operations).1.AtBoundary :=
  (operate_invariant (P := fun last => last.1.AtBoundary ∧ True)
    (fun operation _ h => operation.apply_of_boundary (S := fun _ => True) (fun _ _ _ _ => trivial)
      (fun _ _ _ => trivial) h) ⟨hm, trivial⟩ operations).1

/-- A run returns, and passes its limit by at most eleven ticks, as long as the tick counter has room. -/
theorem returned?_run_of_boundary (hm : m.AtBoundary) (o : Observer σ) (s : σ) (n : UInt64) :
    (∀ r, (m.run o n.toNat s).returned? = some r → n ≤ r ∧ r.toNat ≤ n.toNat + 11) ∧
      (m.ticks + n.toNat + 11 < UInt64.size → (m.run o n.toNat s).returned?.isSome) := by
  obtain ⟨-, -, hge, hle⟩ := run_of_boundary (o := o) (S := fun _ => True) (s := s) (fun _ _ _ _ => trivial)
    (fun _ _ _ => trivial) n.toNat hm trivial
  exact returned?_run_of_elapsed o hge hle

/-- Whatever is done to a machine over the generated store, with whatever bootstrap image, every cycle
reads a step that the table or the fill wrote for the instruction in I, an instruction lasts at most
twelve cycles, and what a run returns passes its limit by at most eleven ticks. It returns as long as the
tick counter has room for that. -/
theorem operate_authored {b : Builder} (hb : generate = .ok b) {image : List UInt8} {start : Machine}
    (hload : (ofStore b.store).loadBoot image = .ok start) (operations : List Operation) :
    let last := start.operate Observer.cycles [] operations
    (∀ x ∈ last.2, Authored b x.1 x.2 ∧ x.1.cycle.toNat < 12) ∧
    ∀ (σ : Type) (o : Observer σ) (s : σ),
      (last.1.step o s).elapsed ≤ 12 ∧
      ∀ n : UInt64, 0 < n →
        (∀ r, (last.1.run o n.toNat s).returned? = some r → n ≤ r ∧ r.toNat ≤ n.toNat + 11) ∧
          (last.1.ticks + n.toNat + 11 < UInt64.size → (last.1.run o n.toNat s).returned?.isSome) := by
  intro last
  obtain rfl := generated_eq hb
  have hstart : (ofStore generated.store).AtBoundary := ⟨rfl, rfl⟩
  let S (seen : List (Machine × Cycle)) : Prop := ∀ x ∈ seen, Authored generated x.1 x.2
  have hnote (m : Machine) (seen : List (Machine × Cycle)) (h : S seen)
      (hm : Authored generated m m.sense) : S (Observer.cycles.note m m.sense seen) :=
    Observer.forall_note_cycles h hm
  obtain ⟨hm, hseen⟩ := operate_invariant (o := Observer.cycles)
    (P := fun last => last.1.AtBoundary ∧ S last.2)
    (fun operation _ h => operation.apply_of_boundary hnote (fun _ _ => id) h)
    (s := []) ⟨hstart.loadBoot hload, fun x hx => nomatch hx⟩ operations
  refine ⟨fun x hx => ⟨hseen x hx, (hseen x hx).cycle.2⟩, fun σ o s => ⟨?_, fun n _ => ?_⟩⟩
  · exact (step_of_boundary (S := fun _ => True) (fun _ _ _ _ => trivial) (fun _ _ _ => trivial) hm
      trivial).2.2
  · exact returned?_run_of_boundary hm o s n

/-- A shift changes the carry in the middle of its routine. -/
theorem operate_authored_shr :
    let start : Machine := { store := generated.store, boot := bootOf #[0x50, 0xFF] }
    let last := start.operate Observer.cycles [] [.step]
    (generate = .ok generated ∧ (ofStore generated.store).loadBoot [0x50, 0xFF] = .ok start) ∧
      (∀ x ∈ last.2, Authored generated x.1 x.2 ∧ x.1.cycle.toNat < 12) ∧
      ∃ r, (last.1.run Observer.silent (1 : UInt64).toNat ()).returned? = some r ∧ r.toNat ≤ 12 := by
  intro start last
  have hload : (ofStore generated.store).loadBoot [0x50, 0xFF] = .ok start := loadBoot_of_le _ (by decide)
  obtain ⟨hauthored, h⟩ := operate_authored generate_eq hload [.step]
  obtain ⟨hrun, hreturns⟩ := (h Unit Observer.silent ()).2 1 (by decide)
  -- The machine was new, so the ticks are those of the one instruction.
  have hstep := ((operate_authored generate_eq hload []).2 _ Observer.cycles []).1
  have hlast : last.1.ticks = 0 + (start.step Observer.cycles []).elapsed :=
    start.ticks_operate_step Observer.cycles []
  have hroom : last.1.ticks + (1 : UInt64).toNat + 11 < UInt64.size := by
    rw [hlast]
    have hone : (1 : UInt64).toNat = 1 := rfl
    have hsize : UInt64.size = 18446744073709551616 := rfl
    simp only [operate_nil] at hstep
    omega
  obtain ⟨r, hr⟩ := Option.isSome_iff_exists.mp (hreturns hroom)
  exact ⟨⟨generate_eq, hload⟩, hauthored, r, hr, (hrun r hr).2⟩

end

end Machine

end Microcomputer
