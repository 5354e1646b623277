import Mathlib.Algebra.Ring.Parity
import Microcomputer.Proofs.Machine.Bounds
import Microcomputer.Proofs.Machine.History

/-!
# The input register

The clock line of IN is high in every second interval of time since the reset, for as long as the tick
counter does not overflow. The other lines show what was last set while time was running; no word of any
control store changes them.
-/

namespace Microcomputer

open InputLines (clockBit)

/-! ## Masks -/

section

variable (mask old new : UInt8)

theorem and_merge : ((old &&& mask) ||| (new &&& ~~~mask)) &&& mask = old &&& mask := by
  apply UInt8.eq_of_toBitVec_eq
  simp only [UInt8.toBitVec_and, UInt8.toBitVec_or, UInt8.toBitVec_not]
  ext k hk
  simp only [BitVec.getElem_and, BitVec.getElem_or, BitVec.getElem_not]
  cases mask.toBitVec[k] <;> simp

theorem and_not_merge : ((old &&& mask) ||| (new &&& ~~~mask)) &&& ~~~mask = new &&& ~~~mask := by
  apply UInt8.eq_of_toBitVec_eq
  simp only [UInt8.toBitVec_and, UInt8.toBitVec_or, UInt8.toBitVec_not]
  ext k hk
  simp only [BitVec.getElem_and, BitVec.getElem_or, BitVec.getElem_not]
  cases mask.toBitVec[k] <;> simp

end

namespace Machine

variable {σ : Type} {m : Machine} {value : UInt8}

/-! ## One cycle -/

/-- The clock line tells whether an odd number of intervals has passed, and the other lines are those of
this byte. -/
structure Latched (m : Machine) (value : UInt8) : Prop where
  clock : m.input &&& clockBit ≠ 0 ↔ Odd (m.ticks / clockTicks)
  lines : m.input &&& ~~~clockBit = value &&& ~~~clockBit

theorem clocked_and {ticks : Nat} {input : UInt8}
    (h : input &&& clockBit ≠ 0 ↔ Odd (ticks / clockTicks)) :
    clocked (ticks + 1) input &&& clockBit ≠ 0 ↔ Odd ((ticks + 1) / clockTicks) := by
  have hflip : ∀ input : UInt8, (input ^^^ clockBit) &&& clockBit ≠ 0 ↔ ¬input &&& clockBit ≠ 0 :=
    Instruction.forall_byte (by decide)
  unfold clocked
  split
  next hend =>
    rw [Nat.succ_div_of_dvd (Nat.dvd_of_mod_eq_zero hend), Nat.odd_add_one, hflip, h]
  next hwithin =>
    rw [Nat.succ_div_of_not_dvd fun hend => hwithin (Nat.mod_eq_zero_of_dvd hend), h]

theorem Latched.advance (h : m.Latched value) (c : Cycle) : (m.advance c).Latched value := by
  constructor
  · rw [input_advance, ticks_advance]
    exact clocked_and h.clock
  · rw [input_advance, clocked_and_not]
    exact h.lines

theorem latched_reset (m : Machine) : m.reset.Latched 0 := by
  constructor
  · show (0 : UInt8) &&& clockBit ≠ 0 ↔ Odd (0 / clockTicks)
    decide
  · rfl

/-! ## One operation -/

/-- The byte that an operation latches. Before the first tick it is none. -/
def latched? : Machine × Operation → Option UInt8
  | (m, .setInput value) => if 0 < m.ticks then some value else none
  | _ => none

theorem Latched.setInput (h : m.Latched value) (new : UInt8) :
    (m.setInput new).Latched ((latched? (m, .setInput new)).getD value) := by
  have hlatched : latched? (m, .setInput new) = if 0 < m.ticks then some new else none := rfl
  rw [hlatched, Machine.setInput]
  split
  next =>
    constructor
    · show ((m.input &&& clockBit) ||| (new &&& ~~~clockBit)) &&& clockBit ≠ 0 ↔ _
      rw [and_merge]
      exact h.clock
    · exact and_not_merge clockBit m.input new
  next => exact h

theorem Latched.result (h : m.Latched value) {operation : Operation} (hkeep : operation.resets = false) :
    (operation.result m).Latched ((latched? (m, operation)).getD value) := by
  have hrunning (running : Bool) : { m with running }.Latched value := ⟨h.clock, h.lines⟩
  cases operation with
  | run n => exact runUntil_preserves (P := (Latched · value)) (fun _ h => h.advance _) _ (hrunning true) ()
  | step => exact finish_preserves (P := (Latched · value)) (fun _ h => h.advance _) h ()
  | setInput new => exact h.setInput new
  | loadBoot image =>
    show ((loading image).after m).Latched value
    rw [after_loading]
    exact ⟨h.clock, h.lines⟩
  | pause => exact hrunning false
  | reset => cases hkeep
  | stop => cases hkeep

/-! ## Any operations -/

theorem latched_after (store : Control.Store) (operations : List Operation) :
    ((ofStore store).after operations).Latched
      ((latest? latched? ((ofStore store).history operations)).getD 0) := by
  refine history_invariant (P := fun m history => m.Latched ((latest? latched? history).getD 0))
    latched_reset (fun m history operation hkeep h => ?_) store operations
  have hresult := h.result hkeep
  rw [latest?_concat]
  cases hlatched : latched? (m, operation) with
  | none =>
    rw [hlatched] at hresult
    exact hresult
  | some new =>
    rw [hlatched] at hresult
    exact hresult

/-! ## A byte that is set after a run -/

section

variable (m : Machine) (n : Nat) (value : UInt8)

theorem ticks_setInput : (m.setInput value).ticks = m.ticks := by
  obtain ⟨input, hinput⟩ := m.exists_input value
  rw [hinput]

theorem ticks_after_run_setInput : (m.after [.run n, .setInput value]).ticks =
    m.ticks + (m.run Observer.silent n ()).elapsed :=
  (ticks_setInput _ value).trans (ticks_run Observer.silent n m ())

theorem inTime_run_setInput (h : m.ticks + n + 255 < UInt64.size) :
    m.InTime [.run n, .setInput value] := by
  have hticks := m.ticks_after_run_setInput n value
  have helapsed := (m.elapsed_run (o := Observer.silent) n ()).2
  have hrun := ticks_run Observer.silent n m ()
  refine List.forall_mem_cons.mpr ⟨?_, List.forall_mem_singleton.mpr ?_⟩
  · show (m.run Observer.silent n ()).machine.ticks < UInt64.size
    omega
  · show (m.after [.run n, .setInput value]).ticks < UInt64.size
    omega

theorem latest?_latched?_run_setInput (h : 0 < n) :
    latest? latched? (m.history [.run n, .setInput value]) = some value := by
  have hhistory : m.history ([.run n] ++ [.setInput value]) =
      m.history [.run n] ++ [(m.after [.run n], .setInput value)] := m.history_concat [.run n] (.setInput value)
  have hticks : 0 < (m.after [.run n]).ticks := by
    have hrun := ticks_run Observer.silent n m ()
    have helapsed := (m.elapsed_run (o := Observer.silent) n ()).1
    show 0 < (m.run Observer.silent n ()).machine.ticks
    omega
  have hlatched : latched? (m.after [.run n], .setInput value) = some value := if_pos hticks
  rw [List.singleton_append] at hhistory
  rw [hhistory, latest?_concat, hlatched]
  rfl

end

/-! ## The law -/

/-- The clock line is high exactly if the tick counter shows an odd number of full intervals, and the other
lines are those of this byte. -/
structure Shows (m : Machine) (value : UInt8) : Prop where
  clock : m.input &&& clockBit ≠ 0 ↔ Odd (m.counter.toNat / clockTicks)
  lines : m.input &&& ~~~clockBit = value &&& ~~~clockBit

theorem Latched.shows (h : m.Latched value) (hticks : m.ticks < UInt64.size) : m.Shows value where
  clock := by
    rw [toNat_counter hticks]
    exact h.clock
  lines := h.lines

/-- Over any control store and after any operations in which the tick counter does not overflow, the clock line
of IN is high exactly if an odd number of intervals has passed since the last reset, and the other lines are
those of the byte that was last set since then at a time after the first tick, all low if there is none. This is
so at the beginning and at the end of every cycle of a further operation, until the counter overflows. -/
theorem operate_input (store : Control.Store) {operations : List Operation}
    (h : (ofStore store).InTime operations) (o : Observer σ) (s : σ) :
    let m := ((ofStore store).operate o s operations).1
    let latched := (latest? latched? ((ofStore store).history operations)).getD 0
    m.Shows latched ∧ ∀ operation : Operation, ∀ x ∈ operation.cycles m,
      (x.1.advance x.2).ticks < UInt64.size → x.1.Shows latched ∧ (x.1.advance x.2).Shows latched := by
  intro m latched
  have hm : m = (ofStore store).after operations := machine_operate o _ s operations
  have hlatched : m.Latched latched := by
    rw [hm]
    exact latched_after store operations
  have hticks : m.ticks < UInt64.size := by
    have hstart : 0 < UInt64.size := by
      decide
    rw [hm]
    exact h.ticks_after hstart
  refine ⟨hlatched.shows hticks, fun operation x hx hend => ?_⟩
  have hbefore : x.1.Latched latched := operation.forall_cycles (P := (Latched · latched))
    (fun _ h => h.advance _) (fun _ _ h => ⟨h.clock, h.lines⟩) hlatched x hx
  have hstart : x.1.ticks < UInt64.size := by
    rw [ticks_advance] at hend
    exact Nat.lt_of_succ_lt hend
  exact ⟨hbefore.shows hstart, (hbefore.advance x.2).shows hend⟩

/-- After an interval the clock line is high, and the byte that is set then leaves it so. -/
theorem operate_input_interval :
    let operations : List Operation := [.run clockTicks, .setInput 3]
    (ofStore .blank).InTime operations ∧
      ((ofStore .blank).operate Observer.silent () operations).1.input = 0x13 := by
  intro operations
  have hin : (ofStore .blank).InTime operations :=
    inTime_run_setInput _ _ _ (show 0 + clockTicks + 255 < UInt64.size by decide)
  obtain ⟨⟨hclock, hlines⟩, -⟩ := operate_input .blank hin Observer.silent ()
  rw [latest?_latched?_run_setInput _ _ _ (by decide)] at hlines
  refine ⟨hin, ?_⟩
  have hcounter := toNat_counter (hin.ticks_after (show 0 < UInt64.size by decide))
  rw [ticks_after_run_setInput] at hcounter
  obtain ⟨hge, hle⟩ := (ofStore .blank).elapsed_run (o := Observer.silent) clockTicks ()
  have hodd : Odd (((ofStore .blank).after operations).counter.toNat / clockTicks) := by
    rw [hcounter]
    generalize ((ofStore .blank).run Observer.silent clockTicks ()).elapsed = elapsed at hge hle
    have hstart : (ofStore .blank).ticks = 0 := rfl
    have hinterval : clockTicks = 125000 := rfl
    have hone : ((ofStore .blank).ticks + elapsed) / clockTicks = 1 := by
      rw [hinterval] at hge hle
      rw [hstart, hinterval]
      omega
    rw [hone]
    exact odd_one
  exact Instruction.forall_byte
    (P := fun input => input &&& clockBit ≠ 0 → input &&& ~~~clockBit = 3 &&& ~~~clockBit → input = 0x13)
    (by decide) _ (hclock.mpr hodd) hlines

end Machine

end Microcomputer
