import Microcomputer.Proofs.Microcode.Generated

/-!
# Paths through an instruction

The flags choose the routine of an instruction anew in every cycle, and a step of the arithmetic logic
unit may leave any flags behind, so the words of an instruction make a graph of paths. `Leads` says that
every path from a point ends the instruction in time with a good value of a quantity that the words
change; `check` computes it for all points of a cycle at once.
-/

namespace Microcomputer

/-- The instruction always goes on with the one after it: it is no jump, loop, call, return or halt. -/
def Instruction.isStraight : Instruction → Bool
  | jmp | je | jne | jg | jge | jl | jle | loope | loopz | call | ret | retImm | halt => false
  | _ => true

namespace Microcode

open Control (Word)
open Instruction

/-! ## Paths -/

section

variable {α : Type} (words : Flags → List Word) (f : Word → α → α)

/-- Every path from a cycle on under given flags reads words that are there and fetch nothing, and ends
the instruction within `n` cycles, with a value that `Q` holds of. -/
inductive Leads (Q : α → Prop) : Nat → Nat → Flags → α → Prop
  | last {n cycle flags a w} : (words flags)[cycle]? = some w → w.sink ≠ .i →
      w.sink.endsInstruction → Q (f w a) → Leads Q (n + 1) cycle flags a
  | next {n cycle flags a w} : (words flags)[cycle]? = some w → w.sink ≠ .i →
      w.sink.endsInstruction = false →
      (∀ flags', w.sink = .aluT ∨ flags' = flags → Leads Q n (cycle + 1) flags' (f w a)) →
      Leads Q (n + 1) cycle flags a

/-- All values of the flags. -/
def allFlags : List Flags :=
  [⟨false, false⟩, ⟨false, true⟩, ⟨true, false⟩, ⟨true, true⟩]

theorem mem_allFlags (flags : Flags) : flags ∈ allFlags := by
  obtain ⟨carry, zero⟩ := flags
  cases carry <;> cases zero <;> simp [allFlags]

/-- There is a word at a point, it fetches nothing, and if it is the last one it leaves a good value. -/
def pointOk (good : α → Bool) (cycle : Nat) (point : Flags × α) : Bool :=
  match (words point.1)[cycle]? with
  | none => false
  | some w => w.sink != .i && (!w.sink.endsInstruction || good (f w point.2))

/-- The points that a path can come to in the next cycle. -/
def pointsAfter (cycle : Nat) (point : Flags × α) : List (Flags × α) :=
  match (words point.1)[cycle]? with
  | none => []
  | some w =>
    if w.sink.endsInstruction then []
    else if w.sink = .aluT then allFlags.map fun flags => (flags, f w point.2)
    else [(point.1, f w point.2)]

/-- Every path from the points of a cycle ends within `n` cycles with a good value. -/
def check [DecidableEq α] (good : α → Bool) : Nat → Nat → List (Flags × α) → Bool
  | _, _, [] => true
  | 0, _, _ :: _ => false
  | n + 1, cycle, points@(_ :: _) =>
    points.all (pointOk words f good cycle) &&
      check good n (cycle + 1) (points.flatMap (pointsAfter words f cycle)).eraseDups

/-- The function by cases of its argument; an evaluation of it meets every value in one form only. -/
def byFlags {β : Type} (g : Flags → β) : Flags → β
  | ⟨false, false⟩ => g ⟨false, false⟩
  | ⟨false, true⟩ => g ⟨false, true⟩
  | ⟨true, false⟩ => g ⟨true, false⟩
  | ⟨true, true⟩ => g ⟨true, true⟩

theorem byFlags_eq {β : Type} (g : Flags → β) : byFlags g = g := by
  funext ⟨carry, zero⟩
  cases carry <;> cases zero <;> rfl

variable {words f}

theorem leads_of_check [DecidableEq α] {good : α → Bool} {n cycle : Nat} {points : List (Flags × α)}
    (h : check words f good n cycle points) {flags : Flags} {a : α} (hm : (flags, a) ∈ points) :
    Leads words f (fun a => good a) n cycle flags a := by
  induction n generalizing cycle points flags a with
  | zero =>
    cases points with
    | nil => simp at hm
    | cons p ps => simp [check] at h
  | succ n ih =>
    cases points with
    | nil => simp at hm
    | cons p ps =>
      simp only [check, Bool.and_eq_true, List.all_eq_true] at h
      obtain ⟨hok, hrest⟩ := h
      have hpoint := hok _ hm
      have hafter {q : Flags × α} (hq : q ∈ pointsAfter words f cycle (flags, a)) :
          Leads words f (fun a => good a) n (cycle + 1) q.1 q.2 :=
        ih hrest (List.mem_eraseDups.mpr (List.mem_flatMap.mpr ⟨_, hm, hq⟩))
      cases hw : (words flags)[cycle]? with
      | none => simp [pointOk, hw] at hpoint
      | some w =>
        simp only [pointOk, hw, Bool.and_eq_true, bne_iff_ne, Bool.or_eq_true,
          Bool.not_eq_true'] at hpoint
        obtain ⟨hi, hgood⟩ := hpoint
        simp only [pointsAfter, hw] at hafter
        cases hend : w.sink.endsInstruction with
        | true => exact .last hw hi hend (by simpa [hend] using hgood)
        | false =>
          refine .next hw hi hend fun flags' hflags => hafter (q := (flags', f w a)) ?_
          by_cases halu : w.sink = .aluT
          · simp [halu, Control.Sink.endsInstruction, mem_allFlags]
          · obtain rfl : flags' = flags := hflags.resolve_left halu
            simp [halu, hend]

end

/-! ## How far the program counter moves -/

/-- How far PC has moved after a word, if it has only been stepped. -/
def displace (w : Word) (distance : Option Nat) : Option Nat :=
  match w.sink with
  | .pcPlus => distance.map (· + 1)
  | .advancePcResetCycle => distance.map (· + 1)
  | .pc => none
  | _ => distance

theorem words_zero (i : Instruction) (flags : Flags) : (words i flags)[0]? = some fetch := by
  have h : ∀ r ∈ noOperation :: table, (r.steps.map Step.word)[0]? = some fetch := by decide
  exact h _ (routine_mem i flags)

theorem length_words_le (i : Instruction) (flags : Flags) : (words i flags).length ≤ cycleCount := by
  have h : ∀ r ∈ noOperation :: table, (r.steps.map Step.word).length ≤ cycleCount := by decide
  exact h _ (routine_mem i flags)

/-- After the fetch every instruction ends within eleven cycles, wherever its flags lead it, and a
straight one has moved PC by its size. -/
theorem leads_size (i : Instruction) (flags : Flags) :
    Leads (words i) displace (fun d => !i.isStraight || d == some i.size) 11 1 flags (some 0) := by
  have h : ∀ i : Instruction, check (byFlags (words i)) displace
      (fun d => !i.isStraight || d == some i.size) 11 1 (allFlags.map (·, some 0)) := by
    decide
  have hi := h i
  rw [byFlags_eq] at hi
  exact leads_of_check hi (List.mem_map_of_mem (mem_allFlags flags))

/-- A conditional jump that is not taken has moved PC by its size. -/
theorem leads_skip {i : Instruction} {taken : Bool → Bool → Bool} (hi : (i, taken) ∈ conditions)
    {flags : Flags} (hf : taken flags.carry flags.zero = false) :
    Leads (words i) displace (fun d => d == some i.size) 11 1 flags (some 0) := by
  have h : ∀ p ∈ conditions, ∀ flags : Flags, p.2 flags.carry flags.zero = false →
      check (words p.1) displace (fun d => d == some p.1.size) 11 1 [(flags, some 0)] := by
    decide
  exact leads_of_check (h _ hi flags hf) List.mem_cons_self

/-- The word of a loop that compares its register with D. -/
def compareD : Word :=
  Control.Word.arith .abxy .d .aMinusBMinusOne true

theorem words_loope (flags : Flags) : (words .loope flags)[1]? = some stepPc ∧
    (words .loope flags)[2]? = some loadD ∧ (words .loope flags)[3]? = some compareD := by
  revert flags
  decide

theorem words_loopz (flags : Flags) : (words .loopz flags)[1]? = some (.logical .d .ab .zero) ∧
    (words .loopz flags)[2]? = some (.transfer .t .d) ∧ (words .loopz flags)[3]? = some compareD := by
  revert flags
  decide

/-- A loop that its comparison leaves has moved PC by its size, from where the comparison left it. -/
theorem leads_exit {i : Instruction} {distance : Nat} (hi : (i, distance) ∈ [(loope, 1), (loopz, 0)])
    {flags : Flags} (hf : flags.zero) :
    Leads (words i) displace (fun d => d == some i.size) 8 4 flags (some distance) := by
  have h : ∀ p ∈ [(loope, 1), (loopz, 0)], ∀ flags : Flags, flags.zero →
      check (words p.1) displace (fun d => d == some p.1.size) 8 4 [(flags, some p.2)] := by
    decide
  exact leads_of_check (h _ hi flags hf) List.mem_cons_self

end Microcode

end Microcomputer
