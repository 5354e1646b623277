import Microcomputer.Proofs.Microcode.Paths

/-!
# The latches of an instruction

I, D, T and the two halves of MA are for the microcode alone. A word depends on those that drive a bus or
choose a register or a bank of flags, and an instruction on those that one of its words needs before
another has loaded them. In the table these are few: what the second part of an exchange, of `gp` and of
`gpf`, and an access at an offset from X and Y find where the part before has left it.
-/

namespace Microcomputer

/-- A byte that no program can name. -/
inductive Latch where
  | i
  | d
  | t
  | maLow
  | maHigh
deriving DecidableEq, Repr

namespace Instruction

/-! ## Parts of one operation -/

/-- The instructions that have to come right before, the nearest first. -/
def preparation : Instruction → List Instruction
  | xchgRegFinish => [xchgReg]
  | gpHigh => [gpLow]
  | gpfHigh => [gpfLow]
  | loadPairOffset | storePairOffset => [pairOffsetHigh, pairOffsetLow]
  | _ => []

/-- The latches that the instruction leaves for one that it prepares. -/
def leaves : Instruction → List Latch
  | xchgReg | gpLow | gpfLow => [.d]
  | pairOffsetLow => [.maLow]
  | pairOffsetHigh => [.maHigh]
  | _ => []

/-- The latches that the preparation of the instruction leaves. -/
def needs (i : Instruction) : List Latch :=
  i.preparation.flatMap leaves

end Instruction

namespace Microcode

open Control (Word Pointer)
open Instruction

/-! ## Words -/

/-- The latches that an address comes from. -/
def pointerLatches : Pointer → List Latch
  | .ma => [.maLow, .maHigh]
  | _ => []

/-- The latches that the byte on the primary bus comes from. -/
def sourceLatches (w : Word) : List Latch :=
  match w.source with
  | .abxy => [.i]
  | .d => [.d]
  | .t => [.t]
  | .ram => pointerLatches w.pointer
  | _ => []

/-- The latches that, besides the byte on the primary bus, say what is loaded and where. -/
def sinkLatches (w : Word) : List Latch :=
  match w.sink, w.side with
  | .abxy, _ => [.i]
  | .ram, _ => pointerLatches w.pointer
  | .aluT, .ab => [.i]
  | .aluT, .d => [.i, .d]
  | _, _ => []

/-- The latches that a word depends on. The function that is always zero has no use for the buses. -/
def reads (w : Word) : List Latch :=
  (if w = .logical w.source w.side .zero then [] else sourceLatches w) ++ sinkLatches w

/-- The latches that a word loads. -/
def loads (w : Word) : List Latch :=
  match w.sink with
  | .i => [.i]
  | .d => [.d]
  | .aluT => [.t]
  | .ma => [if w.side.isLow then .maLow else .maHigh]
  | _ => []

/-! ## Paths -/

/-- The latches that are known after a word, if it depends on known ones only. -/
def learn (w : Word) (known : Option (List Latch)) : Option (List Latch) :=
  known.bind fun known => if reads w ⊆ known then some (loads w ++ known) else none

/-- Every word was read with the latches known that it depends on, and those that the instruction leaves
are known. -/
def knows (i : Instruction) (known : Option (List Latch)) : Bool :=
  known.any fun known => decide (i.leaves ⊆ known)

/-- A value that all words keep is the one at the end. -/
theorem Leads.of_fixed {α : Type} {words : Flags → List Word} {f : Word → α → α} {Q : α → Prop}
    {n cycle : Nat} {flags : Flags} {a : α} (h : Leads words f Q n cycle flags a)
    (hf : ∀ w, f w a = a) : Q a := by
  induction h with
  | last _ _ _ hq => rwa [hf] at hq
  | next _ _ _ _ ih =>
    rw [hf] at ih
    exact ih _ (.inr rfl) hf

theorem of_learn_eq_some {w : Word} {known known' : List Latch} (h : learn w (some known) = some known') :
    reads w ⊆ known ∧ known' = loads w ++ known := by
  have hlearn : learn w (some known) = if reads w ⊆ known then some (loads w ++ known) else none := rfl
  rw [hlearn] at h
  split at h
  next hreads => exact ⟨hreads, (Option.some.inj h).symm⟩
  next => exact nomatch h

theorem exists_of_knows {i : Instruction} {known : Option (List Latch)} (h : knows i known) :
    ∃ final, known = some final ∧ i.leaves ⊆ final := by
  cases known with
  | none => exact nomatch h
  | some final => exact ⟨final, rfl, of_decide_eq_true h⟩

theorem Leads.exists_known {i : Instruction} {words : Flags → List Word} {n cycle : Nat} {flags : Flags}
    {known : Option (List Latch)} (h : Leads words learn (fun known => knows i known) n cycle flags known) :
    ∃ current, known = some current := by
  cases known with
  | none => exact absurd (h.of_fixed fun _ => rfl) Bool.false_ne_true
  | some current => exact ⟨current, rfl⟩

/-- After the fetch an instruction depends, on all paths, on no latches but I and those that its
preparation leaves. -/
theorem leads_knows (i : Instruction) (flags : Flags) :
    Leads (words i) learn (fun known => knows i known) 11 1 flags (some (.i :: i.needs)) := by
  have h : ∀ i : Instruction,
      check (byFlags (words i)) learn (knows i) 11 1 (allFlags.map (·, some (.i :: i.needs))) := by
    decide +kernel
  have hi := h i
  rw [byFlags_eq] at hi
  exact leads_of_check hi (List.mem_map_of_mem (mem_allFlags flags))

end Microcode

end Microcomputer
