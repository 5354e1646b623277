import Microcomputer.Proofs.Machine.Code
import Microcomputer.Proofs.Machine.Length
import Microcomputer.Proofs.Machine.Runs

/-!
# Lines of code

The code of a line is one instruction or several in a row. They are executed one after the other if all of
them go on with the next one and none but the last writes to memory. What the line sends to the output
register is then what the words of its instructions send.
-/

namespace Microcomputer

open Control (Word)
open Instruction
open Microcode

namespace Machine

variable {m n : Machine} {i : Instruction} {k : Nat} {parts : List (Instruction × List Operand)}
  {codes : List (List UInt8)}

/-! ## Outputs of an instruction -/

/-- The bytes that a row of words sends to the output register, each word chosen by the flags of its own
cycle. -/
def sent (m : Machine) : List (Flags → Word) → List UInt8
  | [] => []
  | w :: track =>
    (m.reading (w m.activeFlags)).output?.toList ++ (m.perform (w m.activeFlags)).sent track

theorem note_outputs (m : Machine) (c : Cycle) (seen : Array UInt8) :
    Observer.outputs.note m c seen = seen ++ c.output?.toList.toArray := by
  unfold Observer.note
  cases c.output? with
  | none => exact (Array.append_empty ..).symm
  | some value => rfl

theorem perform_cycle (c : UInt8) (w : Word) : { m with cycle := c }.perform w =
    { m.perform w with cycle := if w.sink.endsInstruction then 0 else c } :=
  congrArg countTick (load_cycle m (m.reading w) c)

theorem sent_cycle (c : UInt8) (track : List (Flags → Word)) :
    { m with cycle := c }.sent track = m.sent track := by
  induction track generalizing m c with
  | nil => rfl
  | cons w track ih =>
    rw [sent, perform_cycle, ih]
    rfl

theorem At.seen_finish {track : List (Flags → Word)} (h : m.At i (k + 1))
    (hwords : ∀ flags, (words i flags).drop (k + 1) = track.map (· flags))
    (hends : ∀ flags, endsLast (track.map (· flags))) (seen : Array UInt8) :
    (m.finish Observer.outputs seen).2 = seen ++ (m.sent track).toArray := by
  induction track generalizing k m seen with
  | nil => exact absurd (hends m.activeFlags) Bool.false_ne_true
  | cons w track ih =>
    have hw : (words i m.activeFlags)[k + 1]? = some (w m.activeFlags) := by
      rw [← List.head?_drop, hwords]
      rfl
    have hword : m.sense = m.reading (w m.activeFlags) := h.word_sense hw ▸ rfl
    have htick : m.tick = _ := hword ▸ m.advance_reading (w m.activeFlags)
    have hnote := note_outputs m m.sense seen
    cases track with
    | nil =>
      have he : (w m.activeFlags).sink.endsInstruction := hends m.activeFlags
      have hcycle : m.tick.cycle = 0 := by
        rw [htick, if_pos he]
      rw [finish]
      refine (congrArg Prod.snd (if_pos hcycle)).trans (hnote.trans ?_)
      rw [sent, sent, List.append_nil, hword]
    | cons v track =>
      have he (flags : Flags) := (Bool.and_eq_true _ _).mp (hends flags)
      have hdrop : ((words i m.activeFlags).drop 1)[k]? = some (w m.activeFlags) := by
        rw [List.getElem?_drop, Nat.add_comm]
        exact hw
      have hi := sink_ne_i (List.mem_of_getElem? hdrop)
      have hnext := h.next hw hi (by simpa using (he m.activeFlags).1)
      have hrest (flags : Flags) : (words i flags).drop (k + 1 + 1) = (v :: track).map (· flags) := by
        rw [← List.drop_drop, hwords]
        rfl
      rw [finish_tick (hnext.cycle_ne (At.lt hw)), ih hnext hrest (fun flags => (he flags).2), hnote, htick,
        sent_cycle, sent.eq_def m, hword, ← List.append_toArray, Array.append_assoc]

theorem seen_finish {track : List (Flags → Word)} (ht : Track i track) (hm : m.AtBoundary)
    (hi : i.owns (m.memory m.pc.value)) (seen : Array UInt8) :
    (m.finish Observer.outputs seen).2 = seen ++ ((m.perform fetch).sent track).toArray := by
  obtain ⟨j, h⟩ := hm.exists_at
  have h1 := h.first hi
  have hword : m.sense = m.reading fetch := h.word_first ▸ rfl
  have htick : m.tick = _ := hword ▸ m.advance_reading fetch
  have hnote : Observer.outputs.note m m.sense seen = seen := by
    rw [hword]
    rfl
  have hwords (flags : Flags) : (words i flags).drop 1 = track.map (· flags) := by
    rw [(ht flags).1]
    rfl
  rw [finish_tick (h1.cycle_ne (by decide)), h1.seen_finish hwords (fun flags => (ht flags).2.1), hnote,
    htick, sent_cycle]

/-- An instruction is the row of its words, for the machine and for the outputs. -/
theorem finish_eq_follow {track : List (Flags → Word)} (ht : Track i track) (hm : m.AtBoundary)
    (hi : i.owns (m.memory m.pc.value)) (seen : Array UInt8) : m.finish Observer.outputs seen =
      ((m.perform fetch).follow track, seen ++ ((m.perform fetch).sent track).toArray) := by
  refine Prod.ext ?_ (seen_finish ht hm hi seen)
  rw [finish_silent, ← stepped_eq_finish, stepped_eq_follow ht hm hi]

/-! ## Code in memory -/

theorem bytesFrom_add (m : Machine) (a : UInt16) (n k : Nat) :
    m.bytesFrom a (n + k) = m.bytesFrom a n ++ m.bytesFrom (a + .ofNat n) k := by
  induction n generalizing a with
  | zero =>
    rw [Nat.zero_add, show a + UInt16.ofNat 0 = a from a.add_zero]
    rfl
  | succ n ih =>
    have hnext : a + 1 + UInt16.ofNat n = a + UInt16.ofNat (n + 1) := by
      rw [UInt16.add_assoc, UInt16.add_comm 1, UInt16.ofNat_add]
      rfl
    rw [Nat.succ_add, bytesFrom, ih, hnext]
    rfl

theorem length_bytesFrom (m : Machine) (a : UInt16) (n : Nat) : (m.bytesFrom a n).length = n := by
  induction n generalizing a with
  | zero => rfl
  | succ n ih => rw [bytesFrom, List.length_cons, ih]

theorem bytesFrom_congr {a : UInt16} (h : ∀ j < k, n.memory (a + .ofNat j) = m.memory (a + .ofNat j)) :
    n.bytesFrom a k = m.bytesFrom a k := by
  induction k generalizing a with
  | zero => rfl
  | succ k ih =>
    have hfirst := h 0 k.succ_pos
    rw [show a + UInt16.ofNat 0 = a from a.add_zero] at hfirst
    rw [bytesFrom, bytesFrom, hfirst, ih fun j hj => ?_]
    have hj' := h (j + 1) (Nat.succ_lt_succ hj)
    rwa [UInt16.ofNat_add, UInt16.add_comm (.ofNat j), ← UInt16.add_assoc] at hj'

theorem bytesFrom_append {a : UInt16} {code rest : List UInt8}
    (h : m.bytesFrom a (code ++ rest).length = code ++ rest) :
    m.bytesFrom a code.length = code ∧ m.bytesFrom (a + .ofNat code.length) rest.length = rest := by
  rw [List.length_append, bytesFrom_add] at h
  exact List.append_inj h (m.length_bytesFrom a code.length)

/-! ## Instructions in a row -/

/-- The instructions with these operands are executed one after the other. -/
def ExecutesAll (m : Machine) : List (Instruction × List Operand) → Prop
  | [] => True
  | (i, operands) :: parts => m.Executes i operands ∧ m.stepped.ExecutesAll parts

theorem executesAll_append {rest : List (Instruction × List Operand)} :
    m.ExecutesAll (parts ++ rest) ↔ m.ExecutesAll parts ∧ (stepped^[parts.length] m).ExecutesAll rest := by
  induction parts generalizing m with
  | nil => simp [ExecutesAll]
  | cons part parts ih => simp [ExecutesAll, ih, and_assoc]

theorem memory_stepped (hm : m.AtBoundary) (hi : i.owns (m.memory m.pc.value))
    (hquiet : ∀ flags, ∀ w ∈ words i flags, w.sink ≠ .ram) : m.stepped.memory = m.memory := by
  rw [stepped_eq_execute hm hi]
  refine execute_invariant (P := fun x => x.memory = m.memory) (fun x hx w hw => ?_) rfl
  rw [← hx]
  funext a
  have hmemory := memory_advance (m := x) (c := x.reading w) (hquiet _ w (List.mem_of_mem_drop hw)) a
  rwa [advance_reading] at hmemory

theorem executes_of_encode {part : Instruction × List Operand} {code rest : List UInt8}
    (h : part.1.encode part.2 = .ok code)
    (hcode : m.bytesFrom m.pc.value (code ++ rest).length = code ++ rest) (hm : m.AtBoundary) :
    m.Executes part.1 part.2 ∧
      (part.1.isStraight → m.stepped.pc.value = m.pc.value + .ofNat code.length) := by
  have hsize : part.1.size = code.length := by
    obtain ⟨_, _, rfl, -, hsize, -⟩ := encode_cases h
    exact hsize.symm
  have hexec : m.Executes part.1 part.2 := by
    rw [Executes, hsize, (bytesFrom_append hcode).1, h]
  refine ⟨hexec, fun hstraight => ?_⟩
  rw [← hsize]
  exact pc_stepped_of_fallsThrough hm hexec.owns (fallsThrough_of_isStraight hstraight)

theorem executesAll_of_encodes (h : Encodes parts codes) (hm : m.AtBoundary)
    (hcode : m.bytesFrom m.pc.value codes.flatten.length = codes.flatten)
    (hstraight : ∀ part ∈ parts, part.1.isStraight)
    (hquiet : ∀ part ∈ parts.dropLast, ∀ flags, ∀ w ∈ words part.1 flags, w.sink ≠ .ram) :
    m.ExecutesAll parts ∧
      (stepped^[parts.length] m).pc.value = m.pc.value + .ofNat codes.flatten.length := by
  induction h generalizing m with
  | nil => exact ⟨trivial, (UInt16.add_zero _).symm⟩
  | @cons part code parts codes hpart hrest ih =>
    obtain ⟨hexec, hnext⟩ := executes_of_encode hpart hcode hm
    have hpc := hnext (hstraight _ List.mem_cons_self)
    have hrestCode := (bytesFrom_append hcode).2
    -- The rest of the code is still there, unless there is no rest.
    have hkept : m.stepped.bytesFrom m.stepped.pc.value codes.flatten.length = codes.flatten := by
      cases hrest with
      | nil => rfl
      | cons _ _ =>
        have hmemory := memory_stepped hm hexec.owns (hquiet _ List.mem_cons_self)
        rw [hpc, bytesFrom_congr fun j _ => congrFun hmemory _, hrestCode]
    have hlater : ∀ q ∈ parts.dropLast, q ∈ (part :: parts).dropLast := by
      intro q hq
      cases parts with
      | nil => cases hq
      | cons _ _ => exact List.mem_cons_of_mem _ hq
    obtain ⟨hall, hend⟩ := ih hm.stepped hkept (fun q hq => hstraight q (List.mem_cons_of_mem _ hq))
      fun q hq => hquiet q (hlater q hq)
    refine ⟨⟨hexec, hall⟩, ?_⟩
    rw [List.length_cons, Function.iterate_succ_apply, hend, hpc, UInt16.add_assoc, ← UInt16.ofNat_add,
      List.flatten_cons, List.length_append]

/-- The code of instructions that all go on with the next one, none but the last writing to memory. -/
theorem afterSteps_of_encodeAll {code : List UInt8} (h : encodeAll parts = .ok code) (hm : m.AtBoundary)
    (hcode : m.bytesFrom m.pc.value code.length = code) (hstraight : ∀ part ∈ parts, part.1.isStraight)
    (hquiet : ∀ part ∈ parts.dropLast, ∀ flags, ∀ w ∈ words part.1 flags, w.sink ≠ .ram) (seen : Array UInt8) :
    m.ExecutesAll parts ∧ (walk code).length = parts.length ∧
      (m.afterSteps seen parts.length).1 = stepped^[parts.length] m ∧
      (stepped^[parts.length] m).pc.value = m.pc.value + .ofNat code.length := by
  rw [encodeAll_eq_ok_iff] at h
  obtain ⟨codes, hencodes, rfl⟩ := h
  obtain ⟨hall, hpc⟩ := executesAll_of_encodes hencodes hm hcode hstraight hquiet
  exact ⟨hall, length_walk hencodes, machine_afterSteps m seen _, hpc⟩

/-- What every instruction of the row preserves, the row preserves. -/
theorem ExecutesAll.invariant {P : Machine → Prop} (h : m.ExecutesAll parts) (hm : m.AtBoundary)
    (hstep : ∀ x : Machine, ∀ part ∈ parts, x.AtBoundary → x.Executes part.1 part.2 → P x → P x.stepped)
    (hstart : P m) : P (stepped^[parts.length] m) := by
  induction parts generalizing m with
  | nil => exact hstart
  | cons part parts ih =>
    obtain ⟨hexec, hrest⟩ := h
    rw [List.length_cons, Function.iterate_succ_apply]
    exact ih hrest hm.stepped (fun x q hq => hstep x q (List.mem_cons_of_mem _ hq))
      (hstep m part List.mem_cons_self hm hexec hstart)

theorem input_stepped (m : Machine) :
    m.stepped.input &&& ~~~InputLines.clockBit = m.input &&& ~~~InputLines.clockBit := by
  have htick (x : Machine) (_ : Unit)
      (h : x.input &&& ~~~InputLines.clockBit = m.input &&& ~~~InputLines.clockBit) :
      x.tick.input &&& ~~~InputLines.clockBit = m.input &&& ~~~InputLines.clockBit := by
    rw [tick, input_advance]
    exact (x.input_elapse 1).trans h
  rw [stepped_eq_finish]
  exact finish_invariant (o := Observer.silent)
    (P := fun x _ => x.input &&& ~~~InputLines.clockBit = m.input &&& ~~~InputLines.clockBit)
    (E := fun x _ => x.input &&& ~~~InputLines.clockBit = m.input &&& ~~~InputLines.clockBit)
    (fun x s h _ => htick x s h) (fun x s h _ => htick x s h) rfl

end Machine

end Microcomputer
