import Mathlib.Logic.Function.Iterate
import Microcomputer.Proofs.Machine.Course

/-!
# The words of an instruction in a row

Between two boundaries the machine performs one word after the other, each chosen by the flags that the
ones before it left behind. The word counter only says which word comes next, so it is left out here: an
instruction is the fetch of its opcode followed by the execution of its words.
-/

namespace Microcomputer

/-! ## Rows of words -/

namespace Microcode

open Control (Word)

/-- The last word, and no other, ends the instruction. -/
def endsLast : List Word → Bool
  | [] => false
  | [w] => w.sink.endsInstruction
  | w :: ws => !w.sink.endsInstruction && endsLast ws

/-- Words that are the same under all flags. -/
def fixed (ws : List Word) : List (Flags → Word) :=
  ws.map fun w _ => w

/-- After the fetch the instruction has these words, each chosen by the flags of its own cycle. -/
abbrev Track (i : Instruction) (track : List (Flags → Word)) : Prop :=
  ∀ flags, words i flags = fetch :: track.map (· flags) ∧ endsLast (track.map (· flags)) ∧
    track.length ≤ 11

end Microcode

namespace Machine

open Control (Word)
open Instruction
open Microcode

variable {σ : Type} {m : Machine} {i : Instruction} {k n : Nat} {w : Word}

/-! ## Time -/

/-- The input register a number of ticks later. -/
def inputAfter : Nat → Nat → UInt8 → UInt8
  | 0, _, input => input
  | n + 1, ticks, input => clocked (ticks + n + 1) (inputAfter n ticks input)

/-- The machine a number of ticks later, with nothing loaded. -/
def elapse (m : Machine) (n : Nat) : Machine :=
  { m with ticks := m.ticks + n, input := inputAfter n m.ticks m.input }

theorem clocked_and_not (ticks : Nat) (input : UInt8) :
    clocked ticks input &&& ~~~InputLines.clockBit = input &&& ~~~InputLines.clockBit := by
  have hflip (value : UInt8) : (value ^^^ InputLines.clockBit) &&& ~~~InputLines.clockBit =
      value &&& ~~~InputLines.clockBit := by
    revert value
    exact forall_byte (by decide)
  unfold clocked
  split
  · exact hflip input
  · rfl

/-- Time changes the clock line of the input register alone. -/
theorem input_elapse (m : Machine) (n : Nat) : (m.elapse n).input &&& ~~~InputLines.clockBit =
    m.input &&& ~~~InputLines.clockBit := by
  show inputAfter n m.ticks m.input &&& _ = _
  induction n with
  | zero => rfl
  | succ n ih => exact (clocked_and_not _ _).trans ih

/-! ## One word -/

/-- What a cycle with this word reads. -/
def reading (m : Machine) (w : Word) : Cycle :=
  let target := (m.pair w.pointer).value
  { address := m.wordAddress, word := w, primary := m.primary w target, side := m.side w, target }

/-- The machine after a cycle with this word, but for the word counter, which only the end of an
instruction changes. -/
def perform (m : Machine) (w : Word) : Machine :=
  (m.load (m.reading w)).countTick

theorem load_cycle (m : Machine) (c : Cycle) (k : UInt8) : { m with cycle := k }.load c =
    { m.load c with cycle := if c.word.sink.endsInstruction then 0 else k } := by
  obtain ⟨address, ⟨source, sink, side, pointer, select, logic, carryIn⟩, primary, side', target⟩ := c
  cases sink with
  | ram =>
    simp only [load, writeMemory]
    split <;> rfl
  | _ => rfl

theorem advance_reading (m : Machine) (w : Word) : m.advance (m.reading w) =
    { m.perform w with cycle := if w.sink.endsInstruction then 0 else m.cycle + 1 } :=
  congrArg countTick (load_cycle m (m.reading w) (m.cycle + 1))

theorem tick_eq_perform {c : UInt8} (hw : { m with cycle := c }.sense.word = w) :
    { m with cycle := c }.tick =
      { m.perform w with cycle := if w.sink.endsInstruction then 0 else c + 1 } := by
  subst hw
  exact congrArg countTick (load_cycle m { m with cycle := c }.sense (c + 1))

theorem cycle_perform (h : m.cycle = 0) : (m.perform w).cycle = 0 := by
  show (m.load (m.reading w)).cycle = 0
  rw [cycle_load]
  split
  · rfl
  · exact h

theorem i_perform (h : w.sink ≠ .i) : (m.perform w).i = m.i := by
  have hi := i_advance (m := m) (c := m.reading w)
  rw [advance_reading] at hi
  exact hi.trans (if_neg h)

theorem flags_perform (h : w.sink ≠ .aluT) : (m.perform w).flags = m.flags := by
  have hflags := flags_advance (m := m) (c := m.reading w) h
  rwa [advance_reading] at hflags

theorem get_flags_perform {bank : Bool} (hbank : m.flagBank ≠ bank) :
    (m.perform w).flags.get bank = m.flags.get bank := by
  by_cases ht : w.sink = .aluT
  · obtain ⟨source, sink, side, pointer, select, logic, carryIn⟩ := w
    cases ht
    exact (m.flags.get_set m.flagBank bank _).trans (if_neg hbank)
  · rw [flags_perform ht]

theorem activeFlags_perform (hi : w.sink ≠ .i) (ht : w.sink ≠ .aluT) :
    (m.perform w).activeFlags = m.activeFlags := by
  rw [activeFlags, activeFlags, flagBank, flagBank, i_perform hi, flags_perform ht]

/-! ## Words in a row -/

/-- The machine after the words of an instruction from one place on, until a word ends it. -/
def execute (words : Flags → List Word) : Nat → Nat → Machine → Machine
  | 0, _, m => m
  | n + 1, k, m =>
    match (words m.activeFlags)[k]? with
    | none => m
    | some w =>
      if w.sink.endsInstruction then m.perform w else execute words n (k + 1) (m.perform w)

/-- Where every path through the words ends in time, the machine comes to the end of the instruction by
executing them. -/
theorem finish_eq_execute {α : Type} {f : Word → α → α} {Q : α → Prop} {flags : Flags} {a : α}
    (hl : Leads (words i) f Q n k flags a) (hflags : m.activeFlags = flags) (hcycle : m.cycle = 0)
    (hm : { m with cycle := .ofNat k }.At i k) (o : Observer σ) (s : σ) :
    ({ m with cycle := .ofNat k }.finish o s).1 = execute (words i) n k m := by
  -- Along the paths: the word in turn ends the instruction, or leaves a path from the next word on.
  induction hl generalizing m s with
  | @last n k flags a w hw hi he hq =>
    subst hflags
    have htick := tick_eq_perform (hm.word_sense hw)
    rw [he, if_pos rfl, ← cycle_perform (w := w) hcycle] at htick
    have hend : { m with cycle := UInt8.ofNat k }.tick.cycle = 0 := by
      rw [htick, cycle_perform hcycle]
    rw [finish, execute, hw]
    simp only [he, if_true]
    exact (congrArg Prod.fst (if_pos hend)).trans htick
  | @next n k flags a w hw hi he hnext ih =>
    subst hflags
    have htick := tick_eq_perform (hm.word_sense hw)
    have hm' := hm.next hw hi he
    rw [he, if_neg Bool.false_ne_true, ← UInt8.ofNat_one, ← UInt8.ofNat_add] at htick
    rw [finish_tick (hm'.cycle_ne (At.lt hw)), execute, hw]
    simp only [he, Bool.false_eq_true, if_false]
    have hstay := hm.activeFlags_tick hw hi
    rw [htick] at hstay hm' ⊢
    exact ih (m.perform w).activeFlags hstay rfl (cycle_perform hcycle) hm' _

theorem execute_invariant {P : Machine → Prop} {words : Flags → List Word}
    (hP : ∀ m, P m → ∀ w ∈ (words m.activeFlags).drop k, P (m.perform w)) (h : P m) :
    P (execute words n k m) := by
  induction n generalizing k m with
  | zero => exact h
  | succ n ih =>
    unfold execute
    split
    next => exact h
    next w hw =>
      have hw' : w ∈ (words m.activeFlags).drop k := by
        obtain ⟨hk, rfl⟩ := List.getElem?_eq_some_iff.mp hw
        rw [List.drop_eq_getElem_cons hk]
        exact List.mem_cons_self
      split
      · exact hP m h w hw'
      · refine ih (fun m hm w hw => hP m hm w ?_) (hP m h w hw')
        rw [← List.drop_drop] at hw
        exact List.mem_of_mem_drop hw

/-- While no word works in the arithmetic logic unit, the flags of the beginning choose all words. -/
theorem execute_of_quiet {words : Flags → List Word}
    (hq : ∀ w ∈ (words m.activeFlags).drop k, w.sink ≠ .i ∧ w.sink ≠ .aluT) :
    execute words n k m = execute (fun _ => words m.activeFlags) n k m := by
  generalize hflags : m.activeFlags = flags at hq
  induction n generalizing k m with
  | zero => rfl
  | succ n ih =>
    rw [execute, execute, hflags]
    cases hw : (words flags)[k]? with
    | none => rfl
    | some w =>
      obtain ⟨hk, rfl⟩ := List.getElem?_eq_some_iff.mp hw
      rw [List.drop_eq_getElem_cons hk] at hq
      obtain ⟨hi, ht⟩ := hq _ List.mem_cons_self
      simp only
      rw [ih ((activeFlags_perform hi ht).trans hflags) fun w hw => hq w (List.mem_cons_of_mem _ hw)]

/-- The machine after a row of words, each chosen by the flags of its own cycle. -/
def follow (m : Machine) (track : List (Flags → Word)) : Machine :=
  track.foldl (fun m w => m.perform (w m.activeFlags)) m

theorem follow_append (m : Machine) (track rest : List (Flags → Word)) :
    m.follow (track ++ rest) = (m.follow track).follow rest :=
  List.foldl_append

theorem execute_eq_follow {words : Flags → List Word} {track : List (Flags → Word)}
    (hwords : ∀ flags, (words flags).drop k = track.map (· flags))
    (hends : ∀ flags, endsLast (track.map (· flags))) (hn : track.length ≤ n) :
    execute words n k m = m.follow track := by
  induction track generalizing n k m with
  | nil => exact absurd (hends m.activeFlags) Bool.false_ne_true
  | cons w rest ih =>
    obtain ⟨n, rfl⟩ := Nat.exists_eq_add_one_of_ne_zero (Nat.ne_zero_of_lt hn)
    have hw : (words m.activeFlags)[k]? = some (w m.activeFlags) := by
      rw [← List.head?_drop, hwords]
      rfl
    have hrest (flags : Flags) : (words flags).drop (k + 1) = rest.map (· flags) := by
      rw [← List.drop_drop, hwords]
      rfl
    rw [execute, hw]
    simp only
    cases rest with
    | nil =>
      have he : (w m.activeFlags).sink.endsInstruction := hends m.activeFlags
      rw [if_pos he]
      rfl
    | cons v rest =>
      have he (flags : Flags) := (Bool.and_eq_true _ _).mp (hends flags)
      rw [if_neg (by simpa using (he m.activeFlags).1)]
      exact ih hrest (fun flags => (he flags).2) (Nat.le_of_succ_le_succ hn)

/-! ## Words that flags of a kind choose -/

theorem execute_prefix {ws : List Word} {words : Flags → List Word} {F : Flags → Prop}
    (hwords : ∀ flags, F flags → ws <+: (words flags).drop k)
    (hends : ∀ w ∈ ws, w.sink.endsInstruction = false)
    (hflags : ∀ x : Machine, ∀ w ∈ ws, F x.activeFlags → F (x.perform w).activeFlags) (hm : F m.activeFlags) :
    execute words (ws.length + n) k m = execute words n (k + ws.length) (m.follow (fixed ws)) := by
  induction ws generalizing k m with
  | nil => rw [List.length_nil, Nat.zero_add]; rfl
  | cons w ws ih =>
    have hw : (words m.activeFlags)[k]? = some w := by
      obtain ⟨rest, hrest⟩ := hwords _ hm
      rw [← List.head?_drop, ← hrest]
      rfl
    have hlater (flags : Flags) (hf : F flags) : ws <+: (words flags).drop (k + 1) := by
      obtain ⟨rest, hrest⟩ := hwords flags hf
      refine ⟨rest, ?_⟩
      rw [← List.drop_drop, ← hrest]
      rfl
    rw [List.length_cons, Nat.add_right_comm, execute, hw]
    simp only [hends w List.mem_cons_self, Bool.false_eq_true, if_false]
    rw [ih hlater (fun w hw => hends w (List.mem_cons_of_mem _ hw))
      (fun x w hw => hflags x w (List.mem_cons_of_mem _ hw)) (hflags m w List.mem_cons_self hm),
      Nat.add_assoc k, Nat.add_comm 1]
    rfl

theorem execute_quiet {words : Flags → List Word} (ws : List Word)
    (hwords : ws <+: (words m.activeFlags).drop k)
    (hquiet : ∀ w ∈ ws, w.sink ≠ .i ∧ w.sink ≠ .aluT ∧ w.sink.endsInstruction = false) :
    execute words (ws.length + n) k m = execute words n (k + ws.length) (m.follow (fixed ws)) :=
  execute_prefix (F := (· = m.activeFlags)) (fun _ hf => hf ▸ hwords) (fun w hw => (hquiet w hw).2.2)
    (fun _ w hw hf => (activeFlags_perform (hquiet w hw).1 (hquiet w hw).2.1).trans hf) rfl

theorem execute_last {words : Flags → List Word} (hw : (words m.activeFlags)[k]? = some w)
    (hends : w.sink.endsInstruction) : execute words (n + 1) k m = m.perform w := by
  rw [execute, hw]
  simp [hends]

/-! ## One instruction -/

/-- The machine after one instruction. Comparing two machines must not run them. -/
@[irreducible] def stepped (m : Machine) : Machine :=
  (m.step Observer.silent ()).machine

theorem stepped_eq_finish (m : Machine) : m.stepped = (m.finish Observer.silent ()).1 := by
  rw [stepped]
  rfl

theorem finish_silent (m : Machine) (o : Observer σ) (s : σ) :
    (m.finish o s).1 = (m.finish Observer.silent ()).1 := by
  fun_induction finish o m s with
  | case1 m s c seen next hend =>
    rw [finish, if_pos (show (m.advance m.sense).cycle = 0 from hend)]
  | case2 m s c seen next hend ih =>
    rw [ih, finish.eq_def Observer.silent m, if_neg (show (m.advance m.sense).cycle ≠ 0 from hend)]

theorem machine_step (m : Machine) (o : Observer σ) (s : σ) : (m.step o s).machine = m.stepped :=
  (m.finish_silent o s).trans m.stepped_eq_finish.symm

theorem AtBoundary.stepped (hm : m.AtBoundary) : m.stepped.AtBoundary := by
  rw [stepped_eq_finish]
  exact (finish_of_boundary (S := fun _ => True) (fun _ _ _ _ => trivial) hm trivial).2.1

theorem AtBoundary.iterate_stepped (hm : m.AtBoundary) (n : Nat) : (Machine.stepped^[n] m).AtBoundary := by
  induction n with
  | zero => exact hm
  | succ n ih =>
    rw [Function.iterate_succ_apply']
    exact ih.stepped

/-- From a boundary on the machine fetches an opcode and executes the words of its instruction. -/
theorem stepped_eq_execute (hm : m.AtBoundary) (hi : i.owns (m.memory m.pc.value)) :
    m.stepped = execute (words i) 11 1 (m.perform fetch) := by
  obtain ⟨j, h⟩ := hm.exists_at
  have h1 := h.first hi
  have htick : m.tick = { m.perform fetch with cycle := .ofNat 1 } := by
    refine (tick_eq_perform (c := m.cycle) h.word_first).trans ?_
    rw [hm.cycle]
    rfl
  rw [stepped_eq_finish, finish_tick (h1.cycle_ne (by decide)), htick]
  rw [htick] at h1
  exact finish_eq_execute (leads_size i _) rfl (cycle_perform hm.cycle) h1 _ _

theorem sink_ne_i {flags : Flags} (hw : w ∈ (words i flags).drop 1) : w.sink ≠ .i := by
  have h : ∀ i flags, ∀ w ∈ (words i flags).drop 1, w.sink ≠ .i := by
    decide
  exact h i flags w hw

theorem get_flags_stepped {bank : Bool} (hm : m.AtBoundary) (hi : i.owns (m.memory m.pc.value))
    (hbank : i.bank ≠ bank) : m.stepped.flags.get bank = m.flags.get bank := by
  have hstart : i.owns (m.perform fetch).i ∧ (m.perform fetch).flags.get bank = m.flags.get bank :=
    ⟨hi, rfl⟩
  rw [stepped_eq_execute hm hi]
  -- The bank is that of the opcode in I, which stays there after the fetch.
  refine (execute_invariant (P := fun x => i.owns x.i ∧ x.flags.get bank = m.flags.get bank)
    (fun x hx w hw => ⟨?_, ?_⟩) hstart).2
  · rw [i_perform (sink_ne_i hw)]
    exact hx.1
  · rw [get_flags_perform (by rw [flagBank, bank_of_owns hx.1]; exact hbank)]
    exact hx.2

theorem flags_stepped (hm : m.AtBoundary) (hi : i.owns (m.memory m.pc.value))
    (hq : ∀ flags, ∀ w ∈ words i flags, w.sink ≠ .aluT) : m.stepped.flags = m.flags := by
  rw [stepped_eq_execute hm hi]
  refine execute_invariant (P := fun x => x.flags = m.flags) (fun x hx w hw => ?_) rfl
  exact (flags_perform (hq _ w (List.mem_of_mem_drop hw))).trans hx

theorem stepped_eq_follow {track : List (Flags → Word)} (ht : Track i track) (hm : m.AtBoundary)
    (hi : i.owns (m.memory m.pc.value)) : m.stepped = (m.perform fetch).follow track := by
  rw [stepped_eq_execute hm hi]
  refine execute_eq_follow (fun flags => ?_) (fun flags => (ht flags).2.1) (ht m.activeFlags).2.2
  rw [(ht flags).1]
  rfl

/-- An instruction without a step of the arithmetic logic unit follows the words for the flags that it
begins with. -/
theorem stepped_eq_follow_fixed {ws : List Word} (hm : m.AtBoundary)
    (hi : i.owns (m.memory m.pc.value)) (hwords : words i (m.perform fetch).activeFlags = fetch :: ws)
    (hquiet : ∀ w ∈ ws, w.sink ≠ .i ∧ w.sink ≠ .aluT) (hends : endsLast ws) (hn : ws.length ≤ 11) :
    m.stepped = (m.perform fetch).follow (fixed ws) := by
  have hmap (flags : Flags) : (fixed ws).map (· flags) = ws := by
    rw [fixed, List.map_map]
    exact List.map_id ws
  rw [stepped_eq_execute hm hi, execute_of_quiet (by rwa [hwords])]
  refine execute_eq_follow (fun flags => ?_) (fun flags => ?_) ?_
  · rw [hwords, hmap]
    rfl
  · rwa [hmap]
  · rwa [fixed, List.length_map]

end Machine

end Microcomputer
