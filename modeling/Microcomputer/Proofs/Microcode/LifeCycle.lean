import Microcomputer.Microcode.Annotation
import Microcomputer.Proofs.Microcode.Order

/-!
# The life of a builder

A builder takes routines, or refuses them, and is finished, in any order. Until it is finished it holds
the routines that it took; from then on it is closed, and nothing that is done to it changes it any more.
-/

namespace Microcomputer.Microcode

variable {r : Routine} {ps : List Placement} {opcode : UInt8}

/-- What can be done to a builder. -/
inductive BuilderOperation where
  | add (r : Routine)
  | finalize

namespace Builder

variable {b filled : Builder} {operation : BuilderOperation}

/-! ## Operations -/

/-- The builder that an operation leaves, also if it fails. -/
def apply (b : Builder) : BuilderOperation → Builder
  | .add r => (adding r).after b
  | .finalize => finalizing.after b

/-- The builder after operations in order. -/
def operate (b : Builder) (operations : List BuilderOperation) : Builder :=
  operations.foldl apply b

/-- What a builder places in an operation: the routine that it takes, or the routine without an effect at
every opcode that is left. -/
def placed (b : Builder) : BuilderOperation → List Placement
  | .add r =>
    match b.add r with
    | .ok _ => [r.placed]
    | .error _ => []
  | .finalize => b.freeOpcodes.map noOperationAt

/-- What a builder places in operations in order. -/
def placedIn (b : Builder) : List BuilderOperation → List Placement
  | [] => []
  | operation :: operations => b.placed operation ++ (b.apply operation).placedIn operations

theorem apply_add_of_eq_ok (h : b.add r = .ok filled) : b.apply (.add r) = filled :=
  Attempt.after_of_result_eq_ok h

/-- A builder that refuses a routine has written nothing. -/
theorem apply_add_of_eq_error {e : ClaimError} (h : b.add r = .error e) : b.apply (.add r) = b :=
  after_placing_of_error (p := r.placed) h

theorem apply_finalize_of_eq_ok (h : b.finalize = .ok filled) : b.apply .finalize = filled :=
  Attempt.after_of_result_eq_ok h

/-! ## Routines for assigned opcodes -/

theorem assign_of_isAssigned (h : ∀ opcode, b.isAssigned opcode) (opcodes : List UInt8) :
    b.assign opcodes = b := by
  apply eq_of_slot_of_isAssigned
  · intro a
    rfl
  · intro opcode
    rw [h opcode, isAssigned_assign.mpr (.inr (h opcode))]

theorem claims_of_steps_nil (h : r.steps = []) (block : Block) : r.claims block = [] := by
  simp [Routine.claims, h]

/-- A routine without steps claims nothing, so it is taken. -/
theorem add_of_steps_nil (h : ∀ opcode, b.isAssigned opcode) (hr : r.steps = []) : b.add r = .ok b := by
  have hclaims : r.placed.claims = [] := claims_of_steps_nil hr (blockOf r.instruction)
  simp only [result_adding, hclaims, hr, List.length_nil, Nat.not_lt_zero, if_false, List.find?_nil,
    assign_of_isAssigned h]
  rfl

/-! ## Closed builders -/

/-- Every address holds something and every opcode has a routine. -/
structure Closed (b : Builder) : Prop where
  complete : b.isComplete
  assigned : ∀ opcode, b.isAssigned opcode

theorem flags_ne_nil (r : Routine) : r.flags ≠ [] := by
  obtain ⟨i, carry, zero, steps⟩ := r
  cases carry <;> cases zero <;> simp [Routine.flags, Routine.admits, Requirement.admits]

theorem opcodes_blockOf (i : Instruction) : ∃ rest, (blockOf i).opcodes = i.opcode :: rest := by
  have hwidth : ∀ i : Instruction, i.blockWidth ≠ 0 := by
    decide
  obtain ⟨n, hn⟩ := Nat.exists_eq_succ_of_ne_zero (hwidth i)
  simp [Block.opcodes, blockOf, hn, List.range_succ_eq_map]

/-- The first claim is that of the first opcode in the first step. -/
theorem claims_of_steps_ne_nil (h : r.steps ≠ []) : ∃ c rest, r.claims (blockOf r.instruction) = c :: rest ∧
    c.opcode = r.instruction.opcode ∧ c.step = 0 := by
  obtain ⟨opcodes, hopcodes⟩ := opcodes_blockOf r.instruction
  obtain ⟨s, steps, hsteps⟩ := List.exists_cons_of_ne_nil h
  obtain ⟨⟨carry, zero⟩, flags, hflags⟩ := List.exists_cons_of_ne_nil (flags_ne_nil r)
  simp [Routine.claims, hopcodes, hsteps, hflags]

/-- A closed builder refuses every routine that has steps. -/
theorem Closed.add_eq (h : b.Closed) (r : Routine) : b.add r =
    if cycleCount < r.steps.length then .error (.tooManySteps r.instruction.opcode r.steps.length)
    else if r.steps = [] then .ok b
    else .error (.duplicateEntry r.instruction.opcode 0) := by
  by_cases hr : r.steps = []
  · simp [add_of_steps_nil h.assigned hr, hr]
  · obtain ⟨c, rest, hclaims, hopcode, hstep⟩ := claims_of_steps_ne_nil hr
    have hfull : (!(b.slot c.address).isEmpty) = true := by
      cases hslot : (b.slot c.address).isEmpty with
      | false => rfl
      | true => exact absurd (isEmpty_iff.mp hslot) (isComplete_iff.mp h.complete c.address)
    have hfind : (r.placed.claims.find? fun c => !(b.slot c.address).isEmpty) = some c := by
      rw [Placement.claims, Routine.placed, hclaims]
      exact List.find?_cons_of_pos hfull
    simp only [result_adding, hfind, hopcode, hstep, if_neg hr]

theorem Closed.freeOpcodes_eq_nil (h : b.Closed) : b.freeOpcodes = [] :=
  List.eq_nil_iff_forall_not_mem.mpr fun opcode hfree => mem_freeOpcodes.mp hfree (h.assigned opcode)

theorem settle_of_isComplete (h : b.isComplete) : b.settle = b := by
  apply eq_of_slot_of_isAssigned
  · intro a
    rw [slot_settle]
    exact if_neg fun hempty => isComplete_iff.mp h a (isEmpty_iff.mp hempty)
  · intro opcode
    rfl

theorem Closed.finalize_eq (h : b.Closed) : b.finalize = .ok b := by
  rw [result_finalizing, h.freeOpcodes_eq_nil]
  exact congrArg Except.ok (settle_of_isComplete h.complete)

theorem Closed.apply_eq (h : b.Closed) (operation : BuilderOperation) : b.apply operation = b := by
  cases operation with
  | add r =>
    cases hadd : b.add r with
    | error e => exact apply_add_of_eq_error hadd
    | ok b' =>
      rw [apply_add_of_eq_ok hadd]
      rw [h.add_eq] at hadd
      split at hadd
      · cases hadd
      · split at hadd
        · exact (Except.ok.inj hadd).symm
        · cases hadd
  | finalize => exact apply_finalize_of_eq_ok h.finalize_eq

theorem Closed.operate_eq (h : b.Closed) (operations : List BuilderOperation) :
    b.operate operations = b := by
  induction operations with
  | nil => rfl
  | cons operation operations ih =>
    rw [operate, List.foldl_cons, h.apply_eq operation]
    exact ih

/-! ## Stages -/

/-- A builder that holds placements grows until it is finished, and then stays as it is. -/
inductive Stage : Builder → List Placement → Prop where
  | growing {b : Builder} {ps : List Placement} (h : b.Holds ps) : Stage b ps
  | finished {b : Builder} {ps : List Placement} (h : b.Holds ps)
      (assigned : ∀ opcode, b.isAssigned opcode) : Stage b.settle ps

theorem closed_settle (h : ∀ opcode, b.isAssigned opcode) : b.settle.Closed where
  complete := isComplete_settle b
  assigned := h

theorem Holds.finish (h : b.Holds ps) : ∃ filled : Builder, b.finalize = .ok filled.settle ∧
    filled.Holds (ps ++ b.freeOpcodes.map noOperationAt) ∧ ∀ opcode, filled.isAssigned opcode := by
  obtain ⟨filled, hfinal, hf⟩ := h.exists_finalize
  refine ⟨filled, hfinal, hf, fun opcode => (hf.assigned opcode).mpr ?_⟩
  by_cases ho : b.isAssigned opcode
  · obtain ⟨p, hp, hmem⟩ := (h.assigned opcode).mp ho
    exact ⟨p, List.mem_append_left _ hp, hmem⟩
  · have hfree := List.mem_map_of_mem (f := noOperationAt) (mem_freeOpcodes.mpr ho)
    exact ⟨_, List.mem_append_right _ hfree, mem_opcodes_singleton.mpr rfl⟩

theorem Stage.slot_eq_word_iff {a : Control.Address} {e : Entry} (h : b.Stage ps) :
    b.slot a = .word e ↔ ∃ p ∈ ps, ∃ c ∈ p.claims, c.address = a ∧ c.entry = e := by
  cases h with
  | growing h => exact h.slot_eq_word_iff
  | finished h hall => exact slot_settle_eq_word_iff.trans h.slot_eq_word_iff

theorem Stage.exists_finalize (h : b.Stage ps) : ∃ done, b.finalize = .ok done ∧ done.Closed := by
  cases h with
  | growing h =>
    obtain ⟨filled, hfinal, -, hall⟩ := h.finish
    exact ⟨_, hfinal, closed_settle hall⟩
  | finished h hall => exact ⟨_, (closed_settle hall).finalize_eq, closed_settle hall⟩

/-- A routine that a closed builder takes has no steps, so the builder holds it without a change. -/
theorem Stage.add_finished (h : b.Holds ps) (hall : ∀ opcode, b.isAssigned opcode)
    (hadd : b.settle.add r = .ok filled) : b.settle.Stage (ps ++ [r.placed]) := by
  rw [(closed_settle hall).add_eq] at hadd
  split at hadd
  · cases hadd
  · split at hadd
    next hr => exact .finished (h.place (add_of_steps_nil hall hr)) hall
    next => cases hadd

theorem Stage.apply (h : b.Stage ps) (operation : BuilderOperation) :
    (b.apply operation).Stage (ps ++ b.placed operation) := by
  cases h with
  | growing h =>
    cases operation with
    | add r =>
      rw [placed]
      cases hadd : b.add r with
      | ok b' =>
        rw [apply_add_of_eq_ok hadd]
        exact .growing (h.place hadd)
      | error e =>
        rw [apply_add_of_eq_error hadd, List.append_nil]
        exact .growing h
    | finalize =>
      obtain ⟨filled, hfinal, hf, hall⟩ := h.finish
      rw [apply_finalize_of_eq_ok hfinal]
      exact .finished hf hall
  | @finished b _ h hall =>
    have hclosed := closed_settle hall
    rw [hclosed.apply_eq]
    cases operation with
    | add r =>
      rw [placed]
      cases hadd : b.settle.add r with
      | ok b' => exact .add_finished h hall hadd
      | error e => simpa using Stage.finished h hall
    | finalize =>
      rw [placed, hclosed.freeOpcodes_eq_nil]
      simpa using Stage.finished h hall

theorem Stage.operate (h : b.Stage ps) (operations : List BuilderOperation) :
    (b.operate operations).Stage (ps ++ b.placedIn operations) := by
  induction operations generalizing b ps with
  | nil => simpa [Builder.operate, placedIn] using h
  | cons operation operations ih => simpa [Builder.operate, placedIn] using ih (h.apply operation)

theorem stage_operate (operations : List BuilderOperation) :
    (fresh.operate operations).Stage (fresh.placedIn operations) := by
  simpa using Stage.operate (.growing holds_fresh) operations

/-! ## The life cycle -/

/-- Whatever was done to a new builder, it can be finished. From then on every address holds something and
every opcode has a routine, a routine with steps is refused, with more than fit as too long and otherwise
at the first opcode of its block in step 0, and finishing it again gives the same store and listing. -/
theorem exists_finalize_operate (operations : List BuilderOperation) :
    ∃ done, (fresh.operate operations).finalize = .ok done ∧ ∀ later : List BuilderOperation,
      let b := done.operate later
      b.isComplete ∧ (∀ opcode, b.isAssigned opcode) ∧
        (∀ r : Routine, b.add r =
          if cycleCount < r.steps.length then .error (.tooManySteps r.instruction.opcode r.steps.length)
          else if r.steps = [] then .ok b
          else .error (.duplicateEntry r.instruction.opcode 0)) ∧
        ∃ again, b.finalize = .ok again ∧ again.store = done.store ∧ again.listing = done.listing := by
  obtain ⟨done, hdone, hclosed⟩ := (stage_operate operations).exists_finalize
  refine ⟨done, hdone, fun later => ?_⟩
  simp only [hclosed.operate_eq]
  exact ⟨hclosed.complete, hclosed.assigned, hclosed.add_eq, done, hclosed.finalize_eq, rfl, rfl⟩

end Builder

end Microcomputer.Microcode
