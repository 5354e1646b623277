import Microcomputer.Proofs.Microcode.LifeCycle

/-!
# What a builder takes

A builder takes a routine exactly if it has no more steps than fit and all of its addresses are empty. Then it
holds the words of the routine there and has the opcodes of the block assigned, and nothing else has changed. A
routine that is refused changes nothing, and the error names the first opcode and step whose address is taken.
-/

namespace Microcomputer.Microcode

variable {r : Routine}

/-! ## The order of claims -/

/-- A claim comes before another by opcode, or by step at one opcode, or both are for one step. -/
def Claim.Precedes (c d : Claim) : Prop :=
  c.opcode < d.opcode ∨ c.opcode = d.opcode ∧ c.step ≤ d.step

theorem pairwise_opcodes_blockOf (i : Instruction) : (blockOf i).opcodes.Pairwise (· < ·) := by
  have hle := i.block_le
  rw [Block.opcodes, List.pairwise_map]
  refine List.pairwise_lt_range.imp_of_mem fun {m n} hm hn hlt => ?_
  simp only [List.mem_range, blockOf] at hm hn ⊢
  simp only [UInt8.lt_iff_toNat_lt, UInt8.toNat_add, UInt8.toNat_ofNat']
  omega

theorem pairwise_zipIdx (steps : List Step) : steps.zipIdx.Pairwise fun x y => x.2 < y.2 := by
  rw [← List.pairwise_map (f := Prod.snd) (R := (· < ·)), List.zipIdx_map_snd]
  exact List.pairwise_lt_range'

/-- The claims of a routine are in order. -/
theorem pairwise_claims (r : Routine) : r.placed.claims.Pairwise Claim.Precedes := by
  rw [Placement.claims, Routine.claims, List.pairwise_flatMap]
  constructor
  · intro opcode _
    rw [List.pairwise_flatMap]
    constructor
    · intro x _
      rw [List.pairwise_map]
      exact List.pairwise_of_forall fun _ _ => .inr ⟨rfl, Nat.le_refl _⟩
    · refine (pairwise_zipIdx r.steps).imp fun {x y} hlt c hc d hd => ?_
      obtain ⟨_, -, rfl⟩ := List.mem_map.mp hc
      obtain ⟨_, -, rfl⟩ := List.mem_map.mp hd
      exact .inr ⟨rfl, Nat.le_of_lt hlt⟩
  · refine (pairwise_opcodes_blockOf r.instruction).imp fun {o o'} hlt c hc d hd => ?_
    obtain ⟨_, -, hc⟩ := List.mem_flatMap.mp hc
    obtain ⟨_, -, hd⟩ := List.mem_flatMap.mp hd
    obtain ⟨_, -, rfl⟩ := List.mem_map.mp hc
    obtain ⟨_, -, rfl⟩ := List.mem_map.mp hd
    exact .inl hlt

namespace Builder

variable {b b' : Builder} {e : ClaimError} {opcode : UInt8} {step : Nat} {carry zero : Bool}

/-! ## Collisions -/

/-- An address of the routine at an opcode in a step is taken. -/
def Collides (b : Builder) (r : Routine) (opcode : UInt8) (step : Nat) : Prop :=
  ∃ carry zero, r.covers opcode step carry zero ∧ ¬b.Free opcode step carry zero

theorem collides_iff : b.Collides r opcode step ↔
    ∃ c ∈ r.placed.claims, c.opcode = opcode ∧ c.step = step ∧ b.slot c.address ≠ .empty := by
  constructor
  · rintro ⟨carry, zero, hcov, hfull⟩
    obtain ⟨entry, hentry⟩ := Option.isSome_iff_exists.mp (Placement.isSome_entryAt.mpr (covers_placed.mpr hcov))
    exact ⟨⟨opcode, step, _, entry⟩, Placement.mem_claims.mpr ⟨carry, zero, hentry, rfl⟩, rfl, rfl, hfull⟩
  · rintro ⟨c, hc, rfl, rfl, hfull⟩
    obtain ⟨carry, zero, hentry, haddress⟩ := Placement.mem_claims.mp hc
    have hcov := (Placement.entryAt_eq_some_iff.mp hentry).1
    rw [haddress] at hfull
    exact ⟨carry, zero, covers_placed.mp hcov, hfull⟩

/-- The first claim that is not free is the first collision. -/
theorem collides_of_find? {c : Claim}
    (h : (r.placed.claims.find? fun c => !(b.slot c.address).isEmpty) = some c) :
    b.Collides r c.opcode c.step ∧ ∀ opcode step, b.Collides r opcode step →
      c.opcode < opcode ∨ c.opcode = opcode ∧ c.step ≤ step := by
  obtain ⟨hfull, before, after, hclaims, hbefore⟩ := List.find?_eq_some_iff_append.mp h
  simp only [Bool.not_eq_true', ← Bool.not_eq_true, isEmpty_iff] at hfull
  simp only [Bool.not_not, isEmpty_iff] at hbefore
  have hpair := pairwise_claims r
  have hmem : c ∈ r.placed.claims := by simp [hclaims]
  refine ⟨collides_iff.mpr ⟨c, hmem, rfl, rfl, hfull⟩, fun opcode step hcol => ?_⟩
  obtain ⟨d, hd, rfl, rfl, htaken⟩ := collides_iff.mp hcol
  rw [hclaims, List.pairwise_append, List.pairwise_cons] at hpair
  rw [hclaims, List.mem_append, List.mem_cons] at hd
  rcases hd with hd | rfl | hd
  · exact absurd (hbefore d hd) htaken
  · exact .inr ⟨rfl, Nat.le_refl _⟩
  · exact hpair.2.1.1 d hd

/-! ## Taking a routine -/

theorem add_eq_ok_iff : b.add r = .ok b' ↔ r.steps.length ≤ cycleCount ∧
    (∀ opcode step carry zero, r.covers opcode step carry zero → b.Free opcode step carry zero) ∧
      b' = (b.assign r.placed.block.opcodes).write r.placed.claims := by
  simp only [← covers_placed]
  exact place_eq_ok_iff (p := r.placed)

theorem slot_of_add (h : b.add r = .ok b') (hcov : r.covers opcode step carry zero) :
    ∃ s, r.steps[step]? = some s ∧ b'.slot (Control.address opcode (.ofNat step) carry zero) =
      .word { word := s.word, instruction := r.instruction, step, origin := s.origin } := by
  obtain ⟨s, hs, hentry⟩ := entryAt_placed_of_covers hcov
  have hlt := (covers_placed.mpr hcov).lt (add_eq_ok_iff.mp h).1
  rw [← place_placed] at h
  refine ⟨s, hs, ?_⟩
  rw [slot_of_place h hlt, hentry]
  rfl

theorem slot_of_add_of_ne (h : b.add r = .ok b') {a : Control.Address}
    (ha : ∀ opcode step carry zero, r.covers opcode step carry zero →
      Control.address opcode (.ofNat step) carry zero ≠ a) : b'.slot a = b.slot a := by
  obtain ⟨-, -, rfl⟩ := add_eq_ok_iff.mp h
  refine slot_write_of_notMem fun c hc heq => ?_
  obtain ⟨carry, zero, hentry, haddress⟩ := Placement.mem_claims.mp hc
  have hcov := covers_placed.mp (Placement.entryAt_eq_some_iff.mp hentry).1
  exact ha c.opcode c.step carry zero hcov (haddress.symm.trans heq)

/-! ## Refusing a routine -/

theorem add_eq_error (h : b.add r = .error e) :
    if cycleCount < r.steps.length then e = .tooManySteps r.instruction.opcode r.steps.length
    else ∃ opcode step, e = .duplicateEntry opcode step ∧ b.Collides r opcode step ∧
      ∀ opcode' step', b.Collides r opcode' step' → opcode < opcode' ∨ opcode = opcode' ∧ step ≤ step' := by
  rw [result_adding] at h
  by_cases hlong : cycleCount < r.steps.length
  · rw [if_pos hlong] at h ⊢
    exact (Except.error.inj h).symm
  · rw [if_neg hlong] at h ⊢
    split at h
    next c hfind =>
      obtain ⟨hcol, hfirst⟩ := collides_of_find? hfind
      exact ⟨c.opcode, c.step, (Except.error.inj h).symm, hcol, hfirst⟩
    next => cases h

theorem run_adding_eq_error {rest : Builder} (h : (adding r).run b = .error e rest) :
    b.add r = .error e ∧ rest = b := by
  have hadd : b.add r = .error e := Attempt.result_eq_error_iff.mpr ⟨rest, h⟩
  have hafter := apply_add_of_eq_error hadd
  rw [apply, Attempt.after, h] at hafter
  exact ⟨hadd, hafter⟩

/-- A routine is taken exactly if it is not too long and every address of its block, its steps and the flags
that it admits is empty. These addresses then hold its words, the opcodes of the block are assigned, and the
rest is as before. If it is refused, the builder that is left is as before, and the error gives the length if
that is too much, and else the first opcode, and there the first step, with an address that is taken. -/
theorem add_takes_or_refuses (b : Builder) (r : Routine) :
    ((∃ b', (adding r).run b = .ok () b') ↔ r.steps.length ≤ cycleCount ∧
      ∀ opcode step carry zero, r.covers opcode step carry zero → b.Free opcode step carry zero) ∧
    (∀ b', (adding r).run b = .ok () b' →
      (∀ opcode step carry zero, r.covers opcode step carry zero → ∃ s, r.steps[step]? = some s ∧
        b'.slot (Control.address opcode (.ofNat step) carry zero) =
          .word { word := s.word, instruction := r.instruction, step, origin := s.origin }) ∧
      (∀ a, (∀ opcode step carry zero, r.covers opcode step carry zero →
        Control.address opcode (.ofNat step) carry zero ≠ a) → b'.slot a = b.slot a) ∧
      ∀ opcode, b'.isAssigned opcode ↔ r.instruction.owns opcode ∨ b.isAssigned opcode) ∧
    ∀ e rest, (adding r).run b = .error e rest → rest = b ∧
      if cycleCount < r.steps.length then e = .tooManySteps r.instruction.opcode r.steps.length
      else ∃ opcode step, e = .duplicateEntry opcode step ∧ b.Collides r opcode step ∧
        ∀ opcode' step', b.Collides r opcode' step' →
          opcode < opcode' ∨ opcode = opcode' ∧ step ≤ step' := by
  refine ⟨?accepted, ?taken, ?refused⟩
  case accepted =>
    constructor
    · rintro ⟨b', hrun⟩
      obtain ⟨hfits, hfree, -⟩ := add_eq_ok_iff.mp (Attempt.result_eq_ok_iff.mpr hrun)
      exact ⟨hfits, hfree⟩
    · rintro ⟨hfits, hfree⟩
      exact ⟨_, Attempt.result_eq_ok_iff.mp (add_eq_ok_iff.mpr ⟨hfits, hfree, rfl⟩)⟩
  case taken =>
    intro b' hrun
    have hadd : b.add r = .ok b' := Attempt.result_eq_ok_iff.mpr hrun
    refine ⟨fun opcode step carry zero => slot_of_add hadd, fun a => slot_of_add_of_ne hadd, fun opcode => ?_⟩
    rw [← place_placed] at hadd
    rw [isAssigned_of_place hadd, Routine.placed, mem_opcodes_blockOf]
  case refused =>
    intro e rest hrun
    obtain ⟨hadd, hrest⟩ := run_adding_eq_error hrun
    exact ⟨hrest, add_eq_error hadd⟩

/-- One variant of an instruction is taken, and the routine for all flags is then refused at the first opcode in
step 0. -/
theorem add_takes_or_refuses_incCarry :
    let variant : Routine :=
      { instruction := .incCarry, carry := .disable, steps := [⟨fetch, "steps", 1⟩, ⟨advance, "steps", 2⟩] }
    let whole : Routine := { instruction := .incCarry, steps := [⟨fetch, "steps", 3⟩] }
    ∃ b, (adding variant).run fresh = .ok () b ∧
      b.slot (Control.address 0x87 (.ofNat 1) false true) = .word ⟨advance, .incCarry, 1, "steps", 2⟩ ∧
      b.slot (Control.address 0x87 (.ofNat 1) true true) = .empty ∧ b.isAssigned 0x87 ∧ ¬b.isAssigned 0x88 ∧
      (adding whole).run b = .error (.duplicateEntry 0x84 0) b := by
  intro variant whole
  have hfree : ∀ opcode step carry zero, variant.covers opcode step carry zero →
      fresh.Free opcode step carry zero := fun _ _ _ _ _ => by simp [Free, slot, fresh]
  obtain ⟨b, hb⟩ := (add_takes_or_refuses fresh variant).1.mpr ⟨by decide, hfree⟩
  obtain ⟨htaken, hrest, hassigned⟩ := (add_takes_or_refuses fresh variant).2.1 b hb
  have hslot : b.slot (Control.address 0x84 (.ofNat 0) false false) = .word ⟨fetch, .incCarry, 0, "steps", 1⟩ := by
    obtain ⟨s, hs, hword⟩ := htaken 0x84 0 false false (by decide)
    cases hs
    exact hword
  have hfull : ¬b.Free 0x84 0 false false := by
    rw [Free, hslot]
    exact Slot.noConfusion
  have hwhole : (adding whole).run b = .error (.duplicateEntry 0x84 0) b := by
    cases hrun : (adding whole).run b with
    | ok _ b' =>
      have hempty := (add_takes_or_refuses b whole).1.mp ⟨b', hrun⟩
      exact absurd (hempty.2 0x84 0 false false (by decide)) hfull
    | error e rest =>
      obtain ⟨rfl, herror⟩ := (add_takes_or_refuses b whole).2.2 e rest hrun
      rw [if_neg (by decide)] at herror
      obtain ⟨opcode, step, rfl, ⟨carry, zero, hcov, -⟩, hfirst⟩ := herror
      obtain ⟨rfl, rfl⟩ : opcode = 0x84 ∧ step = 0 := by
        simp only [Routine.covers, Bool.and_eq_true, Instruction.owns_iff] at hcov
        have hle : 0x84 ≤ opcode.toNat := hcov.1.1.1
        rcases hfirst 0x84 0 ⟨false, false, by decide, hfull⟩ with hlt | ⟨rfl, hstep⟩
        · exact absurd (UInt8.lt_iff_toNat_lt.mp hlt) (Nat.not_lt.mpr hle)
        · exact ⟨rfl, Nat.le_zero.mp hstep⟩
      rfl
  refine ⟨b, hb, ?_, ?_, (hassigned 0x87).mpr (.inl (by decide)), ?_, hwhole⟩
  · obtain ⟨s, hs, hword⟩ := htaken 0x87 1 false true (by decide)
    cases hs
    exact hword
  · rw [hrest]
    · simp [slot, fresh]
    · intro opcode step carry zero hcov heq
      have hlt := (covers_placed.mpr hcov).lt (show variant.placed.Fits by decide)
      obtain ⟨-, -, rfl, -⟩ := Control.address_ofNat_inj hlt (by decide) heq
      simp [Routine.covers, Routine.admits, Requirement.admits, variant] at hcov
  · rw [hassigned]
    decide

end Builder

end Microcomputer.Microcode
