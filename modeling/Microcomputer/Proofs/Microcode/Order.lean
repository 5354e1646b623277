import Microcomputer.Microcode.Annotation
import Microcomputer.Proofs.Microcode.Compilation

/-!
# The order of routines

Routines that share no address can be added in any order: the builder that they leave is determined by
what they put where. Whether routines share an address is not a matter of order either, so a row of which
one is refused has a refused one in every order.
-/

namespace Microcomputer.Microcode

open Control (Address)

variable {rs rs' : List Routine} {ps qs : List Placement}

/-! ## Placements -/

theorem pairwise_disjoint_of_perm (h : ps.Perm qs) :
    ps.Pairwise Placement.Disjoint ↔ qs.Pairwise Placement.Disjoint :=
  h.pairwise_iff Placement.Disjoint.symm

theorem slotOf_of_perm (h : ps.Perm qs) (hd : ps.Pairwise Placement.Disjoint) (opcode : UInt8) (cycle : Nat)
    (carry zero : Bool) : slotOf ps opcode cycle carry zero = slotOf qs opcode cycle carry zero := by
  by_cases hcov : ∃ p ∈ ps, p.Covers opcode cycle carry zero
  · obtain ⟨p, hp, hc⟩ := hcov
    obtain ⟨e, he⟩ := Option.isSome_iff_exists.mp (Placement.isSome_entryAt.mpr hc)
    rw [slotOf_eq_word hd hp he, slotOf_eq_word ((pairwise_disjoint_of_perm h).mp hd) (h.mem_iff.mp hp) he]
  · have hps : ∀ p ∈ ps, ¬p.Covers opcode cycle carry zero := fun p hp hc => hcov ⟨p, hp, hc⟩
    have hqs : ∀ q ∈ qs, ¬q.Covers opcode cycle carry zero := fun q hq => hps q (h.mem_iff.mpr hq)
    rw [slotOf_eq_empty_iff.mpr hps, slotOf_eq_empty_iff.mpr hqs]

namespace Builder

variable {b b' : Builder}

theorem eq_of_slot_of_isAssigned (hs : ∀ a, b.slot a = b'.slot a)
    (ha : ∀ opcode, b.isAssigned opcode = b'.isAssigned opcode) : b = b' := by
  have hslots : b.slots = b'.slots := Vector.ext fun i hi => hs ⟨i, hi⟩
  have hassigned : b.assigned = b'.assigned := by
    refine Vector.ext fun i hi => ?_
    have h := ha (.ofNat i)
    have hidx : (opcodeIndex (.ofNat i)).val = i := UInt8.toNat_ofNat_of_lt hi
    simpa only [isAssigned, Fin.getElem_fin, hidx] using h
  cases b
  cases b'
  simp_all

/-- A builder is determined by what it holds, in whatever order. -/
theorem Holds.eq_of_perm (hb : b.Holds ps) (hb' : b'.Holds qs) (h : ps.Perm qs) : b = b' := by
  refine eq_of_slot_of_isAssigned (fun a => ?_) fun opcode => ?_
  · by_cases ha : a.val < 16384
    · obtain ⟨opcode, cycle, carry, zero, hc, rfl⟩ := Control.exists_address ha
      rw [hb.slot _ _ _ _ hc, hb'.slot _ _ _ _ hc, slotOf_of_perm h hb.disjoint]
    · rw [hb.upper a (Nat.le_of_not_lt ha), hb'.upper a (Nat.le_of_not_lt ha)]
  · rw [Bool.eq_iff_iff, hb.assigned, hb'.assigned]
    simp only [h.mem_iff]

end Builder

/-! ## Rows of routines -/

theorem exists_addAll_of_perm (h : rs.Perm rs') :
    (∃ b, Builder.fresh.addAll rs = .ok b) ↔ ∃ b, Builder.fresh.addAll rs' = .ok b := by
  rw [exists_addAll_iff, exists_addAll_iff, pairwise_disjoint_of_perm (h.map _)]
  simp only [h.mem_iff]

theorem addAll_of_perm {b : Builder} (h : rs.Perm rs') (hb : Builder.fresh.addAll rs = .ok b) :
    Builder.fresh.addAll rs' = .ok b := by
  obtain ⟨b', hb'⟩ := (exists_addAll_of_perm h).mp ⟨b, hb⟩
  rw [hb', (holds_of_addAll hb).eq_of_perm (holds_of_addAll hb') (h.map _)]

/-- The routines of a row that a builder refuses, each after those before it that it accepts. -/
def Builder.refused (b : Builder) : List Routine → List Routine
  | [] => []
  | r :: rs =>
    let later := ((adding r).after b).refused rs
    match b.add r with
    | .ok _ => later
    | .error _ => r :: later

theorem Builder.refused_eq_nil_iff (b : Builder) (rs : List Routine) :
    b.refused rs = [] ↔ ∃ b', b.addAll rs = .ok b' := by
  induction rs generalizing b with
  | nil => exact ⟨fun _ => ⟨b, rfl⟩, fun _ => rfl⟩
  | cons r rs ih =>
    cases hr : b.add r with
    | error e =>
      have hall : b.addAll (r :: rs) = .error e := by
        rw [addAll_cons, hr]
        rfl
      simp [refused, hr, hall]
    | ok b' =>
      have hall : b.addAll (r :: rs) = b'.addAll rs := by
        rw [addAll_cons, hr]
        rfl
      simp only [refused, hr, hall, Attempt.after_of_result_eq_ok hr, ih]

/-- The order of routines makes no difference: to whether all are accepted, and then to the opcodes they
are given, to the store and to the listings. -/
theorem generate_of_perm (h : rs.Perm rs') :
    (∀ b, Builder.fresh.addAll rs = .ok b → ∃ b' done done',
      Builder.fresh.addAll rs' = .ok b' ∧ (∀ opcode, b'.isAssigned opcode = b.isAssigned opcode) ∧
        b'.listing = b.listing ∧ b.finalize = .ok done ∧ b'.finalize = .ok done' ∧
        done'.store = done.store ∧ done'.listing = done.listing) ∧
    (Builder.fresh.refused rs ≠ [] → Builder.fresh.refused rs' ≠ []) := by
  constructor
  · intro b hb
    obtain ⟨filled, hdone, -⟩ := (holds_of_addAll hb).exists_finalize
    exact ⟨b, filled.settle, filled.settle, addAll_of_perm h hb, fun _ => rfl, rfl, hdone, hdone, rfl, rfl⟩
  · rw [Ne, Ne, Builder.refused_eq_nil_iff, Builder.refused_eq_nil_iff, exists_addAll_of_perm h]
    exact id

/-- Two variants of one instruction and an instruction without steps; a variant twice is refused. -/
theorem generate_of_perm_reverse :
    let row := { instruction := .halt } ::
      perCarry .incCarry fun carry => linesFrom 5 [fetch, .arith .abxy .ab .a carry]
    (∃ b b' done done', Builder.fresh.addAll row = .ok b ∧ Builder.fresh.addAll row.reverse = .ok b' ∧
      (∀ opcode, b'.isAssigned opcode = b.isAssigned opcode) ∧ b'.listing = b.listing ∧
      b.finalize = .ok done ∧ b'.finalize = .ok done' ∧ done'.store = done.store ∧
      done'.listing = done.listing) ∧
    Builder.fresh.refused (row ++ row).reverse ≠ [] := by
  intro row
  have hok : ∃ b, Builder.fresh.addAll row = .ok b := by
    refine exists_addAll_iff.mpr ⟨by decide, List.pairwise_map.mpr ?_⟩
    exact List.Pairwise.imp disjoint_placed (by decide)
  have hrefused : Builder.fresh.refused (row ++ row) ≠ [] := by
    rw [Ne, Builder.refused_eq_nil_iff, exists_addAll_iff]
    intro ⟨_, hd⟩
    rw [List.map_append, List.pairwise_append] at hd
    have hmem : row[1].placed ∈ row.map Routine.placed := List.mem_map_of_mem (List.getElem_mem _)
    exact hd.2.2 _ hmem _ hmem 0x84 0 false false (by decide) (by decide)
  obtain ⟨b, hb⟩ := hok
  obtain ⟨b', done, done', h⟩ := (generate_of_perm (List.reverse_perm row).symm).1 b hb
  exact ⟨⟨b, b', done, done', hb, h⟩,
    (generate_of_perm (List.reverse_perm (row ++ row)).symm).2 hrefused⟩

end Microcomputer.Microcode
