import Microcomputer.Proofs.Instruction.Blocks
import Microcomputer.Proofs.Microcode.Claims
import Microcomputer.Proofs.Outcome

/-!
# Compiling routines

A builder that accepts a row of routines holds exactly their words. Finishing it gives the routine
without an effect to the opcodes that are left, so the store is known at every address: the word of the
one routine that covers it, or else what an opcode without a routine gets, or else the idle word.
-/

namespace Microcomputer.Microcode

open Control (Word Address Store)
open Instruction

/-! ## Rows of placements -/

/-- What a row of placements puts at the address of an opcode, a cycle and flags. -/
def slotOf (ps : List Placement) (opcode : UInt8) (cycle : Nat) (carry zero : Bool) : Slot :=
  ((ps.findSome? fun p => p.entryAt opcode cycle carry zero).map Slot.word).getD .empty

section

variable {ps : List Placement} {p : Placement} {opcode : UInt8} {cycle : Nat} {carry zero : Bool}

theorem findSome?_entryAt_eq_none_iff :
    (ps.findSome? fun p => p.entryAt opcode cycle carry zero) = none ↔
      ∀ p ∈ ps, ¬p.Covers opcode cycle carry zero := by
  simp only [List.findSome?_eq_none_iff, ← Placement.isSome_entryAt, Option.not_isSome_iff_eq_none]

theorem slotOf_eq_empty_iff :
    slotOf ps opcode cycle carry zero = .empty ↔ ∀ p ∈ ps, ¬p.Covers opcode cycle carry zero := by
  rw [← findSome?_entryAt_eq_none_iff, slotOf]
  cases ps.findSome? fun p => p.entryAt opcode cycle carry zero <;> simp

/-- In a row without common addresses the one placement that covers an address has its entry there. -/
theorem slotOf_eq_word {e : Entry} (hd : ps.Pairwise Placement.Disjoint) (hp : p ∈ ps)
    (he : p.entryAt opcode cycle carry zero = some e) : slotOf ps opcode cycle carry zero = .word e := by
  induction ps with
  | nil => simp at hp
  | cons q ps ih =>
    obtain ⟨hq, hd⟩ := List.pairwise_cons.mp hd
    rcases List.mem_cons.mp hp with rfl | hp
    · simp [slotOf, he]
    · have hcov := (Placement.entryAt_eq_some_iff.mp he).1
      have hnone : q.entryAt opcode cycle carry zero = none := by
        rw [← Option.not_isSome_iff_eq_none, Placement.isSome_entryAt]
        exact fun hcq => hq p hp _ _ _ _ hcq hcov
      simpa [slotOf, hnone] using ih hd hp

theorem exists_entryAt_of_slotOf {e : Entry} (h : slotOf ps opcode cycle carry zero = .word e) :
    ∃ p ∈ ps, p.entryAt opcode cycle carry zero = some e := by
  cases hfirst : ps.findSome? fun p => p.entryAt opcode cycle carry zero with
  | none => simp [slotOf, hfirst] at h
  | some d =>
    simp only [slotOf, hfirst, Option.map_some, Option.getD_some, Slot.word.injEq] at h
    subst h
    exact List.exists_of_findSome?_eq_some hfirst

theorem slotOf_concat (h : p.Covers opcode cycle carry zero → slotOf ps opcode cycle carry zero = .empty) :
    slotOf (ps ++ [p]) opcode cycle carry zero =
      ((p.entryAt opcode cycle carry zero).map Slot.word).getD (slotOf ps opcode cycle carry zero) := by
  rw [slotOf, List.findSome?_append, List.findSome?_singleton]
  cases he : p.entryAt opcode cycle carry zero with
  | none => simp [slotOf]
  | some e =>
    have hc : p.Covers opcode cycle carry zero := Placement.isSome_entryAt.mp (by simp [he])
    rw [findSome?_entryAt_eq_none_iff.mpr (slotOf_eq_empty_iff.mp (h hc))]
    rfl

/-- The routine without an effect at one opcode. -/
def noOperationAt (opcode : UInt8) : Placement where
  block := { first := opcode, width := 1 }
  routine := noOperation

theorem covers_noOperationAt {o : UInt8} :
    (noOperationAt o).Covers opcode cycle carry zero ↔ opcode = o ∧ cycle < 2 := by
  have hadmits : noOperation.admits carry zero = true := rfl
  have hlength : noOperation.steps.length = 2 := rfl
  simp only [Placement.Covers, noOperationAt, mem_opcodes_singleton, hadmits, hlength, true_and]

theorem word_entryAt_noOperationAt (opcode : UInt8) (cycle : Nat) (carry zero : Bool) :
    ((noOperationAt opcode).entryAt opcode cycle carry zero).map Entry.word =
      (noOperation.steps[cycle]?).map Step.word := by
  have hadmits : noOperation.admits carry zero = true := rfl
  simp [Placement.entryAt, noOperationAt, mem_opcodes_singleton, hadmits, Function.comp_def]

end

namespace Builder

variable {b b' : Builder} {p : Placement} {ps qs : List Placement} {opcode : UInt8} {cycle : Nat}
  {carry zero : Bool}

/-- A builder holds a row of placements and nothing else. -/
structure Holds (b : Builder) (ps : List Placement) : Prop where
  fits : ∀ p ∈ ps, p.Fits
  disjoint : ps.Pairwise Placement.Disjoint
  slot : ∀ opcode cycle carry zero, cycle < cycleCount →
    b.slot (Control.address opcode (.ofNat cycle) carry zero) = slotOf ps opcode cycle carry zero
  upper : ∀ a : Address, 16384 ≤ a.val → b.slot a = .empty
  assigned : ∀ opcode, b.isAssigned opcode ↔ ∃ p ∈ ps, opcode ∈ p.block.opcodes

theorem holds_fresh : fresh.Holds [] where
  fits := by simp
  disjoint := .nil
  slot opcode cycle carry zero _ := by simp [fresh, Builder.slot, slotOf]
  upper a _ := by simp [fresh, Builder.slot]
  assigned opcode := by simp [fresh, isAssigned]

theorem Holds.free_iff (h : b.Holds ps) (hc : cycle < cycleCount) :
    b.Free opcode cycle carry zero ↔ ∀ p ∈ ps, ¬p.Covers opcode cycle carry zero := by
  rw [Free, h.slot opcode cycle carry zero hc, slotOf_eq_empty_iff]

theorem Holds.slot_eq_word_iff {a : Address} {e : Entry} (h : b.Holds ps) :
    b.slot a = .word e ↔ ∃ p ∈ ps, ∃ c ∈ p.claims, c.address = a ∧ c.entry = e := by
  constructor
  · intro hslot
    have hlt : a.val < 16384 := by
      by_contra hle
      rw [h.upper a (Nat.le_of_not_lt hle)] at hslot
      cases hslot
    obtain ⟨opcode, cycle, carry, zero, hcycle, rfl⟩ := Control.exists_address hlt
    rw [h.slot opcode cycle carry zero hcycle] at hslot
    obtain ⟨p, hp, hentry⟩ := exists_entryAt_of_slotOf hslot
    exact ⟨p, hp, ⟨opcode, cycle, _, e⟩, Placement.mem_claims.mpr ⟨carry, zero, hentry, rfl⟩, rfl, rfl⟩
  · rintro ⟨p, hp, c, hc, rfl, rfl⟩
    obtain ⟨carry, zero, hentry, haddress⟩ := Placement.mem_claims.mp hc
    have hlt := (Placement.entryAt_eq_some_iff.mp hentry).1.lt (h.fits p hp)
    rw [haddress, h.slot c.opcode c.step carry zero hlt]
    exact slotOf_eq_word h.disjoint hp hentry

theorem Holds.exists_place_iff (h : b.Holds ps) :
    (∃ b', b.place p = .ok b') ↔ p.Fits ∧ ∀ q ∈ ps, q.Disjoint p := by
  constructor
  · rintro ⟨b', hb'⟩
    obtain ⟨hfits, hfree, -⟩ := place_eq_ok_iff.mp hb'
    refine ⟨hfits, fun q hq opcode cycle carry zero hcq hcp => ?_⟩
    exact (h.free_iff (hcp.lt hfits)).mp (hfree opcode cycle carry zero hcp) q hq hcq
  · rintro ⟨hfits, hdisj⟩
    refine ⟨_, place_eq_ok_iff.mpr ⟨hfits, fun opcode cycle carry zero hcp => ?_, rfl⟩⟩
    exact (h.free_iff (hcp.lt hfits)).mpr fun q hq hcq => hdisj q hq opcode cycle carry zero hcq hcp

theorem Holds.place (h : b.Holds ps) (hp : b.place p = .ok b') : b'.Holds (ps ++ [p]) := by
  obtain ⟨hfit, hdisj⟩ := h.exists_place_iff.mp ⟨b', hp⟩
  constructor
  case fits => simpa [or_imp, forall_and] using ⟨h.fits, hfit⟩
  case disjoint => simpa [List.pairwise_append] using ⟨h.disjoint, hdisj⟩
  case slot =>
    intro opcode cycle carry zero hc
    obtain ⟨-, hfree, -⟩ := place_eq_ok_iff.mp hp
    rw [slot_of_place hp hc, h.slot opcode cycle carry zero hc, slotOf_concat]
    intro hcov
    rw [← h.slot opcode cycle carry zero hc]
    exact hfree opcode cycle carry zero hcov
  case upper =>
    intro a ha
    rw [slot_of_place_of_le hp ha, h.upper a ha]
  case assigned =>
    intro opcode
    rw [isAssigned_of_place hp, h.assigned]
    simp only [List.mem_append, List.mem_singleton]
    grind

/-! ## Placing in a row -/

/-- The builder with placements in order. -/
def placeAll (b : Builder) (ps : List Placement) : Except ClaimError Builder :=
  ps.foldlM Builder.place b

theorem Holds.placeAll (h : b.Holds ps) (hq : b.placeAll qs = .ok b') : b'.Holds (ps ++ qs) := by
  induction qs generalizing b ps with
  | nil =>
    cases hq
    simpa using h
  | cons q qs ih =>
    obtain ⟨b₁, hb₁, hrest⟩ := foldlM_cons_eq_ok_iff.mp hq
    simpa using ih (h.place hb₁) hrest

/-- A row of placements is accepted exactly if each of them fits and no two share an address. -/
theorem Holds.exists_placeAll_iff (h : b.Holds ps) : (∃ b', b.placeAll qs = .ok b') ↔
    (∀ q ∈ qs, q.Fits) ∧ (∀ p ∈ ps, ∀ q ∈ qs, p.Disjoint q) ∧ qs.Pairwise Placement.Disjoint := by
  induction qs generalizing b ps with
  | nil => simp [Builder.placeAll, pure, Except.pure]
  | cons q qs ih =>
    have hcons : (∃ b', b.placeAll (q :: qs) = .ok b') ↔
        ∃ b₁, b.place q = .ok b₁ ∧ ∃ b', b₁.placeAll qs = .ok b' := by
      simp only [Builder.placeAll, foldlM_cons_eq_ok_iff]
      exact ⟨fun ⟨b', b₁, h₁, h'⟩ => ⟨b₁, h₁, b', h'⟩, fun ⟨b₁, h₁, b', h'⟩ => ⟨b', b₁, h₁, h'⟩⟩
    rw [hcons, List.pairwise_cons]
    constructor
    · rintro ⟨b₁, hb₁, hrest⟩
      obtain ⟨hfit, hdisj⟩ := h.exists_place_iff.mp ⟨b₁, hb₁⟩
      obtain ⟨hfits, hdisjs, hpair⟩ := (ih (h.place hb₁)).mp hrest
      simp only [List.mem_append, List.mem_singleton] at hdisjs
      refine ⟨?_, ?_, fun r hr => hdisjs q (.inr rfl) r hr, hpair⟩
      · exact List.forall_mem_cons.mpr ⟨hfit, hfits⟩
      · exact fun p hp => List.forall_mem_cons.mpr ⟨hdisj p hp, hdisjs p (.inl hp)⟩
    · rintro ⟨hfits, hdisj, hq, hpair⟩
      obtain ⟨b₁, hb₁⟩ := h.exists_place_iff.mpr ⟨hfits q (by simp), fun p hp => hdisj p hp q (by simp)⟩
      refine ⟨b₁, hb₁, (ih (h.place hb₁)).mpr ⟨fun r hr => hfits r (by simp [hr]), ?_, hpair⟩⟩
      intro p hp r hr
      rcases List.mem_append.mp hp with hp | hp
      · exact hdisj p hp r (by simp [hr])
      · rw [List.mem_singleton.mp hp]
        exact hq r hr

/-! ## Finishing -/

theorem mem_freeOpcodes : opcode ∈ b.freeOpcodes ↔ ¬b.isAssigned opcode := by
  simp only [freeOpcodes, List.mem_filter, List.mem_map, List.mem_range, opcodeCount]
  constructor
  · rintro ⟨-, h⟩
    simpa using h
  · intro h
    exact ⟨⟨opcode.toNat, opcode.toNat_lt, UInt8.ofNat_toNat⟩, by simpa using h⟩

theorem freeOpcodes_nodup (b : Builder) : b.freeOpcodes.Nodup := by
  have hall : ((List.range opcodeCount).map UInt8.ofNat).Nodup := by
    rw [List.Nodup, List.pairwise_map]
    refine List.nodup_range.imp_of_mem fun {m n} hm hn hne he => hne ?_
    simp only [List.mem_range, opcodeCount] at hm hn
    have hv := congrArg UInt8.toNat he
    simp only [UInt8.toNat_ofNat'] at hv
    omega
  exact hall.filter _

theorem result_filling (b : Builder) :
    filling.result b = b.placeAll (b.freeOpcodes.map noOperationAt) := by
  have hall : filling.result b =
      Attempt.result (forM b.freeOpcodes fun opcode => placing (noOperationAt opcode)) b := rfl
  rw [hall, Attempt.result_forM, placeAll, List.foldlM_map]
  rfl

theorem result_finalizing (b : Builder) :
    b.finalize = b.placeAll (b.freeOpcodes.map noOperationAt) >>= fun filled => .ok filled.settle := by
  rw [finalize, finalizing, Attempt.result_bind, result_filling]
  exact bind_congr fun filled => Attempt.result_modify settle filled

theorem Holds.exists_placeAll_noOperationAt (h : b.Holds ps) :
    ∃ b', b.placeAll (b.freeOpcodes.map noOperationAt) = .ok b' ∧
      b'.Holds (ps ++ b.freeOpcodes.map noOperationAt) := by
  have hok : ∃ b', b.placeAll (b.freeOpcodes.map noOperationAt) = .ok b' := by
    refine h.exists_placeAll_iff.mpr ⟨?_, ?_, ?_⟩
    · simp only [List.forall_mem_map]
      exact fun o _ => show 2 ≤ cycleCount by decide
    · simp only [List.forall_mem_map]
      intro p hp o ho opcode cycle carry zero hcp hco
      obtain ⟨rfl, -⟩ := covers_noOperationAt.mp hco
      exact mem_freeOpcodes.mp ho ((h.assigned opcode).mpr ⟨p, hp, hcp.1⟩)
    · rw [List.pairwise_map]
      refine b.freeOpcodes_nodup.imp fun hne opcode cycle carry zero hc hc' => hne ?_
      rw [← (covers_noOperationAt.mp hc).1, ← (covers_noOperationAt.mp hc').1]
  obtain ⟨b', hb'⟩ := hok
  exact ⟨b', hb', h.placeAll hb'⟩

theorem slot_settle (a : Address) :
    b.settle.slot a = if (b.slot a).isEmpty then .idle else b.slot a := by
  simp only [Builder.slot, settle, Fin.getElem_fin, Vector.getElem_map]
  rfl

theorem slot_settle_eq_word_iff {a : Address} {e : Entry} :
    b.settle.slot a = .word e ↔ b.slot a = .word e := by
  rw [slot_settle]
  cases b.slot a <;> simp [Slot.isEmpty]

@[simp] theorem isAssigned_settle : b.settle.isAssigned opcode = b.isAssigned opcode := rfl

theorem isComplete_iff : b.isComplete ↔ ∀ a, b.slot a ≠ .empty := by
  simp only [isComplete, Vector.all_eq_true, Bool.not_eq_true', ← Bool.not_eq_true, isEmpty_iff]
  exact ⟨fun h a => h a.val a.isLt, fun h i hi => h ⟨i, hi⟩⟩

theorem isComplete_settle (b : Builder) : b.settle.isComplete := by
  refine isComplete_iff.mpr fun a => ?_
  rw [slot_settle]
  split
  next => simp
  next h => exact fun he => h (isEmpty_iff.mpr he)

theorem Holds.slot_settle_of_mem {e : Entry} (h : b.Holds ps) (hc : cycle < cycleCount) (hp : p ∈ ps)
    (he : p.entryAt opcode cycle carry zero = some e) :
    b.settle.slot (Control.address opcode (.ofNat cycle) carry zero) = .word e := by
  rw [slot_settle, h.slot opcode cycle carry zero hc, slotOf_eq_word h.disjoint hp he]
  rfl

theorem Holds.slot_settle_of_not_covers (h : b.Holds ps) (hc : cycle < cycleCount)
    (hn : ∀ p ∈ ps, ¬p.Covers opcode cycle carry zero) :
    b.settle.slot (Control.address opcode (.ofNat cycle) carry zero) = .idle := by
  rw [slot_settle, h.slot opcode cycle carry zero hc, slotOf_eq_empty_iff.mpr hn]
  rfl

theorem word_store (a : Address) : b.store.word a = (b.slot a).control := by
  simp only [Store.word, store, Fin.getElem_fin, Vector.getElem_map, Word.ofBanks_toBanks]
  rfl

/-- A finished builder holds what the builder held, and the routine without an effect where nothing
was assigned. -/
theorem Holds.exists_finalize (h : b.Holds ps) : ∃ filled : Builder, b.finalize = .ok filled.settle ∧
    filled.Holds (ps ++ b.freeOpcodes.map noOperationAt) := by
  obtain ⟨filled, hfill, hholds⟩ := h.exists_placeAll_noOperationAt
  rw [result_finalizing, hfill]
  exact ⟨filled, rfl, hholds⟩

end Builder

/-! ## Compiled words -/

/-- The routine in the block of its instruction. -/
def Routine.placed (r : Routine) : Placement where
  block := blockOf r.instruction
  routine := r

/-- The routine has a word for an opcode, a cycle and flags. -/
def Routine.covers (r : Routine) (opcode : UInt8) (cycle : Nat) (carry zero : Bool) : Bool :=
  r.instruction.owns opcode && r.admits carry zero && decide (cycle < r.steps.length)

/-- The words of an opcode without a routine. -/
def unclaimedWord : Nat → Word
  | 0 => fetch
  | 1 => advance
  | _ => .idle

/-- The word that a row of routines compiles to: that of the routine that covers the opcode, the cycle
and the flags, and at an opcode without a routine a fetch and then an advance. -/
def compiledWord (rs : List Routine) (opcode : UInt8) (cycle : Nat) (carry zero : Bool) : Word :=
  match rs.find? fun r => r.covers opcode cycle carry zero with
  | some r => ((r.steps[cycle]?).map Step.word).getD .idle
  | none => if rs.any fun r => r.instruction.owns opcode then .idle else unclaimedWord cycle

section

variable {rs : List Routine} {r : Routine} {opcode : UInt8} {cycle : Nat} {carry zero : Bool}

theorem covers_placed :
    r.placed.Covers opcode cycle carry zero ↔ r.covers opcode cycle carry zero := by
  simp only [Placement.Covers, Routine.placed, mem_opcodes_blockOf, Routine.covers, Bool.and_eq_true,
    decide_eq_true_eq, and_assoc]

theorem entryAt_placed_of_covers (h : r.covers opcode cycle carry zero) : ∃ s, r.steps[cycle]? = some s ∧
    r.placed.entryAt opcode cycle carry zero =
      some { word := s.word, instruction := r.instruction, step := cycle, origin := s.origin } := by
  have hc := covers_placed.mpr h
  have hs := List.getElem?_eq_getElem hc.2.2
  exact ⟨_, hs, Placement.entryAt_eq_some_iff.mpr ⟨hc, _, hs, rfl⟩⟩

theorem word_noOperation (cycle : Nat) :
    ((noOperation.steps[cycle]?).map Step.word).getD .idle = unclaimedWord cycle := by
  match cycle with
  | 0 => rfl
  | 1 => rfl
  | _ + 2 => rfl

theorem isAssigned_iff {b : Builder} (hb : b.Holds (rs.map Routine.placed)) :
    b.isAssigned opcode ↔ rs.any fun r => r.instruction.owns opcode := by
  rw [hb.assigned, List.any_eq_true]
  constructor
  · rintro ⟨p, hp, ho⟩
    obtain ⟨r, hr, rfl⟩ := List.mem_map.mp hp
    exact ⟨r, hr, mem_opcodes_blockOf.mp ho⟩
  · rintro ⟨r, hr, ho⟩
    exact ⟨r.placed, List.mem_map_of_mem hr, mem_opcodes_blockOf.mpr ho⟩

theorem control_slot_settle {b filled : Builder} (hb : b.Holds (rs.map Routine.placed))
    (hf : filled.Holds (rs.map Routine.placed ++ b.freeOpcodes.map noOperationAt))
    (hc : cycle < cycleCount) :
    (filled.settle.slot (Control.address opcode (.ofNat cycle) carry zero)).control =
      compiledWord rs opcode cycle carry zero := by
  rw [compiledWord]
  cases hfind : rs.find? fun r => r.covers opcode cycle carry zero with
  | some r =>
    have hr : r.placed ∈ rs.map Routine.placed := List.mem_map_of_mem (List.mem_of_find?_eq_some hfind)
    have hcov : r.covers opcode cycle carry zero := by simpa using List.find?_some hfind
    obtain ⟨s, hs, he⟩ := entryAt_placed_of_covers hcov
    rw [hf.slot_settle_of_mem hc (List.mem_append_left _ hr) he]
    simp [hs, Slot.control]
  | none =>
    have hrs : ∀ p ∈ rs.map Routine.placed, ¬p.Covers opcode cycle carry zero := by
      simpa [List.forall_mem_map, covers_placed] using List.find?_eq_none.mp hfind
    have hidle (h : ∀ o ∈ b.freeOpcodes, ¬(noOperationAt o).Covers opcode cycle carry zero) :
        filled.settle.slot (Control.address opcode (.ofNat cycle) carry zero) = .idle := by
      refine hf.slot_settle_of_not_covers hc (List.forall_mem_append.mpr ⟨hrs, ?_⟩)
      simpa [List.forall_mem_map] using h
    by_cases howned : rs.any fun r => r.instruction.owns opcode
    · rw [hidle fun o ho hco => ?_, if_pos howned]
      · rfl
      · obtain ⟨rfl, -⟩ := covers_noOperationAt.mp hco
        exact Builder.mem_freeOpcodes.mp ho ((isAssigned_iff hb).mpr howned)
    · have hfree : opcode ∈ b.freeOpcodes :=
        Builder.mem_freeOpcodes.mpr fun ha => howned ((isAssigned_iff hb).mp ha)
      rw [if_neg howned, ← word_noOperation,
        ← word_entryAt_noOperationAt opcode cycle carry zero]
      cases he : (noOperationAt opcode).entryAt opcode cycle carry zero with
      | some e =>
        rw [hf.slot_settle_of_mem hc (List.mem_append_right _ (List.mem_map_of_mem hfree)) he]
        rfl
      | none =>
        rw [hidle fun o _ hco => ?_]
        · rfl
        · obtain ⟨rfl, -⟩ := covers_noOperationAt.mp hco
          simp [← Placement.isSome_entryAt, he] at hco

/-! ## Accepted rows -/

theorem place_placed (b : Builder) (r : Routine) : b.place r.placed = b.add r :=
  rfl

theorem result_adding (b : Builder) (r : Routine) : b.add r =
    if cycleCount < r.steps.length then .error (.tooManySteps r.instruction.opcode r.steps.length)
    else
      match r.placed.claims.find? fun c => !(b.slot c.address).isEmpty with
      | some c => .error (.duplicateEntry c.opcode c.step)
      | none => .ok ((b.assign r.placed.block.opcodes).write r.placed.claims) :=
  Builder.place_eq b r.placed

theorem addAll_cons (b : Builder) (r : Routine) (rs : List Routine) :
    b.addAll (r :: rs) = b.add r >>= (·.addAll rs) :=
  Attempt.result_bind (Builder.adding r) (Builder.addingAll rs) b

theorem addAll_eq (b : Builder) (rs : List Routine) :
    b.addAll rs = b.placeAll (rs.map Routine.placed) := by
  rw [Builder.addAll, Builder.addingAll, Attempt.result_forM, Builder.placeAll, List.foldlM_map]
  rfl

theorem holds_of_addAll {b : Builder} (h : Builder.fresh.addAll rs = .ok b) :
    b.Holds (rs.map Routine.placed) := by
  rw [addAll_eq] at h
  exact Builder.holds_fresh.placeAll h

theorem exists_addAll_iff : (∃ b, Builder.fresh.addAll rs = .ok b) ↔
    (∀ r ∈ rs, r.placed.Fits) ∧ (rs.map Routine.placed).Pairwise Placement.Disjoint := by
  simp only [addAll_eq, Builder.holds_fresh.exists_placeAll_iff, List.forall_mem_map]
  simp

/-- Routines of different instructions, or for different flags, share no address. -/
theorem disjoint_placed {r s : Routine} (h : r.instruction = s.instruction →
    ∀ carry zero, r.admits carry zero → ¬s.admits carry zero) : r.placed.Disjoint s.placed := by
  intro opcode cycle carry zero hr hs
  have heq := owns_unique (mem_opcodes_blockOf.mp hr.1) (mem_opcodes_blockOf.mp hs.1)
  exact h heq carry zero hr.2.1 hs.2.1

theorem length_filter_covers (h : (rs.map Routine.placed).Pairwise Placement.Disjoint) :
    (rs.filter fun r => r.covers opcode cycle carry zero).length ≤ 1 := by
  have hpair := (List.pairwise_map.mp h).filter fun r => r.covers opcode cycle carry zero
  have hcov : ∀ r ∈ rs.filter fun r => r.covers opcode cycle carry zero,
      r.placed.Covers opcode cycle carry zero := by
    intro r hr
    exact covers_placed.mpr (List.mem_filter.mp hr).2
  match hl : rs.filter fun r => r.covers opcode cycle carry zero with
  | [] => simp [hl]
  | [_] => simp [hl]
  | r :: s :: _ =>
    rw [hl] at hpair hcov
    have hdisj : r.placed.Disjoint s.placed := (List.pairwise_cons.mp hpair).1 s (by simp)
    exact absurd (hcov s (by simp)) (hdisj _ _ _ _ (hcov r (by simp)))

/-- Every row of routines that a new builder accepts can be finished, and the store is then the compiled
table: at most one routine covers an opcode, a cycle and flags, the address has its word, and no other
address has a word at all. -/
theorem finalize_addAll {b : Builder} (h : Builder.fresh.addAll rs = .ok b) :
    ∃ done, b.finalize = .ok done ∧
      (∀ opcode cycle carry zero, cycle < cycleCount →
        (rs.filter fun r => r.covers opcode cycle carry zero).length ≤ 1 ∧
          done.store.word (Control.address opcode (.ofNat cycle) carry zero) =
            compiledWord rs opcode cycle carry zero) ∧
      (∀ a : Address, 16384 ≤ a.val → done.store.word a = .idle) ∧
      done.isComplete ∧ ∀ opcode, done.isAssigned opcode := by
  have hb := holds_of_addAll h
  obtain ⟨filled, hfinal, hf⟩ := hb.exists_finalize
  refine ⟨filled.settle, hfinal, ?_, ?_, filled.isComplete_settle, ?_⟩
  · intro opcode cycle carry zero hc
    exact ⟨length_filter_covers hb.disjoint, by rw [Builder.word_store, control_slot_settle hb hf hc]⟩
  · intro a ha
    rw [Builder.word_store, Builder.slot_settle, hf.upper a ha]
    rfl
  · intro opcode
    rw [Builder.isAssigned_settle, hf.assigned]
    by_cases ho : b.isAssigned opcode
    · obtain ⟨p, hp, ho⟩ := (hb.assigned opcode).mp ho
      exact ⟨p, List.mem_append_left _ hp, ho⟩
    · have hfree : opcode ∈ b.freeOpcodes := Builder.mem_freeOpcodes.mpr ho
      refine ⟨noOperationAt opcode, ?_, mem_opcodes_singleton.mpr rfl⟩
      exact List.mem_append_right _ (List.mem_map_of_mem hfree)

/-- Two variants of one instruction for the two values of the carry. -/
theorem finalize_addAll_perCarry : ∃ b done,
    Builder.fresh.addAll
        (perCarry .incCarry fun carry => linesFrom 5 [fetch, .arith .abxy .ab .a carry]) = .ok b ∧
      b.finalize = .ok done ∧
      done.store.word (Control.address 0x85 1 true false) = .arith .abxy .ab .a true ∧
      done.store.word (Control.address 0x85 1 false true) = .arith .abxy .ab .a false ∧
      done.store.word (Control.address 0x85 2 true false) = .idle ∧
      done.store.word (Control.address 0x88 1 true false) = advance ∧ done.isComplete := by
  have hok : ∃ b, Builder.fresh.addAll
      (perCarry .incCarry fun carry => linesFrom 5 [fetch, .arith .abxy .ab .a carry]) = .ok b := by
    refine exists_addAll_iff.mpr ⟨by decide, List.pairwise_map.mpr ?_⟩
    exact List.Pairwise.imp disjoint_placed (by decide)
  obtain ⟨b, hb⟩ := hok
  obtain ⟨done, hdone, hword, -, hcomplete, -⟩ := finalize_addAll hb
  refine ⟨b, done, hb, hdone, ?_, ?_, ?_, ?_, hcomplete⟩
  · exact (hword 0x85 1 true false (by decide)).2
  · exact (hword 0x85 1 false true (by decide)).2
  · exact (hword 0x85 2 true false (by decide)).2
  · exact (hword 0x88 1 true false (by decide)).2

end

end Microcomputer.Microcode
