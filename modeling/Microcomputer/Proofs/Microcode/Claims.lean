import Microcomputer.Microcode.Builder
import Microcomputer.Proofs.Control.Address
import Microcomputer.Proofs.Outcome

/-!
# Claims

A placement is a routine with the opcodes that it is given. What it puts at an address is a function of
the opcode, the cycle and the flags, and a builder that accepts a placement differs from the one before
exactly there. One that refuses it does so before it has written anything.
-/

namespace Microcomputer.Microcode

open Control (Address)

/-! ## Placements -/

/-- A routine with the opcodes that it is given. -/
structure Placement where
  block : Block
  routine : Routine
deriving DecidableEq

namespace Placement

variable {p : Placement} {opcode : UInt8} {cycle : Nat} {carry zero : Bool} {e : Entry}

/-- What a placement puts at the address of an opcode, a cycle and flags. -/
def entryAt (p : Placement) (opcode : UInt8) (cycle : Nat) (carry zero : Bool) : Option Entry :=
  if opcode ∈ p.block.opcodes ∧ p.routine.admits carry zero then
    p.routine.steps[cycle]?.map fun s =>
      { word := s.word, instruction := p.routine.instruction, step := cycle, origin := s.origin }
  else none

/-- The placement has a word for an opcode, a cycle and flags. -/
def Covers (p : Placement) (opcode : UInt8) (cycle : Nat) (carry zero : Bool) : Prop :=
  opcode ∈ p.block.opcodes ∧ p.routine.admits carry zero ∧ cycle < p.routine.steps.length

instance : Decidable (p.Covers opcode cycle carry zero) :=
  inferInstanceAs (Decidable (_ ∧ _ ∧ _))

/-- The routine has no more steps than an instruction has cycles. -/
def Fits (p : Placement) : Prop :=
  p.routine.steps.length ≤ cycleCount

instance : Decidable p.Fits :=
  inferInstanceAs (Decidable (_ ≤ _))

/-- Two placements have no address in common. -/
def Disjoint (p q : Placement) : Prop :=
  ∀ opcode cycle carry zero, p.Covers opcode cycle carry zero → ¬q.Covers opcode cycle carry zero

theorem entryAt_eq_some_iff : p.entryAt opcode cycle carry zero = some e ↔
    p.Covers opcode cycle carry zero ∧ ∃ s, p.routine.steps[cycle]? = some s ∧
      e = { word := s.word, instruction := p.routine.instruction, step := cycle, origin := s.origin } := by
  unfold entryAt Covers
  split
  next h =>
    simp only [Option.map_eq_some_iff]
    constructor
    · rintro ⟨s, hs, rfl⟩
      exact ⟨⟨h.1, h.2, (List.getElem?_eq_some_iff.mp hs).1⟩, s, hs, rfl⟩
    · rintro ⟨-, s, hs, rfl⟩
      exact ⟨s, hs, rfl⟩
  next h =>
    simp only [reduceCtorEq, false_iff]
    exact fun hc => h ⟨hc.1.1, hc.1.2.1⟩

theorem isSome_entryAt : (p.entryAt opcode cycle carry zero).isSome ↔ p.Covers opcode cycle carry zero := by
  constructor
  · intro h
    obtain ⟨e, he⟩ := Option.isSome_iff_exists.mp h
    exact (entryAt_eq_some_iff.mp he).1
  · intro h
    have hs := List.getElem?_eq_getElem h.2.2
    exact Option.isSome_iff_exists.mpr ⟨_, entryAt_eq_some_iff.mpr ⟨h, _, hs, rfl⟩⟩

theorem Covers.lt (h : p.Covers opcode cycle carry zero) (hp : p.Fits) : cycle < cycleCount :=
  Nat.lt_of_lt_of_le h.2.2 hp

theorem Disjoint.symm {q : Placement} (h : p.Disjoint q) : q.Disjoint p :=
  fun opcode cycle carry zero hq hp => h opcode cycle carry zero hp hq

/-- The claims of the routine in its block. -/
def claims (p : Placement) : List Claim :=
  p.routine.claims p.block

theorem mem_claims {c : Claim} : c ∈ p.claims ↔
    ∃ carry zero, p.entryAt c.opcode c.step carry zero = some c.entry ∧
      c.address = Control.address c.opcode (.ofNat c.step) carry zero := by
  obtain ⟨opcode, step, address, entry⟩ := c
  simp only [claims, Routine.claims, Routine.flags, List.mem_flatMap, List.mem_map, List.mem_filter,
    entryAt_eq_some_iff, Covers]
  constructor
  · rintro ⟨o, ho, ⟨s, k⟩, hs, ⟨carry, zero⟩, ⟨-, hf⟩, hc⟩
    simp only [List.mem_zipIdx_iff_getElem?] at hs
    simp only [Claim.mk.injEq] at hc
    obtain ⟨rfl, rfl, rfl, rfl⟩ := hc
    exact ⟨carry, zero, ⟨⟨ho, hf, (List.getElem?_eq_some_iff.mp hs).1⟩, s, hs, rfl⟩, rfl⟩
  · rintro ⟨carry, zero, ⟨⟨ho, hf, -⟩, s, hs, rfl⟩, rfl⟩
    refine ⟨opcode, ho, (s, step), List.mem_zipIdx_iff_getElem?.mpr hs, (carry, zero), ⟨?_, hf⟩, rfl⟩
    cases carry <;> cases zero <;> simp

end Placement

namespace Builder

variable {b b' : Builder} {p : Placement} {opcode : UInt8} {cycle : Nat} {carry zero : Bool}

/-! ## Writing and assigning -/

/-- What an address holds. -/
def slot (b : Builder) (a : Address) : Slot :=
  getElem b.slots a a.isLt

theorem write_cons (b : Builder) (c : Claim) (cs : List Claim) :
    b.write (c :: cs) = (b.write [c]).write cs := rfl

theorem slot_write_singleton (b : Builder) (c : Claim) (a : Address) :
    (b.write [c]).slot a = if c.address = a then .word c.entry else b.slot a := by
  simp only [slot, write, List.foldl_cons, List.foldl_nil, Fin.getElem_fin, Vector.getElem_set, Fin.ext_iff]

theorem slot_write_of_notMem {cs : List Claim} {a : Address} (h : ∀ c ∈ cs, c.address ≠ a) :
    (b.write cs).slot a = b.slot a := by
  induction cs generalizing b with
  | nil => rfl
  | cons c cs ih =>
    have hne : c.address ≠ a := h c (by simp)
    rw [write_cons, ih fun c hc => h c (by simp [hc]), slot_write_singleton, if_neg hne]

/-- Claims of one address with one entry leave that entry there, in whatever order they are written. -/
theorem slot_write_of_mem {cs : List Claim} {a : Address} {e : Entry}
    (hm : ∃ c ∈ cs, c.address = a) (he : ∀ c ∈ cs, c.address = a → c.entry = e) :
    (b.write cs).slot a = .word e := by
  induction cs generalizing b with
  | nil => simp at hm
  | cons c cs ih =>
    rw [write_cons]
    by_cases hrest : ∃ d ∈ cs, d.address = a
    · exact ih hrest fun d hd => he d (by simp [hd])
    · have hc : c.address = a := by
        obtain ⟨d, hd, hda⟩ := hm
        rcases List.mem_cons.mp hd with rfl | hd
        · exact hda
        · exact absurd ⟨d, hd, hda⟩ hrest
      rw [slot_write_of_notMem fun d hd hda => hrest ⟨d, hd, hda⟩, slot_write_singleton, if_pos hc,
        he c (by simp) hc]

@[simp] theorem isAssigned_write (cs : List Claim) :
    (b.write cs).isAssigned opcode = b.isAssigned opcode := rfl

theorem isAssigned_assign {opcodes : List UInt8} :
    (b.assign opcodes).isAssigned opcode ↔ opcode ∈ opcodes ∨ b.isAssigned opcode := by
  induction opcodes generalizing b with
  | nil => simp [assign, isAssigned]
  | cons o os ih =>
    have hone : (b.assign [o]).isAssigned opcode ↔ opcode = o ∨ b.isAssigned opcode := by
      have hidx : (opcodeIndex o).val = (opcodeIndex opcode).val ↔ opcode = o := by
        simp only [opcodeIndex, UInt8.toNat_inj]
        exact eq_comm
      simp only [assign, isAssigned, List.foldl_cons, List.foldl_nil, Fin.getElem_fin,
        Vector.getElem_set, hidx]
      by_cases h : opcode = o <;> simp [h]
    have hcons : b.assign (o :: os) = (b.assign [o]).assign os := rfl
    rw [hcons, ih, hone, List.mem_cons, or_left_comm, or_assoc]

/-! ## Placing -/

/-- The attempt to give a placement its addresses. -/
def placing (p : Placement) : Attempt ClaimError Builder Unit :=
  claiming p.block p.routine

/-- The builder with a placement, if its claims are free. -/
def place (b : Builder) (p : Placement) : Except ClaimError Builder :=
  (placing p).result b

/-- Nothing has been claimed at the address of a cycle. -/
def Free (b : Builder) (opcode : UInt8) (cycle : Nat) (carry zero : Bool) : Prop :=
  b.slot (Control.address opcode (.ofNat cycle) carry zero) = .empty

theorem isEmpty_iff {slot : Slot} : slot.isEmpty ↔ slot = .empty := by
  cases slot <;> simp [Slot.isEmpty]

theorem find?_claims_eq_none_iff : (p.claims.find? fun c => !(b.slot c.address).isEmpty) = none ↔
    ∀ opcode cycle carry zero, p.Covers opcode cycle carry zero → b.Free opcode cycle carry zero := by
  simp only [List.find?_eq_none, Bool.not_eq_true', Bool.not_eq_false, isEmpty_iff, Free]
  constructor
  · intro h opcode cycle carry zero hc
    obtain ⟨e, he⟩ := Option.isSome_iff_exists.mp (Placement.isSome_entryAt.mpr hc)
    exact h ⟨opcode, cycle, _, e⟩ (Placement.mem_claims.mpr ⟨carry, zero, he, rfl⟩)
  · intro h c hc
    obtain ⟨carry, zero, he, ha⟩ := Placement.mem_claims.mp hc
    rw [ha]
    exact h _ _ _ _ (Placement.entryAt_eq_some_iff.mp he).1

theorem run_reserve (b : Builder) (c : Claim) : (reserve c).run b =
    if (b.slot c.address).isEmpty then .ok c b else .error (.duplicateEntry c.opcode c.step) b := by
  have hslot : b.slots[c.address] = b.slot c.address := rfl
  rw [reserve, EStateM.run_bind, EStateM.run_get]
  simp only [hslot]
  cases (b.slot c.address).isEmpty with
  | true => rfl
  | false => rfl

/-- Collecting claims changes nothing. It comes to all of them, or fails with the first whose address is
taken. -/
theorem run_mapM_reserve (b : Builder) (cs : List Claim) : (cs.mapM reserve).run b =
    match cs.find? fun c => !(b.slot c.address).isEmpty with
    | some c => .error (.duplicateEntry c.opcode c.step) b
    | none => .ok cs b := by
  induction cs with
  | nil => rfl
  | cons c cs ih =>
    rw [List.mapM_cons, EStateM.run_bind, run_reserve, List.find?_cons]
    cases (b.slot c.address).isEmpty with
    | false => rfl
    | true =>
      simp only [if_true, EStateM.run_bind, ih, Bool.not_true]
      cases cs.find? fun c => !(b.slot c.address).isEmpty with
      | some d => rfl
      | none => rfl

/-- A builder that refuses a placement is as it was. -/
theorem run_placing (b : Builder) (p : Placement) : (placing p).run b =
    if cycleCount < p.routine.steps.length then
      .error (.tooManySteps p.block.first p.routine.steps.length) b
    else
      match p.claims.find? fun c => !(b.slot c.address).isEmpty with
      | some c => .error (.duplicateEntry c.opcode c.step) b
      | none => .ok () ((b.assign p.block.opcodes).write p.claims) := by
  have hclaims := run_mapM_reserve b p.claims
  rw [Placement.claims] at hclaims ⊢
  rw [placing, claiming]
  split
  next => rfl
  next =>
    rw [EStateM.run_bind, hclaims]
    cases (p.routine.claims p.block).find? fun c => !(b.slot c.address).isEmpty with
    | some c => rfl
    | none => rfl

theorem place_eq (b : Builder) (p : Placement) : b.place p =
    if cycleCount < p.routine.steps.length then
      .error (.tooManySteps p.block.first p.routine.steps.length)
    else
      match p.claims.find? fun c => !(b.slot c.address).isEmpty with
      | some c => .error (.duplicateEntry c.opcode c.step)
      | none => .ok ((b.assign p.block.opcodes).write p.claims) := by
  rw [place, Attempt.result, run_placing]
  by_cases hlong : cycleCount < p.routine.steps.length
  · rw [if_pos hlong, if_pos hlong]
  · rw [if_neg hlong, if_neg hlong]
    cases p.claims.find? fun c => !(b.slot c.address).isEmpty with
    | some c => rfl
    | none => rfl

theorem after_placing_of_error {e : ClaimError} (h : b.place p = .error e) : (placing p).after b = b := by
  obtain ⟨rest, hrun⟩ := Attempt.result_eq_error_iff.mp h
  rw [Attempt.after, hrun]
  rw [run_placing] at hrun
  split at hrun
  next => cases hrun; rfl
  next =>
    split at hrun
    next => cases hrun; rfl
    next => cases hrun

/-- A placement is accepted exactly if it fits and all that it covers is free. -/
theorem place_eq_ok_iff : b.place p = .ok b' ↔ p.Fits ∧
    (∀ opcode cycle carry zero, p.Covers opcode cycle carry zero → b.Free opcode cycle carry zero) ∧
      b' = (b.assign p.block.opcodes).write p.claims := by
  rw [← find?_claims_eq_none_iff, place_eq]
  split
  next hlong =>
    simp only [reduceCtorEq, false_iff]
    exact fun h => Nat.not_le_of_lt hlong h.1
  next hshort =>
    have hfits : p.Fits := Nat.le_of_not_lt hshort
    split
    next hc => simp [hc]
    next hnone =>
      simp only [hfits, hnone, true_and, Except.ok.injEq]
      exact eq_comm

/-! ## What a placement changes -/

theorem slot_of_place (h : b.place p = .ok b') (hc : cycle < cycleCount) :
    b'.slot (Control.address opcode (.ofNat cycle) carry zero) =
      ((p.entryAt opcode cycle carry zero).map Slot.word).getD
        (b.slot (Control.address opcode (.ofNat cycle) carry zero)) := by
  obtain ⟨hfits, -, rfl⟩ := place_eq_ok_iff.mp h
  -- a claim of this address is a claim of this opcode, cycle and these flags
  have hclaim {c : Claim} (hm : c ∈ p.claims)
      (ha : c.address = Control.address opcode (.ofNat cycle) carry zero) :
      p.entryAt opcode cycle carry zero = some c.entry := by
    obtain ⟨carry', zero', he, hadr⟩ := Placement.mem_claims.mp hm
    have hlt := (Placement.entryAt_eq_some_iff.mp he).1.lt hfits
    obtain ⟨rfl, rfl, rfl, rfl⟩ := Control.address_ofNat_inj hlt hc (hadr.symm.trans ha)
    exact he
  cases he : p.entryAt opcode cycle carry zero with
  | none =>
    rw [slot_write_of_notMem fun c hm ha => by simp [hclaim hm ha] at he]
    rfl
  | some e =>
    have hm : ⟨opcode, cycle, Control.address opcode (.ofNat cycle) carry zero, e⟩ ∈ p.claims :=
      Placement.mem_claims.mpr ⟨carry, zero, he, rfl⟩
    exact slot_write_of_mem ⟨_, hm, rfl⟩ fun c hc ha => by simpa [he] using (hclaim hc ha).symm

theorem slot_of_place_of_le (h : b.place p = .ok b') {a : Address} (ha : 16384 ≤ a.val) :
    b'.slot a = b.slot a := by
  obtain ⟨-, -, rfl⟩ := place_eq_ok_iff.mp h
  refine slot_write_of_notMem fun c hm he => ?_
  obtain ⟨carry, zero, -, hadr⟩ := Placement.mem_claims.mp hm
  have hlt := Control.address_lt c.opcode (.ofNat c.step) carry zero
  rw [← hadr, he] at hlt
  omega

theorem isAssigned_of_place (h : b.place p = .ok b') :
    b'.isAssigned opcode ↔ opcode ∈ p.block.opcodes ∨ b.isAssigned opcode := by
  obtain ⟨-, -, rfl⟩ := place_eq_ok_iff.mp h
  rw [isAssigned_write, isAssigned_assign]

end Builder

end Microcomputer.Microcode
