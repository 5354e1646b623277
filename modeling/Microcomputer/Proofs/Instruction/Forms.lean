import Mathlib.Data.List.Nodup
import Microcomputer.Instruction.Assembly
import Microcomputer.Proofs.Instruction.Decoding

/-!
# Forms of lines

A line has the form of an instruction or of a composite, which stands for several instructions in a row. No
two forms have the same mnemonic and arguments that look alike, so a line has at most one.
-/

namespace Microcomputer

open Instruction

/-! ## What operands look like -/

/-- The kind of everything that looks like an argument of a kind: A or B looks like any register. -/
def OperandKind.wide : OperandKind → OperandKind
  | ab => abxy
  | kind => kind

/-- The kind that an operand looks like. -/
def Operand.kind : Operand → OperandKind
  | register _ => .abxy
  | imm _ => .imm
  | addr _ => .addr

/-- The operands look like the arguments, one by one. -/
abbrev Resembles : List OperandKind → List Operand → Prop :=
  List.Forall₂ fun kind operand => kind.wide = operand.kind

section

variable {kind : OperandKind} {kinds : List OperandKind} {operands : List Operand}

theorem OperandKind.wide_of_accepts {operand : Operand} (h : kind.accepts operand) :
    kind.wide = operand.kind := by
  rcases accepts_cases h with ⟨rfl, r, rfl, -⟩ | ⟨rfl, r, rfl⟩ | ⟨rfl, value, rfl⟩ | ⟨rfl, value, rfl⟩ <;> rfl

theorem resembles_of_fits (h : Fits kinds operands) : Resembles kinds operands :=
  h.imp fun _ _ => OperandKind.wide_of_accepts

theorem resembles_iff : Resembles kinds operands ↔
    kinds.map OperandKind.wide = operands.map Operand.kind := by
  rw [← List.forall₂_eq_eq_eq, List.forall₂_map_left_iff, List.forall₂_map_right_iff]

/-! ## All operands that look alike -/

variable {P : Operand → Prop} {Q : List Operand → Prop}

theorem forall_resembles_nil : (∀ operands, Resembles [] operands → Q operands) ↔ Q [] := by
  simp only [List.forall₂_nil_left_iff, forall_eq]

theorem forall_resembles_cons : (∀ operands, Resembles (kind :: kinds) operands → Q operands) ↔
    ∀ operand, kind.wide = operand.kind → ∀ operands, Resembles kinds operands → Q (operand :: operands) := by
  constructor
  · exact fun h operand hfirst operands hrest => h _ (.cons hfirst hrest)
  · rintro h _ (_ | ⟨hfirst, hrest⟩)
    exact h _ hfirst _ hrest

theorem forall_register : (∀ operand, .abxy = Operand.kind operand → P operand) ↔ ∀ r, P (.register r) := by
  constructor
  · exact fun h r => h _ rfl
  · rintro h (r | value | value) heq
    · exact h r
    · cases heq
    · cases heq

theorem forall_imm : (∀ operand, .imm = Operand.kind operand → P operand) ↔ ∀ value, P (.imm value) := by
  constructor
  · exact fun h value => h _ rfl
  · rintro h (r | value | value) heq
    · cases heq
    · exact h value
    · cases heq

theorem forall_addr : (∀ operand, .addr = Operand.kind operand → P operand) ↔ ∀ value, P (.addr value) := by
  constructor
  · exact fun h value => h _ rfl
  · rintro h (r | value | value) heq
    · cases heq
    · cases heq
    · exact h value

end

/-! ## Composites -/

/-- An operand of a part of a composite: a register that is always the same, or one of the operands that are
given, by its place among them. -/
inductive Slot where
  | fixed (r : Register)
  | given (k : Nat)
deriving DecidableEq, Repr

/-- The operand in a slot. -/
def Slot.operand? (operands : List Operand) : Slot → Option Operand
  | fixed r => some (.register r)
  | given k => operands[k]?

/-- The composites, one for each mnemonic and row of arguments. -/
inductive Composite where
  | incp
  | decp
  | addpReg
  | addpImm
  | subpReg
  | subpImm
  | xchg
  | gp
  | gpf
  | ldpo
  | stpo
deriving DecidableEq, Repr

namespace Composite

/-- What a composite looks like: its mnemonic, its arguments, and the instructions that it stands for. -/
structure Template where
  mnemonic : String
  kinds : List OperandKind
  parts : List (Instruction × List Slot)
deriving DecidableEq, Repr

/-- The table of composites. -/
def template : Composite → Template
  | incp => ⟨"incp", [], [(inc, [.fixed .x]), (incCarry, [.fixed .y])]⟩
  | decp => ⟨"decp", [], [(dec, [.fixed .x]), (decCarry, [.fixed .y])]⟩
  | addpReg => ⟨"addp", [.ab], [(addReg, [.given 0, .fixed .x]), (incCarry, [.fixed .y])]⟩
  | addpImm => ⟨"addp", [.imm], [(addImm, [.given 0, .fixed .x]), (incCarry, [.fixed .y])]⟩
  | subpReg => ⟨"subp", [.ab], [(subReg, [.given 0, .fixed .x]), (decCarry, [.fixed .y])]⟩
  | subpImm => ⟨"subp", [.imm], [(subImm, [.given 0, .fixed .x]), (decCarry, [.fixed .y])]⟩
  | xchg => ⟨"xchg", [.abxy, .abxy], [(xchgReg, [.given 0, .given 1]), (xchgRegFinish, [.given 0])]⟩
  | gp => ⟨"gp", [.addr], [(gpLow, [.given 0]), (gpHigh, [])]⟩
  | gpf => ⟨"gpf", [.imm], [(gpfLow, [.given 0]), (gpfHigh, [])]⟩
  | ldpo =>
    ⟨"ldpo", [.imm, .ab], [(pairOffsetLow, [.given 0]), (pairOffsetHigh, []), (loadPairOffset, [.given 1])]⟩
  | stpo =>
    ⟨"stpo", [.ab, .imm], [(pairOffsetLow, [.given 1]), (pairOffsetHigh, []), (storePairOffset, [.given 0])]⟩

/-- The mnemonic of a composite. -/
def mnemonic (c : Composite) : String :=
  c.template.mnemonic

/-- The kinds of the operands that a composite is written with. -/
def kinds (c : Composite) : List OperandKind :=
  c.template.kinds

/-- The instructions that a composite stands for, with their operands. -/
def parts (c : Composite) (operands : List Operand) : List (Instruction × List Operand) :=
  c.template.parts.map fun part => (part.1, part.2.filterMap (Slot.operand? operands))

/-- The composites in a row. -/
def members : List Composite :=
  [incp, decp, addpReg, addpImm, subpReg, subpImm, xchg, gp, gpf, ldpo, stpo]

theorem mem_members (c : Composite) : c ∈ members := by
  cases c <;> decide

variable {c : Composite} {operands : List Operand} {kinds : List OperandKind} {slots : List Slot}

/-- The table gives the same instructions as the assembler. -/
theorem composite?_of_resembles (h : Resembles c.kinds operands) :
    composite? c.mnemonic operands = some (c.parts operands) := by
  revert operands
  cases c
  all_goals
    simp only [Composite.kinds, template, forall_resembles_cons, forall_resembles_nil, OperandKind.wide,
      forall_register, forall_imm, forall_addr]
  case incp | decp => rfl
  case xchg | ldpo | stpo => exact fun _ _ => rfl
  all_goals exact fun _ => rfl

theorem exists_of_composite? {mnemonic : String} {found : List (Instruction × List Operand)}
    (h : composite? mnemonic operands = some found) :
    ∃ c : Composite, c.mnemonic = mnemonic ∧ Resembles c.kinds operands ∧ c.parts operands = found := by
  simp only [resembles_iff]
  revert h
  unfold composite?
  split
  · exact fun h => ⟨incp, rfl, rfl, Option.some.inj h⟩
  · exact fun h => ⟨decp, rfl, rfl, Option.some.inj h⟩
  · exact fun h => ⟨addpReg, rfl, rfl, Option.some.inj h⟩
  · exact fun h => ⟨addpImm, rfl, rfl, Option.some.inj h⟩
  · exact fun h => ⟨subpReg, rfl, rfl, Option.some.inj h⟩
  · exact fun h => ⟨subpImm, rfl, rfl, Option.some.inj h⟩
  · exact fun h => ⟨xchg, rfl, rfl, Option.some.inj h⟩
  · exact fun h => ⟨gp, rfl, rfl, Option.some.inj h⟩
  · exact fun h => ⟨gpf, rfl, rfl, Option.some.inj h⟩
  · exact fun h => ⟨ldpo, rfl, rfl, Option.some.inj h⟩
  · exact fun h => ⟨stpo, rfl, rfl, Option.some.inj h⟩
  · exact fun h => nomatch h

/-! ## Arguments of the parts -/

/-- The slot can stand for an argument of a part. -/
def Holds (c : Composite) (kind : OperandKind) : Slot → Prop
  | .fixed r => kind.accepts (.register r)
  | .given k => c.kinds[k]? = some kind

instance (c : Composite) (kind : OperandKind) : (slot : Slot) → Decidable (c.Holds kind slot)
  | .fixed r => inferInstanceAs (Decidable (kind.accepts (.register r)))
  | .given k => inferInstanceAs (Decidable (c.kinds[k]? = some kind))

theorem holds (c : Composite) : ∀ part ∈ c.template.parts, List.Forall₂ c.Holds part.1.kinds part.2 := by
  cases c <;> decide

/-- Every operand that is given goes to a part, for an argument of the same kind. -/
theorem exists_given {kind : OperandKind} {k : Nat} (hk : c.kinds[k]? = some kind) :
    ∃ part ∈ c.template.parts, (kind, .given k) ∈ part.1.kinds.zip part.2 := by
  have hall : ∀ c ∈ members, ∀ x ∈ c.kinds.zipIdx, ∃ part ∈ c.template.parts,
      (x.1, .given x.2) ∈ part.1.kinds.zip part.2 := by
    decide
  exact hall c c.mem_members (kind, k) (List.mem_zipIdx_iff_getElem?.mpr hk)

theorem exists_operand {kind : OperandKind} {slot : Slot} (h : c.Holds kind slot)
    (hlength : c.kinds.length = operands.length) : ∃ operand, slot.operand? operands = some operand := by
  cases slot with
  | fixed r => exact ⟨.register r, rfl⟩
  | given k =>
    obtain ⟨hk, -⟩ := List.getElem?_eq_some_iff.mp h
    exact ⟨operands[k], List.getElem?_eq_getElem (hlength ▸ hk)⟩

/-- What relates the operands that are given to the arguments of the composite relates those of a part to the
arguments of the part. -/
theorem forall₂_operands {R : OperandKind → Operand → Prop}
    (hfixed : ∀ kind r, kind.accepts (.register r) → R kind (.register r))
    (hslots : List.Forall₂ c.Holds kinds slots) (h : List.Forall₂ R c.kinds operands) :
    List.Forall₂ R kinds (slots.filterMap (Slot.operand? operands)) := by
  induction hslots with
  | nil => exact .nil
  | @cons kind slot _ _ hslot _ ih =>
    obtain ⟨operand, hoperand⟩ := exists_operand hslot h.length_eq
    rw [List.filterMap_cons, hoperand]
    refine .cons ?_ ih
    cases slot with
    | fixed r =>
      cases hoperand
      exact hfixed kind r hslot
    | given k =>
      obtain ⟨hk, rfl⟩ := List.getElem?_eq_some_iff.mp hslot
      obtain ⟨hk', rfl⟩ := List.getElem?_eq_some_iff.mp hoperand
      exact h.get hk hk'

/-- If the operands of a part fit, those of them that were given fit the arguments of the composite. -/
theorem accepts_of_given {kind : OperandKind} {k : Nat} {operand : Operand}
    (hslots : List.Forall₂ c.Holds kinds slots) (hlength : c.kinds.length = operands.length)
    (h : Fits kinds (slots.filterMap (Slot.operand? operands)))
    (hmem : (kind, .given k) ∈ kinds.zip slots) (hk : operands[k]? = some operand) :
    kind.accepts operand := by
  induction hslots with
  | nil => cases hmem
  | cons hslot _ ih =>
    obtain ⟨first, hfirst⟩ := exists_operand hslot hlength
    rw [List.filterMap_cons, hfirst] at h
    obtain ⟨hhead, htail⟩ := List.forall₂_cons.mp h
    rcases List.mem_cons.mp hmem with heq | hmem
    · cases heq
      rwa [← Option.some.inj (hfirst.symm.trans hk)]
    · exact ih htail hmem

/-- All parts take their operands exactly if those that were given fit the composite. -/
theorem fits_parts_iff (h : Resembles c.kinds operands) :
    (∀ part ∈ c.parts operands, Fits part.1.kinds part.2) ↔ Fits c.kinds operands := by
  constructor
  · intro hparts
    refine List.forall₂_iff_get.mpr ⟨h.length_eq, fun k hk hk' => ?_⟩
    obtain ⟨part, hpart, hmem⟩ := exists_given (List.getElem?_eq_getElem hk)
    exact accepts_of_given (c.holds part hpart) h.length_eq (hparts _ (List.mem_map_of_mem hpart)) hmem
      (List.getElem?_eq_getElem hk')
  · intro hfits part hpart
    obtain ⟨slots, hslots, rfl⟩ := List.mem_map.mp hpart
    exact forall₂_operands (fun _ _ => id) (c.holds slots hslots) hfits

theorem resembles_parts (h : Resembles c.kinds operands) :
    ∀ part ∈ c.parts operands, Resembles part.1.kinds part.2 := by
  intro part hpart
  obtain ⟨slots, hslots, rfl⟩ := List.mem_map.mp hpart
  exact forall₂_operands (fun _ _ => OperandKind.wide_of_accepts) (c.holds slots hslots) h

end Composite

/-! ## All forms -/

/-- The form of a line: one instruction, or a composite. -/
inductive LineForm where
  | single (i : Instruction)
  | composite (c : Composite)
deriving DecidableEq, Repr

namespace LineForm

/-- The mnemonic of the form. -/
def mnemonic : LineForm → String
  | single i => i.mnemonic
  | composite c => c.mnemonic

/-- The kinds of the operands that the form takes. -/
def kinds : LineForm → List OperandKind
  | single i => i.kinds
  | composite c => c.kinds

/-- The instructions that a line of the form stands for, with their operands. -/
def parts (operands : List Operand) : LineForm → List (Instruction × List Operand)
  | single i => [(i, operands)]
  | composite c => c.parts operands

/-- The form takes a line: it has the mnemonic, and the operands fit its arguments. -/
def Takes (f : LineForm) (mnemonic : String) (operands : List Operand) : Prop :=
  f.mnemonic = mnemonic ∧ Fits f.kinds operands

/-- The forms in a row. -/
def members : List LineForm :=
  Composite.members.map composite ++ (Vocabulary.members : List Instruction).map single

theorem mem_members (f : LineForm) : f ∈ members := by
  cases f with
  | single i => exact List.mem_append_right _ (List.mem_map_of_mem i.mem_members)
  | composite c => exact List.mem_append_left _ (List.mem_map_of_mem c.mem_members)

/-- What a line tells about its form at first sight. -/
def signature (f : LineForm) : List OperandKind × String :=
  (f.kinds.map OperandKind.wide, f.mnemonic)

theorem signature_inj {f g : LineForm} (h : f.signature = g.signature) : f = g := by
  have hnodup : (members.map signature).Nodup := by
    decide
  exact List.inj_on_of_nodup_map hnodup f.mem_members g.mem_members h

theorem eq_of_resembles {f g : LineForm} {operands : List Operand} (hmnemonic : f.mnemonic = g.mnemonic)
    (hf : Resembles f.kinds operands) (hg : Resembles g.kinds operands) : f = g := by
  rw [resembles_iff] at hf hg
  exact signature_inj (Prod.ext (hf.trans hg.symm) hmnemonic)

end LineForm

end Microcomputer
