import Microcomputer.Proofs.Instruction.Forms

/-!
# Assembling lines

A line is assembled by the one form that takes it, in whatever order the forms are tried, and its code tells
the instructions of that form with their operands. A line that no form takes is refused.
-/

namespace Microcomputer

open Instruction

/-! ## The first success -/

/-- If all successes are the same, it does not matter which comes first. -/
theorem findSome?_eq_some_iff_of_unique {α β : Type} {f : α → Option β} {as : List α}
    (h : ∀ a ∈ as, ∀ a' ∈ as, ∀ b b', f a = some b → f a' = some b' → b = b') {b : β} :
    as.findSome? f = some b ↔ ∃ a ∈ as, f a = some b := by
  constructor
  · exact List.exists_of_findSome?_eq_some
  · rintro ⟨a, ha, hb⟩
    obtain ⟨b', hfirst⟩ := Option.isSome_iff_exists.mp
      (List.findSome?_isSome_iff.mpr ⟨a, ha, Option.isSome_iff_exists.mpr ⟨b, hb⟩⟩)
    obtain ⟨a', ha', hb'⟩ := List.exists_of_findSome?_eq_some hfirst
    rw [hfirst, h a ha a' ha' b b' hb hb']

theorem toOption_eq_some_iff {ε α : Type} {x : Except ε α} {a : α} : x.toOption = some a ↔ x = .ok a := by
  cases x <;> simp [Except.toOption]

variable {mnemonic : String} {operands : List Operand} {parts : List (Instruction × List Operand)}
  {bytes : List UInt8} {e : EncodeError} {i : Instruction} {f g : LineForm}

/-! ## Parts of a line -/

theorem exists_encodeAll_iff :
    (∃ bytes, encodeAll parts = .ok bytes) ↔ ∀ part ∈ parts, Fits part.1.kinds part.2 := by
  have hencode (part : Instruction × List Operand) :
      (∃ code, part.1.encode part.2 = .ok code) ↔ Fits part.1.kinds part.2 := by
    simp only [encode_eq_ok_iff, exists_and_left, exists_eq', and_true]
  simp only [encodeAll, bind_eq_ok_iff, pure, Except.pure, Except.ok.injEq]
  rw [← forall₂_congr fun part _ => hencode part, ← exists_mapM_eq_ok_iff]
  constructor
  · rintro ⟨_, codes, hcodes, -⟩
    exact ⟨codes, hcodes⟩
  · rintro ⟨codes, hcodes⟩
    exact ⟨_, codes, hcodes, rfl⟩

/-- The error names the first operand that does not fit, by its instruction and its place there. -/
def FirstMisfit (parts : List (Instruction × List Operand)) (e : EncodeError) : Prop :=
  ∃ before i operands after k, parts = before ++ (i, operands) :: after ∧
    (∀ part ∈ before, Fits part.1.kinds part.2) ∧ mismatch? i.kinds operands = some k ∧
      e = .operandMismatch i k

theorem firstMisfit_of_encodeAll (h : encodeAll parts = .error e)
    (hparts : ∀ part ∈ parts, Resembles part.1.kinds part.2) : FirstMisfit parts e := by
  simp only [encodeAll, bind_eq_error_iff, pure, Except.pure, reduceCtorEq, and_false, exists_false,
    or_false] at h
  obtain ⟨before, ⟨i, operands⟩, after, rfl, hbefore, hfails⟩ := mapM_eq_error_iff.mp h
  have hlength : i.kinds.length = operands.length :=
    (hparts (i, operands) (by simp)).length_eq
  refine ⟨before, i, operands, after, ?_⟩
  simp only [encode, hlength, ne_eq, not_true_eq_false, if_false] at hfails
  cases hk : mismatch? i.kinds operands with
  | none =>
    rw [hk] at hfails
    cases hfails
  | some k =>
    rw [hk] at hfails
    refine ⟨k, rfl, fun part hpart => ?_, rfl, (Except.error.inj hfails).symm⟩
    obtain ⟨code, hcode⟩ := hbefore part hpart
    exact (encode_eq_ok_iff.mp hcode).1

/-! ## Forms that take a line -/

namespace LineForm

theorem fits_parts_iff (h : Resembles f.kinds operands) :
    (∀ part ∈ f.parts operands, Fits part.1.kinds part.2) ↔ Fits f.kinds operands := by
  cases f with
  | single i => exact List.forall_mem_singleton
  | composite c => exact c.fits_parts_iff h

theorem Takes.exists_encodeAll (h : f.Takes mnemonic operands) :
    ∃ bytes, encodeAll (f.parts operands) = .ok bytes :=
  exists_encodeAll_iff.mpr ((fits_parts_iff (resembles_of_fits h.2)).mpr h.2)

theorem Takes.unique (hf : f.Takes mnemonic operands) (hg : g.Takes mnemonic operands) : f = g :=
  eq_of_resembles (hf.1.trans hg.1.symm) (resembles_of_fits hf.2) (resembles_of_fits hg.2)

instance (f : LineForm) (mnemonic : String) (operands : List Operand) :
    Decidable (f.Takes mnemonic operands) :=
  inferInstanceAs (Decidable (_ ∧ _))

/-- The bytes of a line by a form, if it takes the line. -/
def bytes? (mnemonic : String) (operands : List Operand) (f : LineForm) : Option (List UInt8) :=
  if f.Takes mnemonic operands then (encodeAll (f.parts operands)).toOption else none

/-- The bytes of a line by the first of the forms that takes it. -/
def first? (tried : List LineForm) (mnemonic : String) (operands : List Operand) : Option (List UInt8) :=
  tried.findSome? (bytes? mnemonic operands)

theorem bytes?_eq_some_iff : f.bytes? mnemonic operands = some bytes ↔
    f.Takes mnemonic operands ∧ encodeAll (f.parts operands) = .ok bytes := by
  unfold bytes?
  rw [Option.ite_none_right_eq_some, toOption_eq_some_iff]

theorem first?_eq_some_iff {tried : List LineForm}
    (htried : ∀ f : LineForm, f.Takes mnemonic operands → f ∈ tried) :
    first? tried mnemonic operands = some bytes ↔
      ∃ f : LineForm, f.Takes mnemonic operands ∧ encodeAll (f.parts operands) = .ok bytes := by
  have hunique : ∀ f ∈ tried, ∀ g ∈ tried, ∀ b b', f.bytes? mnemonic operands = some b →
      g.bytes? mnemonic operands = some b' → b = b' := by
    intro f _ g _ b b' hf hg
    obtain rfl := (bytes?_eq_some_iff.mp hf).1.unique (bytes?_eq_some_iff.mp hg).1
    exact Option.some.inj (hf.symm.trans hg)
  rw [first?, findSome?_eq_some_iff_of_unique hunique]
  simp only [bytes?_eq_some_iff]
  exact exists_congr fun f => and_iff_right_of_imp fun hf => htried f hf.1

end LineForm

/-! ## The assembler -/

theorem mem_ofMnemonic : i ∈ ofMnemonic mnemonic ↔ i.mnemonic = mnemonic := by
  simp [ofMnemonic, mem_members]

theorem encodeAll_singleton : encodeAll [(i, operands)] = i.encode operands := by
  simp only [encodeAll, List.mapM_cons, List.mapM_nil]
  cases i.encode operands with
  | error e => rfl
  | ok code => exact congrArg Except.ok (List.append_nil code)

/-- Without a composite the instructions of the mnemonic are tried in their order. -/
theorem assemble_of_composite?_eq_none (h : composite? mnemonic operands = none) :
    assemble mnemonic operands =
      match (ofMnemonic mnemonic).findSome? fun i => (i.encode operands).toOption with
      | some bytes => .ok bytes
      | none =>
        .error (if ofMnemonic mnemonic = [] then .unknownMnemonic mnemonic
          else .noMatchingForm mnemonic operands) := by
  unfold assemble encodeComposite?
  rw [h]
  cases ofMnemonic mnemonic <;> rfl

/-- All ways for a line to go: by a composite that it looks like, or else by an instruction that takes it, or
else by one of two errors. -/
theorem assemble_cases (mnemonic : String) (operands : List Operand) :
    (∃ c : Composite, c.mnemonic = mnemonic ∧ Resembles c.kinds operands ∧
      assemble mnemonic operands = encodeAll (c.parts operands)) ∨
    (∀ c : Composite, c.mnemonic = mnemonic → ¬ Resembles c.kinds operands) ∧
      ((∃ i : Instruction, i.mnemonic = mnemonic ∧ Fits i.kinds operands ∧
        assemble mnemonic operands = i.encode operands) ∨
      (∀ i : Instruction, i.mnemonic = mnemonic → ¬ Fits i.kinds operands) ∧
        ((∃ i : Instruction, i.mnemonic = mnemonic) ∧
          assemble mnemonic operands = .error (.noMatchingForm mnemonic operands) ∨
        (∀ i : Instruction, i.mnemonic ≠ mnemonic) ∧
          assemble mnemonic operands = .error (.unknownMnemonic mnemonic))) := by
  cases hcomposite : composite? mnemonic operands with
  | some parts =>
    obtain ⟨c, hmnemonic, hlooks, rfl⟩ := Composite.exists_of_composite? hcomposite
    refine .inl ⟨c, hmnemonic, hlooks, ?_⟩
    unfold assemble encodeComposite?
    rw [hcomposite]
    rfl
  | none =>
    refine .inr ⟨?_, ?_⟩
    · rintro c rfl hlooks
      rw [Composite.composite?_of_resembles hlooks] at hcomposite
      cases hcomposite
    rw [assemble_of_composite?_eq_none hcomposite]
    cases hfirst : (ofMnemonic mnemonic).findSome? fun i => (i.encode operands).toOption with
    | some bytes =>
      obtain ⟨i, hi, hbytes⟩ := List.exists_of_findSome?_eq_some hfirst
      rw [toOption_eq_some_iff] at hbytes
      exact .inl ⟨i, mem_ofMnemonic.mp hi, (encode_eq_ok_iff.mp hbytes).1, hbytes.symm⟩
    | none =>
      refine .inr ⟨fun i hi hfits => ?_, ?_⟩
      · have hnone := List.findSome?_eq_none_iff.mp hfirst i (mem_ofMnemonic.mpr hi)
        rw [encode_eq_ok_iff.mpr ⟨hfits, rfl⟩] at hnone
        cases hnone
      · by_cases hempty : ofMnemonic mnemonic = []
        · refine .inr ⟨fun i hi => ?_, congrArg Except.error (if_pos hempty)⟩
          exact List.not_mem_nil (hempty ▸ mem_ofMnemonic.mpr hi)
        · obtain ⟨i, hi⟩ := List.exists_mem_of_ne_nil _ hempty
          exact .inl ⟨⟨i, mem_ofMnemonic.mp hi⟩, congrArg Except.error (if_neg hempty)⟩

/-- A line is assembled exactly if a form takes it, by that form. -/
theorem assemble_eq_ok_iff : assemble mnemonic operands = .ok bytes ↔
    ∃ f : LineForm, f.Takes mnemonic operands ∧ encodeAll (f.parts operands) = .ok bytes := by
  rcases assemble_cases mnemonic operands with
    ⟨c, hmnemonic, hlooks, hassemble⟩ | ⟨hnone, ⟨i, hmnemonic, hfits, hassemble⟩ | ⟨hno, herror⟩⟩
  · rw [hassemble]
    constructor
    · intro hbytes
      exact ⟨.composite c, ⟨hmnemonic, (c.fits_parts_iff hlooks).mp (exists_encodeAll_iff.mp ⟨bytes, hbytes⟩)⟩,
        hbytes⟩
    · rintro ⟨f, hf, hbytes⟩
      obtain rfl : f = .composite c :=
        LineForm.eq_of_resembles (hf.1.trans hmnemonic.symm) (resembles_of_fits hf.2) hlooks
      exact hbytes
  · rw [hassemble, ← encodeAll_singleton]
    constructor
    · exact fun hbytes => ⟨.single i, ⟨hmnemonic, hfits⟩, hbytes⟩
    · rintro ⟨f, hf, hbytes⟩
      obtain rfl : f = .single i := hf.unique ⟨hmnemonic, hfits⟩
      exact hbytes
  · refine iff_of_false ?_ ?_
    · rcases herror with ⟨-, herror⟩ | ⟨-, herror⟩ <;> simp [herror]
    · rintro ⟨i | c, hf, -⟩
      · exact hno i hf.1 hf.2
      · exact hnone c hf.1 (resembles_of_fits hf.2)

theorem exists_assemble_iff : (∃ bytes, assemble mnemonic operands = .ok bytes) ↔
    ∃ f : LineForm, f.Takes mnemonic operands := by
  simp only [assemble_eq_ok_iff]
  constructor
  · rintro ⟨_, f, hf, -⟩
    exact ⟨f, hf⟩
  · rintro ⟨f, hf⟩
    obtain ⟨bytes, hbytes⟩ := hf.exists_encodeAll
    exact ⟨bytes, f, hf, hbytes⟩

theorem LineForm.Takes.assemble_eq (h : f.Takes mnemonic operands) :
    assemble mnemonic operands = encodeAll (f.parts operands) := by
  obtain ⟨bytes, hbytes⟩ := h.exists_encodeAll
  rw [hbytes, assemble_eq_ok_iff]
  exact ⟨f, h, hbytes⟩

/-- The forms may be tried in any order. -/
theorem first?_eq_assemble {tried : List LineForm}
    (htried : ∀ f : LineForm, f.Takes mnemonic operands → f ∈ tried) :
    LineForm.first? tried mnemonic operands = (assemble mnemonic operands).toOption := by
  refine Option.ext fun bytes => ?_
  rw [LineForm.first?_eq_some_iff htried, toOption_eq_some_iff, assemble_eq_ok_iff]

/-- At most one form takes a line. The line is assembled exactly if one does, in whatever order the forms are
tried, and its bytes tell the instructions of that form with their operands. -/
theorem assemble_only_form (mnemonic : String) (operands : List Operand) :
    (∀ f g : LineForm, f.Takes mnemonic operands → g.Takes mnemonic operands → f = g) ∧
    (∀ tried : List LineForm, (∀ f : LineForm, f.mnemonic = mnemonic → f ∈ tried) →
      LineForm.first? tried mnemonic operands = (assemble mnemonic operands).toOption) ∧
    ((∃ bytes, assemble mnemonic operands = .ok bytes) ↔ ∃ f : LineForm, f.Takes mnemonic operands) ∧
    ∀ (f : LineForm) (bytes : List UInt8), f.Takes mnemonic operands →
      assemble mnemonic operands = .ok bytes →
      (walk bytes).map Prod.snd = (f.parts operands).map Prod.fst ∧
      endFrom 0 (walk bytes) = bytes.length ∧
      disassemble bytes = (f.parts operands).map fun part => (part.1, some part.2) := by
  refine ⟨fun f g => LineForm.Takes.unique, fun tried htried => ?_, exists_assemble_iff, ?_⟩
  · exact first?_eq_assemble fun f hf => htried f hf.1
  · intro f bytes hf hbytes
    rw [hf.assemble_eq] at hbytes
    obtain ⟨codes, hcodes, rfl⟩ := encodeAll_eq_ok_iff.mp hbytes
    have hparts := disassemble_flatten hcodes
    refine ⟨?_, (walkFrom_flatten hcodes 0).2.trans (Nat.zero_add _), hparts⟩
    have hfirst := congrArg (List.map Prod.fst) hparts
    simpa only [disassemble, List.map_map, Function.comp_def] using hfirst

theorem assemble_only_form_ldpo :
    (LineForm.composite .ldpo).Takes "ldpo" [.imm 5, .register .b] ∧
    LineForm.first? LineForm.members.reverse "ldpo" [.imm 5, .register .b] = some [0x0A, 0x05, 0x0B, 0x09] ∧
    disassemble [0x0A, 0x05, 0x0B, 0x09] =
      [(pairOffsetLow, some [.imm 5]), (pairOffsetHigh, some []), (loadPairOffset, some [.register .b])] := by
  have htakes : (LineForm.composite .ldpo).Takes "ldpo" [.imm 5, .register .b] := by
    decide
  obtain ⟨-, hfirst, -, hbytes⟩ := assemble_only_form "ldpo" [.imm 5, .register .b]
  refine ⟨htakes, ?_, (hbytes _ _ htakes rfl).2.2⟩
  exact hfirst _ fun f _ => List.mem_reverse.mpr f.mem_members

/-! ## Errors -/

/-- All ways for a line to be refused. -/
theorem assemble_error_cases (h : assemble mnemonic operands = .error e) :
    (∃ c : Composite, c.mnemonic = mnemonic ∧ Resembles c.kinds operands ∧ FirstMisfit (c.parts operands) e) ∨
    (∀ c : Composite, c.mnemonic = mnemonic → ¬ Resembles c.kinds operands) ∧
      ((∃ i : Instruction, i.mnemonic = mnemonic) ∧ e = .noMatchingForm mnemonic operands ∨
      (∀ i : Instruction, i.mnemonic ≠ mnemonic) ∧ e = .unknownMnemonic mnemonic) := by
  rcases assemble_cases mnemonic operands with
    ⟨c, hmnemonic, hlooks, hassemble⟩ | ⟨hnone, ⟨i, -, hfits, hassemble⟩ | ⟨-, ⟨hi, hassemble⟩ | ⟨hno, hassemble⟩⟩⟩
  all_goals rw [hassemble] at h
  · exact .inl ⟨c, hmnemonic, hlooks, firstMisfit_of_encodeAll h (c.resembles_parts hlooks)⟩
  · rw [encode_eq_ok_iff.mpr ⟨hfits, rfl⟩] at h
    cases h
  · exact .inr ⟨hnone, .inl ⟨hi, (Except.error.inj h).symm⟩⟩
  · exact .inr ⟨hnone, .inr ⟨hno, (Except.error.inj h).symm⟩⟩

/-- Why a line is refused. No form takes it. If it looks like a composite, then the error names the part of the
composite and the operand there that does not fit. Otherwise the mnemonic is unknown exactly if no form has it,
unless composites alone have it. -/
theorem assemble_error (h : assemble mnemonic operands = .error e) :
    (∀ f : LineForm, ¬ f.Takes mnemonic operands) ∧
    (∀ c : Composite, c.mnemonic = mnemonic → Resembles c.kinds operands →
      FirstMisfit (c.parts operands) e) ∧
    (((∃ c : Composite, c.mnemonic = mnemonic) → (∃ i : Instruction, i.mnemonic = mnemonic) ∨
        ∃ c : Composite, c.mnemonic = mnemonic ∧ Resembles c.kinds operands) →
      (e = .unknownMnemonic mnemonic ↔ ∀ f : LineForm, f.mnemonic ≠ mnemonic) ∧
      (e = .noMatchingForm mnemonic operands ↔ (∃ f : LineForm, f.mnemonic = mnemonic) ∧
        ∀ c : Composite, c.mnemonic = mnemonic → ¬ Resembles c.kinds operands)) := by
  refine ⟨fun f hf => ?_, ?_⟩
  · obtain ⟨bytes, hbytes⟩ := exists_assemble_iff.mpr ⟨f, hf⟩
    rw [hbytes] at h
    cases h
  rcases assemble_error_cases h with
    ⟨c, hmnemonic, hlooks, hmisfit⟩ | ⟨hnone, ⟨⟨i, hi⟩, rfl⟩ | ⟨hno, rfl⟩⟩
  · obtain ⟨_, i, _, _, k, -, -, -, rfl⟩ := id hmisfit
    refine ⟨fun d hd hlooksD => ?_, fun _ => ⟨iff_of_false nofun fun hall => hall (.composite c) hmnemonic,
      iff_of_false nofun fun hall => hall.2 c hmnemonic hlooks⟩⟩
    obtain rfl : c = d :=
      LineForm.composite.inj (LineForm.eq_of_resembles (hmnemonic.trans hd.symm) hlooks hlooksD)
    exact hmisfit
  · exact ⟨fun c hc hlooks => absurd hlooks (hnone c hc), fun _ =>
      ⟨iff_of_false nofun fun hall => hall (.single i) hi, iff_of_true rfl ⟨⟨.single i, hi⟩, hnone⟩⟩⟩
  · refine ⟨fun c hc hlooks => absurd hlooks (hnone c hc), fun hkept => ?_⟩
    have hall : ∀ f : LineForm, f.mnemonic ≠ mnemonic := by
      rintro (i | c) hf
      · exact hno i hf
      · rcases hkept ⟨c, hf⟩ with ⟨i, hi⟩ | ⟨d, hd, hlooks⟩
        · exact hno i hi
        · exact hnone d hd hlooks
    exact ⟨iff_of_true rfl hall, iff_of_false nofun fun hsome => hsome.1.elim hall⟩

/-- The mnemonic of a composite and of an instruction, and operands for neither. -/
theorem assemble_error_xchg :
    assemble "xchg" [.register .a, .imm 3] = .error (.noMatchingForm "xchg" [.register .a, .imm 3]) ∧
    (∀ f : LineForm, ¬ f.Takes "xchg" [.register .a, .imm 3]) ∧
    ∀ c : Composite, c.mnemonic = "xchg" → ¬ Resembles c.kinds [.register .a, .imm 3] := by
  have h : assemble "xchg" [.register .a, .imm 3] = .error (.noMatchingForm "xchg" [.register .a, .imm 3]) := rfl
  obtain ⟨hno, -, hkept⟩ := assemble_error h
  obtain ⟨-, hmatching⟩ := hkept fun _ => .inl ⟨.xchgMem, rfl⟩
  exact ⟨h, hno, (hmatching.mp rfl).2⟩

/-- A line that looks like a composite does not fail as other lines do. -/
theorem assemble_addp_wide : (∃ f : LineForm, f.mnemonic = "addp") ∧
    (∀ f : LineForm, ¬ f.Takes "addp" [.register .x]) ∧
    assemble "addp" [.register .x] = .error (.operandMismatch .addReg 0) := by
  have h : assemble "addp" [.register .x] = .error (.operandMismatch .addReg 0) := rfl
  refine ⟨⟨.composite .addpReg, rfl⟩, fun f hf => ?_, h⟩
  obtain ⟨bytes, hbytes⟩ := exists_assemble_iff.mpr ⟨f, hf⟩
  rw [hbytes] at h
  cases h

end Microcomputer
