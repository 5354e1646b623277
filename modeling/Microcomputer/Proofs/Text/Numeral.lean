import Mathlib.Data.Nat.Digits.Defs
import Microcomputer.Proofs.Outcome
import Microcomputer.Proofs.Text.Blank
import Microcomputer.Text.Numeral

/-!
# Numerals that are read back

The numerals that are written consist of digits in lower case. Reading such a numeral gives the number, and
zeros in front do not change it. Of all texts exactly those are read that consist of one or more digits after
at most one plus sign.
-/

namespace Microcomputer.Text

variable {base bound n : Nat} {c : Char} {cs : List Char}

/-! ## Digits -/

/-- A digit of a base up to sixteen, in lower case. -/
def IsDigit (c : Char) : Prop :=
  ∃ d < 16, c = Nat.digitChar d

namespace IsDigit

theorem isBlank_eq (h : IsDigit c) : isBlank c = false := by
  have hall : ∀ d < 16, isBlank (Nat.digitChar d) = false := by
    decide
  obtain ⟨d, hd, rfl⟩ := h
  exact hall d hd

theorem ne (h : IsDigit c) : c ≠ '+' ∧ c ≠ '*' ∧ c ≠ '#' ∧ c ≠ '\n' := by
  have hall : ∀ d < 16, Nat.digitChar d ≠ '+' ∧ Nat.digitChar d ≠ '*' ∧ Nat.digitChar d ≠ '#' ∧
      Nat.digitChar d ≠ '\n' := by
    decide
  obtain ⟨d, hd, rfl⟩ := h
  exact hall d hd

end IsDigit

theorem isDigit_of_mem_toDigits (hbase : 1 < base) (hle : base ≤ 16) (h : c ∈ Nat.toDigits base n) :
    IsDigit c := by
  induction n using Nat.base_induction base hbase with
  | single m hm =>
    rw [Nat.toDigits_of_lt_base hm, List.mem_singleton] at h
    exact ⟨m, by omega, h⟩
  | digit m k hk hm ih =>
    rw [← Nat.toDigits_append_toDigits hbase hm hk, List.mem_append, Nat.toDigits_of_lt_base hk,
      List.mem_singleton] at h
    rcases h with h | h
    · exact ih h
    · exact ⟨k, by omega, h⟩

theorem isDigit_of_mem_decimal (h : c ∈ (decimal n).toList) : IsDigit c := by
  rw [decimal, String.toList_ofList] at h
  exact isDigit_of_mem_toDigits (by decide) (by decide) h

theorem isDigit_of_mem_hex {width : Nat} (h : c ∈ (hex width n).toList) : IsDigit c := by
  rw [hex, String.toList_ofList, List.leftpad, List.mem_append] at h
  rcases h with h | h
  · exact ⟨0, by decide, List.eq_of_mem_replicate h⟩
  · exact isDigit_of_mem_toDigits (by decide) (by decide) h

theorem toList_decimal_ne_nil (n : Nat) : (decimal n).toList ≠ [] := by
  simp [decimal]

theorem toList_hex_ne_nil (width n : Nat) : (hex width n).toList ≠ [] := by
  simp [hex, List.leftpad]

theorem unpadded_decimal (n : Nat) : Unpadded (decimal n) := by
  obtain ⟨c, hc⟩ := Option.isSome_iff_exists.mp (List.getLast?_isSome.mpr (toList_decimal_ne_nil n))
  exact ⟨c, hc, (isDigit_of_mem_decimal (List.mem_of_mem_getLast? hc)).isBlank_eq⟩

/-! ## Values -/

theorem digitValue?_digitChar (h : n < base) (hle : base ≤ 16) : digitValue? base n.digitChar = some n := by
  have hall : ∀ base ≤ 16, ∀ n < base, digitValue? base n.digitChar = some n := by
    decide
  exact hall base hle n h

theorem digitsValue?_append (value : Nat) (cs ds : List Char) : digitsValue? base value (cs ++ ds) =
    (digitsValue? base value cs).bind fun value => digitsValue? base value ds := by
  induction cs generalizing value with
  | nil => rfl
  | cons c cs ih =>
    rw [List.cons_append, digitsValue?, digitsValue?]
    cases digitValue? base c with
    | none => rfl
    | some digit => exact ih _

theorem digitsValue?_toDigits (hbase : 1 < base) (hle : base ≤ 16) (n : Nat) :
    digitsValue? base 0 (Nat.toDigits base n) = some n := by
  induction n using Nat.base_induction base hbase with
  | single m hm => simp [Nat.toDigits_of_lt_base hm, digitsValue?, digitValue?_digitChar hm hle]
  | digit m k hk hm ih =>
    rw [← Nat.toDigits_append_toDigits hbase hm hk, digitsValue?_append, ih, Nat.toDigits_of_lt_base hk]
    simp [digitsValue?, digitValue?_digitChar hk hle]

theorem digitsValue?_replicate (hbase : 1 < base) (hle : base ≤ 16) (k : Nat) (cs : List Char) :
    digitsValue? base 0 (List.replicate k '0' ++ cs) = digitsValue? base 0 cs := by
  have hzero : digitValue? base '0' = some 0 := digitValue?_digitChar (n := 0) (by omega) hle
  induction k with
  | zero => rfl
  | succ k ih => simpa [List.replicate_succ, digitsValue?, hzero] using ih

/-- A row of digits has no sign, so it is read as such. -/
theorem numeral?_of_isDigit (hne : cs ≠ []) (h : ∀ c ∈ cs, IsDigit c) :
    numeral? base cs = digitsValue? base 0 cs := by
  obtain ⟨c, cs, rfl⟩ := List.exists_cons_of_ne_nil hne
  obtain ⟨hsign, -⟩ := (h c List.mem_cons_self).ne
  unfold numeral?
  split
  next heq => exact absurd (List.cons.inj heq).1 hsign
  next => rfl

theorem numeralBelow?_decimal (h : n < bound) : numeralBelow? 10 bound (decimal n).toList = some n := by
  rw [numeralBelow?, numeral?_of_isDigit (toList_decimal_ne_nil n) fun c => isDigit_of_mem_decimal, decimal,
    String.toList_ofList, digitsValue?_toDigits (by decide) (by decide)]
  simp [h]

theorem hexByte?_hexByte (b : UInt8) : hexByte? (hexByte b).toList = some b := by
  have hlt : b.toNat < 256 := b.toNat_lt
  have hdigits : ∀ c ∈ (hex 2 b.toNat).toList, IsDigit c := fun c => isDigit_of_mem_hex
  rw [hexByte?, numeralBelow?, hexByte, numeral?_of_isDigit (toList_hex_ne_nil 2 _) hdigits, hex,
    String.toList_ofList, List.leftpad, digitsValue?_replicate (by decide) (by decide),
    digitsValue?_toDigits (by decide) (by decide), Option.filter_some, if_pos (decide_eq_true hlt)]
  exact congrArg some UInt8.ofNat_toNat

/-! ## All numerals -/

/-- The digits of a base, letters in either case. -/
def DigitOf (base : Nat) (c : Char) (d : Nat) : Prop :=
  d < base ∧ (c = d.digitChar ∨ c = d.digitChar.toUpper)

/-- The numerals of a base with their values: one or more digits, the most significant first, with or without a
plus sign in front. -/
def Numeral (base : Nat) (cs : List Char) (n : Nat) : Prop :=
  ∃ row digits, (cs = row ∨ cs = '+' :: row) ∧ row ≠ [] ∧ List.Forall₂ (DigitOf base) row digits ∧
    n = Nat.ofDigits base digits.reverse

variable {d value : Nat}

theorem eq_ofNat_of_le {m : Nat} (h : m ≤ c.toNat) : c = Char.ofNat (m + (c.toNat - m)) := by
  rw [Nat.add_sub_cancel' h, Char.ofNat_toNat]

theorem digitOf_of_digitValue? (h : digitValue? base c = some d) : DigitOf base c d := by
  have hdecimal : ∀ k < 10, Nat.digitChar k = Char.ofNat (48 + k) := by
    decide
  have hlower : ∀ k < 6, Nat.digitChar (k + 10) = Char.ofNat (97 + k) := by
    decide
  have hupper : ∀ k < 6, (Nat.digitChar (k + 10)).toUpper = Char.ofNat (65 + k) := by
    decide
  unfold digitValue? at h
  obtain ⟨hvalue, hd⟩ := Option.filter_eq_some_iff.mp h
  refine ⟨of_decide_eq_true hd, ?_⟩
  -- A character of one of the three ranges of digits is known by its place there.
  split at hvalue
  next hrange =>
    obtain ⟨hge, hle⟩ : 48 ≤ c.toNat ∧ c.toNat ≤ 57 := hrange
    cases hvalue
    exact .inl ((eq_ofNat_of_le hge).trans (hdecimal _ (by omega)).symm)
  next =>
    split at hvalue
    next hrange =>
      obtain ⟨hge, hle⟩ : 97 ≤ c.toNat ∧ c.toNat ≤ 102 := hrange
      cases hvalue
      exact .inl ((eq_ofNat_of_le hge).trans (hlower _ (by omega)).symm)
    next =>
      split at hvalue
      next hrange =>
        obtain ⟨hge, hle⟩ : 65 ≤ c.toNat ∧ c.toNat ≤ 70 := hrange
        cases hvalue
        exact .inr ((eq_ofNat_of_le hge).trans (hupper _ (by omega)).symm)
      next => cases hvalue

theorem digitValue?_eq_some_iff (hle : base ≤ 16) : digitValue? base c = some d ↔ DigitOf base c d := by
  constructor
  · exact digitOf_of_digitValue?
  · have hupper : ∀ base ≤ 16, ∀ d < base, digitValue? base d.digitChar.toUpper = some d := by
      decide
    rintro ⟨hd, rfl | rfl⟩
    · exact digitValue?_digitChar hd hle
    · exact hupper base hle d hd

/-- A digit that follows a value. -/
theorem ofDigits_reverse_cons (base value d : Nat) (digits : List Nat) :
    base ^ (d :: digits).length * value + Nat.ofDigits base (d :: digits).reverse =
      base ^ digits.length * (base * value + d) + Nat.ofDigits base digits.reverse := by
  rw [List.length_cons, List.reverse_cons, Nat.ofDigits_append, List.length_reverse, Nat.ofDigits_singleton]
  ring

theorem digitsValue?_eq_some_iff (hle : base ≤ 16) : digitsValue? base value cs = some n ↔
    ∃ digits, List.Forall₂ (DigitOf base) cs digits ∧
      n = base ^ digits.length * value + Nat.ofDigits base digits.reverse := by
  induction cs generalizing value with
  | nil => simp [digitsValue?, eq_comm]
  | cons c cs ih =>
    simp only [digitsValue?, List.forall₂_cons_left_iff]
    cases hdigit : digitValue? base c with
    | none =>
      simp only [reduceCtorEq, false_iff]
      rintro ⟨_, ⟨d, digits, hd, -, rfl⟩, -⟩
      cases hdigit.symm.trans ((digitValue?_eq_some_iff hle).mpr hd)
    | some d =>
      simp only [ih]
      constructor
      · rintro ⟨digits, hdigits, rfl⟩
        have hd := (digitValue?_eq_some_iff hle).mp hdigit
        exact ⟨d :: digits, ⟨d, digits, hd, hdigits, rfl⟩, (ofDigits_reverse_cons base value d digits).symm⟩
      · rintro ⟨_, ⟨d', digits, hd, hdigits, rfl⟩, rfl⟩
        cases hdigit.symm.trans ((digitValue?_eq_some_iff hle).mpr hd)
        exact ⟨digits, hdigits, ofDigits_reverse_cons base value d digits⟩

theorem unsigned?_eq_some_iff (hle : base ≤ 16) : unsigned? base cs = some n ↔
    ∃ digits, cs ≠ [] ∧ List.Forall₂ (DigitOf base) cs digits ∧ n = Nat.ofDigits base digits.reverse := by
  cases cs with
  | nil => simp [unsigned?]
  | cons c cs => simp [unsigned?, digitsValue?_eq_some_iff hle]

theorem DigitOf.ne (h : DigitOf base c d) (hle : base ≤ 16) : c ≠ '+' ∧ c ≠ '*' := by
  have hall : ∀ d < 16, (d.digitChar ≠ '+' ∧ d.digitChar ≠ '*') ∧
      d.digitChar.toUpper ≠ '+' ∧ d.digitChar.toUpper ≠ '*' := by
    decide
  obtain ⟨hd, rfl | rfl⟩ := h
  · exact (hall d (by omega)).1
  · exact (hall d (by omega)).2

theorem numeral?_eq_some_iff (hle : base ≤ 16) : numeral? base cs = some n ↔ Numeral base cs n := by
  unfold numeral? Numeral
  split
  next row =>
    rw [unsigned?_eq_some_iff hle]
    constructor
    · rintro ⟨digits, hne, hdigits, rfl⟩
      exact ⟨row, digits, .inr rfl, hne, hdigits, rfl⟩
    · rintro ⟨row', digits, rfl | hrow, hne, hdigits, rfl⟩
      · obtain ⟨d, -, hd⟩ := exists_of_mem_of_forall₂ hdigits List.mem_cons_self
        exact absurd rfl (hd.ne hle).1
      · cases hrow
        exact ⟨digits, hne, hdigits, rfl⟩
  next hsign =>
    rw [unsigned?_eq_some_iff hle]
    constructor
    · rintro ⟨digits, hne, hdigits, rfl⟩
      exact ⟨cs, digits, .inl rfl, hne, hdigits, rfl⟩
    · rintro ⟨row, digits, rfl | rfl, hne, hdigits, rfl⟩
      · exact ⟨digits, hne, hdigits, rfl⟩
      · exact absurd rfl (hsign row)

theorem numeralBelow?_eq_some_iff (hle : base ≤ 16) :
    numeralBelow? base bound cs = some n ↔ Numeral base cs n ∧ n < bound := by
  rw [numeralBelow?, Option.filter_eq_some_iff, numeral?_eq_some_iff hle, decide_eq_true_iff]

/-- The numerals of bytes are those with a value of at most 255. -/
theorem hexByte?_eq_some_iff {b : UInt8} : hexByte? cs = some b ↔ Numeral 16 cs b.toNat := by
  simp only [hexByte?, Option.map_eq_some_iff, numeralBelow?_eq_some_iff (Nat.le_refl 16)]
  constructor
  · rintro ⟨n, ⟨hn, hlt⟩, rfl⟩
    rwa [UInt8.toNat_ofNat', Nat.mod_eq_of_lt hlt]
  · intro h
    exact ⟨b.toNat, ⟨h, b.toNat_lt⟩, UInt8.ofNat_toNat⟩

theorem star_notMem_numeral (hle : base ≤ 16) (h : Numeral base cs n) : '*' ∉ cs := by
  obtain ⟨row, digits, hsign, -, hdigits, -⟩ := h
  have hrow : '*' ∉ row := by
    intro hmem
    obtain ⟨d, -, hd⟩ := exists_of_mem_of_forall₂ hdigits hmem
    exact (hd.ne hle).2 rfl
  rcases hsign with rfl | rfl
  · exact hrow
  · simpa using hrow

end Microcomputer.Text
