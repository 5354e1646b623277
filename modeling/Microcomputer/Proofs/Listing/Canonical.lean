import Mathlib.Tactic.Tauto
import Microcomputer.Proofs.Listing.Folding

/-!
# Folded data are canonical

In canonical data no run is short, none stands next to a token of its own byte, and no byte is given singly three
times in a row. Folding gives canonical data, and no two rows of canonical data stand for the same byte string.
-/

namespace Microcomputer.Listing

variable {bytes : List UInt8} {count : Nat} {b : UInt8} {token : Token} {tokens rest : List Token}

/-! ## Canonical data -/

/-- The byte that a token gives, once or repeatedly. -/
def Token.value : Token → UInt8
  | .byte value => value
  | .run _ value => value

/-- The token is a run. -/
def Token.isRun : Token → Bool
  | .byte _ => false
  | .run _ _ => true

/-- No run is shorter than three bytes or next to a token of its byte, and no byte is given singly three times in a
row. -/
@[mk_iff]
structure Canonical (tokens : List Token) : Prop where
  three_le : ∀ count b, .run count b ∈ tokens → 3 ≤ count.toNat
  value_ne : tokens.IsChain fun x y => x.isRun ∨ y.isRun → x.value ≠ y.value
  not_thrice : ∀ b, ¬[.byte b, .byte b, .byte b] <:+: tokens

theorem canonical_nil : Canonical [] := by
  simp [canonical_iff]

theorem canonical_cons_iff : Canonical (token :: tokens) ↔
    (∀ count b, token = .run count b → 3 ≤ count.toNat) ∧
      (∀ next ∈ tokens.head?, token.isRun ∨ next.isRun → token.value ≠ next.value) ∧
      (∀ b, ¬[.byte b, .byte b, .byte b] <+: token :: tokens) ∧ Canonical tokens := by
  simp only [canonical_iff, List.isChain_cons, List.infix_cons_iff, List.mem_cons, not_or, or_imp, forall_and,
    eq_comm (b := token)]
  tauto

theorem canonical_run_cons_iff {count : UInt32} : Canonical (.run count b :: tokens) ↔
    3 ≤ count.toNat ∧ (∀ next ∈ tokens.head?, b ≠ next.value) ∧ Canonical tokens := by
  simp [canonical_cons_iff, Token.isRun, Token.value, List.cons_prefix_cons]

theorem canonical_byte_cons_iff : Canonical (.byte b :: tokens) ↔
    (∀ next ∈ tokens.head?, next.isRun → b ≠ next.value) ∧ ¬[.byte b, .byte b] <+: tokens ∧ Canonical tokens := by
  simp [canonical_cons_iff, Token.isRun, Token.value, List.cons_prefix_cons]

theorem forall_value_ne_iff : (∀ next ∈ tokens.head?, b ≠ next.value) ↔
    (∀ next ∈ tokens.head?, next.isRun → b ≠ next.value) ∧ ¬[.byte b] <+: tokens := by
  cases tokens with
  | nil => simp
  | cons token tokens => cases token <;> simp [Token.isRun, Token.value, List.cons_prefix_cons]

/-- Runs that are not empty give their byte first. -/
theorem Canonical.head?_ne_iff (h : Canonical tokens) :
    (tokens.flatMap Token.bytes).head? ≠ some b ↔ ∀ next ∈ tokens.head?, b ≠ next.value := by
  cases tokens with
  | nil => simp
  | cons token tokens =>
    cases token with
    | byte value => simp [Token.bytes, Token.value, eq_comm (a := b)]
    | run count value =>
      have hthree := (canonical_run_cons_iff.mp h).1
      have hcount : count.toNat ≠ 0 := by omega
      simp [Token.bytes, Token.value, List.head?_append, List.head?_replicate, hcount, eq_comm (a := b)]

/-! ## Canonical data stretch by stretch -/

theorem Canonical.stretchTokens_append (h : Canonical rest) (hlt : count < UInt32.size)
    (hnext : ∀ next ∈ rest.head?, b ≠ next.value) : Canonical (stretchTokens count b ++ rest) := by
  unfold stretchTokens
  split
  next hthree =>
    rw [List.singleton_append, canonical_run_cons_iff, UInt32.toNat_ofNat', Nat.mod_eq_of_lt hlt]
    exact ⟨hthree, hnext, h⟩
  next hfew =>
    obtain ⟨hrun, hother⟩ := forall_value_ne_iff.mp hnext
    have hone : Canonical (.byte b :: rest) :=
      canonical_byte_cons_iff.mpr ⟨hrun, fun htwice => hother ((List.prefix_append [_] [_]).trans htwice), h⟩
    have hcount : count = 0 ∨ count = 1 ∨ count = 2 := by omega
    rcases hcount with rfl | rfl | rfl
    · exact h
    · exact hone
    · refine canonical_byte_cons_iff.mpr ⟨?_, fun htwice => hother (List.cons_prefix_cons.mp htwice).2, hone⟩
      rintro next ⟨⟩ ⟨⟩

theorem Canonical.exists_stretch (h : Canonical tokens) (hne : tokens ≠ []) : ∃ count b rest,
    tokens = stretchTokens count b ++ rest ∧ 0 < count ∧ count < UInt32.size ∧
      (∀ next ∈ rest.head?, b ≠ next.value) ∧ Canonical rest := by
  obtain ⟨token, tokens, rfl⟩ := List.exists_cons_of_ne_nil hne
  cases token with
  | run count b =>
    obtain ⟨hthree, hnext, htail⟩ := canonical_run_cons_iff.mp h
    refine ⟨count.toNat, b, tokens, ?_, by omega, count.toNat_lt, hnext, htail⟩
    rw [stretchTokens, if_pos hthree, UInt32.ofNat_toNat, List.singleton_append]
  | byte b =>
    obtain ⟨hrun, htwice, htail⟩ := canonical_byte_cons_iff.mp h
    by_cases hbyte : [.byte b] <+: tokens
    · obtain ⟨rest, rfl⟩ := hbyte
      obtain ⟨hrun, -, hrest⟩ := canonical_byte_cons_iff.mp htail
      refine ⟨2, b, rest, rfl, by decide, by decide, forall_value_ne_iff.mpr ⟨hrun, ?_⟩, hrest⟩
      exact fun hthrice => htwice (List.cons_prefix_cons.mpr ⟨rfl, hthrice⟩)
    · exact ⟨1, b, tokens, rfl, by decide, by decide, forall_value_ne_iff.mpr ⟨hrun, hbyte⟩, htail⟩

/-! ## Folding -/

theorem canonical_fold (h : Foldable bytes) : Canonical (fold bytes) := by
  -- By the length of the string, since a turn takes a whole stretch from it.
  induction hlength : bytes.length using Nat.strong_induction_on generalizing bytes with
  | _ n ih =>
    by_cases hne : bytes = []
    · rw [hne]
      exact canonical_nil
    · obtain ⟨count, b, after, hstretch⟩ := exists_isStretch hne
      have hafter : Foldable after := h.of_infix hstretch.infix_after
      have hrest : Canonical (fold after) := ih after.length (hlength ▸ hstretch.length_lt) hafter rfl
      have hnext : ∀ next ∈ (fold after).head?, b ≠ next.value := by
        rw [← hrest.head?_ne_iff, bytes_fold hafter]
        exact hstretch.head?_ne
      rw [hstretch.fold_eq]
      exact hrest.stretchTokens_append (hstretch.count_lt h) hnext

/-- Canonical data come back from the bytes that they stand for. -/
theorem Canonical.fold_bytes (h : Canonical tokens) : fold (tokens.flatMap Token.bytes) = tokens := by
  induction hlength : tokens.length using Nat.strong_induction_on generalizing tokens with
  | _ n ih =>
    by_cases hne : tokens = []
    · rw [hne]
      rfl
    · obtain ⟨count, b, rest, rfl, hpos, hlt, hnext, hrest⟩ := h.exists_stretch hne
      have hless : rest.length < n := by
        have hstretch := List.length_pos_iff.mpr (stretchTokens_ne_nil (b := b) hpos)
        rw [← hlength, List.length_append]
        omega
      rw [List.flatMap_append, bytes_stretchTokens hlt, fold_replicate_append (hrest.head?_ne_iff.mpr hnext),
        ih rest.length hless hrest rfl]

theorem dataLines_of_ne_nil (h : Foldable bytes) (hne : bytes ≠ []) : dataLines bytes = [.data (fold bytes)] := by
  unfold dataLines
  split
  next hnil =>
    have hfold := bytes_fold h
    rw [hnil] at hfold
    exact absurd hfold.symm hne
  next hcons => rw [hcons]

/-- A byte string is added as it is, as one line of data unless it is empty. In this line each stretch of equal
bytes is one run if it has three bytes or more and else a row of single bytes, and no other canonical data stand
for the string. -/
theorem pushData_canonical (listing : Listing) (h : Foldable bytes) :
    (listing.pushData bytes).bytes = listing.bytes ++ bytes ∧
      (bytes = [] → listing.pushData bytes = listing) ∧
      (bytes ≠ [] → ∃ tokens, listing.pushData bytes = listing.push (.data tokens) ∧
        (∀ before count b after, IsStretch bytes before count b after → ∃ left right,
          tokens = left ++ (stretchTokens count b ++ right) ∧
            left.flatMap Token.bytes = before ∧ right.flatMap Token.bytes = after) ∧
        Canonical tokens ∧
        ∀ other, Canonical other → other.flatMap Token.bytes = bytes → other = tokens) := by
  refine ⟨?_, ?_, fun hne => ⟨fold bytes, ?_, ?_, canonical_fold h, ?_⟩⟩
  · rw [Listing.bytes, pushData, List.flatMap_append, bytes_dataLines h, ← Listing.bytes]
  · rintro rfl
    exact congrArg Listing.mk (List.append_nil listing.lines)
  · rw [pushData, dataLines_of_ne_nil h hne, push]
  · intro before count b after hstretch
    exact ⟨fold before, fold after, hstretch.fold_eq, bytes_fold (h.of_infix hstretch.infix_before),
      bytes_fold (h.of_infix hstretch.infix_after)⟩
  · rintro other hother rfl
    exact hother.fold_bytes.symm

theorem pushData_canonical_runs :
    let listing : Listing := { lines := [.comment " idle"] }
    let bytes := [1, 1, 2, 0, 0, 0, 0]
    let tokens : List Token := [.byte 1, .byte 1, .byte 2, .run 4 0]
    Foldable bytes ∧ IsStretch bytes [1, 1, 2] 4 0 [] ∧ Canonical tokens ∧
      (listing.pushData bytes).bytes = listing.bytes ++ bytes ∧
      listing.pushData bytes = listing.push (.data tokens) ∧
      ∃ left right, tokens = left ++ (stretchTokens 4 0 ++ right) ∧
        left.flatMap Token.bytes = [1, 1, 2] ∧ right.flatMap Token.bytes = [] := by
  intro listing bytes tokens
  have hfold : Foldable bytes := foldable_of_length_lt (by decide)
  have hstretch : IsStretch bytes [1, 1, 2] 4 0 [] := ⟨rfl, by decide, by decide, by decide⟩
  have hcanonical : Canonical tokens := by
    simp [tokens, canonical_byte_cons_iff, canonical_run_cons_iff, canonical_nil, Token.isRun, Token.value]
  obtain ⟨hbytes, -, hline⟩ := pushData_canonical listing hfold
  obtain ⟨line, hpush, hstretches, -, hunique⟩ := hline (by decide)
  -- The only canonical data for these bytes are what is added.
  obtain rfl := hunique tokens hcanonical rfl
  exact ⟨hfold, hstretch, hcanonical, hbytes, hpush, hstretches _ _ _ _ hstretch⟩

end Microcomputer.Listing
