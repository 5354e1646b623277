import Mathlib.Data.List.SplitBy
import Mathlib.Data.List.TakeWhile
import Microcomputer.Listing.Basic

/-!
# Folding loses nothing

A byte string is cut into stretches of equal bytes, and the tokens of a stretch stand for its bytes as long
as the count of a run has room for its length. Wherever a stretch stands, its tokens stand between those of
what is before it and those of what follows.
-/

namespace Microcomputer.Listing

variable {bytes before after part stretch : List UInt8} {count : Nat} {b : UInt8}

/-! ## Byte strings that can be folded -/

/-- No byte repeats so often in a row that the count of a run has no room for it. -/
def Foldable (bytes : List UInt8) : Prop :=
  ∀ count b, List.replicate count b <:+: bytes → count < UInt32.size

theorem foldable_of_length_lt (h : bytes.length < UInt32.size) : Foldable bytes := by
  intro count b hrepeat
  have hle := hrepeat.length_le
  rw [List.length_replicate] at hle
  exact Nat.lt_of_le_of_lt hle h

theorem Foldable.of_infix (h : Foldable bytes) (hpart : part <:+: bytes) : Foldable part :=
  fun count b hrepeat => h count b (hrepeat.trans hpart)

theorem exists_replicate_of_mem_splitBy (h : stretch ∈ bytes.splitBy (· == ·)) :
    ∃ b, stretch = List.replicate stretch.length b := by
  have hchain : stretch.IsChain (· = ·) := (List.isChain_of_mem_splitBy h).imp fun _ _ => eq_of_beq
  cases stretch with
  | nil => exact ⟨0, rfl⟩
  | cons b bs => exact ⟨b, List.isChain_eq_iff_eq_replicate.mp hchain b rfl⟩

/-! ## Tokens of a stretch -/

/-- The tokens of a byte that stands `count` times in a row: one run from three on, and else each byte for itself. -/
def stretchTokens (count : Nat) (b : UInt8) : List Token :=
  if 3 ≤ count then [.run (UInt32.ofNat count) b] else List.replicate count (.byte b)

theorem stretchTokens_ne_nil (h : 0 < count) : stretchTokens count b ≠ [] := by
  unfold stretchTokens
  split
  · exact List.cons_ne_nil _ _
  · simp [h.ne']

theorem foldStretch_replicate (count : Nat) (b : UInt8) :
    foldStretch (List.replicate count b) = stretchTokens count b := by
  cases count with
  | zero => rfl
  | succ n =>
    rw [List.replicate_succ, foldStretch, ← List.replicate_succ, List.length_replicate, List.map_replicate]
    rfl

theorem bytes_stretchTokens (h : count < UInt32.size) :
    (stretchTokens count b).flatMap Token.bytes = List.replicate count b := by
  unfold stretchTokens
  split
  · rw [List.flatMap_singleton, Token.bytes, UInt32.toNat_ofNat', Nat.mod_eq_of_lt h]
  · rw [List.flatMap_replicate]
    exact List.flatten_replicate_singleton

/-! ## Tokens of a byte string -/

/-- The tokens of a byte string stand for it, if no byte repeats too often for the count of a run. -/
theorem bytes_fold (h : Foldable bytes) : (fold bytes).flatMap Token.bytes = bytes := by
  have hstretch : ∀ stretch ∈ bytes.splitBy (· == ·),
      (foldStretch stretch).flatMap Token.bytes = id stretch := by
    intro stretch hs
    obtain ⟨b, hb⟩ := exists_replicate_of_mem_splitBy hs
    have hinfix : stretch <:+: bytes := by
      rw [← List.flatten_splitBy (· == ·) bytes]
      exact List.infix_of_mem_flatten hs
    have hlt : stretch.length < UInt32.size := h stretch.length b (hb ▸ hinfix)
    rw [hb, foldStretch_replicate, bytes_stretchTokens hlt, id]
  rw [fold, List.flatMap_assoc, List.flatMap_congr hstretch, List.flatMap_id]
  exact List.flatten_splitBy _ _

theorem bytes_dataLines (h : Foldable bytes) : (dataLines bytes).flatMap Line.bytes = bytes := by
  have hfold := bytes_fold h
  unfold dataLines
  split
  next hnil =>
    rw [hnil] at hfold
    exact hfold
  next token tokens hcons =>
    rw [hcons] at hfold
    rw [List.flatMap_singleton]
    exact hfold

theorem bytes_dataLines_of_length_lt (h : bytes.length < UInt32.size) :
    (dataLines bytes).flatMap Line.bytes = bytes :=
  bytes_dataLines (foldable_of_length_lt h)

theorem fold_append (h : ∀ x ∈ before.getLast?, ∀ y ∈ after.head?, x ≠ y) :
    fold (before ++ after) = fold before ++ fold after := by
  have hsplit : ∀ x ∈ before.getLast?, ∀ y ∈ after.head?, (x == y) = false :=
    fun x hx y hy => beq_eq_false_iff_ne.mpr (h x hx y hy)
  rw [fold, List.splitBy_append hsplit, List.flatMap_append, fold, fold]

theorem fold_replicate (count : Nat) (b : UInt8) : fold (List.replicate count b) = stretchTokens count b := by
  cases count with
  | zero => rfl
  | succ n =>
    have hchain : (List.replicate (n + 1) b).IsChain fun x y => (x == y) = true :=
      List.isChain_replicate_of_rel (n + 1) (beq_self_eq_true b)
    have hne : List.replicate (n + 1) b ≠ [] := List.cons_ne_nil b _
    rw [fold, List.splitBy_of_isChain hne hchain, List.flatMap_singleton, foldStretch_replicate]

theorem fold_replicate_append (h : after.head? ≠ some b) :
    fold (List.replicate count b ++ after) = stretchTokens count b ++ fold after := by
  rw [fold_append, fold_replicate]
  intro x hx y hy hxy
  have hb : x = b := List.eq_of_mem_replicate (List.mem_of_mem_getLast? hx)
  exact h (by rw [← hb, hxy, Option.mem_def.mp hy])

/-! ## Stretches -/

/-- Between `before` and `after` the byte `b` stands `count` times in a row, next to other bytes or none. -/
structure IsStretch (bytes before : List UInt8) (count : Nat) (b : UInt8) (after : List UInt8) : Prop where
  eq_append : bytes = before ++ (List.replicate count b ++ after)
  pos : 0 < count
  getLast?_ne : before.getLast? ≠ some b
  head?_ne : after.head? ≠ some b

theorem isStretch_takeWhile (b : UInt8) (bs : List UInt8) :
    IsStretch (b :: bs) [] ((b :: bs).takeWhile (· == b)).length b ((b :: bs).dropWhile (· == b)) where
  eq_append := by
    have hall : ∀ x ∈ (b :: bs).takeWhile (· == b), x = b := by
      intro x hx
      simpa using List.mem_takeWhile_imp hx
    rw [← List.eq_replicate_length.mpr hall, List.takeWhile_append_dropWhile, List.nil_append]
  pos := by simp
  getLast?_ne := by simp
  head?_ne := by
    intro hhead
    have hnot := List.head?_dropWhile_not (· == b) (b :: bs)
    rw [hhead] at hnot
    simp at hnot

theorem exists_isStretch (h : bytes ≠ []) : ∃ count b after, IsStretch bytes [] count b after := by
  obtain ⟨b, bs, rfl⟩ := List.exists_cons_of_ne_nil h
  exact ⟨_, b, _, isStretch_takeWhile b bs⟩

theorem IsStretch.length_lt (h : IsStretch bytes before count b after) : after.length < bytes.length := by
  have hpos := h.pos
  rw [h.eq_append, List.length_append, List.length_append, List.length_replicate]
  omega

theorem IsStretch.infix_before (h : IsStretch bytes before count b after) : before <:+: bytes :=
  h.eq_append ▸ (List.prefix_append before _).isInfix

theorem IsStretch.infix_after (h : IsStretch bytes before count b after) : after <:+: bytes := by
  rw [h.eq_append, ← List.append_assoc]
  exact (List.suffix_append _ after).isInfix

theorem IsStretch.count_lt (h : IsStretch bytes before count b after) (hfold : Foldable bytes) :
    count < UInt32.size :=
  hfold count b ⟨before, after, by rw [h.eq_append, List.append_assoc]⟩

theorem IsStretch.fold_eq (h : IsStretch bytes before count b after) :
    fold bytes = fold before ++ (stretchTokens count b ++ fold after) := by
  rw [h.eq_append, fold_append, fold_replicate_append h.head?_ne]
  intro x hx y hy hxy
  have hhead : (List.replicate count b ++ after).head? = some b := by
    simp [List.head?_append, List.head?_replicate, h.pos.ne']
  rw [hhead, Option.mem_some_iff] at hy
  exact h.getLast?_ne (by rw [hy, ← hxy, Option.mem_def.mp hx])

end Microcomputer.Listing
