import Mathlib.Data.List.Basic
import Mathlib.Data.List.Induction
import Microcomputer.Text.Blank

/-!
# Trimming and words

A text without a blank at either end is trimmed to itself, and what is left of any text has no blank there and
all of its words. Pieces without a blank that are put together with spaces come apart as words again.
-/

namespace Microcomputer.Text

variable {c : Char} {cs : List Char} {ws : List (List Char)}

/-! ## Trimming -/

theorem trimStart_eq (h : ∀ c ∈ cs.head?, isBlank c = false) : trimStart cs = cs := by
  cases cs with
  | nil => rfl
  | cons c cs => exact List.dropWhile_cons_of_neg (by simp [h c rfl])

theorem trimEnd_eq (h : ∀ c ∈ cs.getLast?, isBlank c = false) : trimEnd cs = cs := by
  rw [trimEnd, trimStart_eq (by rwa [List.head?_reverse]), List.reverse_reverse]

theorem trim_eq (hfirst : ∀ c ∈ cs.head?, isBlank c = false) (hlast : ∀ c ∈ cs.getLast?, isBlank c = false) :
    trim cs = cs := by
  rw [trim, trimStart_eq hfirst, trimEnd_eq hlast]

theorem trimEnd_cons (h : isBlank c = false) (cs : List Char) : trimEnd (c :: cs) = c :: trimEnd cs := by
  have hlast : trimStart [c] = [c] := trimStart_eq (by simp [h])
  rw [trimEnd, trimEnd, List.reverse_cons, trimStart, List.dropWhile_append, ← trimStart, ← trimStart, hlast]
  split
  next hempty => simp [List.isEmpty_iff.mp hempty]
  next => simp

theorem trim_cons (h : isBlank c = false) (cs : List Char) : trim (c :: cs) = c :: trimEnd cs := by
  rw [trim, trimStart_eq (by simp [h]), trimEnd_cons h]

theorem trimEnd_prefix (cs : List Char) : trimEnd cs <+: cs := by
  rw [← List.reverse_suffix, trimEnd, List.reverse_reverse]
  exact List.dropWhile_suffix isBlank

theorem isBlank_of_mem_head?_trimStart (h : c ∈ (trimStart cs).head?) : isBlank c = false := by
  have hdrop := List.head?_dropWhile_not isBlank cs
  rw [← trimStart, Option.mem_def.mp h] at hdrop
  simpa using hdrop

theorem isBlank_of_mem_head?_trim (h : c ∈ (trim cs).head?) : isBlank c = false := by
  rw [trim] at h
  cases hstart : trimStart cs with
  | nil =>
    rw [hstart] at h
    cases h
  | cons d ds =>
    have hhead : d ∈ (trimStart cs).head? := by simp [hstart]
    have hd := isBlank_of_mem_head?_trimStart hhead
    rw [hstart, trimEnd_cons hd] at h
    rwa [← Option.some.inj h]

theorem isBlank_of_mem_getLast?_trim (h : c ∈ (trim cs).getLast?) : isBlank c = false := by
  rw [trim, trimEnd, List.getLast?_reverse] at h
  exact isBlank_of_mem_head?_trimStart h

theorem mem_of_mem_trim (h : c ∈ trim cs) : c ∈ cs := by
  rw [trim, trimEnd, List.mem_reverse] at h
  have hend := (List.dropWhile_sublist isBlank).subset h
  exact (List.dropWhile_sublist isBlank).subset (List.mem_reverse.mp hend)

/-! ## Words -/

theorem words_cons_of_isBlank (h : isBlank c = true) (cs : List Char) : words (c :: cs) = words cs := by
  simp [words, List.splitOnP_cons_eq_if_modifyHead, h]

theorem words_concat_of_isBlank (h : isBlank c = true) (cs : List Char) : words (cs ++ [c]) = words cs := by
  simp [words, List.splitOnP_append_cons cs [] h]

theorem words_cons_ne_nil (h : isBlank c = false) (cs : List Char) : words (c :: cs) ≠ [] := by
  obtain ⟨w, ws, hsplit⟩ := List.exists_cons_of_ne_nil (List.splitOnP_ne_nil isBlank cs)
  simp [words, List.splitOnP_cons_eq_if_modifyHead, h, hsplit]

theorem words_trimStart (cs : List Char) : words (trimStart cs) = words cs := by
  induction cs with
  | nil => rfl
  | cons c cs ih =>
    by_cases h : isBlank c
    · rw [trimStart, List.dropWhile_cons_of_pos h, words_cons_of_isBlank h]
      exact ih
    · rw [trimStart, List.dropWhile_cons_of_neg h]

theorem words_trimEnd (cs : List Char) : words (trimEnd cs) = words cs := by
  induction cs using List.reverseRecOn with
  | nil => rfl
  | append_singleton cs c ih =>
    rw [trimEnd, List.reverse_append, List.reverse_singleton, List.singleton_append, trimStart]
    by_cases h : isBlank c
    · rw [List.dropWhile_cons_of_pos h, words_concat_of_isBlank h]
      exact ih
    · rw [List.dropWhile_cons_of_neg h, List.reverse_cons, List.reverse_reverse]

/-- Trimming takes no word. -/
theorem words_trim (cs : List Char) : words (trim cs) = words cs := by
  rw [trim, words_trimEnd, words_trimStart]

theorem words_eq_nil_iff : words cs = [] ↔ trim cs = [] := by
  rw [← words_trim cs]
  constructor
  · intro h
    cases htrim : trim cs with
    | nil => rfl
    | cons c rest =>
      have hhead : c ∈ (trim cs).head? := by simp [htrim]
      rw [htrim] at h
      exact absurd h (words_cons_ne_nil (isBlank_of_mem_head?_trim hhead) rest)
  · intro h
    rw [h, words_nil]

/-! ## Words with spaces between them -/

theorem words_of_forall (hne : cs ≠ []) (h : ∀ c ∈ cs, isBlank c = false) : words cs = [cs] := by
  simp [words, List.splitOnP_eq_singleton h, hne]

theorem words_append (hne : cs ≠ []) (h : ∀ c ∈ cs, isBlank c = false) (rest : List Char) :
    words (cs ++ ' ' :: rest) = cs :: words rest := by
  simp [words, List.splitOnP_append_cons_of_forall_mem h ' ' (by decide), hne]

theorem words_intercalate (hne : ∀ w ∈ ws, w ≠ []) (h : ∀ w ∈ ws, ∀ c ∈ w, isBlank c = false) :
    words ([' '].intercalate ws) = ws := by
  induction ws with
  | nil => simp
  | cons w ws ih =>
    rw [List.forall_mem_cons] at hne h
    have hrest := ih hne.2 h.2
    cases ws with
    | nil => simpa using words_of_forall hne.1 h.1
    | cons v ws =>
      rw [List.intercalate_cons_cons, List.append_assoc, List.singleton_append, words_append hne.1 h.1, hrest]

theorem exists_of_mem_head?_intercalate {c : Char} (hne : ∀ w ∈ ws, w ≠ [])
    (h : c ∈ ([' '].intercalate ws).head?) : ∃ w ∈ ws, c ∈ w := by
  cases ws with
  | nil => simp at h
  | cons w ws =>
    refine ⟨w, List.mem_cons_self, List.mem_of_mem_head? ?_⟩
    cases ws with
    | nil => simpa using h
    | cons v ws =>
      rw [List.intercalate_cons_cons, List.append_assoc] at h
      rwa [List.head?_append_of_ne_nil _ (hne w List.mem_cons_self)] at h

theorem exists_of_mem_getLast?_intercalate {c : Char} (hne : ∀ w ∈ ws, w ≠ [])
    (h : c ∈ ([' '].intercalate ws).getLast?) : ∃ w ∈ ws, c ∈ w := by
  induction ws with
  | nil => simp at h
  | cons w ws ih =>
    rw [List.forall_mem_cons] at hne
    cases ws with
    | nil => exact ⟨w, List.mem_cons_self, List.mem_of_mem_getLast? (by simpa using h)⟩
    | cons v ws =>
      have hrest : [' '].intercalate (v :: ws) ≠ [] := by
        cases ws <;> simp [hne.2 v List.mem_cons_self]
      rw [List.intercalate_cons_cons, List.getLast?_append_of_ne_nil _ hrest] at h
      obtain ⟨u, hu, hc⟩ := ih hne.2 h
      exact ⟨u, List.mem_cons_of_mem _ hu, hc⟩

theorem eq_or_exists_of_mem_intercalate {c : Char} (h : c ∈ [' '].intercalate ws) :
    c = ' ' ∨ ∃ w ∈ ws, c ∈ w := by
  induction ws with
  | nil => simp at h
  | cons w ws ih =>
    cases ws with
    | nil => exact .inr ⟨w, List.mem_cons_self, by simpa using h⟩
    | cons v ws =>
      rw [List.intercalate_cons_cons, List.mem_append, List.mem_append, List.mem_singleton] at h
      rcases h with (h | h) | h
      · exact .inr ⟨w, List.mem_cons_self, h⟩
      · exact .inl h
      · exact (ih h).imp_right fun ⟨u, hu, hc⟩ => ⟨u, List.mem_cons_of_mem _ hu, hc⟩

theorem trim_intercalate (hne : ∀ w ∈ ws, w ≠ []) (h : ∀ w ∈ ws, ∀ c ∈ w, isBlank c = false) :
    trim ([' '].intercalate ws) = [' '].intercalate ws := by
  apply trim_eq
  · intro c hc
    obtain ⟨w, hw, hmem⟩ := exists_of_mem_head?_intercalate hne hc
    exact h w hw c hmem
  · intro c hc
    obtain ⟨w, hw, hmem⟩ := exists_of_mem_getLast?_intercalate hne hc
    exact h w hw c hmem

/-! ## The end of a text -/

/-- The text ends in a character that is no blank. -/
def Unpadded (text : String) : Prop :=
  ∃ c ∈ text.toList.getLast?, isBlank c = false

theorem Unpadded.append {t : String} (h : Unpadded t) (s : String) : Unpadded (s ++ t) := by
  obtain ⟨c, hc, hblank⟩ := h
  refine ⟨c, ?_, hblank⟩
  rw [String.toList_append]
  exact List.mem_getLast?_append_of_mem_getLast? hc

end Microcomputer.Text
