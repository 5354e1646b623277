import Mathlib.Data.List.Forall2
import Microcomputer.Attempt

/-!
# Computations that can fail

A chain of computations succeeds exactly if each of them does. An attempt that is made of others succeeds or
fails as the chain of these does.
-/

namespace Microcomputer

variable {ε α β : Type}

theorem bind_eq_ok_iff {x : Except ε α} {f : α → Except ε β} {b : β} :
    x >>= f = .ok b ↔ ∃ a, x = .ok a ∧ f a = .ok b := by
  cases x with
  | error e => simp [bind, Except.bind]
  | ok a => simp [bind, Except.bind]

theorem bind_eq_error_iff {x : Except ε α} {f : α → Except ε β} {e : ε} :
    x >>= f = .error e ↔ x = .error e ∨ ∃ a, x = .ok a ∧ f a = .error e := by
  cases x with
  | error e' => simp [bind, Except.bind]
  | ok a => simp [bind, Except.bind]

theorem foldlM_cons_eq_ok_iff {f : β → α → Except ε β} {a : α} {as : List α} {b c : β} :
    (a :: as).foldlM f b = .ok c ↔ ∃ b', f b a = .ok b' ∧ as.foldlM f b' = .ok c := by
  rw [List.foldlM_cons, bind_eq_ok_iff]

theorem mapM_eq_ok_iff {f : α → Except ε β} {as : List α} {bs : List β} :
    as.mapM f = .ok bs ↔ List.Forall₂ (fun a b => f a = .ok b) as bs := by
  induction as generalizing bs with
  | nil => simp [pure, Except.pure, eq_comm]
  | cons a as ih =>
    rw [List.mapM_cons, bind_eq_ok_iff, List.forall₂_cons_left_iff]
    refine exists_congr fun b => ?_
    simp only [bind_eq_ok_iff, ih, pure, Except.pure, Except.ok.injEq]
    constructor
    · rintro ⟨hb, bs', hbs, rfl⟩
      exact ⟨bs', hb, hbs, rfl⟩
    · rintro ⟨bs', hb, hbs, rfl⟩
      exact ⟨hb, bs', hbs, rfl⟩

theorem exists_of_mem_of_forall₂ {R : α → β → Prop} {as : List α} {bs : List β} {a : α}
    (h : List.Forall₂ R as bs) (ha : a ∈ as) : ∃ b ∈ bs, R a b := by
  induction h with
  | nil => cases ha
  | @cons a' b as bs hR hrest ih =>
    rcases List.mem_cons.mp ha with rfl | ha
    · exact ⟨b, List.mem_cons_self, hR⟩
    · obtain ⟨b', hb', hR'⟩ := ih ha
      exact ⟨b', List.mem_cons_of_mem b hb', hR'⟩

theorem exists_of_mem_of_mapM {f : α → Except ε β} {as : List α} {bs : List β} {b : β}
    (h : as.mapM f = .ok bs) (hb : b ∈ bs) : ∃ a ∈ as, f a = .ok b :=
  exists_of_mem_of_forall₂ (mapM_eq_ok_iff.mp h).flip hb

theorem exists_mapM_eq_ok_iff {f : α → Except ε β} {as : List α} :
    (∃ bs, as.mapM f = .ok bs) ↔ ∀ a ∈ as, ∃ b, f a = .ok b := by
  simp only [mapM_eq_ok_iff]
  induction as with
  | nil => simp
  | cons a as ih =>
    rw [List.forall_mem_cons, ← ih]
    constructor
    · rintro ⟨_, h⟩
      obtain ⟨b, bs, hb, hbs, rfl⟩ := List.forall₂_cons_left_iff.mp h
      exact ⟨⟨b, hb⟩, bs, hbs⟩
    · rintro ⟨⟨b, hb⟩, bs, hbs⟩
      exact ⟨b :: bs, .cons hb hbs⟩

theorem mapM_cons_eq_error_iff {f : α → Except ε β} {a : α} {as : List α} {e : ε} :
    (a :: as).mapM f = .error e ↔ f a = .error e ∨ (∃ b, f a = .ok b) ∧ as.mapM f = .error e := by
  simp only [List.mapM_cons, bind_eq_error_iff, pure, Except.pure, reduceCtorEq, and_false, exists_false,
    or_false, exists_and_right]

/-- A chain of computations fails as the first of them that fails does. -/
theorem mapM_eq_error_iff {f : α → Except ε β} {as : List α} {e : ε} : as.mapM f = .error e ↔
    ∃ before a after, as = before ++ a :: after ∧ (∀ x ∈ before, ∃ b, f x = .ok b) ∧ f a = .error e := by
  induction as with
  | nil => simp [pure, Except.pure]
  | cons a as ih =>
    rw [mapM_cons_eq_error_iff, ih]
    constructor
    · rintro (ha | ⟨ha, before, x, after, rfl, hbefore, hx⟩)
      · exact ⟨[], a, as, rfl, by simp, ha⟩
      · exact ⟨a :: before, x, after, rfl, List.forall_mem_cons.mpr ⟨ha, hbefore⟩, hx⟩
    · rintro ⟨before, x, after, heq, hbefore, hx⟩
      cases before with
      | nil =>
        cases heq
        exact .inl hx
      | cons y before =>
        cases heq
        rw [List.forall_mem_cons] at hbefore
        exact .inr ⟨hbefore.1, before, x, after, rfl, hbefore.2, hx⟩

/-- The first failure in a row that is numbered. -/
theorem mapM_zipIdx_eq_error_iff {f : α × Nat → Except ε β} {as : List α} {k : Nat} {e : ε} :
    (as.zipIdx k).mapM f = .error e ↔ ∃ before a after, as = before ++ a :: after ∧
      (∀ x ∈ before.zipIdx k, ∃ b, f x = .ok b) ∧ f (a, k + before.length) = .error e := by
  rw [mapM_eq_error_iff]
  constructor
  · rintro ⟨_, x, _, hsplit, hbefore, hx⟩
    obtain ⟨before, rest, rfl, rfl, hrest⟩ := List.zipIdx_eq_append_iff.mp hsplit
    cases rest with
    | nil => cases hrest
    | cons a after =>
      cases hrest
      exact ⟨before, a, after, rfl, hbefore, hx⟩
  · rintro ⟨before, a, after, rfl, hbefore, hx⟩
    exact ⟨_, _, _, List.zipIdx_append, hbefore, hx⟩

/-! ## Attempts -/

namespace Attempt

variable {σ : Type} {x : Attempt ε σ Unit} {s rest : σ} {e : ε}

theorem result_eq_ok_iff : x.result s = .ok rest ↔ x.run s = .ok () rest := by
  unfold result
  cases x.run s with
  | ok => simp
  | error => simp

theorem result_eq_error_iff : x.result s = .error e ↔ ∃ rest, x.run s = .error e rest := by
  unfold result
  cases x.run s with
  | ok => simp
  | error => simp

theorem after_of_result_eq_ok (h : x.result s = .ok rest) : x.after s = rest := by
  rw [after, result_eq_ok_iff.mp h]

theorem result_bind (x y : Attempt ε σ Unit) (s : σ) :
    (do x; y : Attempt ε σ Unit).result s = x.result s >>= y.result := by
  unfold result
  rw [EStateM.run_bind]
  cases x.run s with
  | ok => rfl
  | error => rfl

theorem result_modify (f : σ → σ) (s : σ) : (modify f : Attempt ε σ Unit).result s = .ok (f s) := by
  rw [result, EStateM.run_modify]

/-- Attempts in order come to the chain of what each of them comes to. -/
theorem result_forM (f : α → Attempt ε σ Unit) (as : List α) (s : σ) :
    (forM as f : Attempt ε σ Unit).result s = as.foldlM (fun s a => (f a).result s) s := by
  induction as generalizing s with
  | nil => rfl
  | cons a as ih =>
    rw [List.forM_cons, result_bind, List.foldlM_cons]
    exact bind_congr ih

end Attempt

end Microcomputer
