import Microcomputer.Proofs.Machine.History

/-!
# The confinement of the stack pointer

SP stays in the highest 4096 addresses, whatever words the control store holds: a load of its high half
puts the upper four bits in and a step moves its low half alone. The high-water mark is the largest value
that a step up has led to since the last reset.
-/

namespace Microcomputer

/-! ## High-water marks -/

/-- The mark is the largest of the values, and zero if there are none. -/
structure HighWater (values : List UInt16) (mark : UInt16) : Prop where
  zero : values = [] → mark = 0
  mem : values ≠ [] → mark ∈ values
  le : ∀ a ∈ values, a ≤ mark

namespace HighWater

variable {values : List UInt16} {mark : UInt16}

theorem nil : HighWater [] 0 where
  zero _ := rfl
  mem h := absurd rfl h
  le _ ha := nomatch ha

theorem concat (h : HighWater values mark) (a : UInt16) : HighWater (values ++ [a]) (max mark a) := by
  have hne : values ++ [a] ≠ [] := List.append_ne_nil_of_right_ne_nil values (List.cons_ne_nil a [])
  have hmax : max mark a = if mark ≤ a then a else mark := rfl
  rw [hmax]
  split
  next hle =>
    refine ⟨fun hnil => absurd hnil hne, fun _ => ?_, List.forall_mem_append.mpr ⟨fun b hb => ?_, ?_⟩⟩
    · exact List.mem_append_right values List.mem_cons_self
    · exact UInt16.le_trans (h.le b hb) hle
    · exact List.forall_mem_singleton.mpr (UInt16.le_refl a)
  next hgt =>
    have hle : a ≤ mark := (UInt16.le_total mark a).resolve_left hgt
    have hvalues : values ≠ [] := by
      intro hnil
      rw [h.zero hnil] at hgt
      exact hgt UInt16.zero_le
    refine ⟨fun hnil => absurd hnil hne, fun _ => ?_, List.forall_mem_append.mpr ⟨h.le, ?_⟩⟩
    · exact List.mem_append_left [a] (h.mem hvalues)
    · exact List.forall_mem_singleton.mpr hle

end HighWater

/-! ## The stack region -/

/-- The address is one of those that a stack pointer can hold. -/
def OnStack (a : UInt16) : Prop :=
  stackAddress ≤ a ∧ a ≤ 0xFFFF

theorem RegisterPair.onStack_value {p : RegisterPair} (h : 0xF0 ≤ p.high) : OnStack p.value := by
  have hvalue := p.toNat_value
  have hlt := p.value.toNat_lt
  rw [UInt8.le_iff_toNat_le] at h
  constructor
  · rw [UInt16.le_iff_toNat_le]
    simp only [stackAddress, UInt16.reduceToNat, UInt8.reduceToNat] at h ⊢
    omega
  · rw [UInt16.le_iff_toNat_le]
    simp only [UInt16.reduceToNat]
    omega

namespace Machine

variable {σ : Type} {m : Machine} {seen : List (Machine × Cycle)}

/-- The stack pointer that a cycle steps up to. -/
def raised? (x : Machine × Cycle) : Option UInt16 :=
  if x.2.word.sink = .spPlus then some (x.1.advance x.2).sp.value else none

theorem maxSp_tick (m : Machine) : m.tick.maxSp = (raised? (m, m.sense)).elim m.maxSp (max m.maxSp) := by
  rw [tick, maxSp_advance, raised?]
  split
  · rfl
  · rfl

/-! ## One cycle -/

/-- SP is on the stack, has been there in all cycles since the last reset, and the high-water mark is that
of the steps up in these cycles. -/
structure Confined (m : Machine) (seen : List (Machine × Cycle)) : Prop where
  high : 0xF0 ≤ m.sp.high
  past : ∀ x ∈ seen, OnStack x.1.sp.value
  raised : ∀ a ∈ seen.filterMap raised?, OnStack a
  mark : HighWater (seen.filterMap raised?) m.maxSp

theorem confined_reset (m : Machine) : m.reset.Confined [] where
  high := show 0xF0 ≤ (RegisterPair.ofValue stackAddress).high by decide
  past _ hx := nomatch hx
  raised _ ha := nomatch ha
  mark := .nil

theorem onStack_of_raised? {a : UInt16} (h : 0xF0 ≤ m.sp.high) (ha : raised? (m, m.sense) = some a) :
    OnStack a := by
  unfold raised? at ha
  split at ha
  · rw [← Option.some.inj ha]
    exact RegisterPair.onStack_value (le_high_sp_tick h)
  · cases ha

theorem Confined.tick (h : m.Confined seen) : m.tick.Confined (seen ++ [(m, m.sense)]) := by
  have hhigh := le_high_sp_tick h.high
  have hpast : ∀ x ∈ seen ++ [(m, m.sense)], OnStack x.1.sp.value :=
    List.forall_mem_append.mpr
      ⟨h.past, List.forall_mem_singleton.mpr (RegisterPair.onStack_value h.high)⟩
  have hmark := m.maxSp_tick
  cases hraised : raised? (m, m.sense) with
  | none =>
    have hsame : (seen ++ [(m, m.sense)]).filterMap raised? = seen.filterMap raised? := by
      simp [hraised]
    rw [hraised] at hmark
    refine ⟨hhigh, hpast, ?_, ?_⟩
    · rw [hsame]
      exact h.raised
    · rw [hsame, hmark]
      exact h.mark
  | some a =>
    have hmore : (seen ++ [(m, m.sense)]).filterMap raised? = seen.filterMap raised? ++ [a] := by
      simp [hraised]
    rw [hraised] at hmark
    have hlast := onStack_of_raised? h.high hraised
    refine ⟨hhigh, hpast, ?_, ?_⟩
    · rw [hmore]
      exact List.forall_mem_append.mpr ⟨h.raised, List.forall_mem_singleton.mpr hlast⟩
    · rw [hmore, hmark]
      exact h.mark.concat a

theorem le_maxSp_tick (m : Machine) : m.maxSp ≤ m.tick.maxSp := by
  rw [maxSp_tick]
  cases raised? (m, m.sense) with
  | none => exact UInt16.le_refl _
  | some a =>
    show m.maxSp ≤ if m.maxSp ≤ a then a else m.maxSp
    split
    next h => exact h
    next => exact UInt16.le_refl _

/-! ## Any operations -/

theorem confined_after (store : Control.Store) (operations : List Operation) :
    ((ofStore store).after operations).Confined ((ofStore store).recentCycles operations) :=
  recentCycles_invariant confined_reset (fun _ _ h => h.tick)
    (fun _ _ _ _ _ h => ⟨h.high, h.past, h.raised, h.mark⟩) store operations

theorem le_maxSp_after (m : Machine) (operations : List Operation)
    (hkeep : ∀ operation ∈ operations, operation.resets = false) :
    m.maxSp ≤ (m.after operations).maxSp := by
  induction operations using List.reverseRecOn with
  | nil => exact UInt16.le_refl _
  | append_singleton operations operation ih =>
    have hbefore := ih fun x hx => hkeep x (List.mem_append_left _ hx)
    have hlast := hkeep operation (List.mem_append_right _ List.mem_cons_self)
    rw [after_concat]
    exact Operation.extends_invariant (P := fun n _ => m.maxSp ≤ n.maxSp)
      (fun n _ h => UInt16.le_trans h n.le_maxSp_tick) (fun _ _ _ _ _ h => h) hlast [] hbefore

/-- Over any control store and after any operations, SP is in the stack region and has been there in all
cycles. The high-water mark is zero if no cycle has stepped SP up since the last reset, and otherwise the
largest value that such a cycle has led to, which is in the stack region too; it does not become smaller
until the next reset. -/
theorem operate_confined (store : Control.Store) (operations : List Operation) (o : Observer σ) (s : σ) :
    let m := ((ofStore store).operate o s operations).1
    let cycles := (ofStore store).recentCycles operations
    let raised := cycles.filterMap raised?
    OnStack m.sp.value ∧ (∀ x ∈ cycles, OnStack x.1.sp.value) ∧
      (raised = [] → m.maxSp = 0) ∧
      (raised ≠ [] → (m.maxSp ∈ raised ∧ ∀ a ∈ raised, a ≤ m.maxSp) ∧ OnStack m.maxSp) ∧
      ∀ later, (∀ operation ∈ later, operation.resets = false) →
        m.maxSp ≤ (m.operate o s later).1.maxSp := by
  intro m cycles raised
  have hm : m = (ofStore store).after operations := machine_operate o _ s operations
  have h := confined_after store operations
  rw [← hm] at h
  refine ⟨RegisterPair.onStack_value h.high, h.past, h.mark.zero, fun hraised => ?_, fun later hkeep => ?_⟩
  · have hmem := h.mark.mem hraised
    exact ⟨⟨hmem, h.mark.le⟩, h.raised _ hmem⟩
  · rw [machine_operate]
    exact m.le_maxSp_after later hkeep

end Machine

end Microcomputer
