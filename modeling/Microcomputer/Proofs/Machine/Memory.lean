import Microcomputer.Proofs.Machine.History
import Microcomputer.Proofs.Machine.Words

/-!
# What memory holds

Below its end the bootstrap region shows the last image that was accepted, and no cycle can change it. Each
address above holds the byte that was last written to it since the reset, through whatever pointer it is
written and read.
-/

namespace Microcomputer.Machine

variable {σ : Type} {m : Machine} {c : Cycle} {a : UInt16} {seen : List (Machine × Cycle)}

/-! ## Images -/

/-- The bootstrap image that an operation brings in. -/
def Operation.image? : Operation → Option (List UInt8)
  | loadBoot image => if image.length ≤ bootSize then some image else none
  | _ => none

theorem bootOf_nil : bootOf #[] = Vector.replicate bootSize 0 :=
  Vector.ext fun k hk => by simp [bootOf]

theorem boot_result (operation : Operation) (m : Machine) : (operation.result m).boot =
    (operation.image?.map fun image => bootOf image.toArray).getD m.boot := by
  have htick (n : Machine) (h : n.boot = m.boot) : n.tick.boot = m.boot := boot_advance.trans h
  cases operation with
  | run n => exact runUntil_preserves (P := fun n => n.boot = m.boot) htick _ (by rfl) ()
  | step => exact finish_preserves (P := fun n => n.boot = m.boot) htick (by rfl) ()
  | setInput value =>
    obtain ⟨input, hinput⟩ := m.exists_input value
    show (m.setInput value).boot = m.boot
    rw [hinput]
  | loadBoot image =>
    show ((loading image).after m).boot = _
    rw [after_loading]
    rcases Nat.lt_or_ge bootSize image.length with h | h
    · rw [Operation.image?, if_pos h, if_neg (Nat.not_le.mpr h)]
      rfl
    · rw [Operation.image?, if_neg (Nat.not_lt.mpr h), if_pos h]
      rfl
  | pause => rfl
  | reset => rfl
  | stop => rfl

theorem boot_cycles (operation : Operation) (m : Machine) :
    ∀ x ∈ operation.cycles m, x.1.boot = m.boot :=
  operation.forall_cycles (P := fun n => n.boot = m.boot) (fun _ h => boot_advance.trans h)
    (fun _ _ h => h) rfl

theorem boot_after (store : Control.Store) (operations : List Operation) :
    ((ofStore store).after operations).boot =
      bootOf ((latest? Operation.image? operations).getD []).toArray := by
  induction operations using List.reverseRecOn with
  | nil => exact bootOf_nil.symm
  | append_singleton operations operation ih =>
    rw [after_concat, boot_result, ih, latest?_concat]
    cases operation.image? with
    | none => rfl
    | some image => rfl

/-! ## Memory by address -/

theorem memory_of_lt (h : a.toNat < bootSize) {image : List UInt8} (hboot : m.boot = bootOf image.toArray) :
    m.memory a = image.getD a.toNat 0 := by
  rw [memory, dif_pos h]
  simp [hboot, bootOf]

theorem memory_congr_of_le {n : Machine} (h : bootSize ≤ a.toNat) (hram : m.ram = n.ram) :
    m.memory a = n.memory a := by
  rw [memory, memory, dif_neg (Nat.not_lt.mpr h), dif_neg (Nat.not_lt.mpr h), hram]

theorem memory_congr_of_lt {n : Machine} (h : a.toNat < bootSize) (hboot : m.boot = n.boot) :
    m.memory a = n.memory a := by
  rw [memory, memory, dif_pos h, dif_pos h]
  simp only [hboot]

theorem memory_reset (m : Machine) (h : bootSize ≤ a.toNat) : m.reset.memory a = 0 := by
  rw [memory, dif_neg (Nat.not_lt.mpr h)]
  exact Vector.getElem_replicate _

/-! ## One cycle -/

theorem ram_advance :
    (m.advance c).ram = if c.word.sink = .ram then stored m.ram c.target c.primary else m.ram := by
  simp only [advance, load, writeMemory_eq]
  split <;> simp_all [countTick, countCycle, latch]

theorem getElem?_stored (ram : Vector UInt8 memorySize) (a : UInt16) (value : UInt8) {k : Nat}
    (hk : k < bootSize) : (stored ram a value).toList[k]? = ram.toList[k]? := by
  unfold stored
  split
  next => rfl
  next h =>
    have hne : (location a).val ≠ k := by
      rintro rfl
      exact h hk
    rw [Vector.toList_setIfInBounds, List.getElem?_set_ne hne]

/-- The RAM under the bootstrap region is empty. -/
def LowEmpty (m : Machine) : Prop :=
  ∀ k < bootSize, m.ram.toList[k]? = some 0

theorem lowEmpty_reset (m : Machine) : m.reset.LowEmpty := by
  intro k hk
  have hlt : k < memorySize := Nat.lt_of_lt_of_le hk (by decide)
  show (Vector.replicate memorySize (0 : UInt8)).toList[k]? = some 0
  rw [Vector.toList_replicate, List.getElem?_replicate_of_lt hlt]

theorem LowEmpty.tick (h : m.LowEmpty) : m.tick.LowEmpty := by
  intro k hk
  rw [Machine.tick, ram_advance]
  split
  next =>
    rw [getElem?_stored _ _ _ hk]
    exact h k hk
  next => exact h k hk

/-- The byte that a cycle writes to an address. -/
def written? (a : UInt16) (x : Machine × Cycle) : Option UInt8 :=
  if x.2.word.sink = .ram ∧ (x.1.pair x.2.word.pointer).value = a then some x.2.primary else none

/-- The byte that was last written to an address, zero if there is none. -/
def lastWritten (seen : List (Machine × Cycle)) (a : UInt16) : UInt8 :=
  (latest? (written? a) seen).getD 0

theorem memory_tick (h : bootSize ≤ a.toNat) :
    m.tick.memory a = (written? a (m, m.sense)).getD (m.memory a) := by
  by_cases hsink : m.sense.word.sink = .ram
  · have htick : m.tick = (m.countCycle.writeMemory m.sense.target m.sense.primary).countTick := by
      simp only [tick, advance, load, hsink]
    have hmemory : m.tick.memory a =
        (m.countCycle.writeMemory m.sense.target m.sense.primary).memory a := by
      rw [htick]
      rfl
    rw [hmemory, memory_writeMemory, written?]
    by_cases ha : (m.pair m.sense.word.pointer).value = a
    · subst ha
      rw [if_pos ⟨rfl, h⟩, if_pos ⟨hsink, rfl⟩]
      rfl
    · rw [if_neg fun hboth => ha hboth.1, if_neg fun hboth => ha hboth.2]
      rfl
  · rw [written?, if_neg fun hboth => hsink hboth.1]
    exact memory_advance hsink a

theorem Operation.memory_result {operation : Operation} (ha : bootSize ≤ a.toNat)
    (hkeep : operation.resets = false) (hcycles : ∀ x ∈ operation.cycles m, written? a x = none) :
    (operation.result m).memory a = m.memory a := by
  refine Operation.extends_invariant
    (P := fun n seen => (∀ x ∈ seen, written? a x = none) → n.memory a = m.memory a)
    (fun n seen h hseen => ?_) (fun n input boot running seen h hseen => ?_) hkeep [] (fun _ => rfl) hcycles
  · obtain ⟨hpast, hlast⟩ := List.forall_mem_append.mp hseen
    rw [memory_tick ha, hlast _ List.mem_cons_self]
    exact h hpast
  · have hsame : { n with input, boot, running }.memory a = n.memory a := memory_congr_of_le ha rfl
    exact hsame.trans (h hseen)

/-- The operations reset nothing, and none of their cycles writes to the address. -/
def Untouched (m : Machine) (a : UInt16) (operations : List Operation) : Prop :=
  ∀ entry ∈ m.timeline operations,
    entry.2.resets = false ∧ ∀ x ∈ entry.2.cycles entry.1, written? a x = none

theorem Untouched.memory {operations : List Operation} (h : m.Untouched a operations)
    (ha : bootSize ≤ a.toNat) : (m.after operations).memory a = m.memory a := by
  induction operations generalizing m with
  | nil => rfl
  | cons operation operations ih =>
    obtain ⟨⟨hkeep, hcycles⟩, hrest⟩ := List.forall_mem_cons.mp h
    exact (ih hrest).trans (Operation.memory_result ha hkeep hcycles)

/-- The RAM under the bootstrap region is empty, every address above holds what was last written to it,
now and in all cycles since the last reset, and these cycles have read what memory held. -/
structure Recalls (m : Machine) (seen : List (Machine × Cycle)) : Prop where
  low : m.LowEmpty
  high : ∀ a : UInt16, bootSize ≤ a.toNat → m.memory a = lastWritten seen a
  past : ∀ a : UInt16, bootSize ≤ a.toNat → ∀ earlier x, earlier ++ [x] <+: seen →
    x.1.memory a = lastWritten earlier a
  read : ∀ x ∈ seen, x.2.word.source = .ram →
    x.2.primary = x.1.memory (x.1.pair x.2.word.pointer).value

theorem recalls_reset (m : Machine) : m.reset.Recalls [] where
  low := m.lowEmpty_reset
  high a h := m.memory_reset h
  past a h earlier x hx := by
    rw [List.prefix_nil] at hx
    exact absurd hx (List.append_ne_nil_of_right_ne_nil earlier (List.cons_ne_nil x []))
  read x hx := nomatch hx

theorem Recalls.tick (h : m.Recalls seen) : m.tick.Recalls (seen ++ [(m, m.sense)]) := by
  refine ⟨h.low.tick, fun a ha => ?_, fun a ha earlier x hx => ?_,
    List.forall_mem_append.mpr ⟨h.read, List.forall_mem_singleton.mpr fun hsource => ?_⟩⟩
  · rw [memory_tick ha, h.high a ha, lastWritten, lastWritten, latest?_concat]
    cases written? a (m, m.sense) with
    | none => rfl
    | some value => rfl
  · rcases List.prefix_concat_iff.mp hx with hlast | hbefore
    · obtain ⟨rfl, hsame⟩ := List.append_inj' hlast rfl
      rw [List.singleton_inj.mp hsame]
      exact h.high a ha
    · exact h.past a ha earlier x hbefore
  · rw [primary_sense, primary, hsource]

theorem Recalls.set (h : m.Recalls seen) (input : UInt8) (boot : Vector UInt8 bootSize) (running : Bool) :
    { m with input, boot, running }.Recalls seen where
  low := h.low
  high a ha := by
    have hsame : { m with input, boot, running }.memory a = m.memory a := memory_congr_of_le ha rfl
    rw [hsame]
    exact h.high a ha
  past := h.past
  read := h.read

/-! ## Any operations -/

theorem recalls_after (store : Control.Store) (operations : List Operation) :
    ((ofStore store).after operations).Recalls ((ofStore store).recentCycles operations) :=
  recentCycles_invariant recalls_reset (fun _ _ h => h.tick)
    (fun _ input boot running _ h => h.set input boot running) store operations

/-- Over any control store and after any operations, the bootstrap region shows the last image that was
accepted, with zeros after its end, the RAM under it is empty, and every cycle of a further operation finds
both so. An image is accepted if it fits; one that does not changes nothing. Any address above holds, and
has held in every cycle, the byte that was last written to it since the last reset, zero if there is none,
and a read through any pointer finds the byte at its address. -/
theorem operate_memory (store : Control.Store) (operations : List Operation) (o : Observer σ) (s : σ) :
    let last := (ofStore store).operate o s operations
    let m := last.1
    let cycles := (ofStore store).recentCycles operations
    (∀ a : UInt16, a.toNat < bootSize →
      m.memory a = ((latest? Operation.image? operations).getD []).getD a.toNat 0 ∧
      m.ram.toList[a.toNat]? = some 0 ∧
      ∀ operation : Operation, ∀ x ∈ operation.cycles m,
        x.1.memory a = m.memory a ∧ x.1.ram.toList[a.toNat]? = some 0) ∧
    (∀ image : List UInt8,
      (image.length ≤ bootSize → ∃ loaded, m.loadBoot image = .ok loaded) ∧
      (bootSize < image.length → m.loadBoot image = .error (.bootSize image.length) ∧
        (Operation.loadBoot image).apply o last = last)) ∧
    (∀ a : UInt16, bootSize ≤ a.toNat → m.memory a = lastWritten cycles a ∧
      ∀ earlier x, earlier ++ [x] <+: cycles → x.1.memory a = lastWritten earlier a) ∧
    ∀ x ∈ cycles, x.2.word.source = .ram →
      x.2.primary = x.1.memory (x.1.pair x.2.word.pointer).value := by
  intro last m cycles
  have hm : m = (ofStore store).after operations := machine_operate o _ s operations
  have hboot : m.boot = bootOf ((latest? Operation.image? operations).getD []).toArray := by
    rw [hm]
    exact boot_after store operations
  have h := recalls_after store operations
  rw [← hm] at h
  have hlow (operation : Operation) : ∀ x ∈ operation.cycles m, x.1.LowEmpty :=
    operation.forall_cycles (fun _ h => h.tick) (fun _ _ h => h) h.low
  refine ⟨fun a ha => ⟨memory_of_lt ha hboot, h.low _ ha, fun operation x hx => ⟨?_, ?_⟩⟩,
    fun image => ⟨fun hfits => ⟨_, m.loadBoot_of_le hfits⟩, fun hlong => ⟨m.loadBoot_of_lt hlong, ?_⟩⟩,
    fun a ha => ⟨h.high a ha, h.past a ha⟩, h.read⟩
  · exact memory_congr_of_lt ha (boot_cycles operation m x hx)
  · exact hlow operation x hx _ ha
  · show ((loading image).after m, last.2) = last
    rw [after_loading, if_pos hlong]

end Microcomputer.Machine
