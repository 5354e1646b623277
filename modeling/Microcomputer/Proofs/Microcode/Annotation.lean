import Microcomputer.Proofs.Listing.Folding
import Microcomputer.Proofs.Listing.RoundTrip
import Microcomputer.Proofs.Microcode.LifeCycle

/-!
# What the listing of a builder says

The bytes of the annotated listing are those of the words of all addresses in order, both banks in turn, and
its comments are on one line each if the names of the files are, so its text is read as the same listing.
-/

namespace Microcomputer.Control.Store

/-- The bytes of all addresses in order, that of bank 0 before that of bank 1. -/
def interleaved (store : Store) : List UInt8 :=
  (store.bank0.toList.zip store.bank1.toList).flatMap fun (byte0, byte1) => [byte0, byte1]

end Microcomputer.Control.Store

namespace Microcomputer.Microcode

open Control (Address Word)
open Listing (Line)
open Text (OneLine Unpadded)

variable {slot : Slot} {slots : List Slot} {e : Entry}

/-! ## Bytes -/

/-- The bytes that a slot has in the two banks. -/
def Slot.bytes (slot : Slot) : List UInt8 :=
  [slot.control.toBanks.1, slot.control.toBanks.2]

theorem bytes_idleLines {count : Nat} (h : 2 * count < UInt32.size) :
    (idleLines count).flatMap Line.bytes = List.replicate (2 * count) 0 := by
  unfold idleLines
  split
  next hzero =>
    rw [hzero]
    rfl
  next =>
    have hlength : (List.replicate (2 * count) (0 : UInt8)).length < UInt32.size := by
      rwa [List.length_replicate]
    exact Listing.bytes_dataLines_of_length_lt hlength

theorem length_bytes_slot (slot : Slot) : slot.bytes.length = 2 := rfl

theorem bytes_lines (e : Entry) (address : Nat) :
    (e.lines address).flatMap Line.bytes = (Slot.word e).bytes := by
  have hlength : (Slot.word e).bytes.length < UInt32.size := by
    rw [length_bytes_slot]
    decide
  exact Listing.bytes_dataLines_of_length_lt hlength

/-- The zeros of the addresses without a word that were passed, and the bytes of the slots. -/
theorem bytes_annotate (slots : List Slot) (address idle : Nat)
    (h : 2 * (idle + slots.length) < UInt32.size) : (annotate address idle slots).flatMap Line.bytes =
      List.replicate (2 * idle) 0 ++ slots.flatMap Slot.bytes := by
  induction slots generalizing address idle with
  | nil =>
    have hidle : 2 * idle < UInt32.size := h
    rw [annotate, bytes_idleLines hidle, List.flatMap_nil, List.append_nil]
  | cons slot slots ih =>
    rw [List.length_cons] at h
    -- An address without a word adds its two zeros to the gap before it.
    have hgap : (annotate (address + 1) (idle + 1) slots).flatMap Line.bytes =
        List.replicate (2 * idle) 0 ++ ([0, 0] ++ slots.flatMap Slot.bytes) := by
      rw [ih _ _ (by omega), Nat.mul_succ, ← List.replicate_append_replicate, List.append_assoc]
      rfl
    cases slot with
    | empty => exact hgap
    | idle => exact hgap
    | word e =>
      rw [annotate, List.flatMap_append, List.flatMap_append, bytes_idleLines (by omega), bytes_lines,
        ih _ _ (by omega), List.flatMap_cons, List.append_assoc]
      rfl

theorem getElem?_flatMap_bytes (slots : List Slot) (n : Nat) :
    (slots.flatMap Slot.bytes)[2 * n]? = (slots[n]?).map (fun slot => slot.control.toBanks.1) ∧
      (slots.flatMap Slot.bytes)[2 * n + 1]? = (slots[n]?).map (fun slot => slot.control.toBanks.2) := by
  induction slots generalizing n with
  | nil => exact ⟨rfl, rfl⟩
  | cons slot slots ih =>
    cases n with
    | zero => exact ⟨rfl, rfl⟩
    | succ n => exact ih n

/-! ## Comments -/

theorem oneLine_name (i : Instruction) : OneLine (Vocabulary.name i) := by
  cases i <;> decide

theorem oneLine_describe (w : Word) : OneLine w.describe := by
  have hsource : OneLine (Vocabulary.name w.source) := by
    cases w.source <;> decide
  have hsink : OneLine (Vocabulary.name w.sink) := by
    cases w.sink <;> decide
  have hside : OneLine (Vocabulary.name w.side) := by
    cases w.side <;> decide
  have hpointer : OneLine (Vocabulary.name w.pointer) := by
    cases w.pointer <;> decide
  have hbool : ∀ b, OneLine (Word.showBool b) := by
    decide
  unfold Word.describe
  simp only [Text.oneLine_append, and_assoc]
  exact ⟨by decide, hsource, by decide, hsink, by decide, hside, by decide, hpointer, by decide,
    Text.oneLine_decimal _, by decide, hbool _, by decide, hbool _, by decide⟩

/-- The name of the file of an origin has no line feed. -/
def Origin.OneLine (origin : Origin) : Prop :=
  Text.OneLine origin.file

theorem oneLine_render {origin : Origin} (h : origin.OneLine) : OneLine origin.render := by
  have hfile : Text.OneLine (origin.file.map fun c => if c = '\\' then '/' else c) := by
    rw [Text.OneLine, String.toList_map, List.mem_map]
    rintro ⟨c, hc, heq⟩
    split at heq
    · exact absurd heq (by decide)
    · exact h (heq ▸ hc)
  unfold Origin.render
  simp only [Text.oneLine_append, and_assoc]
  exact ⟨hfile, by decide, Text.oneLine_decimal origin.line⟩

theorem unpadded_render (origin : Origin) : Unpadded origin.render :=
  (Text.unpadded_decimal origin.line).append _

theorem oneLine_of_mem_linesFrom {line : Nat} {words : List Word} {s : Step} (h : s ∈ linesFrom line words) :
    s.origin.OneLine := by
  have hfile : Text.OneLine tableFile := by
    decide
  obtain ⟨x, -, rfl⟩ := List.mem_map.mp h
  exact hfile

theorem plain_of_mem_idleLines {count : Nat} {line : Line} (h : line ∈ idleLines count) : line.Plain := by
  unfold idleLines at h
  split at h
  · cases h
  · rcases List.mem_cons.mp h with rfl | h
    · apply Listing.plain_comment
      · simp only [Text.oneLine_append, and_assoc]
        exact ⟨by decide, Text.oneLine_decimal count, by decide⟩
      · exact Unpadded.append ⟨'e', rfl, rfl⟩ _
    · exact Listing.plain_of_mem_dataLines h

theorem plain_of_mem_lines {address : Nat} {line : Line} (he : e.origin.OneLine)
    (h : line ∈ e.lines address) : line.Plain := by
  rcases List.mem_cons.mp h with rfl | h
  · apply Listing.plain_comment
    · unfold Entry.describe
      simp only [Text.oneLine_append, and_assoc]
      exact ⟨by decide, Text.oneLine_hex 5 address, by decide, oneLine_name e.instruction, by decide,
        Text.oneLine_decimal e.step, by decide, oneLine_describe e.word, by decide, oneLine_render he⟩
    · exact (unpadded_render e.origin).append _
  · exact Listing.plain_of_mem_dataLines h

theorem plain_of_mem_annotate {address idle : Nat} {line : Line}
    (hslots : ∀ e, .word e ∈ slots → e.origin.OneLine) (h : line ∈ annotate address idle slots) :
    line.Plain := by
  induction slots generalizing address idle with
  | nil => exact plain_of_mem_idleLines h
  | cons slot slots ih =>
    have hrest := fun e he => hslots e (List.mem_cons_of_mem slot he)
    cases slot with
    | empty => exact ih hrest h
    | idle => exact ih hrest h
    | word e =>
      rw [annotate, List.mem_append, List.mem_append] at h
      rcases h with (h | h) | h
      · exact plain_of_mem_idleLines h
      · exact plain_of_mem_lines (hslots e List.mem_cons_self) h
      · exact ih hrest h

namespace Builder

variable {b : Builder} {ps : List Placement} {a : Address}

theorem bytes_listing (b : Builder) : b.listing.bytes = b.slots.toList.flatMap Slot.bytes := by
  have hlength : 2 * (0 + b.slots.toList.length) < UInt32.size := by
    rw [Vector.length_toList]
    decide
  exact bytes_annotate b.slots.toList 0 0 hlength

/-- The listing of a builder is its store with the banks interleaved. -/
theorem bytes_listing_eq_interleaved (b : Builder) : b.listing.bytes = b.store.interleaved := by
  rw [bytes_listing, Control.Store.interleaved, store, Vector.toList_map, Vector.toList_map, List.zip_map',
    List.flatMap_map]
  rfl

theorem length_bytes_listing (b : Builder) : b.listing.bytes.length = 65536 := by
  have hsum : (b.slots.toList.flatMap Slot.bytes).length = b.slots.toList.length * 2 := by
    simp [List.length_flatMap, length_bytes_slot]
  rw [bytes_listing, hsum, Vector.length_toList]
  rfl

theorem getElem?_bytes_listing (b : Builder) (a : Address) :
    b.listing.bytes[2 * a.val]? = some (b.slot a).control.toBanks.1 ∧
      b.listing.bytes[2 * a.val + 1]? = some (b.slot a).control.toBanks.2 := by
  have hslot : b.slots.toList[a.val]? = some (b.slot a) := by
    simp [slot]
  have hbytes := getElem?_flatMap_bytes b.slots.toList a.val
  rwa [← bytes_listing, hslot] at hbytes

/-! ## Claims -/

theorem Stage.control_of_claim (h : b.Stage ps) {p : Placement} {c : Claim} (hp : p ∈ ps)
    (hc : c ∈ p.claims) : (b.slot c.address).control = c.entry.word := by
  rw [h.slot_eq_word_iff.mpr ⟨p, hp, c, hc, rfl, rfl⟩]
  rfl

theorem Stage.control_of_unclaimed (h : b.Stage ps) (ha : ∀ p ∈ ps, ∀ c ∈ p.claims, c.address ≠ a) :
    (b.slot a).control = .idle := by
  cases hslot : b.slot a with
  | empty => rfl
  | idle => rfl
  | word e =>
    obtain ⟨p, hp, c, hc, haddress, -⟩ := h.slot_eq_word_iff.mp hslot
    exact absurd haddress (ha p hp c hc)

/-! ## The text -/

theorem exists_step_of_mem_claims {p : Placement} {c : Claim} (h : c ∈ p.claims) :
    ∃ s ∈ p.routine.steps, c.entry.origin = s.origin := by
  obtain ⟨carry, zero, hentry, -⟩ := Placement.mem_claims.mp h
  obtain ⟨-, s, hs, he⟩ := Placement.entryAt_eq_some_iff.mp hentry
  exact ⟨s, List.mem_of_getElem? hs, congrArg Entry.origin he⟩

theorem exists_slot_of_mem (h : slot ∈ b.slots.toList) : ∃ a, b.slot a = slot := by
  obtain ⟨n, hn, hslot⟩ := List.mem_iff_getElem.mp h
  rw [Vector.length_toList] at hn
  exact ⟨⟨n, hn⟩, hslot⟩

theorem Stage.read_render_listing (h : b.Stage ps)
    (horigin : ∀ p ∈ ps, ∀ s ∈ p.routine.steps, s.origin.OneLine) :
    Listing.read (Text.encode b.listing.render) = .ok b.listing := by
  have hslots : ∀ e, .word e ∈ b.slots.toList → e.origin.OneLine := by
    intro e he
    obtain ⟨a, hslot⟩ := exists_slot_of_mem he
    obtain ⟨p, hp, c, hc, -, rfl⟩ := h.slot_eq_word_iff.mp hslot
    obtain ⟨s, hs, hequal⟩ := exists_step_of_mem_claims hc
    rw [hequal]
    exact horigin p hp s hs
  exact Listing.read_render fun line => plain_of_mem_annotate hslots

theorem mem_placedIn {p : Placement} {operations : List BuilderOperation} (h : p ∈ b.placedIn operations) :
    (∃ r, .add r ∈ operations ∧ p = r.placed) ∨ ∃ opcode, p = noOperationAt opcode := by
  induction operations generalizing b with
  | nil => cases h
  | cons operation operations ih =>
    rw [placedIn, List.mem_append] at h
    rcases h with h | h
    · cases operation with
      | add r =>
        rw [placed] at h
        split at h
        · exact .inl ⟨r, List.mem_cons_self, List.mem_singleton.mp h⟩
        · cases h
      | finalize =>
        obtain ⟨opcode, -, rfl⟩ := List.mem_map.mp h
        exact .inr ⟨opcode, rfl⟩
    · rcases ih h with ⟨r, hr, hp⟩ | hfill
      · exact .inl ⟨r, List.mem_cons_of_mem _ hr, hp⟩
      · exact .inr hfill

theorem oneLine_of_mem_placedIn {p : Placement} {operations : List BuilderOperation}
    (h : ∀ r, .add r ∈ operations → ∀ s ∈ r.steps, s.origin.OneLine) (hp : p ∈ b.placedIn operations) :
    ∀ s ∈ p.routine.steps, s.origin.OneLine := by
  rcases mem_placedIn hp with ⟨r, hr, rfl⟩ | ⟨opcode, rfl⟩
  · exact h r hr
  · exact fun s => oneLine_of_mem_linesFrom

/-- Whatever was done to a new builder, its listing has two bytes for each address: those of the word that is
claimed for it, or zeros. A finished builder lists its store with the banks interleaved. If no step comes
from a file with a line feed in its name, the text of the listing is read as the listing. -/
theorem listing_operate (operations : List BuilderOperation) :
    let b := fresh.operate operations
    b.listing.bytes.length = 65536 ∧
      (∀ p ∈ fresh.placedIn operations, ∀ c ∈ p.claims,
        b.listing.bytes[2 * c.address.val]? = some c.entry.word.toBanks.1 ∧
          b.listing.bytes[2 * c.address.val + 1]? = some c.entry.word.toBanks.2) ∧
      (∀ a : Address, (∀ p ∈ fresh.placedIn operations, ∀ c ∈ p.claims, c.address ≠ a) →
        b.listing.bytes[2 * a.val]? = some 0 ∧ b.listing.bytes[2 * a.val + 1]? = some 0) ∧
      (∃ done, b.finalize = .ok done ∧ done.listing.bytes = done.store.interleaved) ∧
      ((∀ r, .add r ∈ operations → ∀ s ∈ r.steps, s.origin.OneLine) →
        Listing.read (Text.encode b.listing.render) = .ok b.listing) := by
  intro b
  have hstage := stage_operate operations
  refine ⟨length_bytes_listing b, ?claimed, ?unclaimed, ?finished, ?text⟩
  case claimed =>
    intro p hp c hc
    have hbytes := getElem?_bytes_listing b c.address
    rwa [hstage.control_of_claim hp hc] at hbytes
  case unclaimed =>
    intro a ha
    have hbytes := getElem?_bytes_listing b a
    rwa [hstage.control_of_unclaimed ha] at hbytes
  case finished =>
    obtain ⟨done, hdone, -⟩ := hstage.exists_finalize
    exact ⟨done, hdone, bytes_listing_eq_interleaved done⟩
  case text =>
    intro horigin
    exact hstage.read_render_listing fun p hp => oneLine_of_mem_placedIn horigin hp

/-- The word of a routine of one step, from a line of a file, stands at the first address of its opcode in
cycle 0, and zeros at that in cycle 1. -/
theorem listing_operate_line :
    let r : Routine := { instruction := .nop, steps := [{ word := fetch, origin := ⟨"src\\table", 7⟩ }] }
    let b := fresh.operate [.add r]
    (b.listing.bytes[0]? = some fetch.toBanks.1 ∧ b.listing.bytes[1]? = some fetch.toBanks.2) ∧
      (b.listing.bytes[8]? = some 0 ∧ b.listing.bytes[9]? = some 0) ∧
      Listing.read (Text.encode b.listing.render) = .ok b.listing := by
  intro r b
  obtain ⟨filled, hadd⟩ : ∃ filled, fresh.add r = .ok filled :=
    (holds_fresh.exists_place_iff (p := r.placed)).mpr ⟨by decide, by simp⟩
  have hplaced : fresh.placedIn [.add r] = [r.placed] := by
    simp [placedIn, placed, hadd]
  obtain ⟨-, hclaimed, hunclaimed, -, htext⟩ := listing_operate [.add r]
  rw [hplaced] at hclaimed hunclaimed
  have hclaim : ⟨0, 0, Control.address 0 0 false false, ⟨fetch, .nop, 0, "src\\table", 7⟩⟩ ∈
      r.placed.claims := List.mem_cons_self
  have hfirst : 2 * (Control.address 0 0 false false).val = 0 := rfl
  have hword := hclaimed r.placed List.mem_cons_self _ hclaim
  simp only [hfirst] at hword
  have hfree : ∀ p ∈ [r.placed], ∀ c ∈ p.claims, c.address ≠ Control.address 0 1 false false := by
    simp only [List.forall_mem_singleton]
    decide
  have hsecond : 2 * (Control.address 0 1 false false).val = 8 := rfl
  have hzero := hunclaimed _ hfree
  simp only [hsecond] at hzero
  refine ⟨hword, hzero, htext ?_⟩
  intro r' hr' s hs
  simp only [List.mem_singleton, BuilderOperation.add.injEq] at hr'
  subst hr'
  rw [List.mem_singleton.mp hs]
  have hfile : OneLine "src\\table" := by
    decide
  exact hfile

end Builder

end Microcomputer.Microcode
