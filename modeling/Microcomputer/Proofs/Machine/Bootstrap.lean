import Mathlib.Data.List.GetD
import Microcomputer.Proofs.Listing.RoundTrip
import Microcomputer.Proofs.Machine.Memory

/-!
# From a file to the bootstrap region

A file holds a listing or the bytes themselves, and it is a listing if it starts with the header. Either way
its bytes are the image if they fit, and no machine refuses an image that was read. Reading a listing allows
blanks in front of the header, and a file that begins with one is an image of its own bytes all the same.
-/

namespace Microcomputer.Boot

open Text (encode isBlank)

variable {contents image : List UInt8} {listing : Listing}

/-! ## The image in a file -/

/-- The bytes as an image, if they fit. -/
def fit (bytes : List UInt8) : Except ImageError (List UInt8) :=
  if bytes.length ≤ bootSize then .ok bytes else .error (.bootSize bytes.length)

theorem fit_eq_ok_iff {bytes : List UInt8} : fit bytes = .ok image ↔ bytes.length ≤ bootSize ∧ bytes = image := by
  unfold fit
  split <;> simp_all

theorem fit_eq (bytes : List UInt8) :
    fit bytes = if bootSize < bytes.length then .error (.bootSize bytes.length) else .ok bytes := by
  simp only [fit, ← Nat.not_lt, ite_not]

theorem isListing_iff : isListing contents ↔ encode Listing.header <+: contents :=
  List.isPrefixOf_iff_prefix

theorem isListing_render (listing : Listing) : isListing (encode listing.render) := by
  rw [isListing_iff, Listing.render, List.map_cons, String.join_cons, Text.encode_append, Text.encode_append,
    List.append_assoc]
  exact List.prefix_append _ _

theorem ofContents_of_read (h : isListing contents) (hread : Listing.read contents = .ok listing) :
    ofContents contents = fit listing.bytes := by
  rw [ofContents, if_pos h, hread, fit_eq, Listing.length_bytes]

theorem ofContents_of_not_isListing (h : ¬isListing contents) : ofContents contents = fit contents := by
  rw [ofContents, if_neg h, fit_eq]

/-- The printed text of a listing gives its bytes. -/
theorem ofContents_render (h : ∀ line ∈ listing.lines, line.OneLine) :
    ofContents (encode listing.render) = fit listing.bytes := by
  rw [ofContents_of_read (isListing_render listing) (Listing.read_render_tidy h), Listing.bytes_tidy]

theorem length_le_of_ofContents (h : ofContents contents = .ok image) : image.length ≤ bootSize := by
  by_cases hlisting : isListing contents
  · cases hread : Listing.read contents with
    | error e =>
      rw [ofContents, if_pos hlisting, hread] at h
      cases h
    | ok listing =>
      rw [ofContents_of_read hlisting hread] at h
      obtain ⟨hfits, rfl⟩ := fit_eq_ok_iff.mp h
      exact hfits
  · rw [ofContents_of_not_isListing hlisting] at h
    obtain ⟨hfits, rfl⟩ := fit_eq_ok_iff.mp h
    exact hfits

/-- The image that the answer of a file system gives. -/
def ofAnswer : Except FileError (List UInt8) → Except ImageError (List UInt8)
  | .ok contents => ofContents contents
  | .error e => .error (.file e)

theorem read_eq_map {m : Type → Type} [Monad m] [LawfulMonad m] (files : FileSystem m) (path : String) :
    read files path = ofAnswer <$> files.read path := by
  rw [read, map_eq_pure_bind]
  refine bind_congr fun answer => ?_
  cases answer with
  | ok contents => rfl
  | error e => rfl

theorem length_le_of_ofAnswer {answer : Except FileError (List UInt8)} (h : ofAnswer answer = .ok image) :
    image.length ≤ bootSize := by
  cases answer with
  | ok contents => exact length_le_of_ofContents h
  | error e => cases h

/-! ## The image in memory -/

theorem exists_loadBoot (h : image.length ≤ bootSize) (m : Machine) :
    ∃ loaded, m.loadBoot image = .ok loaded ∧ ∀ a : UInt16,
      (∀ h : a.toNat < image.length, loaded.memory a = image[a.toNat]) ∧
      (image.length ≤ a.toNat → a.toNat < bootSize → loaded.memory a = 0) := by
  obtain ⟨loaded, hload, hboot⟩ : ∃ loaded, m.loadBoot image = .ok loaded ∧
      loaded.boot = Machine.bootOf image.toArray := ⟨_, m.loadBoot_of_le h, rfl⟩
  refine ⟨loaded, hload, fun a => ⟨fun hlt => ?_, fun hle hregion => ?_⟩⟩
  · rw [Machine.memory_of_lt (Nat.lt_of_lt_of_le hlt h) hboot, List.getD_eq_getElem image 0 hlt]
  · rw [Machine.memory_of_lt hregion hboot, List.getD_eq_default image 0 hle]

/-- A file with the printed text of a listing gives the bytes of the listing, and one that does not start with
the header gives its own bytes, unless they are too many. Every machine takes an image that was read: below its
length memory holds its bytes, and zeros from there to the end of the bootstrap region. -/
theorem read_gives_image {m : Type → Type} [Monad m] [LawfulMonad m] (files : FileSystem m) (path : String) :
    read files path = ofAnswer <$> files.read path ∧
    (∀ listing : Listing, (∀ line ∈ listing.lines, line.OneLine) →
      ofAnswer (.ok (encode listing.render)) =
        if listing.bytes.length ≤ bootSize then .ok listing.bytes else .error (.bootSize listing.bytes.length)) ∧
    (∀ contents, ¬encode Listing.header <+: contents → ofAnswer (.ok contents) =
      if contents.length ≤ bootSize then .ok contents else .error (.bootSize contents.length)) ∧
    ∀ answer image, ofAnswer answer = .ok image → ∀ machine : Machine,
      ∃ loaded, machine.loadBoot image = .ok loaded ∧ ∀ a : UInt16,
        (∀ h : a.toNat < image.length, loaded.memory a = image[a.toNat]) ∧
        (image.length ≤ a.toNat → a.toNat < bootSize → loaded.memory a = 0) := by
  refine ⟨read_eq_map files path, fun listing => ofContents_render, fun contents h => ?_,
    fun answer image h => exists_loadBoot (length_le_of_ofAnswer h)⟩
  exact ofContents_of_not_isListing fun hlisting => h (isListing_iff.mp hlisting)

/-- Lines without data and runs of nothing leave the bytes as they are. -/
theorem read_gives_image_short :
    let listing : Listing :=
      { lines := [.comment " boot ", .data [], .data [.run 0 7, .byte 3], .data [.run 3 255]] }
    let files : FileSystem Id :=
      { read := fun _ => .ok (encode listing.render), write := fun _ _ => .ok () }
    read files "boot.hex" = .ok [3, 255, 255, 255] ∧ ∀ machine : Machine,
      ∃ loaded, machine.loadBoot [3, 255, 255, 255] = .ok loaded ∧ loaded.memory 3 = 255 ∧ loaded.memory 4 = 0 := by
  intro listing files
  obtain ⟨hread, hlisting, -, hload⟩ := read_gives_image files "boot.hex"
  have himage : ofAnswer (.ok (encode listing.render)) = .ok [3, 255, 255, 255] :=
    hlisting listing (by decide)
  refine ⟨hread.trans himage, fun machine => ?_⟩
  obtain ⟨loaded, hloaded, hmemory⟩ := hload _ _ himage machine
  exact ⟨loaded, hloaded, (hmemory 3).1 (by decide), (hmemory 4).2 (by decide) (by decide)⟩

/-! ## Blanks around the header -/

/-- The contents begin with a blank. -/
def BlankFirst (contents : List UInt8) : Prop :=
  ∃ c, isBlank c = true ∧ String.utf8EncodeChar c <+: contents

theorem not_blankFirst {c : Char} (h : String.utf8EncodeChar c <+: contents) (hc : isBlank c = false) :
    ¬BlankFirst contents := by
  rintro ⟨d, hd, hprefix⟩
  rw [Text.eq_of_encodeChar_prefix h hprefix, hd] at hc
  cases hc

/-- Reading trims the first line, and the test for a listing does not. -/
theorem isListing_iff_of_read (hread : Listing.read contents = .ok listing) :
    isListing contents ↔ ¬BlankFirst contents := by
  rw [isListing_iff]
  constructor
  · intro hheader
    have hfirst : String.utf8EncodeChar 'v' <+: encode Listing.header := ⟨encode "2.0 raw", rfl⟩
    exact not_blankFirst (hfirst.trans hheader) rfl
  · intro hblank
    obtain ⟨first, hfirst, htrim⟩ := Listing.exists_header_of_read hread
    refine (Text.encode_prefix ?_).trans hfirst
    rw [← htrim]
    cases hcs : first.toList with
    | nil => exact List.nil_prefix
    | cons c cs =>
      have hc : isBlank c = false := by
        by_contra h
        have hcode : String.utf8EncodeChar c <+: encode first := Text.encodeChar_prefix_encode (by simp [hcs])
        exact hblank ⟨c, by simpa using h, hcode.trans hfirst⟩
      rw [Text.trim_cons hc, List.prefix_cons_inj]
      exact Text.trimEnd_prefix cs

/-- A file that is read as a listing gives the bytes of that listing if they fit, with blanks after the header
or without. If it begins with a blank it gives its own bytes. -/
theorem read_of_listing {m : Type → Type} [Monad m] [LawfulMonad m] (files : FileSystem m) (path : String)
    (hfile : files.read path = pure (.ok contents)) (hread : Listing.read contents = .ok listing) :
    (¬BlankFirst contents → read files path = pure
      (if listing.bytes.length ≤ bootSize then .ok listing.bytes else .error (.bootSize listing.bytes.length))) ∧
    (BlankFirst contents → read files path = pure
      (if contents.length ≤ bootSize then .ok contents else .error (.bootSize contents.length))) := by
  have hanswer : read files path = pure (ofContents contents) := by
    rw [read_eq_map, hfile, map_pure, ofAnswer]
  constructor
  · intro hblank
    rw [hanswer, ofContents_of_read ((isListing_iff_of_read hread).mpr hblank) hread, fit]
  · intro hblank
    rw [hanswer, ofContents_of_not_isListing fun h => (isListing_iff_of_read hread).mp h hblank, fit]

theorem read_of_listing_carriage_return :
    let files : FileSystem Id :=
      { read := fun _ => .ok (encode "v2.0 raw\r\n2*ff 7"), write := fun _ _ => .ok () }
    read files "boot.hex" = .ok [255, 255, 7] := by
  intro files
  have hread : Listing.read (encode "v2.0 raw\r\n2*ff 7") = .ok { lines := [.data [.run 2 255, .byte 7]] } := rfl
  have hfirst : String.utf8EncodeChar 'v' <+: encode "v2.0 raw\r\n2*ff 7" := ⟨encode "2.0 raw\r\n2*ff 7", rfl⟩
  exact (read_of_listing files "boot.hex" rfl hread).1 (not_blankFirst hfirst rfl)

/-- One space in front of the header makes twelve bytes of text out of an image of one byte. -/
theorem read_space_before_header :
    let contents := encode " v2.0 raw\n01"
    let files : FileSystem Id := { read := fun _ => .ok contents, write := fun _ _ => .ok () }
    (∃ listing, Listing.read contents = .ok listing ∧ listing.bytes = [1]) ∧
      read files "boot.hex" = .ok contents ∧ contents ≠ [1] := by
  intro contents files
  exact ⟨⟨{ lines := [.data [.byte 1]] }, rfl, rfl⟩, rfl, by decide⟩

end Microcomputer.Boot
