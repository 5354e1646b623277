import Microcomputer.Listing.Reader
import Microcomputer.Proofs.Text.Numeral

/-!
# Encoded text

A text is stored in UTF-8. Reading its bytes gives the text, and a line feed is the only character that has
the byte of a line feed in its code, so bytes are cut into lines where the text is.
-/

namespace Microcomputer.Text

/-! ## Texts on one line -/

/-- The text has no line feed. -/
def OneLine (text : String) : Prop :=
  '\n' ∉ text.toList

variable {text : String} {texts : List String}

instance : Decidable (OneLine text) :=
  inferInstanceAs (Decidable (¬_))

theorem oneLine_append {s t : String} : OneLine (s ++ t) ↔ OneLine s ∧ OneLine t := by
  simp [OneLine, not_or]

theorem oneLine_decimal (n : Nat) : OneLine (decimal n) :=
  fun h => (isDigit_of_mem_decimal h).ne.2.2.2 rfl

theorem oneLine_hex (width n : Nat) : OneLine (hex width n) :=
  fun h => (isDigit_of_mem_hex h).ne.2.2.2 rfl

/-! ## Bytes -/

/-- The bytes of a text. -/
def encode (text : String) : List UInt8 :=
  text.toUTF8.data.toList

/-- The byte that ends a line. -/
def lineFeed : UInt8 :=
  .ofNat '\n'.toNat

theorem encode_eq_flatMap (text : String) : encode text = text.toList.flatMap String.utf8EncodeChar := by
  obtain ⟨cs, rfl⟩ := text.exists_eq_ofList
  rw [encode, String.toUTF8_eq_toByteArray, String.toByteArray_ofList, String.toList_ofList, List.utf8Encode,
    List.toList_data_toByteArray]

theorem encode_append (s t : String) : encode (s ++ t) = encode s ++ encode t := by
  rw [encode_eq_flatMap, encode_eq_flatMap, encode_eq_flatMap, String.toList_append, List.flatMap_append]

theorem eq_lineFeed_of_mem {c : Char} (h : lineFeed ∈ String.utf8EncodeChar c) : c = '\n' := by
  have hbyte (n : Nat) (hn : lineFeed = UInt8.ofNat n) : 10 = n % 256 := congrArg UInt8.toNat hn
  simp only [String.utf8EncodeChar] at h
  -- In a code of several bytes all of them are above those of single ones.
  split at h
  · have hvalue := hbyte _ (List.mem_singleton.mp h)
    apply Char.ext
    apply UInt32.toNat_inj.mp
    show c.val.toNat = 10
    omega
  · exfalso
    split at h
    · simp only [List.mem_cons, List.not_mem_nil, or_false] at h
      rcases h with h | h <;> have := hbyte _ h <;> omega
    · split at h
      · simp only [List.mem_cons, List.not_mem_nil, or_false] at h
        rcases h with h | h | h <;> have := hbyte _ h <;> omega
      · simp only [List.mem_cons, List.not_mem_nil, or_false] at h
        rcases h with h | h | h | h <;> have := hbyte _ h <;> omega

theorem oneLine_of_notMem_encode (h : lineFeed ∉ encode text) : OneLine text := by
  intro hmem
  rw [encode_eq_flatMap, List.mem_flatMap] at h
  exact h ⟨'\n', hmem, by decide⟩

theorem encode_ofList_cons (c : Char) (cs : List Char) :
    encode (String.ofList (c :: cs)) = String.utf8EncodeChar c ++ encode (String.ofList cs) := by
  simp only [encode_eq_flatMap, String.toList_ofList, List.flatMap_cons]

theorem encode_prefix {s t : String} (h : s.toList <+: t.toList) : encode s <+: encode t := by
  obtain ⟨rest, hrest⟩ := h
  rw [encode_eq_flatMap, encode_eq_flatMap, ← hrest, List.flatMap_append]
  exact List.prefix_append _ _

theorem encodeChar_prefix_encode {c : Char} (h : c ∈ text.toList.head?) :
    String.utf8EncodeChar c <+: encode text := by
  obtain ⟨cs, hcs⟩ := List.head?_eq_some_iff.mp h
  rw [encode_eq_flatMap, hcs, List.flatMap_cons]
  exact List.prefix_append _ _

/-- No code of a character begins with the code of another. -/
theorem eq_of_encodeChar_prefix {c d : Char} {bytes : List UInt8} (hc : String.utf8EncodeChar c <+: bytes)
    (hd : String.utf8EncodeChar d <+: bytes) : c = d := by
  have hfirst {e : Char} (h : String.utf8EncodeChar e <+: bytes) :
      bytes.toByteArray.utf8DecodeChar? 0 = some e := by
    obtain ⟨rest, rfl⟩ := h
    rw [List.toByteArray_append, ByteArray.utf8DecodeChar?_utf8EncodeChar_append]
  exact Option.some.inj ((hfirst hc).symm.trans (hfirst hd))

/-! ## Lines -/

section

variable {α : Type} [BEq α] [LawfulBEq α] {a : α} {xs piece : List α}

theorem splitOn_append_of_notMem (h : a ∉ xs) (ys : List α) :
    (xs ++ ys).splitOn a = (ys.splitOn a).modifyHead (xs ++ ·) := by
  induction xs with
  | nil =>
    obtain ⟨v, vs, hsplit⟩ := List.exists_cons_of_ne_nil (List.splitOn_ne_nil a ys)
    simp [hsplit]
  | cons x xs ih =>
    rw [List.mem_cons, not_or] at h
    rw [List.cons_append, List.splitOn_cons_eq_if_modifyHead, if_neg (by simpa using Ne.symm h.1), ih h.2,
      List.modifyHead_modifyHead]
    rfl

theorem notMem_of_mem_splitOn (h : piece ∈ xs.splitOn a) : a ∉ piece := by
  induction xs generalizing piece with
  | nil => simp_all
  | cons x xs ih =>
    rw [List.splitOn_cons_eq_if_modifyHead] at h
    split at h
    next =>
      rcases List.mem_cons.mp h with rfl | h
      · exact List.not_mem_nil
      · exact ih h
    next hx =>
      obtain ⟨v, vs, hsplit⟩ := List.exists_cons_of_ne_nil (List.splitOn_ne_nil a xs)
      rw [hsplit] at ih h
      rcases List.mem_cons.mp h with rfl | h
      · rw [List.mem_cons, not_or]
        exact ⟨fun heq => hx (beq_iff_eq.mpr heq.symm), ih List.mem_cons_self⟩
      · exact ih (List.mem_cons_of_mem v h)

end

/-- The lines of a text. What follows the last line feed is one of them, if only an empty one. -/
def lines (text : String) : List String :=
  (text.toList.splitOn '\n').map String.ofList

theorem lines_join (h : ∀ text ∈ texts, OneLine text) :
    lines (String.join (texts.map (· ++ "\n"))) = texts ++ [""] := by
  induction texts with
  | nil => rfl
  | cons text texts ih =>
    rw [List.forall_mem_cons] at h
    have hchars : (String.join ((text :: texts).map (· ++ "\n"))).toList =
        text.toList ++ '\n' :: (String.join (texts.map (· ++ "\n"))).toList := by
      simp [String.join_cons]
    rw [lines, hchars, List.splitOn_append_cons_self_of_not_mem h.1, List.map_cons, ← lines, ih h.2,
      String.ofList_toList]
    rfl

/-- The bytes of a text are cut where the text is. -/
theorem splitOn_encode (text : String) : (encode text).splitOn lineFeed = (lines text).map encode := by
  obtain ⟨cs, rfl⟩ := text.exists_eq_ofList
  rw [lines, String.toList_ofList]
  induction cs with
  | nil => rfl
  | cons c cs ih =>
    rw [encode_ofList_cons, List.splitOn_cons_eq_if_modifyHead]
    split
    next hc =>
      have hcode : String.utf8EncodeChar c = [lineFeed] := by
        rw [eq_of_beq hc]
        rfl
      rw [hcode, List.singleton_append, List.splitOn_cons_eq_if_modifyHead, if_pos (by simp), ih]
      rfl
    next hc =>
      have hcode : lineFeed ∉ String.utf8EncodeChar c := fun h => hc (by simp [eq_lineFeed_of_mem h])
      obtain ⟨v, vs, hsplit⟩ := List.exists_cons_of_ne_nil (List.splitOn_ne_nil '\n' cs)
      rw [splitOn_append_of_notMem hcode, ih, hsplit, List.modifyHead_cons, List.map_cons, List.map_cons,
        List.map_cons, List.map_cons, List.modifyHead_cons, encode_ofList_cons]

/-! ## Reading -/

theorem decodeText_encode (text : String) : Listing.decodeText (encode text) = .ok text.toList := by
  have hbytes : (⟨(encode text).toArray⟩ : ByteArray) = text.toByteArray := rfl
  rw [Listing.decodeText, hbytes, String.fromUTF8?, dif_pos text.isValidUTF8]
  rfl

theorem exists_text_of_decodeText {bytes : List UInt8} {cs : List Char} (h : Listing.decodeText bytes = .ok cs) :
    ∃ text, encode text = bytes ∧ text.toList = cs := by
  unfold Listing.decodeText at h
  split at h
  next text htext =>
    refine ⟨text, ?_, Except.ok.inj h⟩
    unfold String.fromUTF8? at htext
    split at htext
    · rw [← Option.some.inj htext]
      rfl
    · cases htext
  next => cases h

end Microcomputer.Text
