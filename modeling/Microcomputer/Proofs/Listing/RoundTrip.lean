import Mathlib.Data.List.TakeDrop
import Mathlib.Data.List.TakeWhile
import Microcomputer.Proofs.Outcome
import Microcomputer.Proofs.Text.Blank
import Microcomputer.Proofs.Text.Encoding
import Microcomputer.Proofs.Text.Numeral

/-!
# Printed listings are read back

A line of a listing is printed on one line of text, unless it is a comment that has line feeds. Reading that
text gives the line without blanks at the end of a comment, and nothing if the line holds no data. The lines
that come back unchanged are exactly those that reading can give.
-/

namespace Microcomputer.Listing

open Text (encode isBlank IsDigit)

variable {token : Token} {tokens : List Token} {line : Line} {lines : List Line} {listing : Listing}
  {c : Char} {cs : List Char} {number : Nat} {contents : List UInt8}

/-! ## Tokens -/

theorem ne_star_of_notMem (h : '*' ∉ cs) : ∀ c ∈ cs, (c != '*') = true :=
  fun _ hc => bne_iff_ne.mpr fun heq => h (heq ▸ hc)

theorem span_of_notMem (h : '*' ∉ cs) : cs.span (· != '*') = (cs, []) := by
  have hall := ne_star_of_notMem h
  rw [List.span_eq_takeWhile_dropWhile, List.takeWhile_eq_self_iff.mpr hall,
    List.dropWhile_eq_nil_iff.mpr hall]

theorem span_append_star (h : '*' ∉ cs) (rest : List Char) :
    (cs ++ '*' :: rest).span (· != '*') = (cs, '*' :: rest) := by
  have hall := ne_star_of_notMem h
  rw [List.span_eq_takeWhile_dropWhile, List.takeWhile_append_of_pos hall, List.dropWhile_append_of_pos hall]
  simp

theorem star_notMem_hexByte (b : UInt8) : '*' ∉ (Text.hexByte b).toList :=
  fun h => (Text.isDigit_of_mem_hex h).ne.2.1 rfl

theorem star_notMem_decimal (n : Nat) : '*' ∉ (Text.decimal n).toList :=
  fun h => (Text.isDigit_of_mem_decimal h).ne.2.1 rfl

theorem toList_render_run (count : UInt32) (value : UInt8) : (Token.run count value).render.toList =
    (Text.decimal count.toNat).toList ++ '*' :: (Text.hexByte value).toList := by
  simp [Token.render]

theorem token?_render (token : Token) : token? token.render.toList = some token := by
  cases token with
  | byte value =>
    rw [token?, Token.render, span_of_notMem (star_notMem_hexByte value), Text.hexByte?_hexByte]
    rfl
  | run count value =>
    simp only [token?, toList_render_run, span_append_star (star_notMem_decimal _),
      Text.numeralBelow?_decimal count.toNat_lt, Text.hexByte?_hexByte, UInt32.ofNat_toNat]

theorem readToken_render (number : Nat) (token : Token) :
    readToken number token.render.toList = .ok token := by
  rw [readToken, token?_render]

theorem toList_render_ne_nil (token : Token) : token.render.toList ≠ [] := by
  cases token with
  | byte value => exact Text.toList_hex_ne_nil 2 value.toNat
  | run count value => simp [toList_render_run]

theorem isDigit_or_eq_of_mem_render (h : c ∈ token.render.toList) : IsDigit c ∨ c = '*' := by
  cases token with
  | byte value => exact .inl (Text.isDigit_of_mem_hex h)
  | run count value =>
    rw [toList_render_run, List.mem_append, List.mem_cons] at h
    rcases h with h | h | h
    · exact .inl (Text.isDigit_of_mem_decimal h)
    · exact .inr h
    · exact .inl (Text.isDigit_of_mem_hex h)

theorem isBlank_of_mem_render (h : c ∈ token.render.toList) : isBlank c = false := by
  rcases isDigit_or_eq_of_mem_render h with h | rfl
  · exact h.isBlank_eq
  · rfl

theorem ne_hash_of_mem_render (h : c ∈ token.render.toList) : c ≠ '#' := by
  rcases isDigit_or_eq_of_mem_render h with h | rfl
  · exact h.ne.2.2.1
  · decide

/-! ## Lines -/

/-- The line is data, or a comment without a line feed and without a blank at its end. -/
def Line.Plain : Line → Prop
  | .data tokens => tokens ≠ []
  | .comment text => Text.OneLine text ∧ ∀ c ∈ text.toList.getLast?, isBlank c = false

theorem plain_comment {text : String} (hline : Text.OneLine text) (hlast : Text.Unpadded text) :
    (Line.comment text).Plain := by
  obtain ⟨c, hc, hblank⟩ := hlast
  refine ⟨hline, fun d hd => ?_⟩
  rw [Option.mem_unique hd hc]
  exact hblank

theorem plain_of_mem_dataLines {bytes : List UInt8} {line : Line} (h : line ∈ dataLines bytes) :
    line.Plain := by
  unfold dataLines at h
  split at h
  · cases h
  · rw [List.mem_singleton.mp h]
    exact List.cons_ne_nil _ _

/-- The line is no comment with a line feed. -/
def Line.OneLine : Line → Prop
  | .data _ => True
  | .comment text => Text.OneLine text

instance : (line : Line) → Decidable line.OneLine
  | .data _ => isTrue trivial
  | .comment text => inferInstanceAs (Decidable (Text.OneLine text))

/-- What is read of a printed line. -/
def Line.tidy : Line → Option Line
  | .data [] => none
  | .data (token :: tokens) => some (.data (token :: tokens))
  | .comment text => some (.comment (String.ofList (Text.trimEnd text.toList)))

theorem Line.Plain.oneLine (h : line.Plain) : line.OneLine := by
  cases line with
  | data tokens => trivial
  | comment text => exact h.1

theorem Line.Plain.tidy_eq (h : line.Plain) : line.tidy = some line := by
  cases line with
  | data tokens =>
    obtain ⟨token, tokens, rfl⟩ := List.exists_cons_of_ne_nil h
    rfl
  | comment text => rw [Line.tidy, Text.trimEnd_eq h.2, String.ofList_toList]

theorem Line.bytes_tidy (line : Line) : (line.tidy.toList).flatMap Line.bytes = line.bytes := by
  cases line with
  | data tokens => cases tokens <;> simp [Line.tidy, Line.bytes]
  | comment text => rfl

/-- The words of a data line. -/
def Token.words (tokens : List Token) : List (List Char) :=
  tokens.map fun token => token.render.toList

theorem toList_render_data (tokens : List Token) :
    (Line.data tokens).render.toList = [' '].intercalate (Token.words tokens) := by
  simp [Line.render, Token.words, Function.comp_def]

theorem ne_nil_of_mem_words {w : List Char} (h : w ∈ Token.words tokens) : w ≠ [] := by
  obtain ⟨token, -, rfl⟩ := List.mem_map.mp h
  exact toList_render_ne_nil token

theorem isBlank_of_mem_words {w : List Char} (h : w ∈ Token.words tokens) : ∀ c ∈ w, isBlank c = false := by
  obtain ⟨token, -, rfl⟩ := List.mem_map.mp h
  exact fun c => isBlank_of_mem_render

theorem mapM_readToken (number : Nat) (tokens : List Token) :
    (Token.words tokens).mapM (readToken number) = .ok tokens := by
  rw [mapM_eq_ok_iff, Token.words, List.forall₂_map_left_iff, List.forall₂_same]
  exact fun token _ => readToken_render number token

theorem readText_render_data (h : tokens ≠ []) (number : Nat) :
    readText number (Line.data tokens).render.toList = .ok (some (.data tokens)) := by
  have hne : ∀ w ∈ Token.words tokens, w ≠ [] := fun w => ne_nil_of_mem_words
  have hblank : ∀ w ∈ Token.words tokens, ∀ c ∈ w, isBlank c = false := fun w => isBlank_of_mem_words
  have hwords := Text.words_intercalate hne hblank
  rw [readText, toList_render_data, Text.trim_intercalate hne hblank]
  -- The text is not empty and does not start as a comment does.
  split
  next hnil =>
    rw [hnil, Text.words_nil] at hwords
    exact absurd (List.map_eq_nil_iff.mp hwords.symm) h
  next comment hcons =>
    have hhead : '#' ∈ ([' '].intercalate (Token.words tokens)).head? := by
      rw [hcons]
      rfl
    obtain ⟨w, hw, hmem⟩ := Text.exists_of_mem_head?_intercalate hne hhead
    obtain ⟨token, -, rfl⟩ := List.mem_map.mp hw
    exact absurd rfl (ne_hash_of_mem_render hmem)
  next =>
    rw [hwords, mapM_readToken]
    rfl

theorem toList_render_comment (text : String) : (Line.comment text).render.toList = '#' :: text.toList := by
  simp [Line.render]

theorem readText_render (line : Line) (number : Nat) : readText number line.render.toList = .ok line.tidy := by
  cases line with
  | data tokens =>
    cases tokens with
    | nil => rfl
    | cons token tokens => exact readText_render_data (List.cons_ne_nil token tokens) number
  | comment text =>
    rw [readText, toList_render_comment, Text.trim_cons (by decide)]
    rfl

theorem oneLine_render (h : line.OneLine) : Text.OneLine line.render := by
  intro hmem
  cases line with
  | data tokens =>
    rw [toList_render_data] at hmem
    rcases Text.eq_or_exists_of_mem_intercalate hmem with hc | ⟨w, hw, hc⟩
    · exact absurd hc (by decide)
    · exact absurd (isBlank_of_mem_words hw _ hc) (by decide)
  | comment text =>
    rw [toList_render_comment, List.mem_cons] at hmem
    rcases hmem with hc | hc
    · exact absurd hc (by decide)
    · exact h hc

/-! ## Reading -/

theorem readLine_encode (number : Nat) (text : String) :
    readLine number (encode text) = readText number text.toList := by
  rw [readLine, Text.decodeText_encode]
  rfl

theorem mapM_readLine_encode (texts : List String) (number : Nat) :
    ((texts.map encode).zipIdx number).mapM (fun x => readLine x.2 x.1) =
      (texts.zipIdx number).mapM fun x => readText x.2 x.1.toList := by
  rw [List.zipIdx_map, List.mapM_map]
  simp only [Function.comp_def, Prod.map, id, readLine_encode]

theorem read_of_splitOn {first : List UInt8} {rest : List (List UInt8)}
    (h : contents.splitOn Text.lineFeed = first :: rest) : read contents = do
      readHeader first
      let lines? ← (rest.zipIdx 2).mapM fun x => readLine x.2 x.1
      return { lines := lines?.filterMap id } := by
  rw [read, ← Text.lineFeed, h]

theorem read_eq_ok_iff : read contents = .ok listing ↔ ∃ first rest lines?,
    contents.splitOn Text.lineFeed = first :: rest ∧ readHeader first = .ok () ∧
      (rest.zipIdx 2).mapM (fun x => readLine x.2 x.1) = .ok lines? ∧
      listing = { lines := lines?.filterMap id } := by
  obtain ⟨first, rest, hsplit⟩ := List.exists_cons_of_ne_nil (List.splitOn_ne_nil Text.lineFeed contents)
  simp only [read_of_splitOn hsplit, hsplit, bind_eq_ok_iff, pure, Except.pure, Except.ok.injEq,
    List.cons.injEq]
  constructor
  · rintro ⟨_, hheader, lines?, hlines, rfl⟩
    exact ⟨first, rest, lines?, ⟨rfl, rfl⟩, hheader, hlines, rfl⟩
  · rintro ⟨_, _, lines?, ⟨rfl, rfl⟩, hheader, hlines, rfl⟩
    exact ⟨(), hheader, lines?, hlines, rfl⟩

/-- A file that is read begins with a text that is the header but for blanks. -/
theorem exists_header_of_read (h : read contents = .ok listing) :
    ∃ first : String, encode first <+: contents ∧ Text.trim first.toList = header.toList := by
  obtain ⟨bytes, rest, -, hsplit, hheader, -, -⟩ := read_eq_ok_iff.mp h
  rw [readHeader, bind_eq_ok_iff] at hheader
  obtain ⟨cs, hcs, htrim⟩ := hheader
  obtain ⟨first, rfl, rfl⟩ := Text.exists_text_of_decodeText hcs
  refine ⟨first, ?_, ?_⟩
  · have hjoin : [Text.lineFeed].intercalate (contents.splitOn Text.lineFeed) = contents :=
      List.intercalate_splitOn _
    rw [← hjoin, hsplit]
    cases rest with
    | nil => simp
    | cons => simp [List.intercalate_cons_cons]
  · by_contra hne
    rw [if_pos hne] at htrim
    cases htrim

/-! ## Printed listings -/

/-- What is read of a printed listing. -/
def tidy (listing : Listing) : Listing where
  lines := listing.lines.filterMap Line.tidy

theorem tidy_eq (h : ∀ line ∈ listing.lines, line.Plain) : listing.tidy = listing := by
  have hlines : listing.lines.filterMap Line.tidy = listing.lines.filterMap some :=
    List.filterMap_congr fun line hline => (h line hline).tidy_eq
  rw [tidy, hlines, List.filterMap_some]

theorem bytes_tidy (listing : Listing) : listing.tidy.bytes = listing.bytes := by
  obtain ⟨lines⟩ := listing
  simp only [bytes, tidy]
  induction lines with
  | nil => rfl
  | cons line lines ih =>
    rw [List.flatMap_cons, ← line.bytes_tidy, ← ih]
    cases htidy : line.tidy <;> simp [htidy]

theorem lines_render (h : ∀ line ∈ listing.lines, line.OneLine) :
    Text.lines listing.render = header :: (listing.lines.map Line.render ++ [""]) := by
  refine Text.lines_join (List.forall_mem_cons.mpr ⟨by decide, fun text htext => ?_⟩)
  obtain ⟨line, hline, rfl⟩ := List.mem_map.mp htext
  exact oneLine_render (h line hline)

/-- The text of a listing ends in a line feed, and the nothing that follows it is a blank line. -/
theorem mapM_readLine_render (lines : List Line) (number : Nat) :
    (((lines.map Line.render ++ [""]).map encode).zipIdx number).mapM (fun x => readLine x.2 x.1) =
      .ok (lines.map Line.tidy ++ [none]) := by
  rw [mapM_readLine_encode, mapM_eq_ok_iff]
  induction lines generalizing number with
  | nil => exact .cons rfl .nil
  | cons line lines ih => exact .cons (readText_render line number) (ih (number + 1))

theorem readHeader_encode : readHeader (encode header) = .ok () := by
  rw [readHeader, Text.decodeText_encode]
  rfl

/-- The printed text of a listing is read, but for blanks at the ends of comments and lines without data. -/
theorem read_render_tidy (h : ∀ line ∈ listing.lines, line.OneLine) :
    read (encode listing.render) = .ok listing.tidy := by
  have hsplit := (Text.splitOn_encode listing.render).trans (congrArg (List.map encode) (lines_render h))
  refine read_eq_ok_iff.mpr ⟨_, _, _, hsplit, readHeader_encode, mapM_readLine_render listing.lines 2, ?_⟩
  simp [tidy, List.filterMap_map]

/-- The printed text of a listing of plain lines is read as the listing. -/
theorem read_render (h : ∀ line ∈ listing.lines, line.Plain) : read (encode listing.render) = .ok listing := by
  rw [read_render_tidy fun line hline => (h line hline).oneLine, tidy_eq h]

/-! ## Listings that were read -/

theorem plain_of_readText (hfeed : '\n' ∉ cs) (h : readText number cs = .ok (some line)) : line.Plain := by
  unfold readText at h
  split at h
  next => cases h
  next comment htrim =>
    cases h
    constructor
    · rw [Text.OneLine, String.toList_ofList]
      exact fun hmem => hfeed (Text.mem_of_mem_trim (by simp [htrim, hmem]))
    · intro c hc
      rw [String.toList_ofList] at hc
      have hlast : c ∈ (Text.trim cs).getLast? := by simp_all [List.getLast?_cons]
      exact Text.isBlank_of_mem_getLast?_trim hlast
  next hblank _ =>
    obtain ⟨tokens, htokens, heq⟩ := bind_eq_ok_iff.mp h
    cases heq
    rintro rfl
    have hwords : Text.words (Text.trim cs) = [] := List.forall₂_nil_right_iff.mp (mapM_eq_ok_iff.mp htokens)
    rw [Text.words_trim] at hwords
    exact hblank (Text.words_eq_nil_iff.mp hwords)

theorem plain_of_readLine (hfeed : Text.lineFeed ∉ contents) (h : readLine number contents = .ok (some line)) :
    line.Plain := by
  obtain ⟨cs, htext, hline⟩ := bind_eq_ok_iff.mp h
  obtain ⟨text, rfl, rfl⟩ := Text.exists_text_of_decodeText htext
  exact plain_of_readText (Text.oneLine_of_notMem_encode hfeed) hline

theorem plain_of_read (h : read contents = .ok listing) : ∀ line ∈ listing.lines, line.Plain := by
  obtain ⟨first, rest, lines?, hsplit, -, hlines, rfl⟩ := read_eq_ok_iff.mp h
  intro line hline
  rw [List.mem_filterMap] at hline
  obtain ⟨line?, hmem, rfl⟩ := hline
  obtain ⟨x, hx, hread⟩ := exists_of_mem_of_mapM hlines hmem
  have hpiece : x.1 ∈ contents.splitOn Text.lineFeed := by
    rw [hsplit]
    exact List.mem_cons_of_mem first (List.fst_mem_of_mem_zipIdx hx)
  exact plain_of_readLine (Text.notMem_of_mem_splitOn hpiece) hread

/-- The listings that come back from their printed text are those without a comment that has line feeds or ends
in a blank and without an empty data line. Every listing that was read is one of them. -/
theorem read_render_roundTrip :
    (∀ listing : Listing, read (encode listing.render) = .ok listing ↔ ∀ line ∈ listing.lines, line.Plain) ∧
      ∀ contents listing, read contents = .ok listing →
        ∃ again, read (encode listing.render) = .ok again ∧ again = listing ∧ again.bytes = listing.bytes := by
  constructor
  · exact fun listing => ⟨plain_of_read, read_render⟩
  · exact fun contents listing h => ⟨listing, read_render (plain_of_read h), rfl, rfl⟩

/-- Blanks, a plus sign, zeros in front and letters of either case are lost, and then nothing more. -/
theorem read_render_roundTrip_again :
    let contents := encode "v2.0 raw\r\n # note \r\n\r\n+05*fF 0a"
    let listing : Listing := { lines := [.comment " note", .data [.run 5 255, .byte 10]] }
    read contents = .ok listing ∧ ∃ again, read (encode listing.render) = .ok again ∧ again = listing ∧
      again.bytes = listing.bytes := by
  intro contents listing
  have hread : read contents = .ok listing := by
    rfl
  exact ⟨hread, read_render_roundTrip.2 contents listing hread⟩

end Microcomputer.Listing
