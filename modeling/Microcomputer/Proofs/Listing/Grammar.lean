import Microcomputer.Proofs.Listing.RoundTrip

/-!
# What is read as a listing

The grammar of listings says which words are tokens, what a line holds and which texts begin with the header.
Reading accepts exactly the texts that keep to it and gives what they hold. Any other text is refused for its
header, or else for its first word that should be a token and is none.
-/

namespace Microcomputer.Listing

open Text (encode Numeral)

variable {token : Token} {word : List Char} {line? : Option Line} {line text : String} {listing : Listing}
  {number : Nat} {e : ReadError}

/-! ## Words -/

/-- What a word stands for as a token: a byte in hexadecimal, or up to its first star a count in decimal and
then such a byte. -/
inductive Token.Written : List Char → Token → Prop
  | byte {word : List Char} {value : UInt8} (hvalue : Numeral 16 word value.toNat) :
      Token.Written word (.byte value)
  | run {word digits : List Char} {count : UInt32} {value : UInt8} (hcount : Numeral 10 word count.toNat)
      (hvalue : Numeral 16 digits value.toNat) : Token.Written (word ++ '*' :: digits) (.run count value)

/-- The word stands for a token. -/
def IsToken (word : List Char) : Prop :=
  ∃ token, Token.Written word token

theorem numeralBelow?_count {count : UInt32} :
    Text.numeralBelow? 10 UInt32.size word = some count.toNat ↔ Numeral 10 word count.toNat := by
  rw [Text.numeralBelow?_eq_some_iff (by decide)]
  exact and_iff_left count.toNat_lt

theorem token?_of_written (h : Token.Written word token) : token? word = some token := by
  cases h with
  | byte hvalue =>
    have hstar := Text.star_notMem_numeral (by decide) hvalue
    rw [token?, span_of_notMem hstar, Text.hexByte?_eq_some_iff.mpr hvalue]
    rfl
  | run hcount hvalue =>
    have hstar := Text.star_notMem_numeral (by decide) hcount
    simp only [token?, span_append_star hstar, numeralBelow?_count.mpr hcount,
      Text.hexByte?_eq_some_iff.mpr hvalue, UInt32.ofNat_toNat]

theorem written_of_token? (h : token? word = some token) : Token.Written word token := by
  by_cases hmem : '*' ∈ word
  -- The first star is the one with no other before it.
  · obtain ⟨count, digits, rfl, hstar⟩ := List.eq_append_cons_of_mem hmem
    simp only [token?, span_append_star hstar] at h
    split at h
    next n value hcount hvalue =>
      obtain ⟨hn, hlt⟩ := (Text.numeralBelow?_eq_some_iff (by decide)).mp hcount
      cases h
      refine .run ?_ (Text.hexByte?_eq_some_iff.mp hvalue)
      rwa [UInt32.toNat_ofNat', Nat.mod_eq_of_lt hlt]
    next => cases h
  · simp only [token?, span_of_notMem hmem, Option.map_eq_some_iff] at h
    obtain ⟨value, hvalue, rfl⟩ := h
    exact .byte (Text.hexByte?_eq_some_iff.mp hvalue)

theorem token?_eq_some_iff : token? word = some token ↔ Token.Written word token :=
  ⟨written_of_token?, token?_of_written⟩

theorem readToken_eq_ok_iff : readToken number word = .ok token ↔ Token.Written word token := by
  rw [readToken, ← token?_eq_some_iff]
  cases token? word <;> simp

theorem readToken_eq_error_iff : readToken number word = .error e ↔
    ¬IsToken word ∧ e = .badToken number (String.ofList word) := by
  simp only [readToken, IsToken, ← token?_eq_some_iff]
  cases token? word <;> simp [eq_comm]

/-! ## Lines -/

/-- The words of a line that have to be tokens, none in a comment. -/
def dataWords (line : String) : List (List Char) :=
  match Text.trim line.toList with
  | '#' :: _ => []
  | _ => Text.words line.toList

/-- What a line of text holds: nothing, a comment, or the tokens that its words stand for. -/
inductive Line.Written : String → Option Line → Prop
  | blank {line : String} (hblank : Text.trim line.toList = []) : Line.Written line none
  | comment {line text : String} (hcomment : Text.trim line.toList = '#' :: text.toList) :
      Line.Written line (some (.comment text))
  | data {line : String} {tokens : List Token} (hwords : dataWords line ≠ [])
      (htokens : List.Forall₂ Token.Written (dataWords line) tokens) : Line.Written line (some (.data tokens))

theorem dataWords_of_blank (h : Text.trim line.toList = []) : dataWords line = [] := by
  rw [dataWords, h]
  exact Text.words_eq_nil_iff.mpr h

theorem dataWords_of_comment {comment : List Char} (h : Text.trim line.toList = '#' :: comment) :
    dataWords line = [] := by
  rw [dataWords, h]
  rfl

theorem readText_of_dataWords (h : dataWords line ≠ []) (number : Nat) : readText number line.toList =
    return some (.data (← (dataWords line).mapM (readToken number))) := by
  rw [readText]
  split
  next htrim => exact absurd (dataWords_of_blank htrim) h
  next comment htrim => exact absurd (dataWords_of_comment htrim) h
  next hcomment =>
    have hwords : dataWords line = Text.words line.toList := by
      unfold dataWords
      split
      next comment htrim => exact absurd htrim (hcomment comment)
      next => rfl
    rw [Text.words_trim, hwords]

/-- A line is blank, a comment, or a row of words. -/
theorem line_cases (line : String) : Text.trim line.toList = [] ∨
    (∃ text : String, Text.trim line.toList = '#' :: text.toList) ∨ dataWords line ≠ [] := by
  by_cases hwords : dataWords line = []
  · unfold dataWords at hwords
    split at hwords
    next text htrim => exact .inr (.inl ⟨.ofList text, by rw [htrim, String.toList_ofList]⟩)
    next => exact .inl (Text.words_eq_nil_iff.mp hwords)
  · exact .inr (.inr hwords)

theorem mapM_readToken_eq_ok_iff {words : List (List Char)} {tokens : List Token} :
    words.mapM (readToken number) = .ok tokens ↔ List.Forall₂ Token.Written words tokens := by
  simp only [mapM_eq_ok_iff, readToken_eq_ok_iff]

theorem readText_of_written (h : Line.Written line line?) : readText number line.toList = .ok line? := by
  cases h with
  | blank hblank => rw [readText, hblank]
  | @comment text hcomment =>
    rw [readText, hcomment]
    show Except.ok (some (Line.comment (.ofList text.toList))) = _
    rw [String.ofList_toList]
  | data hwords htokens =>
    rw [readText_of_dataWords hwords, mapM_readToken_eq_ok_iff.mpr htokens]
    rfl

theorem written_of_readText (h : readText number line.toList = .ok line?) : Line.Written line line? := by
  -- What a blank line or a comment holds is known, and so is that it is read.
  rcases line_cases line with hblank | ⟨text, hcomment⟩ | hwords
  · have hread : readText number line.toList = .ok none := readText_of_written (.blank hblank)
    cases hread.symm.trans h
    exact .blank hblank
  · have hread : readText number line.toList = .ok (some (.comment text)) :=
      readText_of_written (.comment hcomment)
    cases hread.symm.trans h
    exact .comment hcomment
  · rw [readText_of_dataWords hwords] at h
    obtain ⟨tokens, htokens, heq⟩ := bind_eq_ok_iff.mp h
    cases heq
    exact .data hwords (mapM_readToken_eq_ok_iff.mp htokens)

theorem readText_eq_ok_iff : readText number line.toList = .ok line? ↔ Line.Written line line? :=
  ⟨written_of_readText, readText_of_written⟩

/-- All words of the line that have to be tokens are tokens. -/
def IsLine (line : String) : Prop :=
  ∀ w ∈ dataWords line, IsToken w

/-- The first word that is no token. -/
def FirstFault (words : List (List Char)) (word : List Char) : Prop :=
  ∃ before after, words = before ++ word :: after ∧ (∀ w ∈ before, IsToken w) ∧ ¬IsToken word

theorem exists_written_iff : (∃ line?, Line.Written line line?) ↔ IsLine line := by
  constructor
  · rintro ⟨line?, h⟩
    cases h with
    | blank hblank => simp [IsLine, dataWords_of_blank hblank]
    | comment hcomment => simp [IsLine, dataWords_of_comment hcomment]
    | data hwords htokens =>
      intro w hw
      obtain ⟨token, -, htoken⟩ := exists_of_mem_of_forall₂ htokens hw
      exact ⟨token, htoken⟩
  · intro h
    rcases line_cases line with hblank | ⟨text, hcomment⟩ | hwords
    · exact ⟨_, .blank hblank⟩
    · exact ⟨_, .comment hcomment⟩
    · have hread : ∀ w ∈ dataWords line, ∃ token, readToken 0 w = .ok token := by
        simp only [readToken_eq_ok_iff]
        exact h
      obtain ⟨tokens, htokens⟩ := exists_mapM_eq_ok_iff.mpr hread
      exact ⟨_, .data hwords (mapM_readToken_eq_ok_iff.mp htokens)⟩

theorem mapM_readToken_eq_error_iff {words : List (List Char)} : words.mapM (readToken number) = .error e ↔
    ∃ word, FirstFault words word ∧ e = .badToken number (String.ofList word) := by
  simp only [mapM_eq_error_iff, readToken_eq_ok_iff, readToken_eq_error_iff]
  constructor
  · rintro ⟨before, word, after, hsplit, hbefore, hword, rfl⟩
    exact ⟨word, ⟨before, after, hsplit, hbefore, hword⟩, rfl⟩
  · rintro ⟨word, ⟨before, after, hsplit, hbefore, hword⟩, rfl⟩
    exact ⟨before, word, after, hsplit, hbefore, hword, rfl⟩

theorem readText_eq_error_iff : readText number line.toList = .error e ↔
    ∃ word, FirstFault (dataWords line) word ∧ e = .badToken number (String.ofList word) := by
  rw [← mapM_readToken_eq_error_iff]
  by_cases hwords : dataWords line = []
  · obtain ⟨line?, hline⟩ : ∃ line?, Line.Written line line? :=
      exists_written_iff.mpr (by simp [IsLine, hwords])
    simp [readText_of_written hline, hwords, pure, Except.pure]
  · rw [readText_of_dataWords hwords]
    simp [bind_eq_error_iff, pure, Except.pure]

/-! ## Texts -/

/-- The first line is the header, but for blanks. -/
def HasHeader (text : String) : Prop :=
  ∃ line ∈ (Text.lines text).head?, Text.trim line.toList = header.toList

/-- The lines after the first. -/
def body (text : String) : List String :=
  (Text.lines text).tail

/-- The first word that is no token, in the line of a number. -/
def FirstFaultAt (text : String) (number : Nat) (word : List Char) : Prop :=
  ∃ before line after, body text = before ++ line :: after ∧ (∀ line ∈ before, IsLine line) ∧
    number = 2 + before.length ∧ FirstFault (dataWords line) word

theorem read_encode (text : String) : ∃ first, (Text.lines text).head? = some first ∧ read (encode text) = do
    readHeader (encode first)
    let lines? ← ((body text).zipIdx 2).mapM fun x => readText x.2 x.1.toList
    return { lines := lines?.filterMap id } := by
  have hsplit := Text.splitOn_encode text
  unfold body
  cases hlines : Text.lines text with
  | nil =>
    rw [hlines] at hsplit
    exact absurd hsplit (List.splitOn_ne_nil _ _)
  | cons first rest =>
    refine ⟨first, rfl, ?_⟩
    rw [hlines, List.map_cons] at hsplit
    rw [read_of_splitOn hsplit, mapM_readLine_encode, List.tail_cons]

/-- After the header a text is read line by line. -/
theorem read_encode_of_hasHeader (h : HasHeader text) : read (encode text) = do
    let lines? ← ((body text).zipIdx 2).mapM fun x => readText x.2 x.1.toList
    return { lines := lines?.filterMap id } := by
  obtain ⟨first, hfirst, hread⟩ := read_encode text
  obtain ⟨line, hline, htrim⟩ := h
  cases Option.mem_unique hfirst hline
  rw [hread, readHeader, Text.decodeText_encode]
  simp only [bind, Except.bind, htrim]
  rfl

theorem read_encode_of_not_hasHeader (h : ¬HasHeader text) : read (encode text) = .error .missingHeader := by
  obtain ⟨first, hfirst, hread⟩ := read_encode text
  have htrim : Text.trim first.toList ≠ header.toList := fun htrim => h ⟨first, hfirst, htrim⟩
  rw [hread, readHeader, Text.decodeText_encode]
  simp [bind, Except.bind, htrim, throw, throwThe, MonadExceptOf.throw]

theorem forall_zipIdx_exists_readText_iff (number : Nat) {lines : List String} :
    (∀ x ∈ lines.zipIdx number, ∃ line?, readText x.2 x.1.toList = .ok line?) ↔
      ∀ line ∈ lines, IsLine line := by
  simp only [readText_eq_ok_iff, exists_written_iff]
  conv_rhs => rw [← List.zipIdx_map_fst number lines, List.forall_mem_map]

theorem mapM_readText_eq_ok_iff {lines : List String} {lines? : List (Option Line)} :
    (lines.zipIdx number).mapM (fun x => readText x.2 x.1.toList) = .ok lines? ↔
      List.Forall₂ Line.Written lines lines? := by
  simp only [mapM_eq_ok_iff, readText_eq_ok_iff]
  conv_rhs => rw [← List.zipIdx_map_fst number lines, List.forall₂_map_left_iff]

theorem exists_read_encode_iff :
    (∃ listing, read (encode text) = .ok listing) ↔ HasHeader text ∧ ∀ line ∈ body text, IsLine line := by
  by_cases h : HasHeader text
  · simp only [read_encode_of_hasHeader h, h, true_and, ← forall_zipIdx_exists_readText_iff 2,
      ← exists_mapM_eq_ok_iff, bind_eq_ok_iff]
    constructor
    · rintro ⟨listing, lines?, hlines, -⟩
      exact ⟨lines?, hlines⟩
    · rintro ⟨lines?, hlines⟩
      exact ⟨_, lines?, hlines, rfl⟩
  · simp [read_encode_of_not_hasHeader h, h]

theorem read_encode_eq_ok_iff : read (encode text) = .ok listing ↔ HasHeader text ∧
    ∃ lines?, List.Forall₂ Line.Written (body text) lines? ∧ listing.lines = lines?.filterMap id := by
  by_cases h : HasHeader text
  · simp only [read_encode_of_hasHeader h, h, true_and, bind_eq_ok_iff, mapM_readText_eq_ok_iff]
    refine exists_congr fun lines? => and_congr_right fun _ => ?_
    constructor
    · intro heq
      cases heq
      rfl
    · intro heq
      rw [← heq]
      rfl
  · simp [read_encode_of_not_hasHeader h, h]

theorem read_encode_eq_error_iff : read (encode text) = .error e ↔ (¬HasHeader text ∧ e = .missingHeader) ∨
    (HasHeader text ∧ ∃ number word, FirstFaultAt text number word ∧
      e = .badToken number (String.ofList word)) := by
  by_cases h : HasHeader text
  · simp only [read_encode_of_hasHeader h, h, true_and, not_true_eq_false, false_and, false_or,
      bind_eq_error_iff, pure, Except.pure, reduceCtorEq, and_false, exists_false, or_false,
      mapM_zipIdx_eq_error_iff, forall_zipIdx_exists_readText_iff, readText_eq_error_iff]
    constructor
    · rintro ⟨before, line, after, hsplit, hbefore, word, hword, rfl⟩
      exact ⟨_, word, ⟨before, line, after, hsplit, hbefore, rfl, hword⟩, rfl⟩
    · rintro ⟨_, word, ⟨before, line, after, hsplit, hbefore, rfl, hword⟩, rfl⟩
      exact ⟨before, line, after, hsplit, hbefore, word, hword, rfl⟩
  · simp [read_encode_of_not_hasHeader h, h, eq_comm]

/-- A text is read exactly if it begins with the header and all words that have to be tokens are tokens. The
listing has the comments and the rows of tokens of its lines in order. A text without the header is refused for
that, and any other for its first word that should be a token and is none, with the number of the line. -/
theorem read_encode_grammar (text : String) :
    ((∃ listing, read (encode text) = .ok listing) ↔ HasHeader text ∧ ∀ line ∈ body text, IsLine line) ∧
    (∀ listing, read (encode text) = .ok listing ↔ HasHeader text ∧
      ∃ lines?, List.Forall₂ Line.Written (body text) lines? ∧ listing.lines = lines?.filterMap id) ∧
    ∀ e, read (encode text) = .error e ↔ (¬HasHeader text ∧ e = .missingHeader) ∨
      (HasHeader text ∧ ∃ number word, FirstFaultAt text number word ∧
        e = .badToken number (String.ofList word)) :=
  ⟨exists_read_encode_iff, fun _ => read_encode_eq_ok_iff, fun _ => read_encode_eq_error_iff⟩

-- The count and the byte of a run are one word, and a second star belongs to the byte.
example : read (encode "v2.0 raw\n# 1*2\n\n+0fF 5*1*2 zz") = .error (.badToken 4 "5*1*2") := by
  rfl

end Microcomputer.Listing
