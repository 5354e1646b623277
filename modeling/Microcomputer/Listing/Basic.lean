/-!
# Hexadecimal listings

A listing is a row of lines, each a comment or data. Data are bytes, given one by one or as runs of
equal bytes. A byte string is folded into data by making a run of every stretch of three or more
equal bytes.
-/

namespace Microcomputer

namespace Listing

/-- One piece of data: a byte, or a byte that repeats. -/
inductive Token where
  | byte (value : UInt8)
  | run (count : UInt32) (value : UInt8)
deriving DecidableEq, Repr

/-- One line. -/
inductive Line where
  | data (tokens : List Token)
  | comment (text : String)
deriving DecidableEq, Repr

end Listing

/-- A listing, without its header. -/
structure Listing where
  lines : List Listing.Line := []
deriving DecidableEq, Repr

namespace Listing

/-! ## The bytes of a listing -/

/-- The bytes that a token stands for. -/
def Token.bytes : Token → List UInt8
  | .byte value => [value]
  | .run count value => List.replicate count.toNat value

/-- The number of bytes that a token stands for. -/
def Token.size : Token → Nat
  | .byte _ => 1
  | .run count _ => count.toNat

/-- The bytes of a line, none for a comment. -/
def Line.bytes : Line → List UInt8
  | .data tokens => tokens.flatMap Token.bytes
  | .comment _ => []

/-- The number of bytes of a line. -/
def Line.size : Line → Nat
  | .data tokens => tokens.foldr (fun token n => token.size + n) 0
  | .comment _ => 0

/-- The bytes of all lines in order. -/
def bytes (listing : Listing) : List UInt8 :=
  listing.lines.flatMap Line.bytes

/-- The number of bytes of a listing, counted without laying them out. -/
def size (listing : Listing) : Nat :=
  listing.lines.foldr (fun line n => line.size + n) 0

theorem Token.length_bytes (token : Token) : token.bytes.length = token.size := by
  cases token with
  | byte value => rfl
  | run count value => simp [Token.bytes, Token.size]

theorem Line.length_bytes (line : Line) : line.bytes.length = line.size := by
  cases line with
  | data tokens =>
    simp only [Line.bytes, Line.size]
    induction tokens with
    | nil => rfl
    | cons token tokens ih => simp [Token.length_bytes, ih]
  | comment text => rfl

theorem length_bytes (listing : Listing) : listing.bytes.length = listing.size := by
  obtain ⟨lines⟩ := listing
  simp only [bytes, size]
  induction lines with
  | nil => rfl
  | cons line lines ih => simp [Line.length_bytes, ih]

/-! ## Folding bytes into data -/

/-- The tokens of one stretch of equal bytes. -/
def foldStretch : List UInt8 → List Token
  | [] => []
  | b :: bs =>
    if 2 < (b :: bs).length then [.run (UInt32.ofNat (b :: bs).length) b] else (b :: bs).map .byte

/-- The tokens of a byte string, stretch by stretch. -/
def fold (bytes : List UInt8) : List Token :=
  (bytes.splitBy (· == ·)).flatMap foldStretch

/-- The data line of a byte string; an empty string makes no line. -/
def dataLines (bytes : List UInt8) : List Line :=
  match fold bytes with
  | [] => []
  | token :: tokens => [.data (token :: tokens)]

/-! ## Building a listing -/

/-- The listing with one line more. -/
def push (listing : Listing) (line : Line) : Listing where
  lines := listing.lines ++ [line]

/-- The listing with a comment added. -/
def pushComment (listing : Listing) (text : String) : Listing :=
  listing.push (.comment text)

/-- The listing with a byte string added as one data line. -/
def pushData (listing : Listing) (bytes : List UInt8) : Listing where
  lines := listing.lines ++ dataLines bytes

end Listing

end Microcomputer
