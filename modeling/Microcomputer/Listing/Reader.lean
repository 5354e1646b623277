import Microcomputer.Listing.Printer
import Microcomputer.Text.Blank

/-!
# Reading listings

Blanks around a line and between data do not count, and blank lines are dropped. Bytes are hexadecimal
numerals below 256 and counts are decimal numerals below 2^32. Lines are read in order, so the first
fault decides the error.
-/

namespace Microcomputer.Listing

/-- Why a file is no listing. Line numbers start at 1 with the header. -/
inductive ReadError where
  | notText
  | missingHeader
  | badToken (line : Nat) (token : String)
deriving DecidableEq, Repr

/-- The wording of a reading error. -/
def ReadError.message : ReadError → String
  | notText => "stream did not contain valid UTF-8"
  | missingHeader => "missing '" ++ header ++ "' header"
  | badToken line token => "line " ++ Text.decimal line ++ ": bad token '" ++ token ++ "'"

/-! ## One line -/

/-- A word as a token. The first star of a run ends its count. -/
def token? (word : List Char) : Option Token :=
  match word.span (· != '*') with
  | (_, []) => (Text.hexByte? word).map .byte
  | (count, _ :: value) =>
    match Text.numeralBelow? 10 UInt32.size count, Text.hexByte? value with
    | some n, some b => some (.run (UInt32.ofNat n) b)
    | _, _ => none

/-- A word as a token, or else the error that names it. -/
def readToken (number : Nat) (word : List Char) : Except ReadError Token :=
  match token? word with
  | some token => .ok token
  | none => .error (.badToken number (String.ofList word))

/-- The line that a text holds, none if the text is blank. -/
def readText (number : Nat) (text : List Char) : Except ReadError (Option Line) :=
  match Text.trim text with
  | [] => .ok none
  | '#' :: comment => .ok (some (.comment (String.ofList comment)))
  | cs => return some (.data (← (Text.words cs).mapM (readToken number)))

/-- The text that bytes encode. -/
def decodeText (bytes : List UInt8) : Except ReadError (List Char) :=
  match String.fromUTF8? ⟨bytes.toArray⟩ with
  | some text => .ok text.toList
  | none => .error .notText

/-- The line that encoded text holds. -/
def readLine (number : Nat) (bytes : List UInt8) : Except ReadError (Option Line) := do
  readText number (← decodeText bytes)

/-! ## A file -/

/-- The first line has to hold the header. -/
def readHeader (bytes : List UInt8) : Except ReadError Unit := do
  if Text.trim (← decodeText bytes) ≠ header.toList then throw .missingHeader

/-- Reads a listing from the bytes of a file. -/
def read (bytes : List UInt8) : Except ReadError Listing :=
  match bytes.splitOn (UInt8.ofNat '\n'.toNat) with
  | [] => .error .missingHeader
  | first :: rest => do
    readHeader first
    let lines ← (rest.zipIdx 2).mapM fun (line, number) => readLine number line
    return { lines := lines.filterMap id }

end Microcomputer.Listing
