import Microcomputer.Listing.Basic
import Microcomputer.Text.Numeral

/-!
# Printing listings

The text of a listing is a header and one line of text for each line: a comment after `#`, data as
two-digit hexadecimal bytes and runs `count*byte`, the count in decimal, with a space between them.
-/

namespace Microcomputer.Listing

/-- The first line of every listing. -/
def header : String := "v2.0 raw"

/-- The text of a token. -/
def Token.render : Token → String
  | .byte value => Text.hexByte value
  | .run count value => Text.decimal count.toNat ++ "*" ++ Text.hexByte value

/-- The text of a line. -/
def Line.render : Line → String
  | .data tokens => " ".intercalate (tokens.map Token.render)
  | .comment text => "#" ++ text

/-- The text of a listing. -/
def render (listing : Listing) : String :=
  String.join ((header :: listing.lines.map Line.render).map (· ++ "\n"))

end Microcomputer.Listing
