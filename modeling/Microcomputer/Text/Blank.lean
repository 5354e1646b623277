/-!
# Blank characters

The characters of the Unicode property `White_Space`, the trimming of a text and its words: the
maximal pieces without a blank.
-/

namespace Microcomputer.Text

/-- A code point has the property `White_Space`. -/
def isBlank (c : Char) : Bool :=
  (0x09 ≤ c.toNat && c.toNat ≤ 0x0D) || c.toNat == 0x20 || c.toNat == 0x85 || c.toNat == 0xA0 ||
    c.toNat == 0x1680 || (0x2000 ≤ c.toNat && c.toNat ≤ 0x200A) || c.toNat == 0x2028 ||
    c.toNat == 0x2029 || c.toNat == 0x202F || c.toNat == 0x205F || c.toNat == 0x3000

/-- Blanks in front are cut. -/
def trimStart (cs : List Char) : List Char :=
  cs.dropWhile isBlank

/-- Blanks at the end are cut. -/
def trimEnd (cs : List Char) : List Char :=
  (trimStart cs.reverse).reverse

/-- Blanks on both sides are cut. -/
def trim (cs : List Char) : List Char :=
  trimEnd (trimStart cs)

/-- The maximal pieces without a blank, in order. -/
def words (cs : List Char) : List (List Char) :=
  (cs.splitOnP isBlank).filter (· ≠ [])

@[simp] theorem words_nil : words [] = [] := by
  simp [words]

end Microcomputer.Text
