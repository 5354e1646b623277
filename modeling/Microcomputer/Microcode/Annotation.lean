import Microcomputer.Microcode.Builder

/-!
# The annotated listing of a builder

Both banks of a builder are listed word by word in the order of the addresses, bank 0 first, each word
after a comment that names its address, its instruction, its step and its origin. A row of addresses
without a word is one comment and zeros.
-/

namespace Microcomputer.Microcode

open Listing (Line)

/-- The comment of a word. -/
def Entry.describe (entry : Entry) (address : Nat) : String :=
  " addr:" ++ Text.hex 5 address ++ " op:" ++ Vocabulary.name entry.instruction ++ " step:" ++
    Text.decimal entry.step ++ " " ++ entry.word.describe ++ " source:" ++ entry.origin.render

/-- The lines of a row of addresses without a word. -/
def idleLines (count : Nat) : List Line :=
  if count = 0 then []
  else .comment (" " ++ Text.decimal count ++ " idle") :: Listing.dataLines (List.replicate (2 * count) 0)

/-- The lines of a word. -/
def Entry.lines (entry : Entry) (address : Nat) : List Line :=
  .comment (entry.describe address) ::
    Listing.dataLines [entry.word.toBanks.1, entry.word.toBanks.2]

/-- The lines of slots from an address on, after a number of addresses without a word. -/
def annotate (address idle : Nat) : List Slot → List Line
  | [] => idleLines idle
  | .word entry :: slots => idleLines idle ++ entry.lines address ++ annotate (address + 1) 0 slots
  | _ :: slots => annotate (address + 1) (idle + 1) slots

/-- The annotated listing. -/
def Builder.listing (b : Builder) : Listing where
  lines := annotate 0 0 b.slots.toList

/-! ## The journal -/

/-- What finishing a builder tells: how many opcodes are filled, and the routine of each. -/
def Builder.fillJournal (b : Builder) : List String :=
  ("filling " ++ Text.decimal b.freeOpcodes.length ++ " unassigned opcodes with nop") ::
    b.freeOpcodes.map fun opcode => noOperation.describe { first := opcode, width := 1 }

/-- What the generation of the control store tells: every routine of the table, then the filling. -/
def journal : List String :=
  table.map (fun r => r.describe (blockOf r.instruction)) ++
    match Builder.fresh.addAll table with
    | .ok b => b.fillJournal
    | .error _ => []

end Microcomputer.Microcode
