import Microcomputer.Control.Store
import Microcomputer.Instruction.Basic

/-!
# Routines

A routine is the row of control words of an instruction, or of one variant of it that is chosen by the
flags. Every step records where it was authored.
-/

namespace Microcomputer.Microcode

/-! ## Requirements on flags -/

/-- What a routine asks of a flag. -/
inductive Requirement where
  | any
  | disable
  | enable
deriving DecidableEq, Repr

namespace Requirement

/-- The value of a flag meets the requirement. -/
def admits : Requirement → Bool → Bool
  | any, _ => true
  | disable, set => !set
  | enable, set => set

/-- The requirement that admits one value of a flag alone. -/
def ofFlag : Bool → Requirement
  | false => disable
  | true => enable

instance : Vocabulary Requirement where
  members := [any, disable, enable]
  name
    | any => "Any"
    | disable => "Disable"
    | enable => "Enable"

end Requirement

/-! ## Steps -/

/-- The line of a file that a step was authored on. -/
structure Origin where
  file : String
  line : Nat
deriving DecidableEq, Repr

/-- The text of an origin, with slashes in the names of files. -/
def Origin.render (origin : Origin) : String :=
  origin.file.map (fun c => if c = '\\' then '/' else c) ++ ":" ++ Text.decimal origin.line

/-- One control word of a routine. -/
structure Step where
  word : Control.Word
  origin : Origin
deriving DecidableEq, Repr

/-! ## Routines -/

/-- The control words of an instruction under the flags it admits. -/
structure Routine where
  instruction : Instruction
  carry : Requirement := .any
  zero : Requirement := .any
  steps : List Step := []
deriving DecidableEq, Repr

/-- A row of opcodes that follow each other. -/
structure Block where
  first : UInt8
  width : Nat
deriving DecidableEq, Repr

/-- The opcodes of a block. -/
def Block.opcodes (block : Block) : List UInt8 :=
  (List.range block.width).map fun k => block.first + UInt8.ofNat k

/-- The opcodes of an instruction. -/
def blockOf (i : Instruction) : Block where
  first := i.opcode
  width := i.blockWidth

namespace Routine

/-- The routine runs under these flags. -/
def admits (r : Routine) (carry zero : Bool) : Bool :=
  r.carry.admits carry && r.zero.admits zero

/-- The flags that the routine runs under. -/
def flags (r : Routine) : List (Bool × Bool) :=
  [(false, false), (false, true), (true, false), (true, true)].filter fun (carry, zero) =>
    r.admits carry zero

/-- One line about a routine in a block. -/
def describe (r : Routine) (block : Block) : String :=
  Vocabulary.name r.instruction ++ " " ++ Text.hex 2 block.first.toNat ++ ".." ++
    Text.hex 2 (block.first.toNat + block.width) ++ " carry:" ++ Vocabulary.label r.carry ++ " zero:" ++
    Vocabulary.label r.zero ++ " steps:" ++ Text.decimal r.steps.length

end Routine

end Microcomputer.Microcode
