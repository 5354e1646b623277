import Microcomputer.Attempt
import Microcomputer.Microcode.Routine
import Microcomputer.Microcode.Table

/-!
# Building a control store

A builder holds a slot for every address and takes routines one by one. A routine claims the addresses
of all its steps in all opcodes of its block under all flags it admits, and gets them all or none.
Finishing gives the routine without an effect to every opcode that is left, and makes the addresses that
are still empty idle.
-/

namespace Microcomputer.Microcode

open Control (Word Address Store)

/-- Why a routine is refused. -/
inductive ClaimError where
  | duplicateEntry (opcode : UInt8) (step : Nat)
  | tooManySteps (opcode : UInt8) (steps : Nat)
deriving DecidableEq, Repr

/-- The wording of a refusal. -/
def ClaimError.message : ClaimError → String
  | duplicateEntry opcode step =>
    "Duplicated usage of uROM data entry for opcode 0x" ++ Text.hexByte opcode ++ " in step " ++
      Text.decimal step
  | tooManySteps opcode steps =>
    "opcode 0x" ++ Text.hexByte opcode ++ " has " ++ Text.decimal steps ++ " steps, at most " ++
      Text.decimal cycleCount ++ " fit"

/-! ## Claims -/

/-- A control word in a slot, and what it is a step of. -/
structure Entry where
  word : Word
  instruction : Instruction
  step : Nat
  origin : Origin
deriving DecidableEq, Repr

/-- What an address holds. -/
inductive Slot where
  | empty
  | idle
  | word (entry : Entry)
deriving DecidableEq, Repr

/-- The slot holds nothing yet. -/
def Slot.isEmpty : Slot → Bool
  | empty => true
  | _ => false

/-- The word of a slot. -/
def Slot.control : Slot → Word
  | word entry => entry.word
  | _ => .idle

/-- An address that a routine claims. -/
structure Claim where
  opcode : UInt8
  step : Nat
  address : Address
  entry : Entry
deriving DecidableEq, Repr

/-- The claims of a routine in a block: by opcode, then by step, then by flags. -/
def Routine.claims (r : Routine) (block : Block) : List Claim :=
  block.opcodes.flatMap fun opcode =>
    r.steps.zipIdx.flatMap fun (s, step) =>
      r.flags.map fun (carry, zero) =>
        { opcode, step, address := Control.address opcode (UInt8.ofNat step) carry zero,
          entry := { word := s.word, instruction := r.instruction, step, origin := s.origin } }

/-! ## The builder -/

/-- The place of an opcode among all opcodes. -/
def opcodeIndex (opcode : UInt8) : Fin opcodeCount :=
  ⟨opcode.toNat, opcode.toNat_lt⟩

/-- The slots of all addresses, and which opcodes have a routine. -/
structure Builder where
  slots : Vector Slot storeSize := Vector.replicate storeSize .empty
  assigned : Vector Bool opcodeCount := Vector.replicate opcodeCount false
deriving DecidableEq

namespace Builder

/-- The builder without a routine. -/
def fresh : Builder := {}

/-- The opcode has a routine. -/
def isAssigned (b : Builder) (opcode : UInt8) : Bool :=
  b.assigned[opcodeIndex opcode]

/-- The opcodes that have a routine, in order. -/
def assignedOpcodes (b : Builder) : List UInt8 :=
  ((List.range opcodeCount).map UInt8.ofNat).filter b.isAssigned

/-- The opcodes that have no routine, in order. -/
def freeOpcodes (b : Builder) : List UInt8 :=
  ((List.range opcodeCount).map UInt8.ofNat).filter (!b.isAssigned ·)

/-- The builder with claims written over what their addresses held. -/
def write (b : Builder) (claims : List Claim) : Builder :=
  { b with slots := claims.foldl (fun slots c => slots.set c.address (.word c.entry)) b.slots }

/-- The builder with opcodes marked as having a routine. -/
def assign (b : Builder) (opcodes : List UInt8) : Builder :=
  { b with assigned := opcodes.foldl (fun assigned o => assigned.set (opcodeIndex o) true) b.assigned }

/-- Looks at the address of a claim, which has to be empty. -/
def reserve (c : Claim) : Attempt ClaimError Builder Claim := do
  unless (← get).slots[c.address].isEmpty do
    throw (.duplicateEntry c.opcode c.step)
  return c

/-- Gives a routine its addresses in a block. The claims are collected first, and nothing is written before
the last of them has been found free. -/
def claiming (block : Block) (r : Routine) : Attempt ClaimError Builder Unit := do
  if cycleCount < r.steps.length then
    throw (.tooManySteps block.first r.steps.length)
  let claims ← (r.claims block).mapM reserve
  modify (·.assign block.opcodes)
  modify (·.write claims)

/-- Gives a routine its addresses in the block of its instruction. -/
def adding (r : Routine) : Attempt ClaimError Builder Unit :=
  claiming (blockOf r.instruction) r

/-- Adds routines in order, up to the first that is refused. -/
def addingAll (routines : List Routine) : Attempt ClaimError Builder Unit :=
  forM routines adding

/-- The builder with a routine in the block of its instruction. -/
def add (b : Builder) (r : Routine) : Except ClaimError Builder :=
  (adding r).result b

/-- The builder with routines added in order. -/
def addAll (b : Builder) (routines : List Routine) : Except ClaimError Builder :=
  (addingAll routines).result b

/-! ## Finishing -/

/-- Gives a routine without an effect to every opcode that has none, up to the first that is refused. -/
def filling : Attempt ClaimError Builder Unit := do
  forM (← get).freeOpcodes fun opcode => claiming { first := opcode, width := 1 } noOperation

/-- The builder with every empty slot made idle. -/
def settle (b : Builder) : Builder :=
  { b with slots := b.slots.map fun slot => if slot.isEmpty then .idle else slot }

/-- The control store that the slots make. -/
def store (b : Builder) : Store where
  bank0 := b.slots.map fun slot => slot.control.toBanks.1
  bank1 := b.slots.map fun slot => slot.control.toBanks.2

/-- Fills the builder and makes every slot idle that is still empty. -/
def finalizing : Attempt ClaimError Builder Unit := do
  filling
  modify settle

/-- The finished builder. -/
def finalize (b : Builder) : Except ClaimError Builder :=
  finalizing.result b

/-- No slot is empty. -/
def isComplete (b : Builder) : Bool :=
  b.slots.all (!·.isEmpty)

end Builder

/-! ## The control store of the table -/

/-- The builder of the whole table, finished. -/
def generate : Except ClaimError Builder := do
  (← Builder.fresh.addAll table).finalize

end Microcomputer.Microcode
