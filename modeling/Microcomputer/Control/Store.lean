import Microcomputer.Control.Word
import Microcomputer.Image

/-!
# The control store

The control store has two banks of bytes; the bytes of one address make a control word. An address is
an opcode, a cycle within the instruction and two flags.
-/

namespace Microcomputer.Control

/-- An address of the control store. -/
abbrev Address := Fin storeSize

/-- The address of a cycle of an instruction under given flags. Only the low four bits of the cycle
count. -/
def address (opcode cycle : UInt8) (carry zero : Bool) : Address :=
  ⟨64 * opcode.toNat + 4 * (cycle.toNat % 16) + 2 * carry.toNat + zero.toNat, by
    have ho := opcode.toNat_lt
    have hc := carry.toNat_lt
    have hz := zero.toNat_lt
    simp only [storeSize]
    omega⟩

/-- The two banks of a control store. -/
structure Store where
  bank0 : Vector UInt8 storeSize
  bank1 : Vector UInt8 storeSize
deriving DecidableEq

namespace Store

/-- Every address holds the word that does nothing. -/
def blank : Store where
  bank0 := Vector.replicate storeSize 0
  bank1 := Vector.replicate storeSize 0

/-- A bank from its bytes. -/
def bankOf (bank : Nat) (bytes : List UInt8) : Except ImageError (Vector UInt8 storeSize) :=
  if h : bytes.length = storeSize then .ok ⟨bytes.toArray, by simpa using h⟩
  else .error (.bankSize bank bytes.length)

/-- A control store from the bytes of its banks. -/
def ofBanks (bytes0 bytes1 : List UInt8) : Except ImageError Store := do
  return { bank0 := ← bankOf 0 bytes0, bank1 := ← bankOf 1 bytes1 }

/-- The word at an address. -/
def word (store : Store) (a : Address) : Word :=
  .ofBanks store.bank0[a] store.bank1[a]

/-- The store with other bytes at an address. -/
def set (store : Store) (a : Address) (byte0 byte1 : UInt8) : Store where
  bank0 := store.bank0.set a byte0
  bank1 := store.bank1.set a byte1

/-- All words in the order of their addresses. -/
def words (store : Store) : List Word :=
  List.zipWith Word.ofBanks store.bank0.toList store.bank1.toList

/-- The number of addresses whose bytes are not both zero. -/
def used (store : Store) : Nat :=
  (List.zip store.bank0.toList store.bank1.toList).countP fun (byte0, byte1) => byte0 != 0 || byte1 != 0

/-- How much of a store is in use, in words. -/
def describe (store : Store) : String :=
  "ControlStoreImage \x7b " ++ Text.decimal store.used ++ " of " ++ Text.decimal storeSize ++
    " words non-idle \x7d"

/-! ## Files -/

variable {m : Type → Type} [Monad m] (files : FileSystem m)

/-- Reads a control store from one file for each bank. -/
def readFiles (path0 path1 : String) : m (Except ImageError Store) := do
  match ← files.read path0 with
  | .error e => return .error (.file e)
  | .ok bytes0 =>
    match ← files.read path1 with
    | .error e => return .error (.file e)
    | .ok bytes1 => return ofBanks bytes0 bytes1

/-- Writes a control store to one file for each bank, bank 0 first. -/
def writeFiles (store : Store) (path0 path1 : String) : m (Except ImageError Unit) := do
  match ← files.write path0 store.bank0.toList with
  | .error e => return .error (.file e)
  | .ok () =>
    match ← files.write path1 store.bank1.toList with
    | .error e => return .error (.file e)
    | .ok () => return .ok ()

end Store

end Microcomputer.Control
