import Microcomputer.Attempt
import Microcomputer.Control.Store
import Microcomputer.Machine.Registers

/-!
# The state of the machine

A machine is a control store, a bootstrap image and everything that running changes. What a reset
clears are exactly the fields with a default. The ticks are a number without a bound; they are shown and
answered in 64 bits.
-/

namespace Microcomputer

/-- The machine. The cycle counts the control words since the instruction began, the ticks those since
the last reset; `maxSp` is the highest stack pointer that a step up has reached since then. -/
structure Machine where
  store : Control.Store
  boot : Vector UInt8 bootSize := Vector.replicate bootSize 0
  ram : Vector UInt8 memorySize := Vector.replicate memorySize 0
  regs : Registers := {}
  d : UInt8 := 0
  t : UInt8 := 0
  i : UInt8 := 0
  input : UInt8 := 0
  out : UInt8 := 0
  pc : RegisterPair := {}
  sp : RegisterPair := .ofValue stackAddress
  bp : RegisterPair := {}
  ma : RegisterPair := {}
  flags : FlagBanks := {}
  cycle : UInt8 := 0
  ticks : Nat := 0
  maxSp : UInt16 := 0
  running : Bool := false
deriving DecidableEq

namespace Machine

/-- The tick counter, which has 64 bits. -/
def counter (m : Machine) : UInt64 :=
  .ofNat m.ticks

theorem toNat_counter {m : Machine} (h : m.ticks < UInt64.size) : m.counter.toNat = m.ticks :=
  UInt64.toNat_ofNat_of_lt' h

/-! ## Life cycle -/

/-- A machine over a control store, with an empty bootstrap image. -/
def ofStore (store : Control.Store) : Machine := { store }

/-- Everything is as in a new machine, but for the bootstrap image and whether the machine runs. -/
def reset (m : Machine) : Machine :=
  { store := m.store, boot := m.boot, running := m.running }

/-- The machine runs no more. -/
def pause (m : Machine) : Machine :=
  { m with running := false }

/-- The machine runs no more and is reset. -/
def stop (m : Machine) : Machine :=
  m.pause.reset

/-- The bytes of the bootstrap region that an image fills, zeros after its end. -/
def bootOf (image : Array UInt8) : Vector UInt8 bootSize :=
  Vector.ofFn fun k => image.getD k 0

/-- Gives the machine another bootstrap image, which has to fit. -/
def loading (image : List UInt8) : Attempt ImageError Machine Unit := do
  if bootSize < image.length then
    throw (.bootSize image.length)
  modify fun m => { m with boot := bootOf image.toArray }

/-- The machine with another bootstrap image. -/
def loadBoot (m : Machine) (image : List UInt8) : Except ImageError Machine :=
  (loading image).result m

/-- The machine with another value at the input register. The clock line stays as it is, and before the
first tick nothing is latched. -/
def setInput (m : Machine) (value : UInt8) : Machine :=
  if 0 < m.ticks then
    { m with input := (m.input &&& InputLines.clockBit) ||| (value &&& ~~~InputLines.clockBit) }
  else m

/-! ## Memory -/

/-- The place of an address in memory. -/
def location (a : UInt16) : Fin memorySize :=
  ⟨a.toNat, a.toNat_lt⟩

/-- The byte at an address: from the bootstrap image below its end, from memory above. -/
def memory (m : Machine) (a : UInt16) : UInt8 :=
  if h : a.toNat < bootSize then m.boot[a.toNat] else m.ram[location a]

/-- The machine with another byte at an address; the bootstrap region cannot be written. -/
def writeMemory (m : Machine) (a : UInt16) (value : UInt8) : Machine :=
  if a.toNat < bootSize then m else { m with ram := m.ram.set (location a) value }

theorem memory_writeMemory (m : Machine) (a b : UInt16) (value : UInt8) :
    (m.writeMemory a value).memory b =
      if a = b ∧ bootSize ≤ a.toNat then value else m.memory b := by
  unfold writeMemory
  split
  next h => simp [show ¬bootSize ≤ a.toNat by omega]
  next h =>
    by_cases hb : b.toNat < bootSize
    · have hne : a ≠ b := fun e => h (e ▸ hb)
      simp [memory, hb, hne]
    · by_cases hab : a = b
      · subst hab
        simp [memory, h, show bootSize ≤ a.toNat by omega]
      · have hne : a.toNat ≠ b.toNat := fun e => hab (UInt16.toNat_inj.mp e)
        simp [memory, hb, hab, location, hne]

/-! ## Pairs and flags -/

/-- The pair that Y and X make. -/
def xy (m : Machine) : RegisterPair where
  low := m.regs.x
  high := m.regs.y

/-- The pair that drives the address bus. -/
def pair (m : Machine) : Control.Pointer → RegisterPair
  | .pc => m.pc
  | .ma => m.ma
  | .sp => m.sp
  | .xy => m.xy

/-- The flag bank of the instruction in I, bank 1 for `true`. -/
def flagBank (m : Machine) : Bool :=
  m.i &&& flagBankBit != 0

/-- The flags that the instruction in I reads and writes. -/
def activeFlags (m : Machine) : Flags :=
  m.flags.get m.flagBank

end Machine

end Microcomputer
