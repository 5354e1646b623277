import Microcomputer.Alu.Function
import Microcomputer.Control.Bus
import Microcomputer.Text.Numeral

/-!
# Control words

A control word says what the machine does in one cycle. It is stored as two bytes, one in each bank of
the control store; every pair of bytes is a word, and the two forms determine each other.
-/

namespace Microcomputer.Control

/-- One control word: the four ends of the buses and the lines of the arithmetic logic unit. The
default reads a register onto a bus that nobody loads. -/
structure Word where
  source : Source := .abxy
  sink : Sink := .none
  side : Side := .ab
  pointer : Pointer := .pc
  select : Nibble := 0
  logic : Bool := false
  carryIn : Bool := false
deriving DecidableEq, Repr

namespace Word

/-! ## Making words -/

/-- The word that does nothing. -/
def idle : Word := {}

/-- A byte goes over the primary bus. -/
def transfer (source : Source) (sink : Sink) : Word :=
  { source, sink }

/-- T is loaded with an arithmetic function of the primary and the side bus. -/
def arith (source : Source) (side : Side) (f : Alu.Arith) (carryIn : Bool) : Word :=
  { source, sink := .aluT, side, select := f.select, carryIn }

/-- T is loaded with a logic function of the primary and the side bus. -/
def logical (source : Source) (side : Side) (f : Alu.Logic) : Word :=
  { source, sink := .aluT, side, select := f.select, logic := true }

/-- The word with another side. -/
def withSide (w : Word) (side : Side) : Word :=
  { w with side }

/-- The word with another address. -/
def withPointer (w : Word) (pointer : Pointer) : Word :=
  { w with pointer }

/-- The word does nothing. -/
def isIdle (w : Word) : Bool :=
  w == idle

/-! ## The stored form -/

/-- The two stored bytes. Bank 0 holds the source in bits 0 to 2, the sink in bits 3 to 6 and the side
in bit 7; bank 1 holds the pointer in bits 0 and 1, the select lines in bits 2 to 5, the mode in bit 6
and the carry in in bit 7. -/
def toBanks (w : Word) : UInt8 × UInt8 :=
  (UInt8.ofNat (w.source.code + 8 * w.sink.code + 128 * w.side.code),
    UInt8.ofNat (w.pointer.code + 4 * w.select.toNat + 64 * w.logic.toNat + 128 * w.carryIn.toNat))

/-- The word that two stored bytes make. -/
def ofBanks (bank0 bank1 : UInt8) : Word where
  source := .ofBits bank0.toNat
  sink := .ofBits (bank0.toNat / 8)
  side := .ofBits (bank0.toNat / 128)
  pointer := .ofBits bank1.toNat
  select := BitVec.ofNat 4 (bank1.toNat / 4)
  logic := bank1.toNat / 64 % 2 == 1
  carryIn := bank1.toNat / 128 == 1

theorem ofBanks_toBanks (w : Word) : ofBanks w.toBanks.1 w.toBanks.2 = w := by
  have h1 := w.source.code_lt
  have h2 := w.sink.code_lt
  have h3 := w.side.code_lt
  have h4 := w.pointer.code_lt
  have h5 := w.select.isLt
  have h6 := w.logic.toNat_lt
  have h7 := w.carryIn.toNat_lt
  have b0 : w.toBanks.1.toNat = w.source.code + 8 * w.sink.code + 128 * w.side.code := by
    simp only [toBanks, UInt8.toNat_ofNat']
    omega
  have b1 : w.toBanks.2.toNat =
      w.pointer.code + 4 * w.select.toNat + 64 * w.logic.toNat + 128 * w.carryIn.toNat := by
    simp only [toBanks, UInt8.toNat_ofNat']
    omega
  have fromBool (b : Bool) : (b.toNat == 1) = b := by
    cases b <;> rfl
  obtain ⟨source, sink, side, pointer, select, logic, carryIn⟩ := w
  simp only at h1 h2 h3 h4 h5 h6 h7 b0 b1
  simp only [ofBanks, b0, b1, mk.injEq]
  refine ⟨?_, ?_, ?_, ?_, ?_, ?_, ?_⟩
  · rw [← Source.ofBits_mod, show _ % 8 = source.code by omega, Source.ofBits_code]
  · rw [← Sink.ofBits_mod, show _ % 16 = sink.code by omega, Sink.ofBits_code]
  · rw [← Side.ofBits_mod, show _ % 2 = side.code by omega, Side.ofBits_code]
  · rw [← Pointer.ofBits_mod, show _ % 4 = pointer.code by omega, Pointer.ofBits_code]
  · apply BitVec.eq_of_toNat_eq
    simp only [BitVec.toNat_ofNat]
    omega
  · rw [show _ / 64 % 2 = logic.toNat by omega, fromBool]
  · rw [show _ / 128 = carryIn.toNat by omega, fromBool]

theorem toBanks_ofBanks (bank0 bank1 : UInt8) : (ofBanks bank0 bank1).toBanks = (bank0, bank1) := by
  have h0 := bank0.toNat_lt
  have h1 := bank1.toNat_lt
  have toNat (n : Nat) (h : n < 2) : (n == 1).toNat = n := by
    match n with
    | 0 | 1 => rfl
    | _ + 2 => omega
  simp only [toBanks, ofBanks, Source.code_ofBits, Sink.code_ofBits, Side.code_ofBits,
    Pointer.code_ofBits, BitVec.toNat_ofNat, Prod.mk.injEq]
  constructor
  · apply UInt8.toNat_inj.mp
    simp only [UInt8.toNat_ofNat']
    omega
  · rw [toNat _ (by omega), toNat _ (by omega)]
    apply UInt8.toNat_inj.mp
    simp only [UInt8.toNat_ofNat']
    omega

/-! ## The shown form -/

/-- A truth value in words. -/
def showBool (b : Bool) : String :=
  if b then "true" else "false"

/-- All fields of a word with their names. -/
def describe (w : Word) : String :=
  "ControlWord \x7b bus_ar: " ++ Vocabulary.name w.source ++ ", bus_aw: " ++ Vocabulary.name w.sink ++
    ", bus_b: " ++ Vocabulary.name w.side ++ ", bus_c: " ++ Vocabulary.name w.pointer ++
    ", alu_select: " ++ Text.decimal w.select.toNat ++ ", alu_logic: " ++ showBool w.logic ++
    ", alu_carry_in: " ++ showBool w.carryIn ++ " \x7d"

end Word

end Microcomputer.Control
