import Microcomputer.Vocabulary

/-!
# What a control word connects

Four fields of a control word name the ends of the buses: what drives the primary bus, what is loaded
from it, what drives the side bus and which register pair drives the address bus. Every code of a field
names a member, so each field has a total decoder.
-/

namespace Microcomputer.Control

/-! ## The primary bus -/

/-- What drives the primary bus. -/
inductive Source where
  | abxy
  | d
  | input
  | t
  | ram
  | pc
  | sp
  | bp
deriving DecidableEq, Repr

namespace Source

/-- The code of a source, three bits. -/
def code : Source → Nat
  | abxy => 0
  | d => 1
  | input => 2
  | t => 3
  | ram => 4
  | pc => 5
  | sp => 6
  | bp => 7

/-- The source that the low three bits of a number name. -/
def ofBits (n : Nat) : Source :=
  match n % 8 with
  | 0 => abxy
  | 1 => d
  | 2 => input
  | 3 => t
  | 4 => ram
  | 5 => pc
  | 6 => sp
  | _ => bp

instance : Coded Source where
  members := [abxy, d, input, t, ram, pc, sp, bp]
  name
    | abxy => "Abxy"
    | d => "D"
    | input => "In"
    | t => "T"
    | ram => "Ram"
    | pc => "Pc"
    | sp => "Sp"
    | bp => "Bp"
  code := code

theorem code_lt (s : Source) : s.code < 8 := by
  cases s <;> decide

@[simp] theorem ofBits_code (s : Source) : ofBits s.code = s := by
  cases s <;> rfl

theorem ofBits_mod (n : Nat) : ofBits (n % 8) = ofBits n := by
  simp [ofBits]

theorem code_ofBits (n : Nat) : (ofBits n).code = n % 8 := by
  have h : n % 8 < 8 := Nat.mod_lt _ (by decide)
  rw [← ofBits_mod]
  generalize n % 8 = m at h
  match m with
  | 0 | 1 | 2 | 3 | 4 | 5 | 6 | 7 => rfl
  | _ + 8 => omega

end Source

/-- What is loaded from the primary bus, or stepped. The two that end an instruction load nothing. -/
inductive Sink where
  | none
  | abxy
  | d
  | out
  | aluT
  | resetCycle
  | i
  | ram
  | pc
  | sp
  | bp
  | ma
  | pcPlus
  | spPlus
  | spMinus
  | advancePcResetCycle
deriving DecidableEq, Repr

namespace Sink

/-- The code of a sink, four bits. -/
def code : Sink → Nat
  | none => 0
  | abxy => 1
  | d => 2
  | out => 3
  | aluT => 4
  | resetCycle => 5
  | i => 6
  | ram => 7
  | pc => 8
  | sp => 9
  | bp => 10
  | ma => 11
  | pcPlus => 12
  | spPlus => 13
  | spMinus => 14
  | advancePcResetCycle => 15

/-- The sink that the low four bits of a number name. -/
def ofBits (n : Nat) : Sink :=
  match n % 16 with
  | 0 => none
  | 1 => abxy
  | 2 => d
  | 3 => out
  | 4 => aluT
  | 5 => resetCycle
  | 6 => i
  | 7 => ram
  | 8 => pc
  | 9 => sp
  | 10 => bp
  | 11 => ma
  | 12 => pcPlus
  | 13 => spPlus
  | 14 => spMinus
  | _ => advancePcResetCycle

/-- The sink ends the instruction. -/
def endsInstruction : Sink → Bool
  | resetCycle => true
  | advancePcResetCycle => true
  | _ => false

instance : Coded Sink where
  members := [none, abxy, d, out, aluT, resetCycle, i, ram, pc, sp, bp, ma, pcPlus, spPlus, spMinus,
    advancePcResetCycle]
  name
    | none => "None"
    | abxy => "Abxy"
    | d => "D"
    | out => "Out"
    | aluT => "AluT"
    | resetCycle => "ResetCycle"
    | i => "I"
    | ram => "Ram"
    | pc => "Pc"
    | sp => "Sp"
    | bp => "Bp"
    | ma => "Ma"
    | pcPlus => "PcPlus"
    | spPlus => "SpPlus"
    | spMinus => "SpMinus"
    | advancePcResetCycle => "AdvancePcResetCycle"
  code := code

theorem code_lt (s : Sink) : s.code < 16 := by
  cases s <;> decide

@[simp] theorem ofBits_code (s : Sink) : ofBits s.code = s := by
  cases s <;> rfl

theorem ofBits_mod (n : Nat) : ofBits (n % 16) = ofBits n := by
  simp [ofBits]

theorem code_ofBits (n : Nat) : (ofBits n).code = n % 16 := by
  have h : n % 16 < 16 := Nat.mod_lt _ (by decide)
  rw [← ofBits_mod]
  generalize n % 16 = m at h
  match m with
  | 0 | 1 | 2 | 3 | 4 | 5 | 6 | 7 | 8 | 9 | 10 | 11 | 12 | 13 | 14 | 15 => rfl
  | _ + 16 => omega

end Sink

/-! ## The side bus -/

/-- What drives the side bus, the second operand of the arithmetic logic unit. The same line picks the
half of a register pair: the low byte with `d`, the high byte with `ab`. -/
inductive Side where
  | ab
  | d
deriving DecidableEq, Repr

namespace Side

/-- The code of a side, one bit. -/
def code : Side → Nat
  | ab => 0
  | d => 1

/-- The side that the lowest bit of a number names. -/
def ofBits (n : Nat) : Side :=
  match n % 2 with
  | 0 => ab
  | _ => d

/-- The side that picks the low half of a pair. -/
def low : Side := d

/-- The side that picks the high half of a pair. -/
def high : Side := ab

/-- The side picks the low half of a pair. -/
def isLow : Side → Bool
  | ab => false
  | d => true

instance : Coded Side where
  members := [ab, d]
  name
    | ab => "Ab"
    | d => "D"
  code := code

theorem code_lt (s : Side) : s.code < 2 := by
  cases s <;> decide

@[simp] theorem ofBits_code (s : Side) : ofBits s.code = s := by
  cases s <;> rfl

theorem ofBits_mod (n : Nat) : ofBits (n % 2) = ofBits n := by
  simp [ofBits]

theorem code_ofBits (n : Nat) : (ofBits n).code = n % 2 := by
  have h : n % 2 < 2 := Nat.mod_lt _ (by decide)
  rw [← ofBits_mod]
  generalize n % 2 = m at h
  match m with
  | 0 | 1 => rfl
  | _ + 2 => omega

end Side

/-! ## The address bus -/

/-- The register pair that drives the address bus; `xy` has Y as its high byte. -/
inductive Pointer where
  | pc
  | ma
  | sp
  | xy
deriving DecidableEq, Repr

namespace Pointer

/-- The code of a pointer, two bits. -/
def code : Pointer → Nat
  | pc => 0
  | ma => 1
  | sp => 2
  | xy => 3

/-- The pointer that the low two bits of a number name. -/
def ofBits (n : Nat) : Pointer :=
  match n % 4 with
  | 0 => pc
  | 1 => ma
  | 2 => sp
  | _ => xy

instance : Coded Pointer where
  members := [pc, ma, sp, xy]
  name
    | pc => "Pc"
    | ma => "Ma"
    | sp => "Sp"
    | xy => "Xy"
  code := code

theorem code_lt (p : Pointer) : p.code < 4 := by
  cases p <;> decide

@[simp] theorem ofBits_code (p : Pointer) : ofBits p.code = p := by
  cases p <;> rfl

theorem ofBits_mod (n : Nat) : ofBits (n % 4) = ofBits n := by
  simp [ofBits]

theorem code_ofBits (n : Nat) : (ofBits n).code = n % 4 := by
  have h : n % 4 < 4 := Nat.mod_lt _ (by decide)
  rw [← ofBits_mod]
  generalize n % 4 = m at h
  match m with
  | 0 | 1 | 2 | 3 => rfl
  | _ + 4 => omega

end Pointer

end Microcomputer.Control
