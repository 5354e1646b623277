import Microcomputer.Control.Store

/-!
# Addresses of the control store

Opcode, cycle and flags can be read back from an address, and the addresses below 16384 are exactly
those that have an opcode, a cycle and flags. The words of a store are in the order of their addresses.
-/

namespace Microcomputer.Control

variable {opcode opcode' cycle cycle' : UInt8} {carry carry' zero zero' : Bool}

theorem address_lt (opcode cycle : UInt8) (carry zero : Bool) :
    (address opcode cycle carry zero).val < 16384 := by
  have ho := opcode.toNat_lt
  have hc := carry.toNat_lt
  have hz := zero.toNat_lt
  simp only [address]
  omega

theorem eq_of_toNat_eq {a b : Bool} (h : a.toNat = b.toNat) : a = b := by
  cases a <;> cases b <;> simp at h ⊢

theorem address_inj (h : address opcode cycle carry zero = address opcode' cycle' carry' zero') :
    opcode = opcode' ∧ cycle.toNat % 16 = cycle'.toNat % 16 ∧ carry = carry' ∧ zero = zero' := by
  have hv := congrArg Fin.val h
  have hc := carry.toNat_lt
  have hz := zero.toNat_lt
  have hc' := carry'.toNat_lt
  have hz' := zero'.toNat_lt
  simp only [address] at hv
  refine ⟨UInt8.toNat_inj.mp (by omega), by omega, ?_, ?_⟩
  · exact eq_of_toNat_eq (by omega)
  · exact eq_of_toNat_eq (by omega)

theorem toNat_ofNat_cycle {n : Nat} (h : n < cycleCount) : (UInt8.ofNat n).toNat = n := by
  simp only [cycleCount] at h
  simp only [UInt8.toNat_ofNat']
  omega

/-- The cycle of an address is known if it is one that an instruction has a word for. -/
theorem address_ofNat_inj {m n : Nat} (hm : m < cycleCount) (hn : n < cycleCount)
    (h : address opcode (.ofNat m) carry zero = address opcode' (.ofNat n) carry' zero') :
    opcode = opcode' ∧ m = n ∧ carry = carry' ∧ zero = zero' := by
  obtain ⟨ho, hc, hca, hz⟩ := address_inj h
  rw [toNat_ofNat_cycle hm, toNat_ofNat_cycle hn] at hc
  simp only [cycleCount] at hm hn
  exact ⟨ho, by omega, hca, hz⟩

theorem exists_address {a : Address} (h : a.val < 16384) :
    ∃ opcode cycle carry zero, cycle < cycleCount ∧ a = address opcode (.ofNat cycle) carry zero := by
  have bit (n : Nat) : (n % 2 == 1).toNat = n % 2 := by
    rcases Nat.mod_two_eq_zero_or_one n with h | h <;> simp [h]
  have hcycle : a.val / 4 % 16 < cycleCount := Nat.mod_lt _ (by decide)
  refine ⟨.ofNat (a.val / 64), a.val / 4 % 16, a.val / 2 % 2 == 1, a.val % 2 == 1, hcycle, Fin.ext ?_⟩
  simp only [address, bit, toNat_ofNat_cycle hcycle, UInt8.toNat_ofNat']
  omega

/-! ## Words at addresses -/

theorem Store.getElem?_words (store : Store) (a : Address) :
    store.words[a.val]? = some (store.word a) := by
  have h0 : store.bank0.toList[a.val]? = some store.bank0[a] := by simp
  have h1 : store.bank1.toList[a.val]? = some store.bank1[a] := by simp
  rw [Store.words, List.getElem?_zipWith, h0, h1]
  rfl

end Microcomputer.Control
