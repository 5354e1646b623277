import Microcomputer.Proofs.Instruction.Decoding
import Microcomputer.Proofs.Machine.Words

/-!
# Instructions in memory

A machine executes an instruction with given operands if their encoding stands at PC. Its registers are
then in the opcode and its other operands in the bytes that follow.
-/

namespace Microcomputer.Machine

open Instruction

variable {m : Machine} {i : Instruction} {operands : List Operand}

/-- So many bytes of memory from an address on; after the last address comes the first. -/
def bytesFrom (m : Machine) (a : UInt16) : Nat → List UInt8
  | 0 => []
  | n + 1 => m.memory a :: m.bytesFrom (a + 1) n

/-- The encoding of the instruction with these operands is at PC. -/
def Executes (m : Machine) (i : Instruction) (operands : List Operand) : Prop :=
  i.encode operands = .ok (m.bytesFrom m.pc.value i.size)

theorem bytesFrom_of_boot {image : Array UInt8} (hboot : m.boot = bootOf image) {a : UInt16} {n : Nat}
    (ha : a.toNat + n ≤ bootSize) :
    m.bytesFrom a n = (List.range' a.toNat n).map fun k => image.getD k 0 := by
  induction n generalizing a with
  | zero => rfl
  | succ n ih =>
    have hnext : (a + 1).toNat = a.toNat + 1 := by
      rw [UInt16.toNat_add]
      simp only [bootSize] at ha
      simp only [UInt16.reduceToNat]
      omega
    have hbyte : m.memory a = image.getD a.toNat 0 := by
      simp [memory, show a.toNat < bootSize by omega, hboot, bootOf]
    rw [bytesFrom, ih (by omega), hbyte, hnext]
    rfl

theorem executes_of_boot {image : Array UInt8} (hboot : m.boot = bootOf image) {a : UInt16}
    (hpc : m.pc.value = a) (ha : a.toNat + i.size ≤ bootSize)
    (h : i.encode operands = .ok ((List.range' a.toNat i.size).map fun k => image.getD k 0)) :
    m.Executes i operands := by
  rw [Executes, hpc, bytesFrom_of_boot hboot ha, h]

theorem boot_stepped (m : Machine) : m.stepped.boot = m.boot := by
  rw [stepped_eq_finish]
  exact finish_invariant (o := Observer.silent) (P := fun x _ => x.boot = m.boot)
    (E := fun x _ => x.boot = m.boot) (fun _ _ h _ => boot_advance.trans h)
    (fun _ _ h _ => boot_advance.trans h) rfl

theorem boot_iterate_stepped (m : Machine) (k : Nat) : (stepped^[k] m).boot = m.boot := by
  induction k with
  | zero => rfl
  | succ k ih => rw [Function.iterate_succ_apply', boot_stepped, ih]

namespace Executes

theorem owns (h : m.Executes i operands) : i.owns (m.memory m.pc.value) := by
  obtain ⟨opcode, bytes, hcode, hdecode, hsize, -⟩ := encode_cases h
  rw [← hsize] at hcode
  rw [(List.cons.inj hcode).1]
  exact owns_of_decode hdecode

theorem read (h : m.Executes i operands) :
    readOperands i.kinds (registersIn i.kinds (m.memory m.pc.value))
      (m.bytesFrom (m.pc.value + 1) (i.size - 1)) = some operands := by
  obtain ⟨opcode, bytes, hcode, -, hsize, hread⟩ := encode_cases h
  have hbytes := hread []
  rw [List.append_nil, ← hcode, ← hsize] at hbytes
  rw [← hsize]
  exact hbytes

/-! ## Operands by the row of arguments -/

section

variable {r s : Register} {v : UInt8} {t : UInt16}

theorem register (h : m.Executes i operands) (hkinds : i.kinds = [.abxy]) :
    operands = [.register (.ofBits (m.memory m.pc.value).toNat)] := by
  have hread := h.read
  rw [hkinds] at hread
  exact (Option.some.inj hread).symm

theorem registers (h : m.Executes i operands) (hkinds : i.kinds = [.ab, .abxy]) :
    operands = [.register (.ofBits ((m.memory m.pc.value).toNat / 4 % 2)),
      .register (.ofBits (m.memory m.pc.value).toNat)] := by
  have hread := h.read
  rw [hkinds] at hread
  exact (Option.some.inj hread).symm

theorem immRegister (h : m.Executes i operands) (hkinds : i.kinds = [.imm, .abxy]) :
    operands = [.imm (m.memory m.pc.next.value), .register (.ofBits (m.memory m.pc.value).toNat)] := by
  have hread := h.read
  rw [hkinds, size, hkinds, ← RegisterPair.value_next] at hread
  exact (Option.some.inj hread).symm

/-- Where the block begins at a multiple of four, a field of one bit can be read as one of two. -/
theorem narrow (h : m.Executes i [.register r]) (hkinds : i.kinds = [.ab])
    (haligned : i.opcode.toNat % 4 = 0) : r = .ofBits (m.memory m.pc.value).toNat := by
  have hread := h.read
  have hwidth : i.blockWidth = 2 := by
    rw [blockWidth, hkinds]
    rfl
  have howns := owns_iff.mp h.owns
  have hbits : (m.memory m.pc.value).toNat % 2 % 4 = (m.memory m.pc.value).toNat % 4 := by
    omega
  rw [hkinds] at hread
  have hr : Register.ofBits ((m.memory m.pc.value).toNat % 2) = r :=
    Operand.register.inj (List.cons.inj (Option.some.inj hread)).1
  rw [← hr, Register.ofBits, Register.ofBits, hbits]

theorem wideRegisters (h : m.Executes i operands) (hkinds : i.kinds = [.abxy, .abxy]) :
    operands = [.register (.ofBits ((m.memory m.pc.value).toNat / 4)),
      .register (.ofBits (m.memory m.pc.value).toNat)] := by
  have hread := h.read
  rw [hkinds] at hread
  exact (Option.some.inj hread).symm

theorem addrRegister (h : m.Executes i operands) (hkinds : i.kinds = [.addr, .abxy]) :
    operands = [.addr (⟨m.memory m.pc.next.value, m.memory m.pc.next.next.value⟩ : RegisterPair).value,
      .register (.ofBits (m.memory m.pc.value).toNat)] := by
  have hread := h.read
  rw [hkinds, size, hkinds, ← RegisterPair.value_next] at hread
  rw [RegisterPair.value_next m.pc.next]
  exact (Option.some.inj hread).symm

theorem registerAddr (h : m.Executes i operands) (hkinds : i.kinds = [.abxy, .addr]) :
    operands = [.register (.ofBits (m.memory m.pc.value).toNat),
      .addr (⟨m.memory m.pc.next.value, m.memory m.pc.next.next.value⟩ : RegisterPair).value] := by
  have hread := h.read
  rw [hkinds, size, hkinds, ← RegisterPair.value_next] at hread
  rw [RegisterPair.value_next m.pc.next]
  exact (Option.some.inj hread).symm

theorem registerImm (h : m.Executes i operands) (hkinds : i.kinds = [.abxy, .imm]) :
    operands = [.register (.ofBits (m.memory m.pc.value).toNat), .imm (m.memory m.pc.next.value)] := by
  have hread := h.read
  rw [hkinds, size, hkinds, ← RegisterPair.value_next] at hread
  exact (Option.some.inj hread).symm

theorem immImm (h : m.Executes i operands) (hkinds : i.kinds = [.imm, .imm]) :
    operands = [.imm (m.memory m.pc.next.value), .imm (m.memory m.pc.next.next.value)] := by
  have hread := h.read
  rw [hkinds, size, hkinds, ← RegisterPair.value_next] at hread
  rw [RegisterPair.value_next m.pc.next]
  exact (Option.some.inj hread).symm

theorem immAddr (h : m.Executes i operands) (hkinds : i.kinds = [.imm, .addr]) :
    operands = [.imm (m.memory m.pc.next.value),
      .addr (⟨m.memory m.pc.next.next.value, m.memory m.pc.next.next.next.value⟩ : RegisterPair).value] := by
  have hread := h.read
  rw [hkinds, size, hkinds, ← RegisterPair.value_next] at hread
  rw [RegisterPair.value_next m.pc.next.next, RegisterPair.value_next m.pc.next]
  exact (Option.some.inj hread).symm

theorem immRegisterAddr (h : m.Executes i operands) (hkinds : i.kinds = [.imm, .abxy, .addr]) :
    operands = [.imm (m.memory m.pc.next.value), .register (.ofBits (m.memory m.pc.value).toNat),
      .addr (⟨m.memory m.pc.next.next.value, m.memory m.pc.next.next.next.value⟩ : RegisterPair).value] := by
  have hread := h.read
  rw [hkinds, size, hkinds, ← RegisterPair.value_next] at hread
  rw [RegisterPair.value_next m.pc.next.next, RegisterPair.value_next m.pc.next]
  exact (Option.some.inj hread).symm

theorem imm (h : m.Executes i [.imm v]) (hkinds : i.kinds = [.imm]) :
    m.memory m.pc.next.value = v := by
  have hread := h.read
  rw [hkinds, size, hkinds, ← RegisterPair.value_next] at hread
  cases hread
  rfl

theorem addr (h : m.Executes i [.addr t]) (hkinds : i.kinds = [.addr]) :
    (⟨m.memory m.pc.next.value, m.memory m.pc.next.next.value⟩ : RegisterPair).value = t := by
  have hread := h.read
  rw [hkinds, size, hkinds, ← RegisterPair.value_next] at hread
  rw [← Operand.addr.inj (List.cons.inj (Option.some.inj hread)).1, RegisterPair.value_next m.pc.next]
  rfl

end

end Executes

end Microcomputer.Machine
