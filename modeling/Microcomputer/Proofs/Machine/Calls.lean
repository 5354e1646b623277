import Microcomputer.Proofs.Machine.Reachable
import Microcomputer.Proofs.Machine.Stack

/-!
# Calls and returns

A call leaves the address of its own last byte in two cells of the stack, and a return steps PC once more
after it has popped it. So a return matches its call if SP and these cells are as the call left them,
whatever ran in between. A return that drops the arguments of the call brings SP back to where it was
before they were pushed, but not across the end of a page: pushes wrap around in it, while the drop
borrows from the high byte of SP.
-/

namespace Microcomputer

namespace Machine

open Instruction
open Microcode

variable {m r : Machine}

/-! ## The cells of a return address -/

theorem bootSize_le_value {p : RegisterPair} (hp : 0xF0 ≤ p.high) : bootSize ≤ p.value.toNat := by
  have hhigh := UInt8.le_iff_toNat_le.mp hp
  rw [p.toNat_value]
  simp only [UInt8.reduceToNat] at hhigh
  simp only [bootSize]
  omega

theorem memory_pushAddress_of_ne {address : RegisterPair} {a : UInt16} (hlow : a ≠ m.sp.value)
    (hhigh : a ≠ m.sp.up.value) : (m.pushAddress address).memory a = m.memory a := by
  rw [pushAddress, memory_writeMemory, memory_writeMemory, if_neg fun h => hhigh h.1.symm,
    if_neg fun h => hlow h.1.symm]

theorem memory_pushAddress (address : RegisterPair) (hsp : 0xF0 ≤ m.sp.high) :
    (m.pushAddress address).memory m.sp.value = address.low ∧
      (m.pushAddress address).memory m.sp.up.value = address.high := by
  have hne : m.sp.up.value ≠ m.sp.value := fun h => m.sp.up_ne (RegisterPair.value_inj h)
  constructor
  · rw [pushAddress, memory_writeMemory, memory_writeMemory, if_neg fun h => hne h.1,
      if_pos ⟨rfl, bootSize_le_value hsp⟩]
  · rw [pushAddress, memory_writeMemory, if_pos ⟨rfl, bootSize_le_value (p := m.sp.up) hsp⟩]

/-- SP and the two cells that a call wrote are as it left them. -/
structure KeepsCall (before after r : Machine) : Prop where
  sp : r.sp = after.sp
  low : r.memory before.sp.value = after.memory before.sp.value
  high : r.memory before.sp.up.value = after.memory before.sp.up.value

/-! ## One call -/

variable {t : UInt16}

theorem pc_stepped_call (hm : m.AtBoundary) (hcall : m.Executes .call [.addr t])
    (hlow : m.pc.value + 2 ≠ m.sp.value) (hhigh : m.pc.value + 2 ≠ m.sp.up.value) :
    m.stepped.pc.value = t := by
  rw [← RegisterPair.value_ofValue (m.pc.value + 2), ← RegisterPair.next_next] at hlow hhigh
  -- The high byte of the address is read after the two cells are written.
  rw [stepped_call hm hcall.owns, ← hcall.addr rfl]
  simp only [memory_pushAddress_of_ne hlow hhigh]

/-- A machine that keeps what a call left pops the address of the last byte of the call. -/
theorem KeepsCall.popped (h : KeepsCall m m.stepped r) (hm : m.AtBoundary)
    (hi : call.owns (m.memory m.pc.value)) (hsp : 0xF0 ≤ m.sp.high) :
    r.poppedAddress = m.pc.next.next ∧ r.sp.down.down = m.sp := by
  have hpop : r.sp = m.sp.up.up := by
    rw [h.sp, stepped_call hm hi]
  have hmemory : m.stepped.memory = (m.pushAddress m.pc.next.next).memory := by
    rw [stepped_call hm hi]
    exact memory_congr rfl rfl
  obtain ⟨hlow, hhigh⟩ := memory_pushAddress m.pc.next.next hsp
  rw [poppedAddress, hpop, RegisterPair.down_up, RegisterPair.down_up, h.low, h.high, hmemory, hlow, hhigh]
  exact ⟨rfl, rfl⟩

/-- On the generated store a call goes to its address, and a return in any later state that keeps SP and
the two cells of the call comes to the instruction after the call with SP as it was before. -/
theorem step_call_ret {σ : Type} {b : Builder} (hb : generate = .ok b) (hstore : m.store = b.store)
    (hcycle : m.cycle = 0) (hsp : 0xF0 ≤ m.sp.high) (hcall : m.Executes .call [.addr t])
    (hlow : m.pc.value + 2 ≠ m.sp.value) (hhigh : m.pc.value + 2 ≠ m.sp.up.value) (o : Observer σ)
    (seen : σ) :
    let after := (m.step o seen).machine
    after.pc.value = t ∧ ∀ r : Machine, r.store = b.store → r.cycle = 0 → KeepsCall m after r →
      r.Executes .ret [] → ∀ (o' : Observer σ) (seen' : σ),
        (r.step o' seen').machine.pc.value = m.pc.value + 3 ∧ (r.step o' seen').machine.sp = m.sp := by
  obtain rfl := generated_eq hb
  have hm : m.AtBoundary := ⟨hstore, hcycle⟩
  simp only [machine_step]
  refine ⟨pc_stepped_call hm hcall hlow hhigh, fun r hstore hcycle hkeeps hret _ _ => ?_⟩
  obtain ⟨haddress, hpopped⟩ := hkeeps.popped hm hcall.owns hsp
  rw [stepped_ret ⟨hstore, hcycle⟩ hret.owns, haddress, RegisterPair.next_next_next]
  exact ⟨RegisterPair.value_ofValue _, hpopped⟩

/-- Between the two bytes of the address the low half of SP wraps around. -/
theorem step_call_ret_wrap :
    let m : Machine :=
      { store := generated.store, boot := bootOf #[0x05, 0x04, 0x00, 0x00, 0x06], sp := ⟨0xFF, 0xF0⟩ }
    (generate = .ok generated ∧ m.store = generated.store ∧ m.cycle = 0) ∧
      m.Executes .call [.addr 4] ∧ m.stepped.Executes .ret [] ∧
      (m.stepped.step Observer.silent ()).machine.pc.value = 3 ∧
      (m.stepped.step Observer.silent ()).machine.sp = m.sp := by
  intro m
  have hm : m.AtBoundary := ⟨rfl, rfl⟩
  have hcall : m.Executes .call [.addr 4] := executes_of_boot rfl rfl (by decide) (by rfl)
  obtain ⟨hpc, h⟩ :=
    step_call_ret generate_eq rfl rfl (by decide) hcall (by decide) (by decide) Observer.silent ()
  rw [machine_step] at hpc h
  have hret : m.stepped.Executes .ret [] := executes_of_boot m.boot_stepped hpc (by decide) (by rfl)
  have hafter := h m.stepped hm.stepped.store hm.stepped.cycle ⟨rfl, rfl, rfl⟩ hret Observer.silent ()
  exact ⟨⟨generate_eq, rfl, rfl⟩, hcall, hret, hafter⟩

/-! ## Arguments -/

/-- The next instruction pushes a byte. -/
def Pushes (m : Machine) : Prop :=
  ∃ i operands, (i = pushReg ∨ i = pushImm) ∧ m.Executes i operands

theorem Pushes.sp_stepped (h : m.Pushes) (hm : m.AtBoundary) : m.stepped.sp = m.sp.up := by
  obtain ⟨i, operands, rfl | rfl, hexec⟩ := h
  · rw [stepped_pushReg hm hexec.owns]
  · rw [stepped_pushImm hm hexec.owns]

theorem sp_iterate_pushes (hm : m.AtBoundary) (n : Nat) (hpush : ∀ k < n, (stepped^[k] m).Pushes) :
    (stepped^[n] m).sp = { m.sp with low := m.sp.low + .ofNat n } := by
  induction n with
  | zero => exact congrArg (RegisterPair.mk · m.sp.high) (UInt8.add_zero _).symm
  | succ n ih =>
    rw [Function.iterate_succ_apply', (hpush n n.lt_succ_self).sp_stepped (hm.iterate_stepped n),
      ih fun k hk => hpush k (Nat.lt_succ_of_lt hk), RegisterPair.up, UInt8.ofNat_add, ← UInt8.add_assoc]
    rfl

/-- Bytes that were pushed are given back up to the end of their page. A drop from beyond it borrows from
the high half, which no push has carried into. -/
theorem release_pushed {p : RegisterPair} (hp : 0xF0 ≤ p.high) (count : UInt8) :
    release { p with low := p.low + count } count =
      if p.low.toNat + count.toNat < 256 then p else { p with high := stackBase ||| (p.high - 1) } := by
  -- The low half is below the count exactly if the pushes have wrapped it around.
  have henough : count ≤ p.low + count ↔ p.low.toNat + count.toNat < 256 := by
    have hlow := p.low.toNat_lt
    have hcount := count.toNat_lt
    rw [UInt8.le_iff_toNat_le, UInt8.toNat_add]
    omega
  rw [release, decide_eq_decide.mpr henough, UInt8.add_sub_cancel]
  split
  next h =>
    have hhigh : p.high - 1 + (decide (p.low.toNat + count.toNat < 256)).toUInt8 = p.high := by
      rw [decide_eq_true h]
      exact UInt8.sub_add_cancel _ _
    rw [hhigh, or_stackBase hp]
  next h =>
    rw [decide_eq_false h]
    exact congrArg (fun high => RegisterPair.mk p.low (stackBase ||| high)) (UInt8.add_zero _)

theorem KeepsCall.stepped_retImm {n : UInt8} (h : KeepsCall m m.stepped r) (hm : m.AtBoundary)
    (hi : call.owns (m.memory m.pc.value)) (hsp : 0xF0 ≤ m.sp.high) (hr : r.AtBoundary)
    (hret : r.Executes .retImm [.imm n]) :
    r.stepped.pc.value = m.pc.value + 3 ∧ r.stepped.sp = release m.sp n := by
  obtain ⟨haddress, hpopped⟩ := h.popped hm hi hsp
  rw [Machine.stepped_retImm hr hret.owns, haddress, hpopped, hret.imm rfl,
    RegisterPair.next_next_next]
  exact ⟨RegisterPair.value_ofValue _, rfl⟩

/-- On the generated store, where bytes are pushed before a call, a return that drops them comes to the
instruction after the call. It brings SP back to where it was unless the pushes passed the end of a page;
then the high byte of SP is one less, within the stack area. -/
theorem step_retImm {σ : Type} {b : Builder} (hb : generate = .ok b) (hm : Reachable b.store m)
    {n : UInt8} (hpush : ∀ k < n.toNat, (stepped^[k] m).Pushes)
    (hcall : (stepped^[n.toNat] m).Executes .call [.addr t]) (hstore : r.store = b.store)
    (hcycle : r.cycle = 0) (hkeeps : KeepsCall (stepped^[n.toNat] m) (stepped^[n.toNat] m).stepped r)
    (hret : r.Executes .retImm [.imm n]) (o : Observer σ) (seen : σ) :
    let after := (r.step o seen).machine
    after.pc.value = (stepped^[n.toNat] m).pc.value + 3 ∧
      after.sp =
        if m.sp.low.toNat + n.toNat < 256 then m.sp
        else { m.sp with high := stackBase ||| (m.sp.high - 1) } := by
  obtain rfl := generated_eq hb
  have hpushed : (stepped^[n.toNat] m).sp = { m.sp with low := m.sp.low + n } := by
    rw [sp_iterate_pushes hm.boundary n.toNat hpush, UInt8.ofNat_toNat]
  have hsp : 0xF0 ≤ (stepped^[n.toNat] m).sp.high := by
    rw [hpushed]
    exact hm.le_high_sp
  obtain ⟨hpc, hreleased⟩ := hkeeps.stepped_retImm (hm.boundary.iterate_stepped _) hcall.owns hsp
    ⟨hstore, hcycle⟩ hret
  rw [hpushed, release_pushed hm.le_high_sp] at hreleased
  rw [machine_step]
  exact ⟨hpc, hreleased⟩

/-- The pushes stay in the first page of the stack area. -/
theorem step_retImm_one :
    let m : Machine :=
      { store := generated.store, boot := bootOf #[0x21, 0x01, 0x05, 0x05, 0x00, 0x1E, 0x01] }
    (generate = .ok generated ∧ Reachable generated.store m) ∧
      m.Executes .pushImm [.imm 1] ∧ m.stepped.Executes .call [.addr 5] ∧
      m.stepped.stepped.Executes .retImm [.imm 1] ∧
      (m.stepped.stepped.step Observer.silent ()).machine.pc.value = 5 ∧
      (m.stepped.stepped.step Observer.silent ()).machine.sp = m.sp := by
  intro m
  have hm : Reachable generated.store m := reachable_of_boot (by decide)
  have hexec : m.Executes .pushImm [.imm 1] := executes_of_boot rfl rfl (by decide) (by rfl)
  have hpush : m.Pushes := ⟨_, _, .inr rfl, hexec⟩
  have hpc : m.stepped.pc.value = 2 := pc_stepped_pushImm hm.boundary hexec
  have hcall : m.stepped.Executes .call [.addr 5] :=
    executes_of_boot m.boot_stepped hpc (by decide) (by rfl)
  have hsp : m.stepped.sp = m.sp.up := hpush.sp_stepped hm.boundary
  have hentry : m.stepped.stepped.pc.value = 5 :=
    pc_stepped_call hm.boundary.stepped hcall (by rw [hpc, hsp]; decide) (by rw [hpc, hsp]; decide)
  have hret : m.stepped.stepped.Executes .retImm [.imm 1] :=
    executes_of_boot (m.stepped.boot_stepped.trans m.boot_stepped) hentry (by decide) (by rfl)
  have hr : m.stepped.stepped.AtBoundary := hm.boundary.stepped.stepped
  have hone : stepped^[(1 : UInt8).toNat] m = m.stepped := by
    rw [show (1 : UInt8).toNat = 1 from rfl, Function.iterate_one]
  have hpushes (k : Nat) (hk : k < (1 : UInt8).toNat) : (stepped^[k] m).Pushes := by
    obtain rfl := Nat.lt_one_iff.mp hk
    rw [Function.iterate_zero_apply]
    exact hpush
  have h := step_retImm generate_eq hm hpushes (t := 5) (by rw [hone]; exact hcall) hr.store hr.cycle
    (by rw [hone]; exact ⟨rfl, rfl, rfl⟩) hret Observer.silent ()
  rw [hone, hpc] at h
  exact ⟨⟨generate_eq, hm⟩, hexec, hcall, hret, h.1, h.2.trans (if_pos (by decide))⟩

/-- One byte pushed at the end of the first page and dropped again: SP comes back in the last page. -/
theorem sp_retImm_page_end :
    let start : Machine :=
      { store := generated.store,
        boot := bootOf #[0x1C, 0xFF, 0x21, 0x01, 0x05, 0x0A, 0x00, 0xFF, 0x00, 0x00, 0x1E, 0x01] }
    let m := start.stepped
    Reachable generated.store m ∧ m.Executes .pushImm [.imm 1] ∧ m.stepped.Executes .call [.addr 10] ∧
      m.stepped.stepped.Executes .retImm [.imm 1] ∧ m.sp = ⟨0xFF, 0xF0⟩ ∧
      (m.stepped.stepped.step Observer.silent ()).machine.sp = ⟨0xFF, 0xFF⟩ ∧
      ¬(m.stepped.stepped.step Observer.silent ()).machine.sp = m.sp := by
  intro start m
  have hstart : Reachable generated.store start := reachable_of_boot (by decide)
  have halloc : start.Executes .alloc [.imm 0xFF] := executes_of_boot rfl rfl (by decide) (by rfl)
  have hm : Reachable generated.store m := hstart.stepped
  have hreserve : reserve (.ofValue stackAddress) 0xFF = ⟨0xFF, 0xF0⟩ := by
    decide
  obtain ⟨hmoved, hreserved⟩ := pc_sp_stepped_alloc hstart.boundary halloc
  have hpc : m.pc.value = 2 := hmoved
  have hsp : m.sp = ⟨0xFF, 0xF0⟩ := hreserved.trans hreserve
  have hexec : m.Executes .pushImm [.imm 1] := executes_of_boot start.boot_stepped hpc (by decide) (by rfl)
  have hpush : m.Pushes := ⟨_, _, .inr rfl, hexec⟩
  have hpushed : m.stepped.pc.value = 4 := by
    rw [pc_stepped_pushImm hm.boundary hexec, hpc]
    rfl
  have hcall : m.stepped.Executes .call [.addr 10] :=
    executes_of_boot (m.boot_stepped.trans start.boot_stepped) hpushed (by decide) (by rfl)
  have hup : m.stepped.sp = m.sp.up := hpush.sp_stepped hm.boundary
  have hentry : m.stepped.stepped.pc.value = 10 :=
    pc_stepped_call hm.boundary.stepped hcall (by rw [hpushed, hup, hsp]; decide)
      (by rw [hpushed, hup, hsp]; decide)
  have hret : m.stepped.stepped.Executes .retImm [.imm 1] :=
    executes_of_boot (m.stepped.boot_stepped.trans (m.boot_stepped.trans start.boot_stepped)) hentry
      (by decide) (by rfl)
  have hkeeps : KeepsCall m.stepped m.stepped.stepped m.stepped.stepped := ⟨rfl, rfl, rfl⟩
  have hafter : (m.stepped.stepped.step Observer.silent ()).machine.sp = ⟨0xFF, 0xFF⟩ := by
    obtain ⟨-, h⟩ := hkeeps.stepped_retImm hm.boundary.stepped hcall.owns (by rw [hup, hsp]; decide)
      hm.boundary.stepped.stepped hret
    rw [machine_step, h, hup, hsp]
    rfl
  refine ⟨hm, hexec, hcall, hret, hsp, hafter, ?_⟩
  rw [hafter, hsp]
  decide

end Machine

end Microcomputer
