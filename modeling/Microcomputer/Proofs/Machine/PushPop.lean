import Microcomputer.Proofs.Machine.Calls
import Microcomputer.Proofs.Machine.Lines

/-!
# Pushes and pops

A push writes the cell under SP and steps SP up, a pop steps SP down and reads. Both steps stay in the page
of SP, so pops find what was pushed, the last byte first, as long as the page has room for all of it,
wherever in the page the stack begins.
-/

namespace Microcomputer

open Instruction
open Microcode

/-! ## Cells below SP -/

namespace RegisterPair

variable (p : RegisterPair) (n : Nat)

/-- The pair with a number taken from its low half. -/
def below : RegisterPair :=
  { p with low := p.low - .ofNat n }

theorem below_zero : p.below 0 = p :=
  congrArg (RegisterPair.mk · p.high) p.low.sub_zero

theorem up_below : p.up.below (n + 1) = p.below n := by
  simp only [below, up, UInt8.ofNat_add, mk.injEq, and_true]
  grind

theorem down_below : p.down.below n = p.below (n + 1) := by
  simp only [below, down, UInt8.ofNat_add, mk.injEq, and_true]
  grind

variable {p n}

theorem below_ne (h : n + 1 < 256) : p.below (n + 1) ≠ p := by
  intro hp
  have hlow := congrArg (fun q => q.low.toNat) hp
  have hlt := p.low.toNat_lt
  simp only [below, UInt8.toNat_sub, UInt8.toNat_ofNat'] at hlow
  omega

end RegisterPair

/-! ## Programs -/

/-- What is pushed: a register or a byte of the code. -/
inductive Push where
  | register (r : Register)
  | imm (value : UInt8)

namespace Push

/-- The instruction of a push. -/
def part : Push → Instruction × List Operand
  | register r => (.pushReg, [.register r])
  | imm value => (.pushImm, [.imm value])

/-- The byte that is pushed. -/
def value (regs : Registers) : Push → UInt8
  | register r => regs.get r
  | imm value => value

end Push

/-- The instruction of a pop. -/
def popPart (r : Register) : Instruction × List Operand :=
  (.pop, [.register r])

/-- Pushes and then pops. -/
def pushesAndPops (pushes : List Push) (pops : List Register) : List (Instruction × List Operand) :=
  pushes.map Push.part ++ pops.map popPart

theorem forall_pushesAndPops {P : Instruction × List Operand → Prop} {pushes : List Push}
    {pops : List Register} (hpush : ∀ push : Push, P push.part) (hpop : ∀ r, P (popPart r)) :
    ∀ part ∈ pushesAndPops pushes pops, P part := by
  intro part h
  rcases List.mem_append.mp h with h | h
  · obtain ⟨push, -, rfl⟩ := List.mem_map.mp h
    exact hpush push
  · obtain ⟨r, -, rfl⟩ := List.mem_map.mp h
    exact hpop r

namespace Machine

variable {m n : Machine} {base : RegisterPair} {values : List UInt8} {pushes : List Push}
  {pops : List Register} {parts : List (Instruction × List Operand)} {codes : List (List UInt8)}

/-! ## One push and one pop -/

theorem regs_writeMemory (m : Machine) (a : UInt16) (value : UInt8) :
    (m.writeMemory a value).regs = m.regs := by
  rw [writeMemory_eq]

/-- A byte is in the cell that was under SP. -/
structure Pushed (value : UInt8) (before after : Machine) : Prop where
  regs : after.regs = before.regs
  sp : after.sp = before.sp.up
  memory : after.memory = (before.writeMemory before.sp.value value).memory

/-- The byte of the cell below SP is in a register. -/
structure Popped (r : Register) (before after : Machine) : Prop where
  regs : after.regs = before.regs.set r (before.memory before.sp.down.value)
  sp : after.sp = before.sp.down
  memory : after.memory = before.memory

theorem pushed_stepped {push : Push} (hm : m.AtBoundary)
    (hexec : m.Executes push.part.1 push.part.2) : Pushed (push.value m.regs) m m.stepped := by
  cases push with
  | register r =>
    have hr := hexec.register rfl
    simp only [Push.part, List.cons.injEq, Operand.register.injEq, and_true] at hr
    rw [stepped_pushReg hm hexec.owns, ← hr]
    exact ⟨m.regs_writeMemory _ _, rfl, memory_congr rfl rfl⟩
  | imm value =>
    have hvalue := hexec.imm rfl
    rw [stepped_pushImm hm hexec.owns, hvalue]
    exact ⟨m.regs_writeMemory _ _, rfl, memory_congr rfl rfl⟩

theorem popped_stepped {r : Register} (hm : m.AtBoundary) (hexec : m.Executes .pop [.register r]) :
    Popped r m m.stepped := by
  have hr := hexec.register rfl
  simp only [List.cons.injEq, Operand.register.injEq, and_true] at hr
  rw [stepped_pop hm hexec.owns, ← hr]
  exact ⟨rfl, rfl, memory_congr rfl rfl⟩

/-! ## The stack -/

/-- The cells from a base up to SP hold these values, the last one pushed first. -/
structure Stacked (m : Machine) (base : RegisterPair) (values : List UInt8) : Prop where
  sp : m.sp.below values.length = base
  cells : ∀ k value, values[k]? = some value → m.memory (m.sp.below (k + 1)).value = value

theorem stacked_nil (m : Machine) : m.Stacked m.sp [] where
  sp := m.sp.below_zero
  cells := by simp

theorem Stacked.push {value : UInt8} (h : m.Stacked base values) (hp : Pushed value m n)
    (hsp : 0xF0 ≤ m.sp.high) (hroom : values.length < 256) : n.Stacked base (value :: values) := by
  constructor
  · rw [hp.sp, List.length_cons, RegisterPair.up_below]
    exact h.sp
  · intro k v hk
    rw [hp.sp, RegisterPair.up_below, hp.memory, memory_writeMemory]
    cases k with
    | zero =>
      rw [RegisterPair.below_zero, if_pos ⟨rfl, bootSize_le_value hsp⟩]
      simpa using hk
    | succ k =>
      simp only [List.getElem?_cons_succ] at hk
      have hlt := (List.getElem?_eq_some_iff.mp hk).1
      have hne : m.sp.below (k + 1) ≠ m.sp := RegisterPair.below_ne (by omega)
      rw [if_neg fun hcell => hne (RegisterPair.value_inj hcell.1).symm]
      exact h.cells k v hk

theorem Stacked.pop {value : UInt8} {r : Register} (h : m.Stacked base (value :: values))
    (hp : Popped r m n) : n.regs = m.regs.set r value ∧ n.Stacked base values := by
  have hcell := h.cells 0 value rfl
  rw [← RegisterPair.down_below, RegisterPair.below_zero] at hcell
  refine ⟨by rw [hp.regs, hcell], ?_, fun k v hk => ?_⟩
  · rw [hp.sp, RegisterPair.down_below]
    exact h.sp
  · rw [hp.sp, hp.memory, RegisterPair.down_below]
    exact h.cells (k + 1) v hk

/-! ## Pushes in a row, pops in a row -/

theorem Stacked.iterate_push (h : m.Stacked base values) (hm : m.AtBoundary) (hsp : 0xF0 ≤ m.sp.high)
    (hexec : m.ExecutesAll (pushes.map Push.part)) (hroom : values.length + pushes.length ≤ 256) :
    (stepped^[pushes.length] m).Stacked base ((pushes.map (Push.value m.regs)).reverse ++ values) ∧
      ∀ k ≤ pushes.length, (stepped^[k] m).regs = m.regs := by
  induction pushes generalizing m values with
  | nil =>
    refine ⟨h, fun k hk => ?_⟩
    obtain rfl := Nat.le_zero.mp hk
    rfl
  | cons push pushes ih =>
    obtain ⟨hfirst, hrest⟩ := hexec
    rw [List.length_cons] at hroom
    have hpushed := pushed_stepped hm hfirst
    have hstacked := h.push hpushed hsp (by omega)
    have hsp' : 0xF0 ≤ m.stepped.sp.high := by
      rw [hpushed.sp]
      exact hsp
    obtain ⟨hall, hregs⟩ := ih hstacked hm.stepped hsp' hrest (by rw [List.length_cons]; omega)
    constructor
    · rw [hpushed.regs] at hall
      simpa using hall
    · intro k hk
      cases k with
      | zero => rfl
      | succ k =>
        rw [Function.iterate_succ_apply, hregs k (Nat.le_of_succ_le_succ hk), hpushed.regs]

theorem Stacked.iterate_pop (h : m.Stacked base values) (hm : m.AtBoundary)
    (hexec : m.ExecutesAll (pops.map popPart)) (hlength : pops.length = values.length) :
    (stepped^[pops.length] m).sp = base ∧
      ∀ k r value, pops[k]? = some r → values[k]? = some value →
        (stepped^[k + 1] m).regs = (stepped^[k] m).regs.set r value := by
  induction pops generalizing m values with
  | nil =>
    obtain rfl := List.length_eq_zero_iff.mp hlength.symm
    refine ⟨?_, fun k r value hr => nomatch hr⟩
    rw [← h.sp]
    exact m.sp.below_zero.symm
  | cons r pops ih =>
    obtain ⟨value, values, rfl⟩ := List.exists_cons_of_length_eq_add_one hlength.symm
    obtain ⟨hfirst, hrest⟩ := hexec
    obtain ⟨hregs, hstacked⟩ := h.pop (popped_stepped hm hfirst)
    obtain ⟨hsp, hlater⟩ := ih hstacked hm.stepped hrest (by simpa using hlength)
    refine ⟨hsp, fun k s v hs hv => ?_⟩
    cases k with
    | zero =>
      cases hs
      cases hv
      exact hregs
    | succ k => exact hlater k s v hs hv

/-! ## The page of SP -/

/-- SP stays in its page, and memory stays as it is outside. -/
structure KeepsOutside (before after : Machine) : Prop where
  high : after.sp.high = before.sp.high
  memory : ∀ a, (RegisterPair.ofValue a).high ≠ before.sp.high → after.memory a = before.memory a

theorem KeepsOutside.trans {r : Machine} (h : KeepsOutside m n) (h' : KeepsOutside n r) :
    KeepsOutside m r where
  high := h'.high.trans h.high
  memory a ha := (h'.memory a (by rwa [h.high])).trans (h.memory a ha)

theorem keepsOutside_part {part : Instruction × List Operand}
    (hpart : part ∈ pushesAndPops pushes pops) (hm : m.AtBoundary) (hexec : m.Executes part.1 part.2) :
    KeepsOutside m m.stepped := by
  revert hexec
  refine forall_pushesAndPops (P := fun part => m.Executes part.1 part.2 → KeepsOutside m m.stepped)
    (fun push hexec => ?_) (fun r hexec => ?_) part hpart
  · have hpushed := pushed_stepped hm hexec
    refine ⟨congrArg (·.high) hpushed.sp, fun a ha => ?_⟩
    rw [hpushed.memory, memory_writeMemory, if_neg]
    rintro ⟨rfl, -⟩
    rw [RegisterPair.ofValue_value] at ha
    exact ha rfl
  · have hpopped := popped_stepped hm hexec
    exact ⟨congrArg (·.high) hpopped.sp, fun a _ => congrFun hpopped.memory a⟩

/-- Code is at PC, and none of it in the page of SP. -/
structure CodeOutside (m : Machine) (code : List UInt8) : Prop where
  bytes : m.bytesFrom m.pc.value code.length = code
  outside : ∀ k < code.length, (RegisterPair.ofValue (m.pc.value + .ofNat k)).high ≠ m.sp.high

theorem CodeOutside.stepped {code later : List UInt8} (h : m.CodeOutside (code ++ later))
    (hpc : m.stepped.pc.value = m.pc.value + .ofNat code.length) (hkeeps : KeepsOutside m m.stepped) :
    m.stepped.CodeOutside later := by
  have houtside : ∀ k < later.length,
      (RegisterPair.ofValue (m.pc.value + .ofNat code.length + .ofNat k)).high ≠ m.sp.high := by
    intro k hk
    rw [UInt16.add_assoc, ← UInt16.ofNat_add]
    exact h.outside (code.length + k) (by rw [List.length_append]; omega)
  constructor
  · rw [hpc, bytesFrom_congr fun k hk => hkeeps.memory _ (houtside k hk)]
    exact (bytesFrom_append h.bytes).2
  · rw [hpc, hkeeps.high]
    exact houtside

theorem CodeOutside.executesAll (h : Encodes parts codes) (hcode : m.CodeOutside codes.flatten)
    (hm : m.AtBoundary) (hstraight : ∀ part ∈ parts, part.1.isStraight)
    (hkeeps : ∀ x : Machine, ∀ part ∈ parts, x.AtBoundary → x.Executes part.1 part.2 →
      KeepsOutside x x.stepped) :
    m.ExecutesAll parts := by
  induction h generalizing m with
  | nil => trivial
  | @cons part code parts codes hpart _ ih =>
    obtain ⟨hexec, hnext⟩ := executes_of_encode hpart hcode.bytes hm
    have hpc := hnext (hstraight _ List.mem_cons_self)
    refine ⟨hexec, ih (hcode.stepped hpc (hkeeps m part List.mem_cons_self hm hexec)) hm.stepped ?_ ?_⟩
    · exact fun q hq => hstraight q (List.mem_cons_of_mem _ hq)
    · exact fun x q hq => hkeeps x q (List.mem_cons_of_mem _ hq)

theorem ExecutesAll.keepsOutside (h : m.ExecutesAll (pushesAndPops pushes pops)) (hm : m.AtBoundary) {k : Nat}
    (hk : k ≤ (pushesAndPops pushes pops).length) : KeepsOutside m (stepped^[k] m) := by
  have hsplit := List.take_append_drop k (pushesAndPops pushes pops)
  rw [← hsplit, executesAll_append] at h
  have hinv := h.1.invariant (P := KeepsOutside m) hm (fun x part hpart hx hexec hkeeps =>
    hkeeps.trans (keepsOutside_part (List.mem_of_mem_take hpart) hx hexec)) ⟨rfl, fun _ _ => rfl⟩
  rwa [List.length_take_of_le hk] at hinv

/-! ## Pushes and pops that match -/

/-- On the generated store, where no more bytes are pushed than a page has cells and as many are popped
after that, each pop loads what the push that it matches has pushed, SP comes back to where it was, and
outside the page of SP memory stays as it is all the time. The code has to be outside that page. -/
theorem iterate_stepped_pushesAndPops {b : Builder} (hb : generate = .ok b) (hstore : m.store = b.store)
    (hcycle : m.cycle = 0) (hsp : 0xF0 ≤ m.sp.high) (hlength : pops.length = pushes.length)
    (hroom : pushes.length ≤ 256) (hcodes : Encodes (pushesAndPops pushes pops) codes)
    (hcode : m.CodeOutside codes.flatten) :
    let count := pushes.length
    m.ExecutesAll (pushesAndPops pushes pops) ∧
      (∀ j k push r, j + k + 1 = count → pushes[j]? = some push → pops[k]? = some r →
        (stepped^[count + k + 1] m).regs =
          (stepped^[count + k] m).regs.set r (push.value (stepped^[j] m).regs)) ∧
      (stepped^[2 * count] m).sp = m.sp ∧
      ∀ k ≤ 2 * count, ∀ a, (RegisterPair.ofValue a).high ≠ m.sp.high →
        (stepped^[k] m).memory a = m.memory a := by
  intro count
  have hm : m.AtBoundary := ⟨by rw [hstore, generated_eq hb], hcycle⟩
  have hexec : m.ExecutesAll (pushesAndPops pushes pops) :=
    hcode.executesAll hcodes hm
      (forall_pushesAndPops (fun push => by cases push <;> rfl) fun _ => rfl)
      fun x part hpart hx hexec => keepsOutside_part hpart hx hexec
  obtain ⟨hpushes, hpops⟩ := executesAll_append.mp hexec
  rw [List.length_map] at hpops
  obtain ⟨hstacked, hregs⟩ := m.stacked_nil.iterate_push hm hsp hpushes (by simpa using hroom)
  rw [List.append_nil] at hstacked
  obtain ⟨hend, hloads⟩ := hstacked.iterate_pop (hm.iterate_stepped _) hpops (by simpa using hlength)
  refine ⟨hexec, fun j k push r hjk hpush hr => ?_, ?_, fun k hk => ?_⟩
  · have hvalue : (pushes.map (Push.value m.regs)).reverse[k]? = some (push.value m.regs) := by
      rw [List.getElem?_reverse (by rw [List.length_map]; omega), List.length_map,
        show pushes.length - 1 - k = j by omega, List.getElem?_map, hpush]
      rfl
    have hload := hloads k r _ hr hvalue
    rw [← Function.iterate_add_apply, ← Function.iterate_add_apply] at hload
    rw [hregs j (by omega), show count + k = k + count by omega, show k + count + 1 = k + 1 + count by omega]
    exact hload
  · rw [hlength, ← Function.iterate_add_apply] at hend
    rw [Nat.two_mul]
    exact hend
  · refine (hexec.keepsOutside hm ?_).memory
    rw [pushesAndPops, List.length_append, List.length_map, List.length_map, hlength]
    omega

/-- Between the two pushes the low half of SP wraps around. -/
theorem iterate_stepped_pushesAndPops_wrap :
    let m : Machine :=
      { store := generated.store, boot := bootOf #[0x78, 0x21, 0x07, 0x7D, 0x7E], regs := { a := 3 }
        sp := ⟨0xFF, 0xF0⟩ }
    let parts := pushesAndPops [.register .a, .imm 7] [.b, .x]
    (generate = .ok generated ∧ m.store = generated.store ∧ m.cycle = 0 ∧ 0xF0 ≤ m.sp.high) ∧
      Encodes parts [[0x78], [0x21, 0x07], [0x7D], [0x7E]] ∧
      m.CodeOutside [0x78, 0x21, 0x07, 0x7D, 0x7E] ∧ m.ExecutesAll parts ∧
      (stepped^[3] m).regs = (stepped^[2] m).regs.set .b 7 ∧
      (stepped^[4] m).regs = (stepped^[3] m).regs.set .x 3 ∧ (stepped^[4] m).sp = m.sp := by
  intro m parts
  have hcodes : Encodes parts [[0x78], [0x21, 0x07], [0x7D], [0x7E]] :=
    .cons rfl (.cons rfl (.cons rfl (.cons rfl .nil)))
  have hcode : m.CodeOutside [0x78, 0x21, 0x07, 0x7D, 0x7E] := by
    constructor
    · rw [bytesFrom_of_boot (m := m) rfl (by decide)]
      rfl
    · decide
  obtain ⟨hexec, hloads, hsp, -⟩ :=
    iterate_stepped_pushesAndPops generate_eq rfl rfl (by decide) rfl (by decide) hcodes hcode
  have hlast := hloads 1 0 (.imm 7) .b rfl rfl rfl
  have hfirst := hloads 0 1 (.register .a) .x rfl rfl rfl
  exact ⟨⟨generate_eq, rfl, rfl, by decide⟩, hcodes, hcode, hexec, hlast, hfirst, hsp⟩

end Machine

end Microcomputer
