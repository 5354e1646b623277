import Microcomputer.Proofs.Machine.Lines

/-!
# Transfers

What a row of words does to the registers, to memory and to the output register is a transfer, and that of
the row is made of those of its words. All else that such words change are inner parts, which data only
passes through.
-/

namespace Microcomputer

open Control (Word)
open Instruction
open Microcode

/-- Data that moves: the registers as they are afterwards, the bytes that are written to memory and those
that are sent to the output register, in order. -/
structure Transfer where
  regs : Registers
  writes : List (UInt16 × UInt8) := []
  sent : List UInt8 := []
deriving DecidableEq, Repr

/-- One transfer and then another. -/
def Transfer.followedBy (x y : Transfer) : Transfer where
  regs := y.regs
  writes := x.writes ++ y.writes
  sent := x.sent ++ y.sent

/-- The sinks that a transfer and the inner parts account for: all but the stack pointer and the base
pointer. -/
def Control.Sink.moves : Control.Sink → Bool
  | .sp | .bp | .spPlus | .spMinus => false
  | _ => true

/-- The sinks that change inner parts alone. -/
def Control.Sink.passes (sink : Control.Sink) : Bool :=
  sink.moves && sink != .abxy && sink != .ram && sink != .out

theorem Control.Sink.moves_of_passes {sink : Control.Sink} (h : sink.passes) : sink.moves := by
  cases sink <;> first | rfl | cases h

theorem Microcode.forall_fixed (P : Word → Prop) {ws : List Word} (h : ∀ w ∈ ws, P w) :
    ∀ w ∈ fixed ws, ∀ flags, P (w flags) := by
  intro w hw flags
  obtain ⟨v, hv, rfl⟩ := List.mem_map.mp hw
  exact h v hv

namespace Machine

variable {m inner : Machine} {i : Instruction} {w : Word} {track : List (Flags → Word)} {x y : Transfer}

/-! ## The machine after a transfer -/

/-- The machine with a transfer made. -/
def transferred (m : Machine) (x : Transfer) : Machine :=
  { m with
    regs := x.regs
    ram := x.writes.foldl (fun ram write => stored ram write.1 write.2) m.ram
    out := x.sent.getLastD m.out }

/-- The machine with the inner parts of another one: the flags, PC, the latches, the word counter and the
time. -/
def withInner (m inner : Machine) : Machine :=
  { m with
    flags := inner.flags
    pc := inner.pc
    i := inner.i
    d := inner.d
    t := inner.t
    ma := inner.ma
    cycle := inner.cycle
    ticks := inner.ticks
    input := inner.input }

theorem transferred_transferred : ((m.transferred x).withInner inner).transferred y =
    (m.transferred (x.followedBy y)).withInner inner := by
  have hout : y.sent.getLastD (x.sent.getLastD m.out) = (x.sent ++ y.sent).getLastD m.out := by
    rw [List.getLastD_eq_getLast?, List.getLastD_eq_getLast?, List.getLastD_eq_getLast?,
      List.getLast?_append, Option.getD_or]
  simp only [transferred, withInner, Transfer.followedBy, List.foldl_append, hout]

theorem eq_transferred_trans {p q r : Machine} (hx : q = (p.transferred x).withInner q)
    (hy : r = (q.transferred y).withInner r) : r = (p.transferred (x.followedBy y)).withInner r := by
  rw [hx, transferred_transferred] at hy
  exact hy

/-- A cell that a transfer changes is one that it writes, above the bootstrap region. -/
theorem memory_transferred_ne {a : UInt16} (h : (m.transferred x).memory a ≠ m.memory a) :
    bootSize ≤ a.toNat ∧ ∃ value, (a, value) ∈ x.writes := by
  obtain ⟨regs, writes, sent⟩ := x
  induction writes generalizing m with
  | nil => exact absurd (congrFun (memory_congr rfl rfl) a) h
  | cons write writes ih =>
    by_cases hrest : (m.transferred ⟨regs, write :: writes, sent⟩).memory a =
        (m.writeMemory write.1 write.2).memory a
    · rw [hrest, memory_writeMemory] at h
      by_cases hwrite : write.1 = a ∧ bootSize ≤ write.1.toNat
      · exact ⟨hwrite.1 ▸ hwrite.2, write.2, hwrite.1 ▸ List.mem_cons_self⟩
      · exact absurd (if_neg hwrite) h
    · rw [writeMemory_eq] at hrest
      obtain ⟨ha, value, hvalue⟩ := ih (m := { m with ram := stored m.ram write.1 write.2 }) hrest
      exact ⟨ha, value, List.mem_cons_of_mem _ hvalue⟩

/-! ## One word -/

/-- The transfer of a cycle with this word. -/
def transferOf (m : Machine) (w : Word) : Transfer :=
  let c := m.reading w
  match w.sink with
  | .abxy => { regs := m.regs.set (.ofBits m.i.toNat) c.primary }
  | .ram => { regs := m.regs, writes := [(c.target, c.primary)] }
  | .out => { regs := m.regs, sent := [c.primary] }
  | _ => { regs := m.regs }

theorem sent_transferOf (m : Machine) (w : Word) :
    (m.transferOf w).sent = (m.reading w).output?.toList := by
  obtain ⟨source, sink, side, pointer, select, logic, carryIn⟩ := w
  cases sink <;> rfl

theorem perform_eq_transferred (h : w.sink.moves) :
    m.perform w = (m.transferred (m.transferOf w)).withInner (m.perform w) := by
  obtain ⟨source, sink, side, pointer, select, logic, carryIn⟩ := w
  cases sink with
  | ram =>
    rw [perform_write m rfl]
    rfl
  | sp | bp | spPlus | spMinus => cases h
  | _ => rfl

theorem regs_transferOf (h : w.sink.moves) : (m.transferOf w).regs = (m.perform w).regs := by
  rw [perform_eq_transferred h]
  rfl

theorem transferOf_of_passes (h : w.sink.passes) : m.transferOf w = { regs := m.regs } := by
  obtain ⟨source, sink, side, pointer, select, logic, carryIn⟩ := w
  cases sink <;> first | rfl | cases h

theorem regs_of_passes (h : w.sink.passes) : (m.perform w).regs = m.regs := by
  rw [← regs_transferOf (Control.Sink.moves_of_passes h), transferOf_of_passes h]

/-! ## Words in a row -/

/-- The transfer of a row of words, each chosen by the flags of its own cycle. -/
def transferAlong (m : Machine) : List (Flags → Word) → Transfer
  | [] => { regs := m.regs }
  | w :: track =>
    (m.transferOf (w m.activeFlags)).followedBy ((m.perform (w m.activeFlags)).transferAlong track)

theorem sent_transferAlong (m : Machine) (track : List (Flags → Word)) :
    (m.transferAlong track).sent = m.sent track := by
  induction track generalizing m with
  | nil => rfl
  | cons w track ih =>
    rw [transferAlong, sent, ← ih, ← sent_transferOf]
    rfl

theorem follow_eq_transferred (h : ∀ w ∈ track, ∀ flags, (w flags).sink.moves) :
    m.follow track = (m.transferred (m.transferAlong track)).withInner (m.follow track) := by
  induction track generalizing m with
  | nil => rfl
  | cons w track ih =>
    have hfirst := perform_eq_transferred (m := m) (h w List.mem_cons_self m.activeFlags)
    have hrest := ih (m := m.perform (w m.activeFlags)) fun v hv => h v (List.mem_cons_of_mem _ hv)
    exact eq_transferred_trans hfirst hrest

theorem transferAlong_of_passes (h : ∀ w ∈ track, ∀ flags, (w flags).sink.passes) :
    m.transferAlong track = { regs := m.regs } := by
  induction track generalizing m with
  | nil => rfl
  | cons w track ih =>
    have hw := h w List.mem_cons_self m.activeFlags
    rw [transferAlong, transferOf_of_passes hw, ih fun v hv => h v (List.mem_cons_of_mem _ hv),
      regs_of_passes hw]
    rfl

theorem transferAlong_append {pre rest : List (Flags → Word)}
    (h : ∀ w ∈ pre, ∀ flags, (w flags).sink.passes) :
    m.transferAlong (pre ++ rest) = (m.follow pre).transferAlong rest := by
  induction pre generalizing m with
  | nil => rfl
  | cons w pre ih =>
    rw [List.cons_append, transferAlong, transferOf_of_passes (h w List.mem_cons_self m.activeFlags),
      ih fun v hv => h v (List.mem_cons_of_mem _ hv)]
    rfl

/-- Where one word of a row moves data, the row makes the transfer of that word. -/
theorem transferAlong_word {pre post : List (Flags → Word)} (hw : w.sink.moves)
    (hpre : ∀ v ∈ pre, ∀ flags, (v flags).sink.passes) (hpost : ∀ v ∈ post, ∀ flags, (v flags).sink.passes) :
    m.transferAlong (pre ++ (fun _ => w) :: post) = (m.follow pre).transferOf w := by
  rw [transferAlong_append hpre, transferAlong, transferAlong_of_passes hpost, ← regs_transferOf hw]
  exact congrArg₂ (Transfer.mk _) (List.append_nil _) (List.append_nil _)

/-! ## One instruction -/

/-- A machine with its outputs comes from another by a transfer, whatever becomes of the inner parts. -/
structure Carries (x : Transfer) (before after : Machine × Array UInt8) : Prop where
  machine : after.1 = (before.1.transferred x).withInner after.1
  seen : after.2 = before.2 ++ x.sent.toArray

theorem Carries.trans {p q r : Machine × Array UInt8} (hx : Carries x p q) (hy : Carries y q r) :
    Carries (x.followedBy y) p r := by
  refine ⟨eq_transferred_trans hx.machine hy.machine, ?_⟩
  show r.2 = p.2 ++ (x.sent ++ y.sent).toArray
  rw [hy.seen, hx.seen, ← List.append_toArray, Array.append_assoc]

theorem Carries.memory {p q : Machine × Array UInt8} (h : Carries x p q) :
    q.1.memory = (p.1.transferred x).memory := by
  rw [h.machine]
  exact memory_congr rfl rfl

/-- So many instructions make this transfer. -/
def Makes (m : Machine) (x : Transfer) (count : Nat) : Prop :=
  ∀ seen, Carries x (m, seen) (m.afterSteps seen count)

theorem makes_of_track (ht : Track i track) (hmoves : ∀ w ∈ track, ∀ flags, (w flags).sink.moves)
    (hm : m.AtBoundary) (hi : i.owns (m.memory m.pc.value)) :
    m.Makes ((m.perform fetch).transferAlong track) 1 := by
  intro seen
  have hstep : m.afterSteps seen 1 = m.finish Observer.outputs seen := rfl
  rw [hstep, finish_eq_follow ht hm hi]
  constructor
  · exact follow_eq_transferred hmoves
  · rw [sent_transferAlong]

theorem makes_of_passes (ht : Track i track) (hpasses : ∀ w ∈ track, ∀ flags, (w flags).sink.passes)
    (hm : m.AtBoundary) (hi : i.owns (m.memory m.pc.value)) : m.Makes { regs := m.regs } 1 := by
  have hmakes := makes_of_track ht (fun w hw flags => Control.Sink.moves_of_passes (hpasses w hw flags)) hm hi
  rw [transferAlong_of_passes hpasses] at hmakes
  exact hmakes

theorem makes_of_move {pre post : List (Flags → Word)} (ht : Track i (pre ++ (fun _ => w) :: post))
    (hw : w.sink.moves) (hpre : ∀ v ∈ pre, ∀ flags, (v flags).sink.passes)
    (hpost : ∀ v ∈ post, ∀ flags, (v flags).sink.passes) (hm : m.AtBoundary)
    (hi : i.owns (m.memory m.pc.value)) : m.Makes (((m.perform fetch).follow pre).transferOf w) 1 := by
  rw [← transferAlong_word hw hpre hpost]
  refine makes_of_track ht (fun v hv flags => ?_) hm hi
  rcases List.mem_append.mp hv with hv | hv
  · exact Control.Sink.moves_of_passes (hpre v hv flags)
  · rcases List.mem_cons.mp hv with rfl | hv
    · exact hw
    · exact Control.Sink.moves_of_passes (hpost v hv flags)

theorem makes_of_word {pre post : List Word} (ht : Track i (fixed (pre ++ w :: post))) (hw : w.sink.moves)
    (hpasses : ∀ v ∈ pre ++ post, v.sink.passes) (hm : m.AtBoundary)
    (hi : i.owns (m.memory m.pc.value)) :
    m.Makes (((m.perform fetch).follow (fixed pre)).transferOf w) 1 := by
  obtain ⟨hpre, hpost⟩ := List.forall_mem_append.mp hpasses
  have hrow : fixed (pre ++ w :: post) = fixed pre ++ (fun _ => w) :: fixed post := List.map_append
  rw [hrow] at ht
  exact makes_of_move ht hw (forall_fixed _ hpre) (forall_fixed _ hpost) hm hi

theorem Makes.regs (h : m.Makes x 1) : m.stepped.regs = x.regs := by
  have hregs := congrArg Machine.regs (h #[]).machine
  rwa [machine_afterSteps] at hregs

theorem Makes.memory {regs : Registers} (h : m.Makes { regs := regs } 1) :
    m.stepped.memory = m.memory := by
  have hmemory := (h #[]).memory
  rw [machine_afterSteps] at hmemory
  exact hmemory.trans (memory_congr rfl rfl)

/-- Some instructions and then others. -/
theorem Makes.trans {j k : Nat} (hx : m.Makes x j) (hy : (stepped^[j] m).Makes y k) :
    m.Makes (x.followedBy y) (j + k) := by
  intro seen
  refine (hx seen).trans ?_
  rw [afterSteps_add]
  rw [← machine_afterSteps m seen] at hy
  exact hy (m.afterSteps seen j).2

end Machine

end Microcomputer
