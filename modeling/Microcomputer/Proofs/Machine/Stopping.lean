import Microcomputer.Proofs.Machine.Memory

/-!
# Stopping

A machine that is stopped is a new machine with the bootstrap image that was last accepted, whatever was
done to it before, assignments to its registers, latches and flags included. So nothing that comes later
tells the two apart.
-/

namespace Microcomputer

/-- What can be assigned from outside. -/
structure Panel where
  regs : Registers
  d : UInt8
  t : UInt8
  i : UInt8
  input : UInt8
  out : UInt8
  pc : RegisterPair
  sp : RegisterPair
  bp : RegisterPair
  ma : RegisterPair
  flags : FlagBanks

namespace Machine

/-! ## Actions -/

/-- What can be assigned, as it is. -/
def panel (m : Machine) : Panel :=
  ⟨m.regs, m.d, m.t, m.i, m.input, m.out, m.pc, m.sp, m.bp, m.ma, m.flags⟩

/-- The machine after an assignment to all that can be assigned. -/
def withPanel (m : Machine) (panel : Panel) : Machine :=
  { m with
    regs := panel.regs, d := panel.d, t := panel.t, i := panel.i, input := panel.input
    out := panel.out, pc := panel.pc, sp := panel.sp, bp := panel.bp, ma := panel.ma
    flags := panel.flags }

/-- What a user of the machine does: an operation, or an assignment to some of what can be assigned. -/
inductive Action where
  | operation (operation : Operation)
  | assign (f : Panel → Panel)

/-- What an action answers. -/
inductive Reply where
  | none
  | elapsed (ticks : Nat)
  | loaded (result : Except ImageError Unit)

variable {σ : Type} (o : Observer σ)

namespace Action

/-- The machine and what was seen after an action. -/
def apply (last : Machine × σ) : Action → Machine × σ
  | .operation op => op.apply o last
  | .assign f => (last.1.withPanel (f last.1.panel), last.2)

/-- What an action answers: the ticks that passed, or whether an image was accepted. -/
def reply (last : Machine × σ) : Action → Reply
  | .operation (.run n) => .elapsed (last.1.run o n last.2).elapsed
  | .operation .step => .elapsed (last.1.step o last.2).elapsed
  | .operation (.loadBoot image) => .loaded ((last.1.loadBoot image).map fun _ => ())
  | _ => .none

/-- The bootstrap image that an action brings in. -/
def image? : Action → Option (List UInt8)
  | .operation op => op.image?
  | .assign _ => none

end Action

/-- The machine and what was seen after actions in order. -/
def act (m : Machine) (s : σ) (actions : List Action) : Machine × σ :=
  actions.foldl (Action.apply o) (m, s)

/-- What actions in order answer. -/
def replies (last : Machine × σ) : List Action → List Reply
  | [] => []
  | action :: actions => action.reply o last :: replies (action.apply o last) actions

/-- A new machine with a bootstrap image, if there is one. -/
def booted (store : Control.Store) : Option (List UInt8) → Except ImageError Machine
  | none => .ok (ofStore store)
  | some image => (ofStore store).loadBoot image

/-! ## What is kept -/

variable {o} {m : Machine} {store : Control.Store} {image? : Option (List UInt8)}

theorem store_result (operation : Operation) (m : Machine) : (operation.result m).store = m.store :=
  operation.apply_preserves (P := fun n => n.store = m.store) (fun _ h => store_advance.trans h)
    (fun _ h => h) (fun _ _ _ _ h => h) rfl

theorem length_le_of_image? {operation : Operation} {image : List UInt8}
    (h : operation.image? = some image) : image.length ≤ bootSize := by
  cases operation with
  | loadBoot given =>
    have hgiven : (if given.length ≤ bootSize then some given else none) = some image := h
    split at hgiven
    next hfits =>
      rw [← Option.some.inj hgiven]
      exact hfits
    next => cases hgiven
  | _ => cases h

/-- The machine is over this control store, and its bootstrap image is that of a new machine with the last
image. -/
structure Keeps (store : Control.Store) (image? : Option (List UInt8)) (m : Machine) : Prop where
  store_eq : m.store = store
  boot : booted store image? = .ok { store, boot := m.boot }

theorem keeps_ofStore (store : Control.Store) : Keeps store none (ofStore store) :=
  ⟨rfl, rfl⟩

theorem Keeps.result (h : Keeps store image? m) (operation : Operation) :
    Keeps store (operation.image?.or image?) (operation.result m) := by
  refine ⟨(store_result operation m).trans h.store_eq, ?_⟩
  rw [boot_result]
  cases himage : operation.image? with
  | none => exact h.boot
  | some image => exact loadBoot_of_le (ofStore store) (length_le_of_image? himage)

theorem Keeps.apply {last : Machine × σ} (h : Keeps store image? last.1) (action : Action) :
    Keeps store (action.image?.or image?) (action.apply o last).1 := by
  cases action with
  | operation operation =>
    show Keeps _ (operation.image?.or image?) (operation.apply o (last.1, last.2)).1
    rw [Operation.machine_apply]
    exact h.result operation
  | assign f => exact ⟨h.store_eq, h.boot⟩

theorem keeps_act (store : Control.Store) (s : σ) (actions : List Action) :
    Keeps store (latest? Action.image? actions) ((ofStore store).act o s actions).1 := by
  induction actions using List.reverseRecOn with
  | nil => exact keeps_ofStore store
  | append_singleton actions action ih =>
    rw [latest?_concat, act, List.foldl_append]
    exact ih.apply action

/-- Whatever was done to a machine, after a stop it is in the state of a new machine over its control store
with the bootstrap image that was last accepted, so that both give the same replies to all later actions
and show the same to any observer. -/
theorem stop_eq_booted (store : Control.Store) (actions : List Action) (o : Observer σ) (s : σ) :
    let stopped := ((ofStore store).act o s actions).1.stop
    ∃ fresh, booted store (latest? Action.image? actions) = .ok fresh ∧ stopped = fresh ∧
      ∀ (τ : Type) (o : Observer τ) (s : τ) (later : List Action),
        stopped.act o s later = fresh.act o s later ∧
          replies o (stopped, s) later = replies o (fresh, s) later := by
  intro stopped
  have h := keeps_act (o := o) store s actions
  have hstopped : stopped = { store, boot := ((ofStore store).act o s actions).1.boot } :=
    congrArg (fun store => ({ store, boot := _ } : Machine)) h.store_eq
  refine ⟨_, h.boot, hstopped, fun τ o s later => ?_⟩
  rw [hstopped]
  exact ⟨rfl, rfl⟩

end Machine

end Microcomputer
