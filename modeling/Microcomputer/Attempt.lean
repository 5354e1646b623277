/-!
# Attempts

An attempt changes a state and may fail on the way. What it changed before it failed stays changed: the
state that is left is part of what it comes to, whether it succeeds or not.
-/

namespace Microcomputer

/-- Changes of a state that may fail. -/
abbrev Attempt (ε σ : Type) : Type → Type :=
  EStateM ε σ

namespace Attempt

variable {ε σ : Type}

/-- The state that an attempt leaves, also if it fails. -/
def after (x : Attempt ε σ Unit) (s : σ) : σ :=
  match x.run s with
  | .ok _ rest => rest
  | .error _ rest => rest

/-- The state that an attempt leaves if it succeeds, and else why it fails. -/
def result (x : Attempt ε σ Unit) (s : σ) : Except ε σ :=
  match x.run s with
  | .ok _ rest => .ok rest
  | .error e _ => .error e

end Attempt

end Microcomputer
