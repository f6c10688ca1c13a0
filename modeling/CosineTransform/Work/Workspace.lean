import CosineTransform.Work.Bench

/-!
# Workspaces

What the workers of a call act on together: the row store of the volume and the
bench. An action on one of the two is an action on the workspace that leaves the
other as it is.
-/

namespace CosineTransform

/-- The row store and the bench of a call. -/
structure Workspace (R T : Type) where
  rows : R
  bench : Bench T

namespace Workspace

variable {R T α : Type}

/-- An action on the rows. -/
@[inline] def onRows (act : EStateM Fault R α) : EStateM Fault (Workspace R T) α :=
  fun ⟨rows, bench⟩ =>
    match act rows with
    | .ok a rows => .ok a ⟨rows, bench⟩
    | .error f rows => .error f ⟨rows, bench⟩

/-- An action on the bench. -/
@[inline] def onBench (act : EStateM Fault (Bench T) α) : EStateM Fault (Workspace R T) α :=
  fun ⟨rows, bench⟩ =>
    match act bench with
    | .ok a bench => .ok a ⟨rows, bench⟩
    | .error f bench => .error f ⟨rows, bench⟩

end Workspace

end CosineTransform
