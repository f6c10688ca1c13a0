import CosineTransform.Fault
import CosineTransform.Pass

/-!
# Refusals and failures

A transform that cannot do what it is asked for answers with a
`TransformError`: the cause, with the numbers that show it. `TransformError.text`
is the one place where causes are put into words.

A computation that may be refused or meet a fault is an `Attempt`, and what it
may end in is a `Failure`.
-/

namespace CosineTransform

/-- The causes for which planning or transforming is refused. -/
inductive TransformError where
  /-- An axis is to be planned whose extent is no power of two. -/
  | notPowerOfTwo (axis extent : Nat)
  /-- The number of elements is no word. -/
  | volumeOverflow
  /-- A number of workers was asked for that no crew can have. -/
  | noWorkers (requested : Nat)
  /-- The crew could not be set up. -/
  | crewUnavailable (reason : String)
  /-- A flat buffer is shorter than the volume. -/
  | bufferTooShort (expected actual : Nat)
  /-- A list of lists has another length somewhere than the shape says. -/
  | ragged (axis : Nat) (place : Nat × Nat) (expected actual : Nat)
  /-- A single line has another length than its transform. -/
  | lineLengthDiffers (expected actual : Nat)
  /-- A worker met a fault. -/
  | workerFailed (pass : Pass) (message : String)
deriving DecidableEq, Inhabited

namespace TransformError

/-- The words for a cause. -/
def text : TransformError → String
  | notPowerOfTwo axis extent =>
      "extent " ++ toString extent ++ " of axis " ++ toString axis ++ " is not a power of two"
  | volumeOverflow => "volume size overflows usize"
  | noWorkers requested => "invalid worker count " ++ toString requested
  | crewUnavailable reason => "failed to build thread pool: " ++ reason
  | bufferTooShort expected actual =>
      "buffer holds " ++ toString actual ++ " elements, volume needs " ++ toString expected
  | ragged axis (i, j) expected actual =>
      "axis " ++ toString axis ++ " at [" ++ toString i ++ ", " ++ toString j ++
        "] has length " ++ toString actual ++ ", expected " ++ toString expected
  | lineLengthDiffers expected actual =>
      "length mismatch: expected " ++ toString expected ++ ", got " ++ toString actual
  | workerFailed pass message =>
      "worker panicked during " ++ pass.text ++ " pass: " ++ message

end TransformError

/-- What an attempt may end in: it is refused, or it meets a fault. -/
inductive Failure where
  | refused (error : TransformError)
  | fault (fault : Fault)
deriving DecidableEq, Inhabited

/-- A computation that ends in a value or in a failure. -/
abbrev Attempt := Except Failure

namespace Attempt

variable {α β : Type}

/-- An attempt that is refused. -/
@[inline] def refuse (error : TransformError) : Attempt α :=
  .error (.refused error)

/-- A checked computation as an attempt. -/
@[inline] def ofChecked : Checked α → Attempt α
  | .ok a => .ok a
  | .error f => .error (.fault f)

instance : MonadLift Checked Attempt where
  monadLift := ofChecked

@[simp] theorem ofChecked_ok (a : α) : ofChecked (.ok a) = .ok a := rfl

@[simp] theorem ofChecked_error (f : Fault) :
    (ofChecked (.error f) : Attempt α) = .error (.fault f) := rfl

@[simp] theorem liftM_ok (a : α) : (liftM (.ok a : Checked α) : Attempt α) = .ok a := rfl

@[simp] theorem liftM_error (f : Fault) :
    (liftM (.error f : Checked α) : Attempt α) = .error (.fault f) := rfl

@[simp] theorem pure_eq_ok (a : α) : (pure a : Attempt α) = .ok a := rfl

@[simp] theorem ok_bind (a : α) (f : α → Attempt β) : (Except.ok a : Attempt α) >>= f = f a := rfl

@[simp] theorem error_bind (e : Failure) (f : α → Attempt β) :
    (Except.error e : Attempt α) >>= f = .error e := rfl

/-- An attempt in two parts succeeds exactly when both parts do. -/
theorem bind_eq_ok_iff {x : Attempt α} {f : α → Attempt β} {b : β} :
    x >>= f = .ok b ↔ ∃ a, x = .ok a ∧ f a = .ok b := by
  cases x with
  | error _ => simp
  | ok a => simp

theorem liftM_eq_ok_iff {x : Checked α} {a : α} : (liftM x : Attempt α) = .ok a ↔ x = .ok a := by
  cases x with
  | error _ => simp
  | ok a => simp

end Attempt

end CosineTransform
