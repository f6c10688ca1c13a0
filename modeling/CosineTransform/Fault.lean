import CosineTransform.Shape

/-!
# Faults

A **fault** ends the computation that meets it: an index leaves its buffer, a
word operation leaves the words, a stated requirement of an operation is not
met, a row outside the shape is asked for, or an access was arranged to fail and
raises a payload. Each fault is reported under a text of its own
(`Fault.message`). Faults are values. A computation that can meet one is
`Checked`, and the absence of faults is a statement about it: the result is
`Except.ok`.

A fault is told apart from a refusal (`TransformError`): a refusal is an answer
to a caller who asked for something impossible, a fault says that the
computation itself went wrong.
-/

namespace CosineTransform

/-- What an access that was arranged to fail raises. -/
inductive Payload where
  | text (message : String)
  | wordless
deriving DecidableEq, Inhabited

namespace Payload

/-- The text of a payload; a payload without words has a fixed one. -/
def message : Payload → String
  | text m => m
  | wordless => "unknown panic payload"

end Payload

/-- What an operation requires of its arguments. -/
inductive Requirement where
  /-- A length is a power of two. -/
  | lengthPowerOfTwo
  /-- The tables cover twice the length of a buffer. -/
  | lengthServed
  /-- A length is a power of two that the tables cover. -/
  | lineServed
  /-- Two lengths agree. -/
  | sameLength (left right : Nat)
  /-- A spectrum has room for a line. -/
  | spectrumRoom
  /-- A region has room for a bundle of lines. -/
  | bundleRoom
  /-- The stride of a share is not zero. -/
  | strideNotZero
  /-- A row that is changed keeps its length. -/
  | rowLength
deriving DecidableEq, Inhabited

namespace Requirement

/-- The text of the assertion that fails when the requirement is not met. A row of
another length has no assertion of its own: a row is changed where it lies. -/
def message : Requirement → String
  | lengthPowerOfTwo => "assertion failed: len.is_power_of_two()"
  | lengthServed => "assertion failed: 2 * len <= tables.valid_through()"
  | lineServed => "assertion failed: len.is_power_of_two() && tables.covers(len)"
  | sameLength left right =>
      "assertion `left == right` failed\n  left: " ++ toString left ++
        "\n right: " ++ toString right
  | spectrumRoom => "assertion failed: spectrum.len() >= self.spectrum_len()"
  | bundleRoom => "assertion failed: width * len <= self.lines.len()"
  | strideNotZero => "assertion failed: step != 0"
  | rowLength => "row does not keep its length"

end Requirement

/-- The ways in which a computation goes wrong. -/
inductive Fault where
  /-- An index is not below the size of its buffer. -/
  | outOfRange (index size : Nat)
  /-- A stretch of a buffer stops behind the end of the buffer. -/
  | stretchOutOfRange (stop size : Nat)
  /-- The result of an operation is no word. -/
  | wordOverflow (operation : Word.Operation)
  /-- A buffer would take more bytes than a buffer can have. -/
  | capacityOverflow
  /-- A row is asked for that lies outside the shape. -/
  | rowOutside (i j : Nat) (shape : Shape)
  /-- An operation's requirement is not met. -/
  | unmet (requirement : Requirement)
  /-- An access raises what was arranged for it. -/
  | raised (payload : Payload)
deriving DecidableEq, Inhabited

namespace Fault

/-- The text under which a fault is reported. -/
def message : Fault → String
  | outOfRange index size =>
      "index out of bounds: the len is " ++ toString size ++ " but the index is " ++
        toString index
  | stretchOutOfRange stop size =>
      "range end index " ++ toString stop ++ " out of range for slice of length " ++
        toString size
  | wordOverflow operation => "attempt to " ++ operation.text ++ " with overflow"
  | capacityOverflow => "capacity overflow"
  | rowOutside i j shape =>
      "row (" ++ toString i ++ ", " ++ toString j ++ ") out of bounds for " ++ shape.text
  | unmet requirement => requirement.message
  | raised payload => payload.message

end Fault

/-- A computation that ends in a value or in a fault. -/
abbrev Checked := Except Fault

namespace Checked

variable {α β : Type}

@[simp] theorem ok_bind (a : α) (f : α → Checked β) : (Except.ok a : Checked α) >>= f = f a := rfl

@[simp] theorem error_bind (fault : Fault) (f : α → Checked β) :
    (Except.error fault : Checked α) >>= f = .error fault := rfl

@[simp] theorem pure_eq_ok (a : α) : (pure a : Checked α) = .ok a := rfl

@[simp] theorem ok_map (a : α) (f : α → β) : f <$> (Except.ok a : Checked α) = .ok (f a) := rfl

/-- A computation in two parts ends in a value exactly when both parts do. -/
theorem bind_eq_ok_iff {x : Checked α} {f : α → Checked β} {b : β} :
    x >>= f = .ok b ↔ ∃ a, x = .ok a ∧ f a = .ok b := by
  cases x with
  | error _ => simp [bind, Except.bind]
  | ok a => simp

/-- A checked computation inside an action that has a state: a fault leaves the
state as it is. -/
@[inline] def lift {σ : Type} (x : Checked α) : EStateM Fault σ α := fun s =>
  match x with
  | .ok a => .ok a s
  | .error f => .error f s

@[simp] theorem lift_ok {σ : Type} (a : α) (s : σ) :
    lift (.ok a) s = EStateM.Result.ok a s := rfl

@[simp] theorem lift_error {σ : Type} (f : Fault) (s : σ) :
    (lift (.error f) : EStateM Fault σ α) s = EStateM.Result.error f s := rfl

end Checked

/-- Goes on only when the requirement is met. -/
@[inline] def require (p : Prop) [Decidable p] (requirement : Requirement) : Checked Unit :=
  if p then .ok () else .error (.unmet requirement)

@[simp] theorem require_of {p : Prop} [Decidable p] {r : Requirement} (h : p) :
    require p r = .ok () := by
  simp [require, h]

theorem require_eq_ok_iff {p : Prop} [Decidable p] {r : Requirement} {u : Unit} :
    require p r = .ok u ↔ p := by
  by_cases h : p <;> simp [require, h]

end CosineTransform
