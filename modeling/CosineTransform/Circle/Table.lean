import CosineTransform.Circle.DigitReversal
import CosineTransform.Circle.HalfCircle

/-!
# Shared tables

The phasors and digit reversals that the line transforms share. A `CircleTable`
is built for one power of two, its **coverage**, and serves every shorter power
of two as well: a shorter half circle is the covered one read in larger steps,
and a reversal of fewer digits is a reversal of all digits without the lowest
ones.

A table only grows (`CircleTable.extend`): a length within the coverage changes
nothing, a longer one replaces all parts of the table together.
-/

namespace CosineTransform

/-- Phasors of half a circle and digit reversals for lengths up to `coverage`. -/
structure CircleTable (T : Type) where
  /-- The longest line that the table serves; zero for the empty table. -/
  coverage : Nat
  /-- Half a circle in `2 * coverage` steps. -/
  phasors : Array (Cartesian T)
  /-- Reversals of all numbers of `digits` binary digits. -/
  reversals : Array Nat
  /-- Count of digits that are reversed. -/
  digits : Nat
deriving Inhabited

namespace CircleTable

variable {T W : Type}

/-- The table that serves no length. -/
def empty : CircleTable T where
  coverage := 0
  phasors := #[]
  reversals := #[]
  digits := 0

/-- The table built for one length. Half of the length, but at least one, is the
longest Fourier transform that is needed, so its indices are those reversed. -/
def ofLength [Precision W] [Sample T W] (n : Nat) : Checked (CircleTable T) := do
  let indices := max (n / 2) 1
  return {
    coverage := n
    phasors := ← HalfCircle.table n
    reversals := ← DigitReversal.ofSize indices
    digits := indices.log2 }

/-- The table serves lines of length `n`. -/
def Serves (t : CircleTable T) (n : Nat) : Prop :=
  n ≤ t.coverage

instance (t : CircleTable T) (n : Nat) : Decidable (t.Serves n) :=
  inferInstanceAs (Decidable (_ ≤ _))

/-- The table that serves a length as well, and whether it had to be built anew. -/
def extend [Precision W] [Sample T W] (t : CircleTable T) (n : Nat) :
    Checked (Bool × CircleTable T) := do
  require n.isPowerOfTwo .lengthPowerOfTwo
  if t.Serves n then
    return (false, t)
  else
    return (true, ← ofLength n)

/-- The table that serves all of the given lengths, extended by one after the
other. -/
def ofLengths [Precision W] [Sample T W] (lengths : List Nat) : Checked (CircleTable T) :=
  lengths.foldlM (fun t n => do return (← t.extend n).2) empty

/-- The number of steps of a whole turn. -/
def wholeTurn (t : CircleTable T) : Checked Nat :=
  Word.mul 4 t.coverage

/-- The phasor at step `j` of the half circle. -/
@[inline] def phasor (t : CircleTable T) (j : Nat) : Checked (Cartesian T) :=
  Buffer.read t.phasors j

/-- The number `i` of the given count of binary digits, with the digits in the
opposite order. -/
def reverse (t : CircleTable T) (i count : Nat) : Checked Nat := do
  let r ← Buffer.read t.reversals i
  Word.shiftRight r (← Word.sub t.digits count)

end CircleTable

end CosineTransform
