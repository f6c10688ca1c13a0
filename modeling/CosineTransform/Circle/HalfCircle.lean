import CosineTransform.Buffer
import CosineTransform.Cartesian
import CosineTransform.Sample

/-!
# The half circle of phasors

`HalfCircle.table n` holds the `2 * n` phasors at the angles `j · (π / 2) / n`,
that is, half of the unit circle in `2 * n` equal steps. Sine and cosine are
evaluated in the first octant only (`octant`). The second octant is the first
one reflected at the diagonal (`quadrant`), and the second quadrant is the first
one turned by a quarter turn (`entry`). All of this happens in the working
precision; each coordinate is narrowed once, at the end.
-/

namespace CosineTransform

namespace HalfCircle

variable {T W : Type} [Precision W]

/-- The phasors of the first octant, both ends included. -/
def octant (n : Nat) : Array (Cartesian W) :=
  (Array.range (n / 2 + 1)).map fun j =>
    ⟨Precision.cos (Precision.angle n j), Precision.sin (Precision.angle n j)⟩

/-- Phasor `j` of the first quadrant, for `j ≤ n`. -/
def quadrant (first : Array (Cartesian W)) (n j : Nat) : Checked (Cartesian W) := do
  if j ≤ n / 2 then
    Buffer.read first j
  else
    let p ← Buffer.read first (← Word.sub n j)
    return p.reflect

/-- Phasor `j` of the half circle, for `j < 2 * n`. -/
def entry (first : Array (Cartesian W)) (n j : Nat) : Checked (Cartesian W) := do
  if j ≤ n then
    quadrant first n j
  else
    let p ← quadrant first n (← Word.sub j n)
    return p.turn

/-- The half circle in `2 * n` steps, narrowed to samples. Room for the octant is
made before it is evaluated, and room for the steps before the first of them is. -/
def table [Sample T W] (n : Nat) : Checked (Array (Cartesian T)) := do
  Word.reserve (2 * Precision.bytes) (n / 2 + 1)
  let first : Array (Cartesian W) := octant n
  let steps ← Word.mul 2 n
  Word.reserve (2 * Stored.bytes T) steps
  Buffer.tabulate steps fun j => do
    return (← entry first n j).map Sample.narrow

end HalfCircle

end CosineTransform
