import CosineTransform.Buffer
import CosineTransform.Rows.Store

/-!
# Rows of a flat buffer

A volume in one buffer, row after row and slice after slice. Row `(i, j)` starts
at `i * sliceStep + j * rowStep`. The buffer may be longer than the volume;
what lies behind the volume belongs to no row.
-/

namespace CosineTransform

namespace Shape

/-- The offset at which row `(i, j)` starts. -/
def rowStart (s : Shape) (i j : Nat) : Checked Nat := do
  if s.HasRow i j then
    let slice ← Word.mul i (← Word.mul s.rows s.columns)
    Word.add slice (← Word.mul j s.columns)
  else
    throw (.rowOutside i j s)

/-- The offset of element `k` of row `(i, j)`. -/
def place (s : Shape) (i j k : Nat) : Checked Nat := do
  let start ← s.rowStart i j
  if k < s.columns then Word.add start k else throw (.outOfRange k s.columns)

end Shape

/-- A flat buffer that is addressed by the rows of a shape. -/
structure FlatStore (T : Type) where
  shape : Shape
  elements : Array T
deriving Inhabited

namespace FlatStore

variable {T α : Type}

/-- Element `k` of row `(i, j)`. -/
def load (i j k : Nat) : EStateM Fault (FlatStore T) T := fun s =>
  match s.shape.place i j k with
  | .error f => .error f s
  | .ok m =>
      if h : m < s.elements.size then .ok s.elements[m] s
      else .error (.outOfRange m s.elements.size) s

/-- Another value for element `k` of row `(i, j)`. -/
def store (i j k : Nat) (value : T) : EStateM Fault (FlatStore T) Unit := fun s =>
  match s.shape.place i j k with
  | .error f => .error f s
  | .ok m =>
      if h : m < s.elements.size then .ok () { s with elements := s.elements.set m value h }
      else .error (.outOfRange m s.elements.size) s

/-- Row `(i, j)` changed as a whole. -/
def modifyRow (i j : Nat) (change : Array T → Checked (Array T × α)) :
    EStateM Fault (FlatStore T) α := fun s =>
  match s.shape.rowStart i j with
  | .error f => .error f s
  | .ok start =>
      let stop := start + s.shape.columns
      if stop ≤ s.elements.size then
        match change (s.elements.extract start stop) with
        | .error f => .error f s
        | .ok (row, answer) =>
            if row.size = s.shape.columns then
              .ok answer { s with elements := Buffer.overlay s.elements start row.toList }
            else .error (.unmet .rowLength) s
      else .error (.stretchOutOfRange stop s.elements.size) s

instance : RowStore (FlatStore T) T where
  shape := FlatStore.shape
  load := load
  store := store
  modifyRow := modifyRow

end FlatStore

end CosineTransform
