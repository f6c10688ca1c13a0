import CosineTransform.Buffer
import CosineTransform.Rows.Store

/-!
# Rows in a table

A volume whose rows are buffers of their own, collected in a table in the order
of the slices and, inside a slice, of its rows. Row `(i, j)` is entry
`i * rows + j` of the table.
-/

namespace CosineTransform

/-- A table of rows that is addressed by the rows of a shape. -/
structure RowTable (T : Type) where
  shape : Shape
  rows : Array (Array T)
deriving Inhabited

namespace RowTable

variable {T α : Type}

/-- The entry of the table that is row `(i, j)`. -/
def entry (s : Shape) (i j : Nat) : Checked Nat := do
  if s.HasRow i j then
    Word.add (← Word.mul i s.rows) j
  else
    throw (.rowOutside i j s)

/-- Element `k` of row `(i, j)`. -/
def load (i j k : Nat) : EStateM Fault (RowTable T) T := fun s =>
  match entry s.shape i j with
  | .error f => .error f s
  | .ok r =>
      if hr : r < s.rows.size then
        if hk : k < s.rows[r].size then .ok s.rows[r][k] s
        else .error (.outOfRange k s.rows[r].size) s
      else .error (.outOfRange r s.rows.size) s

/-- Another value for element `k` of row `(i, j)`. -/
def store (i j k : Nat) (value : T) : EStateM Fault (RowTable T) Unit := fun s =>
  match entry s.shape i j with
  | .error f => .error f s
  | .ok r =>
      if hr : r < s.rows.size then
        if k < s.rows[r].size then
          .ok () { s with rows := s.rows.modify r (·.setIfInBounds k value) }
        else .error (.outOfRange k s.rows[r].size) s
      else .error (.outOfRange r s.rows.size) s

/-- Row `(i, j)` changed as a whole. -/
def modifyRow (i j : Nat) (change : Array T → Checked (Array T × α)) :
    EStateM Fault (RowTable T) α := fun s =>
  match entry s.shape i j with
  | .error f => .error f s
  | .ok r =>
      if hr : r < s.rows.size then
        match change s.rows[r] with
        | .error f => .error f s
        | .ok (row, answer) =>
            if row.size = s.rows[r].size then
              .ok answer { s with rows := s.rows.set r row hr }
            else .error (.unmet .rowLength) s
      else .error (.outOfRange r s.rows.size) s

instance : RowStore (RowTable T) T where
  shape := RowTable.shape
  load := load
  store := store
  modifyRow := modifyRow

end RowTable

end CosineTransform
