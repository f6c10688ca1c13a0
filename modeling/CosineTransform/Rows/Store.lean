import CosineTransform.Fault

/-!
# Row stores

A **row store** holds the elements of a volume, whatever its layout, and gives
access to them by rows: an element of a row is loaded or stored on its own, or a
row is changed as a whole. An access is an action on the store. One that meets a
fault says so and leaves a store behind, so that others can go on with it.

A row outside the shape is a fault of its own (`Fault.rowOutside`), for every
kind of access.
-/

namespace CosineTransform

/-- Access to the elements of type `T` of a store of type `R`, by rows. -/
class RowStore (R : Type) (T : outParam Type) where
  /-- The shape whose rows the store holds. -/
  shape : R → Shape
  /-- Element `k` of row `(i, j)`. -/
  load (i j k : Nat) : EStateM Fault R T
  /-- Another value for element `k` of row `(i, j)`. -/
  store (i j k : Nat) (value : T) : EStateM Fault R Unit
  /-- Row `(i, j)` changed by a function that may answer something as well. A row
  keeps its length, and a function that meets a fault changes nothing. -/
  modifyRow {α : Type} (i j : Nat) (change : Array T → Checked (Array T × α)) : EStateM Fault R α

end CosineTransform
