import CosineTransform.Failure
import CosineTransform.Rows.Flat
import CosineTransform.Rows.Probe
import CosineTransform.Rows.Table

/-!
# Layouts of the caller's data

A caller holds a volume as one flat buffer, as a list of slices of rows, or, when
there is one slice, as a list of rows. A `Layout` turns such data into a row store
for a shape, after it has checked the sizes, and turns the row store back into
data of the same layout.

The sizes of a list of lists are checked in the order in which the lists are met:
the count of slices, then for each slice the count of its rows and the lengths of
its rows. The first one that differs from the shape is reported.
-/

namespace CosineTransform

/-- A volume in one buffer. -/
structure FlatVolume (T : Type) where
  elements : Array T
deriving Inhabited

/-- A volume as a list of slices, which are lists of rows. -/
structure NestedVolume (T : Type) where
  slices : Array (Array (Array T))
deriving Inhabited

/-- A volume of one slice as a list of rows. -/
structure PlaneVolume (T : Type) where
  rows : Array (Array T)
deriving Inhabited

/-- A volume whose accesses are written down. -/
structure ProbedVolume (D : Type) where
  inside : D
  journal : Journal
deriving Inhabited

/-- Data of type `D` that is addressed through row stores of type `R`. -/
class Layout (D : Type) (R : outParam Type) where
  /-- The row store on the data, if the data has the sizes of the shape. -/
  address : Shape → D → Attempt R
  /-- The data of a row store. -/
  collect : R → D

/-! ### Flat buffers -/

/-- The rows of a flat buffer. The buffer needs room for the volume and may be
longer. -/
def FlatStore.ofBuffer {T : Type} (shape : Shape) (elements : Array T) : Attempt (FlatStore T) :=
  match shape.volume with
  | none => .refuse .volumeOverflow
  | some volume =>
      if elements.size < volume then .refuse (.bufferTooShort volume elements.size)
      else .ok ⟨shape, elements⟩

instance {T : Type} : Layout (FlatVolume T) (FlatStore T) where
  address shape data := FlatStore.ofBuffer shape data.elements
  collect store := ⟨store.elements⟩

/-! ### Lists of lists -/

namespace RowTable

variable {T : Type}

/-- Goes on only when a list on an axis has the length that the shape gives it. -/
def checkLength (axis : Nat) (place : Nat × Nat) (expected actual : Nat) : Attempt Unit :=
  if expected = actual then .ok () else .refuse (.ragged axis place expected actual)

/-- The table with the rows of slice `i` added, each of them checked. -/
def addSlice (shape : Shape) (i : Nat) (table : Array (Array T)) (slice : Array (Array T)) :
    Attempt (Array (Array T)) :=
  slice.toList.zipIdx.foldlM (fun table (row, j) => do
    checkLength 2 (i, j) shape.columns row.size
    return table.push row) table

/-- The rows of a list of slices. Room for the table, which holds the address of each
row, is made once the slices are counted. -/
def ofSlices (shape : Shape) (slices : Array (Array (Array T))) : Attempt (RowTable T) := do
  checkLength 0 (0, 0) shape.slices slices.size
  Word.reserve Word.bytes (← Word.mul shape.slices shape.rows)
  let rows ← slices.toList.zipIdx.foldlM (fun table (slice, i) => do
    checkLength 1 (i, 0) shape.rows slice.size
    addSlice shape i table slice) #[]
  return ⟨shape, rows⟩

/-- The rows of a single slice. Room for the table is made once the rows are
counted. -/
def ofPlane (shape : Shape) (plane : Array (Array T)) : Attempt (RowTable T) := do
  checkLength 0 (0, 0) shape.slices 1
  checkLength 1 (0, 0) shape.rows plane.size
  Word.reserve Word.bytes shape.rows
  let rows ← addSlice shape 0 #[] plane
  return ⟨shape, rows⟩

/-- The rows cut into slices again. -/
def toSlices (s : RowTable T) : Array (Array (Array T)) :=
  (Array.range s.shape.slices).map fun i =>
    s.rows.extract (i * s.shape.rows) (i * s.shape.rows + s.shape.rows)

end RowTable

instance {T : Type} : Layout (NestedVolume T) (RowTable T) where
  address shape data := RowTable.ofSlices shape data.slices
  collect store := ⟨store.toSlices⟩

instance {T : Type} : Layout (PlaneVolume T) (RowTable T) where
  address shape data := RowTable.ofPlane shape data.rows
  collect store := ⟨store.rows⟩

/-! ### Probed data -/

instance {D R : Type} [Layout D R] : Layout (ProbedVolume D) (ProbedStore R) where
  address shape data := do return ⟨← Layout.address shape data.inside, data.journal⟩
  collect store := ⟨Layout.collect store.inside, store.journal⟩

end CosineTransform
