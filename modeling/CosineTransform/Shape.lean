import CosineTransform.Word

/-!
# Shapes of volumes

A volume is a stack of slices, a slice is a list of rows, and a row is a list of
columns. The three extents are the whole of a `Shape`; any words are allowed,
zero included. Elements are numbered row by row: element `(i, j, k)` has number
`i * sliceStep + j * rowStep + k` (`Shape.offset`), and the number of
elements is `Shape.volume`, which exists only when it is a word.
-/

namespace CosineTransform

/-- The three extents of a volume, slowest axis first. -/
structure Shape where
  slices : Nat
  rows : Nat
  columns : Nat
deriving DecidableEq, Inhabited

namespace Shape

/-- The extents in axis order. -/
def extents (s : Shape) : List Nat :=
  [s.slices, s.rows, s.columns]

/-- The distance between the starts of two neighbouring slices. -/
def sliceStep (s : Shape) : Nat :=
  s.rows * s.columns

/-- The distance between the starts of two neighbouring rows. -/
def rowStep (s : Shape) : Nat :=
  s.columns

/-- **Number of elements.** The slices and rows are multiplied first and the
columns last; both products have to be words, so two long axes leave no volume
even when the third is empty. -/
def volume (s : Shape) : Option Nat :=
  (Word.mul? s.slices s.rows).bind fun count => Word.mul? count s.columns

/-- The number of element `(i, j, k)`, which may lie outside the shape. -/
def offset (s : Shape) (i j k : Nat) : Nat :=
  i * s.sliceStep + j * s.rowStep + k

/-- The longest extent. -/
def longest (s : Shape) : Nat :=
  max (max s.slices s.rows) s.columns

/-- Row `(i, j)` lies inside the shape. -/
def HasRow (s : Shape) (i j : Nat) : Prop :=
  i < s.slices ∧ j < s.rows

instance (s : Shape) (i j : Nat) : Decidable (s.HasRow i j) :=
  inferInstanceAs (Decidable (_ ∧ _))

/-- The written form of a shape, with the extents under their axis names. -/
def text (s : Shape) : String :=
  "Shape \x7b n1: " ++ toString s.slices ++ ", n2: " ++ toString s.rows ++
    ", n3: " ++ toString s.columns ++ " \x7d"

/-- When the volume exists, it is the product of the extents. -/
theorem volume_eq_some {s : Shape} {v : Nat} (h : s.volume = some v) :
    v = s.slices * s.rows * s.columns ∧ v < Word.bound := by
  simp only [volume, Word.mul?, Option.bind_eq_some_iff, Word.fit?_eq_some_iff] at h
  obtain ⟨_, ⟨_, rfl⟩, hlt, rfl⟩ := h
  exact ⟨rfl, hlt⟩

end Shape

end CosineTransform
