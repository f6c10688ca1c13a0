import CosineTransform.Shape

/-!
# Passes over a volume

A volume is transformed axis by axis, in three passes: the **inner** pass along
the columns of each row, the **middle** pass along the rows of each slice, and
the **outer** pass across the slices. A pass transforms all lines of its axis.
Its work is divided by an outer index, which is the slice for the inner and the
middle pass and the row for the outer pass.
-/

namespace CosineTransform

/-- The three passes over a volume. -/
inductive Pass where
  | inner
  | middle
  | outer
deriving DecidableEq, Inhabited

namespace Pass

/-- The passes in the order in which they run. -/
def inOrder : List Pass :=
  [inner, middle, outer]

/-- The axis along which the lines of a pass run. -/
def axis : Pass → Nat
  | inner => 2
  | middle => 1
  | outer => 0

/-- The length of the lines of a pass. -/
def lineLength (p : Pass) (s : Shape) : Nat :=
  match p with
  | inner => s.columns
  | middle => s.rows
  | outer => s.slices

/-- The number of values of the index by which a pass is divided. -/
def outerCount (p : Pass) (s : Shape) : Nat :=
  match p with
  | inner => s.slices
  | middle => s.slices
  | outer => s.rows

/-- The written form of a pass. -/
def text : Pass → String
  | inner => "inner"
  | middle => "middle"
  | outer => "outer"

end Pass

end CosineTransform
