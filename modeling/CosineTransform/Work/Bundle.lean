/-!
# Bundles of columns

A line across rows touches every row at one column. Such lines are gathered and
transformed in **bundles** of neighbouring columns, four at a time where the rows
are long enough.
-/

namespace CosineTransform

/-- How many neighbouring columns are gathered together. -/
inductive Bundle where
  | one
  | two
  | four
deriving DecidableEq, Inhabited

namespace Bundle

/-- The largest number of columns in a bundle. -/
def widest : Nat := 4

/-- The number of columns in a bundle. -/
def width : Bundle → Nat
  | one => 1
  | two => 2
  | four => 4

/-- The bundle for rows of a given number of columns. -/
def ofColumns (columns : Nat) : Bundle :=
  if widest ≤ columns then four
  else if columns = 2 then two
  else one

theorem width_pos (b : Bundle) : 0 < b.width := by
  cases b <;> decide

theorem width_le_widest (b : Bundle) : b.width ≤ widest := by
  cases b <;> decide

end Bundle

end CosineTransform
