import CosineTransform.Word.Arithmetic

/-!
# Reversal of binary digits

`DigitReversal.table b` lists, for every number of `b` binary digits, the number
with these digits in the opposite order. One digit more doubles the list
(`doubled`): the new leading digit of a number becomes the last digit of its
reversal, so the first half holds the old reversals doubled and the second half
the same plus one.

The list is made by a loop (`grow`), which starts with the reversals of no digits
and doubles the list until it is long enough.
-/

namespace CosineTransform

namespace DigitReversal

/-- The reversals of one digit more: all entries are doubled, and the doubled entries
plus one come behind them. -/
def doubled (reversals : Array Nat) : Array Nat :=
  let evens := reversals.map (2 * ·)
  evens ++ evens.map (· + 1)

@[simp] theorem size_doubled (reversals : Array Nat) :
    (doubled reversals).size = 2 * reversals.size := by
  simp [doubled, Nat.two_mul]

/-- The reversals of all numbers of the given count of binary digits. -/
def table : Nat → Array Nat
  | 0 => #[0]
  | digits + 1 => doubled (table digits)

/-- **The doubling loop**: a list is doubled until it has at least `size` entries. A
list without entries would never have more. -/
def grow (size : Nat) (reversals : Array Nat) : Array Nat :=
  if _ : 0 < reversals.size ∧ reversals.size < size then grow size (doubled reversals)
  else reversals
termination_by size - reversals.size
decreasing_by
  rw [size_doubled]
  omega

/-- The list of reversals with a given number of entries, a power of two. -/
def ofSize (size : Nat) : Checked (Array Nat) := do
  Word.reserve Word.bytes size
  return grow size #[0]

end DigitReversal

end CosineTransform
