/-!
# Machine words

Extents, lengths and offsets are natural numbers here, but the machine that
addresses a buffer holds them in words of 64 bits. This module fixes the bound
`Word.bound` and the partial operation `Word.fit?`, which keeps a number only
when it is a word. Operations that must not leave the words are built from it:
the optional product `Word.mul?` here, and the faulting operations of
`CosineTransform.Word.Arithmetic`.
-/

namespace CosineTransform

namespace Word

/-- One more than the largest word: two to the power 64. -/
def bound : Nat := 0x10000000000000000

/-- The largest word. -/
def last : Nat := bound - 1

/-- The number of bytes that a word takes. -/
def bytes : Nat := 8

/-- The operations on words that can leave them. -/
inductive Operation where
  | add
  | subtract
  | multiply
  | shiftRight
deriving DecidableEq, Inhabited

namespace Operation

/-- The written form of an operation. -/
def text : Operation → String
  | add => "add"
  | subtract => "subtract"
  | multiply => "multiply"
  | shiftRight => "shift right"

end Operation

/-- The number itself when it is a word, nothing otherwise. -/
def fit? (n : Nat) : Option Nat :=
  if n < bound then some n else none

/-- The product of two words, if it is a word again. -/
def mul? (a b : Nat) : Option Nat :=
  fit? (a * b)

@[simp] theorem fit?_eq_some_iff {n m : Nat} : fit? n = some m ↔ n < bound ∧ n = m := by
  simp [fit?]

@[simp] theorem fit?_eq_none_iff {n : Nat} : fit? n = none ↔ bound ≤ n := by
  simp [fit?]

end Word

end CosineTransform
