import CosineTransform.Fault

/-!
# Arithmetic that stays within the words

Sum, product, difference and right shift of words, each with a fault where the
machine's word would wrap. When the mathematical result is a word, the operation
answers it (`add_of_lt`, `mul_of_lt`, `sub_of_le`, `shiftRight_of_lt`); these
four lemmas are all that a caller needs to know.

Before a buffer is made, room for it is reserved (`reserve`): the number of its
entries times the bytes of an entry must not reach `byteBound`.
-/

namespace CosineTransform

namespace Word

/-- The result of an operation when it is a word, a fault otherwise. -/
@[inline] def checked (operation : Operation) (n : Nat) : Checked Nat :=
  if n < bound then .ok n else .error (.wordOverflow operation)

/-- The sum of two words. -/
@[inline] def add (a b : Nat) : Checked Nat :=
  checked .add (a + b)

/-- The product of two words. -/
@[inline] def mul (a b : Nat) : Checked Nat :=
  checked .multiply (a * b)

/-- The difference of two words, the larger one first. -/
@[inline] def sub (a b : Nat) : Checked Nat :=
  if b ≤ a then .ok (a - b) else .error (.wordOverflow .subtract)

/-- A word without its `count` lowest digits; fewer than 64 can be dropped. -/
@[inline] def shiftRight (a count : Nat) : Checked Nat :=
  if count < 64 then .ok (a >>> count) else .error (.wordOverflow .shiftRight)

@[simp] theorem add_of_lt {a b : Nat} (h : a + b < bound) : add a b = .ok (a + b) := by
  simp [add, checked, h]

@[simp] theorem mul_of_lt {a b : Nat} (h : a * b < bound) : mul a b = .ok (a * b) := by
  simp [mul, checked, h]

@[simp] theorem sub_of_le {a b : Nat} (h : b ≤ a) : sub a b = .ok (a - b) := by
  simp [sub, h]

@[simp] theorem shiftRight_of_lt {a count : Nat} (h : count < 64) :
    shiftRight a count = .ok (a >>> count) := by
  simp [shiftRight, h]

theorem mul_eq_ok_iff {a b n : Nat} : mul a b = .ok n ↔ a * b < bound ∧ n = a * b := by
  unfold mul checked
  by_cases h : a * b < bound
  · simp [h, eq_comm]
  · simp [h]

/-- One more than the number of bytes that a buffer can have: half of the words. -/
def byteBound : Nat := 0x8000000000000000

/-- **Room for a buffer** of `count` entries, each of which takes `entryBytes`
bytes. -/
def reserve (entryBytes count : Nat) : Checked Unit :=
  if entryBytes * count < byteBound then .ok () else .error .capacityOverflow

@[simp] theorem reserve_of_lt {entryBytes count : Nat} (h : entryBytes * count < byteBound) :
    reserve entryBytes count = .ok () := by
  rw [reserve, if_pos h]

theorem reserve_eq_ok_iff {entryBytes count : Nat} {u : Unit} :
    reserve entryBytes count = .ok u ↔ entryBytes * count < byteBound := by
  unfold reserve
  split <;> simp_all

theorem reserve_of_not_lt {entryBytes count : Nat} (h : ¬ entryBytes * count < byteBound) :
    reserve entryBytes count = .error .capacityOverflow := by
  rw [reserve, if_neg h]

/-- A buffer that there is room for has fewer entries than there are words. -/
theorem lt_bound_of_reserve {entryBytes count : Nat} (hentry : 0 < entryBytes)
    (h : entryBytes * count < byteBound) : count < bound := by
  have hcount : count ≤ entryBytes * count := Nat.le_mul_of_pos_left count hentry
  unfold byteBound at h
  unfold bound
  omega

end Word

end CosineTransform
