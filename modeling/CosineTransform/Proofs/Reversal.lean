import Mathlib
import CosineTransform.Circle.DigitReversal

/-!
# What the table of digit reversals holds

`DigitReversal.reversal d i` is the number `i` of `d` binary digits with these
digits in the opposite order, by recursion on the leading digit: it becomes the
last one. `table_eq` says that the table lists these numbers, and `grow_table` that the
loop that doubles a list ends in the table.

Two laws make the table useful.

* **One table serves all depths** (`reversal_shiftRight`): the reversal of fewer
  digits is the reversal of all digits without the lowest ones.
* **Reversing twice changes nothing** (`reversal_reversal`), so exchanging each
  entry of a buffer with the entry at the reversed index reverses all indices.
  The proof reads the digits from the other end: `reversal_even` and
  `reversal_odd` are the recursion on the last digit.

The recursion has the shape of the table. That it reads the digits backwards is said by
`reversal_eq_reverse`, with the bit vector of the digits.
-/

namespace CosineTransform

namespace DigitReversal

/-- The number `i` of the given count of binary digits, read backwards. -/
def reversal : Nat → Nat → Nat
  | 0, _ => 0
  | d + 1, i => if i < 2 ^ d then 2 * reversal d i else 2 * reversal d (i - 2 ^ d) + 1

theorem reversal_succ_of_lt {d i : Nat} (h : i < 2 ^ d) :
    reversal (d + 1) i = 2 * reversal d i := by
  rw [reversal, if_pos h]

theorem reversal_succ_add (d i : Nat) :
    reversal (d + 1) (2 ^ d + i) = 2 * reversal d i + 1 := by
  rw [reversal, if_neg (by omega), Nat.add_sub_cancel_left]

/-- The leading digit of a number is zero, or it is one. -/
theorem leading_digit {d i : Nat} (h : i < 2 ^ (d + 1)) :
    i < 2 ^ d ∨ ∃ j < 2 ^ d, i = 2 ^ d + j := by
  rw [pow_succ] at h
  by_cases hi : i < 2 ^ d
  · exact .inl hi
  · exact .inr ⟨i - 2 ^ d, by omega, by omega⟩

theorem reversal_lt {d i : Nat} (h : i < 2 ^ d) : reversal d i < 2 ^ d := by
  induction d generalizing i with
  | zero => simp [reversal]
  | succ d ih =>
    rw [pow_succ]
    obtain hi | ⟨j, hj, rfl⟩ := leading_digit h
    · have hr := ih hi
      rw [reversal_succ_of_lt hi]
      omega
    · have hr := ih hj
      rw [reversal_succ_add]
      omega

/-! ### The table -/

@[simp] theorem size_table (d : Nat) : (table d).size = 2 ^ d := by
  induction d with
  | zero => rfl
  | succ d ih => rw [table, size_doubled, ih, pow_succ, Nat.mul_comm]

theorem getElem?_table {d i : Nat} (h : i < 2 ^ d) : (table d)[i]? = some (reversal d i) := by
  induction d generalizing i with
  | zero =>
    obtain rfl : i = 0 := by simpa using h
    rfl
  | succ d ih =>
    -- The table of one more digit is two copies: a leading zero becomes a last zero in the
    -- first, a leading one a last one in the second.
    rw [table, doubled]
    obtain hi | ⟨j, hj, rfl⟩ := leading_digit h
    · rw [Array.getElem?_append_left (by simpa using hi), Array.getElem?_map, ih hi,
        reversal_succ_of_lt hi, Option.map_some]
    · rw [Array.getElem?_append_right (by simp), Array.getElem?_map, Array.getElem?_map,
        Array.size_map, size_table, Nat.add_sub_cancel_left, ih hj, reversal_succ_add,
        Option.map_some, Option.map_some]

theorem table_eq (d : Nat) : table d = (Array.range (2 ^ d)).map (reversal d) := by
  apply Array.ext_getElem?
  intro i
  by_cases hi : i < 2 ^ d
  · rw [getElem?_table hi, Array.getElem?_map, Array.getElem?_range, if_pos hi, Option.map_some]
  · rw [Array.getElem?_eq_none (by simpa using hi), Array.getElem?_eq_none (by simpa using hi)]

/-! ### The doubling loop -/

/-- **The doubling loop** goes through the tables of more and more digits, up to the one with
the wanted number of entries. -/
theorem grow_table (e k : Nat) : grow (2 ^ (e + k)) (table e) = table (e + k) := by
  induction k generalizing e with
  | zero =>
    rw [grow, dif_neg (by simp), Nat.add_zero]
  | succ k ih =>
    -- A table of fewer digits is too short, and one round makes it the next one.
    have hshort : (table e).size < 2 ^ (e + (k + 1)) := by
      rw [size_table]
      exact Nat.pow_lt_pow_right Nat.one_lt_two (by omega)
    have hnext := ih (e + 1)
    rw [show e + 1 + k = e + (k + 1) by omega] at hnext
    rw [grow, dif_pos ⟨by simp, hshort⟩]
    exact hnext

theorem grow_two_pow (d : Nat) : grow (2 ^ d) #[0] = table d := by
  have hgrow := grow_table 0 d
  rwa [Nat.zero_add] at hgrow

/-- A list of reversals is the table of its digits, when there is room for it. -/
theorem ofSize_two_pow_eq_ok_iff {d : Nat} {reversals : Array Nat} :
    ofSize (2 ^ d) = .ok reversals ↔
      Word.bytes * 2 ^ d < Word.byteBound ∧ reversals = table d := by
  unfold ofSize
  rw [Checked.bind_eq_ok_iff]
  constructor
  · rintro ⟨_, hroom, h⟩
    exact ⟨Word.reserve_eq_ok_iff.1 hroom, (Except.ok.inj h).symm.trans (grow_two_pow d)⟩
  · rintro ⟨hroom, rfl⟩
    exact ⟨(), Word.reserve_of_lt hroom, congrArg Except.ok (grow_two_pow d)⟩

/-! ### Fewer digits, and reversing twice -/

/-- **The reversal of fewer digits** is the reversal of more digits without the
lowest ones. -/
theorem reversal_shiftRight {b d i : Nat} (hb : b ≤ d) (hi : i < 2 ^ b) :
    reversal d i >>> (d - b) = reversal b i := by
  induction d, hb using Nat.le_induction with
  | base => simp
  | succ d hbd ih =>
    -- One more digit in front of `i` is a zero, which the reversal puts last.
    have hid : i < 2 ^ d := lt_of_lt_of_le hi (Nat.pow_le_pow_right (by omega) hbd)
    have hsub : d + 1 - b = 1 + (d - b) := by omega
    rw [reversal_succ_of_lt hid, hsub, Nat.shiftRight_add, Nat.shiftRight_one,
      Nat.mul_div_cancel_left _ (by omega), ih]

theorem reversal_even {d i : Nat} (h : i < 2 ^ d) : reversal (d + 1) (2 * i) = reversal d i := by
  induction d generalizing i with
  | zero =>
    obtain rfl : i = 0 := by simpa using h
    rfl
  | succ d ih =>
    -- The leading digit of `i` is the leading digit of `2 * i`.
    obtain hi | ⟨j, hj, rfl⟩ := leading_digit h
    · rw [reversal_succ_of_lt hi, reversal_succ_of_lt (by rw [pow_succ]; omega), ih hi]
    · rw [reversal_succ_add, show 2 * (2 ^ d + j) = 2 ^ (d + 1) + 2 * j by rw [pow_succ]; ring,
        reversal_succ_add, ih hj]

theorem reversal_odd {d i : Nat} (h : i < 2 ^ d) :
    reversal (d + 1) (2 * i + 1) = 2 ^ d + reversal d i := by
  induction d generalizing i with
  | zero =>
    obtain rfl : i = 0 := by simpa using h
    rfl
  | succ d ih =>
    -- As for even numbers: the last digit does not move the leading one.
    obtain hi | ⟨j, hj, rfl⟩ := leading_digit h
    · rw [reversal_succ_of_lt hi, reversal_succ_of_lt (by rw [pow_succ]; omega), ih hi, pow_succ]
      ring
    · rw [reversal_succ_add,
        show 2 * (2 ^ d + j) + 1 = 2 ^ (d + 1) + (2 * j + 1) by rw [pow_succ]; ring,
        reversal_succ_add, ih hj, pow_succ]
      ring

/-- **Reversing twice** gives the number back. -/
theorem reversal_reversal {d i : Nat} (h : i < 2 ^ d) : reversal d (reversal d i) = i := by
  induction d generalizing i with
  | zero =>
    obtain rfl : i = 0 := by simpa using h
    rfl
  | succ d ih =>
    -- The leading digit goes last, and the reversal of a number with this last digit has it
    -- in front again.
    obtain hi | ⟨j, hj, rfl⟩ := leading_digit h
    · rw [reversal_succ_of_lt hi, reversal_even (reversal_lt hi), ih hi]
    · rw [reversal_succ_add, reversal_odd (reversal_lt hj), ih hj]

/-! ### The digits as a bit vector -/

/-- Reversing `d + 1` digits puts the leading one behind the others, reversed. -/
theorem toNat_reverse_succ {d i : Nat} (h : i < 2 ^ (d + 1)) :
    (BitVec.ofNat (d + 1) i).reverse.toNat =
      (BitVec.ofNat d i).reverse.toNat * 2 + (decide (2 ^ d ≤ i)).toNat := by
  have hleading : (BitVec.ofNat (d + 1) i).msb = decide (2 ^ d ≤ i) := by
    rw [BitVec.msb_eq_decide, BitVec.toNat_ofNat, Nat.mod_eq_of_lt h, Nat.add_sub_cancel]
  rw [BitVec.reverse, BitVec.toNat_concat, BitVec.truncate_eq_setWidth,
    BitVec.setWidth_ofNat_of_le (Nat.le_succ d), hleading]

/-- **The reversal of a number** is the reversed bit vector of its digits. -/
theorem reversal_eq_reverse {d i : Nat} (h : i < 2 ^ d) :
    reversal d i = (BitVec.ofNat d i).reverse.toNat := by
  induction d generalizing i with
  | zero =>
    obtain rfl : i = 0 := by simpa using h
    rfl
  | succ d ih =>
    rw [toNat_reverse_succ h]
    obtain hi | ⟨j, hj, rfl⟩ := leading_digit h
    · rw [reversal_succ_of_lt hi, ih hi, decide_eq_false (Nat.not_le.2 hi), Nat.mul_comm]
      rfl
    · -- Without the leading digit, `2 ^ d + j` has the digits of `j`.
      have hdigits : BitVec.ofNat d (2 ^ d + j) = BitVec.ofNat d j := by
        apply BitVec.eq_of_toNat_eq
        rw [BitVec.toNat_ofNat, BitVec.toNat_ofNat, Nat.add_mod_left]
      rw [reversal_succ_add, ih hj, hdigits, decide_eq_true (Nat.le_add_right _ _), Nat.mul_comm]
      rfl

end DigitReversal

end CosineTransform
