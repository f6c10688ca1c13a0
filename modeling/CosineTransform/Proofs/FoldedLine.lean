import Mathlib
import CosineTransform.Line.Folding
import CosineTransform.Proofs.Rules

/-!
# Folded lines

`Folding.place n p` is the place of entry `p` of a folded line of even length `n`,
and `Folding.position n i` is the entry that is folded from place `i`. The two maps
are inverse to each other (`place_eq_iff`), so packing reads every place of a line
once and unpacking writes every place once. `pack_eq` and `unpack_eq` say what the
two loops leave.
-/

namespace CosineTransform

namespace Folding

variable {T : Type}

/-- The place of entry `p` of a folded line of length `n`. -/
def place (n p : Nat) : Nat :=
  if p < n / 2 then 2 * p else 2 * (n - p) - 1

/-- The entry of a folded line of length `n` that has place `i`. -/
def position (n i : Nat) : Nat :=
  if i % 2 = 0 then i / 2 else n - (i + 1) / 2

theorem place_lt {n p : Nat} (hn : n % 2 = 0) (hp : p < n) : place n p < n := by
  unfold place
  split <;> omega

theorem position_lt {n i : Nat} (hi : i < n) : position n i < n := by
  unfold position
  split <;> omega

/-- **Places and positions** are inverse to each other. -/
theorem place_eq_iff {n p i : Nat} (hn : n % 2 = 0) (hp : p < n) (hi : i < n) :
    place n p = i ↔ p = position n i := by
  unfold place position
  split <;> split <;> omega

theorem source_eq {n p : Nat} (hn : n % 2 = 0) (hb : n < Word.bound) (hp : p < n) :
    source p n = .ok (place n p) := by
  unfold source place
  by_cases h : p < n / 2
  · rw [if_pos h, if_pos h, Word.mul_of_lt (by omega)]
  · rw [if_neg h, if_neg h, Word.sub_of_le (by omega), Checked.ok_bind,
      Word.mul_of_lt (by omega), Checked.ok_bind, Word.sub_of_le (by omega)]

/-- Entries `2 * m` and `2 * m + 1` of the folded line of a rule. -/
def folded (n : Nat) (x : Nat → T) (m : Nat) : Cartesian T :=
  ⟨x (place n (2 * m)), x (place n (2 * m + 1))⟩

/-- The rule whose folded line is packed in a spectrum. -/
def unfolded (n : Nat) (z : Nat → Cartesian T) (i : Nat) : T :=
  if position n i % 2 = 0 then (z (position n i / 2)).re else (z (position n i / 2)).im

theorem packed_eq {n m : Nat} (hn : n % 2 = 0) (hb : n < Word.bound) (x : Nat → T)
    (hm : m < n / 2) : packed ((Array.range n).map x) m = .ok (folded n x m) := by
  unfold packed
  -- Both entries are read inside the line, and no index overflows.
  rw [Array.size_map, Array.size_range, Word.mul_of_lt (by omega), Checked.ok_bind,
    source_eq hn hb (by omega), Checked.ok_bind,
    Buffer.read_map_range x (place_lt hn (by omega)), Checked.ok_bind,
    Word.add_of_lt (by omega), Checked.ok_bind, source_eq hn hb (by omega), Checked.ok_bind,
    Buffer.read_map_range x (place_lt hn (by omega))]
  rfl

/-- **Packing** lays the folded line over the start of a spectrum. -/
theorem pack_eq {n : Nat} (hn : n % 2 = 0) (hb : n < Word.bound) (x : Nat → T)
    {spectrum : Array (Cartesian T)} (hs : n / 2 ≤ spectrum.size) :
    pack ((Array.range n).map x) spectrum =
      .ok (Buffer.overlay spectrum 0 ((List.range (n / 2)).map (folded n x))) := by
  unfold pack
  rw [Array.size_map, Array.size_range]
  exact Buffer.fill_of_ok hs fun m hm => packed_eq hn hb x hm

/-- **Unpacking** writes every place of a line, whatever the line held before. -/
theorem unpack_eq {n m : Nat} (hn : n % 2 = 0) (hb : n < Word.bound) (hm : n / 2 ≤ m)
    (z : Nat → Cartesian T) {line : Array T} (hl : line.size = n) :
    unpack ((Array.range m).map z) line = .ok ((Array.range n).map (unfolded n z)) := by
  unfold unpack
  dsimp only
  rw [hl]
  -- The loop writes place `p` in round `p`, and every place has exactly one round.
  refine Buffer.foldlM_write_eq
    (g := fun p => if p % 2 = 0 then (z (p / 2)).re else (z (p / 2)).im) hl
    (fun p hp ys => ?_) (fun p hp => place_lt hn hp) (fun i hi => position_lt hi)
    fun p hp i hi => place_eq_iff hn hp hi
  rw [Buffer.read_map_range z (by omega), Checked.ok_bind, source_eq hn hb hp, Checked.ok_bind]

/-- The folded line of a rule looks at the places of the line only. -/
theorem folded_congr {n : Nat} (hn : n % 2 = 0) {x y : Nat → T} (h : ∀ i < n, x i = y i) :
    ∀ m < n / 2, folded n x m = folded n y m := by
  intro m hm
  unfold folded
  rw [h _ (place_lt hn (by omega)), h _ (place_lt hn (by omega))]

theorem unfolded_congr {n : Nat} (hn : n % 2 = 0) {y z : Nat → Cartesian T}
    (h : ∀ m < n / 2, y m = z m) : ∀ i < n, unfolded n y i = unfolded n z i := by
  intro i hi
  -- The entry is below `n`, so its half is below `n / 2`.
  have hp := position_lt hi
  unfold unfolded
  rw [h _ (by omega)]

end Folding

end CosineTransform
