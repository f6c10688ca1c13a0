import Mathlib
import CosineTransform.Proofs.LawfulLayouts

/-!
# When the elements of a shape are counted

The number of elements of a shape is the product of its extents. It is formed in two steps,
the rows first and then their columns, and there is none when either product leaves the words.
An overflow of the first product is one of the second as well, unless the columns are zero: a
shape can have more rows than a word tells, all of them empty
(`Shape.HasTooManyEmptyRows`). Such a shape has no element, which a word does tell, and is
said to overflow all the same; with its extents in another order it has the volume zero.

`elements_are_counted` says that this is the only exception. Every other shape has its number
of elements for its volume, in whatever order its extents stand, or has none because the number
is no word; and a flat buffer is addressed, or refused as too short, by that number
(`CountsElements`).
-/

namespace CosineTransform

namespace Shape

variable {s s' : Shape}

/-- **The number of elements**, be it a word or not. -/
def count (s : Shape) : Nat :=
  s.slices * s.rows * s.columns

/-- The shape has more rows than a word tells, and all of them are empty. -/
def HasTooManyEmptyRows (s : Shape) : Prop :=
  s.columns = 0 ∧ Word.bound ≤ s.slices * s.rows

instance (s : Shape) : Decidable s.HasTooManyEmptyRows :=
  inferInstanceAs (Decidable (_ ∧ _))

theorem HasTooManyEmptyRows.count_eq_zero (h : s.HasTooManyEmptyRows) : s.count = 0 := by
  unfold count
  rw [h.1, Nat.mul_zero]

/-- Rows that are not empty are no more than the elements. -/
theorem rows_le_count (h : s.columns ≠ 0) : s.slices * s.rows ≤ s.count :=
  Nat.le_mul_of_pos_right _ (Nat.pos_of_ne_zero h)

/-- **Both products are words** when the elements can be counted and the rows are not too
many empty ones. -/
theorem rows_lt_and_count_lt_iff :
    (s.slices * s.rows < Word.bound ∧ s.count < Word.bound) ↔
      s.count < Word.bound ∧ ¬ s.HasTooManyEmptyRows := by
  constructor
  · rintro ⟨hrows, hcount⟩
    exact ⟨hcount, fun h => Nat.not_le_of_lt hrows h.2⟩
  · rintro ⟨hcount, hfew⟩
    refine ⟨?_, hcount⟩
    by_cases hcolumns : s.columns = 0
    · exact Nat.lt_of_not_le fun hrows => hfew ⟨hcolumns, hrows⟩
    · exact (rows_le_count hcolumns).trans_lt hcount

theorem volume_eq_some_iff {v : Nat} :
    s.volume = some v ↔ v = s.count ∧ s.count < Word.bound ∧ ¬ s.HasTooManyEmptyRows := by
  rw [← rows_lt_and_count_lt_iff]
  unfold volume Word.mul? count
  simp only [Option.bind_eq_some_iff, Word.fit?_eq_some_iff]
  constructor
  · rintro ⟨_, ⟨hrows, rfl⟩, hcount, rfl⟩
    exact ⟨rfl, hrows, hcount⟩
  · rintro ⟨rfl, hrows, hcount⟩
    exact ⟨_, ⟨hrows, rfl⟩, hcount, rfl⟩

/-- **There is no volume** when the number of elements is no word, and in one more case. -/
theorem volume_eq_none_iff :
    s.volume = none ↔ Word.bound ≤ s.count ∨ s.HasTooManyEmptyRows := by
  rw [Option.eq_none_iff_forall_ne_some]
  simp only [ne_eq, volume_eq_some_iff]
  constructor
  · intro h
    by_contra hcounted
    obtain ⟨hcount, hfew⟩ := not_or.1 hcounted
    exact h _ ⟨rfl, Nat.lt_of_not_le hcount, hfew⟩
  · rintro hnone v ⟨-, hcount, hfew⟩
    exact hnone.elim (Nat.not_le_of_lt hcount) hfew

/-! ### The order of the extents -/

/-- The elements are as many in whatever order the extents stand. -/
theorem count_eq_of_perm (h : s'.extents.Perm s.extents) : s'.count = s.count := by
  have hprod : ∀ t : Shape, t.extents.prod = t.count := fun t => by
    simp [extents, count, Nat.mul_assoc]
  calc s'.count
    _ = s'.extents.prod := (hprod s').symm
    _ = s.extents.prod := h.prod_eq
    _ = s.count := hprod s

/-- **The order of the extents** shows in the volume when it makes too many empty rows of
the elements, and at no other time. -/
theorem volume_eq_iff_of_perm (h : s'.extents.Perm s.extents) :
    s'.volume = s.volume ↔ (s'.HasTooManyEmptyRows ↔ s.HasTooManyEmptyRows) := by
  have hcount := count_eq_of_perm h
  -- A shape with too many empty rows has no volume, and its elements are told by a word.
  have hempty : ∀ t : Shape, t.count = s.count → t.HasTooManyEmptyRows →
      t.volume = none ∧ s.count < Word.bound := fun t ht hmany =>
    ⟨volume_eq_none_iff.2 (.inr hmany), by
      rw [← ht, hmany.count_eq_zero]
      decide⟩
  constructor
  · intro hvolume
    constructor
    · intro hmany
      obtain ⟨hnone, hlt⟩ := hempty s' hcount hmany
      exact (volume_eq_none_iff.1 (hvolume.symm.trans hnone)).resolve_left (Nat.not_le_of_lt hlt)
    · intro hmany
      obtain ⟨hnone, hlt⟩ := hempty s rfl hmany
      refine (volume_eq_none_iff.1 (hvolume.trans hnone)).resolve_left (Nat.not_le_of_lt ?_)
      rwa [hcount]
  · intro hmany
    apply Option.ext
    intro v
    rw [volume_eq_some_iff, volume_eq_some_iff, hcount, hmany]

end Shape

/-! ### Flat buffers -/

/-- **A flat buffer is judged by the number of elements.** -/
structure CountsElements {T : Type} (shape : Shape) (elements : Array T)
    (answer : Attempt (FlatStore T)) : Prop where
  /-- A buffer with room for all elements is addressed. -/
  ok_iff : ∀ store, answer = .ok store ↔
    (shape.count < Word.bound ∧ ¬ shape.HasTooManyEmptyRows ∧ shape.count ≤ elements.size) ∧
      store = ⟨shape, elements⟩
  /-- The number of elements is no word, or it is said to be none. -/
  overflow_iff : answer = .refuse .volumeOverflow ↔
    Word.bound ≤ shape.count ∨ shape.HasTooManyEmptyRows
  /-- The elements are more than the buffer has, and both numbers are told. -/
  tooShort_iff : ∀ expected actual, answer = .refuse (.bufferTooShort expected actual) ↔
    (shape.count < Word.bound ∧ elements.size < shape.count) ∧
      expected = shape.count ∧ actual = elements.size

namespace FlatStore

variable {T : Type} {shape : Shape} {elements : Array T}

theorem ofBuffer_of_overflow (h : Word.bound ≤ shape.count ∨ shape.HasTooManyEmptyRows) :
    ofBuffer shape elements = .refuse .volumeOverflow := by
  unfold ofBuffer
  rw [Shape.volume_eq_none_iff.2 h]

theorem ofBuffer_of_counted (hcount : shape.count < Word.bound)
    (hfew : ¬ shape.HasTooManyEmptyRows) :
    ofBuffer shape elements =
      if elements.size < shape.count then .refuse (.bufferTooShort shape.count elements.size)
      else .ok ⟨shape, elements⟩ := by
  unfold ofBuffer
  rw [Shape.volume_eq_some_iff.2 ⟨rfl, hcount, hfew⟩]

/-- Addressing a flat buffer answers by the number of elements. -/
theorem countsElements_ofBuffer (shape : Shape) (elements : Array T) :
    CountsElements shape elements (ofBuffer shape elements) := by
  by_cases hnone : Word.bound ≤ shape.count ∨ shape.HasTooManyEmptyRows
  · rw [ofBuffer_of_overflow hnone]
    constructor
    case ok_iff =>
      refine fun store => iff_of_false (by simp [Attempt.refuse]) ?_
      rintro ⟨⟨hcount, hfew, -⟩, -⟩
      exact not_or.2 ⟨Nat.not_le_of_lt hcount, hfew⟩ hnone
    case overflow_iff => exact iff_of_true rfl hnone
    case tooShort_iff =>
      refine fun expected actual => iff_of_false (by simp [Attempt.refuse]) ?_
      rintro ⟨⟨hcount, hshort⟩, -⟩
      -- A buffer is never too short for no elements.
      rw [(hnone.resolve_left (Nat.not_le_of_lt hcount)).count_eq_zero] at hshort
      exact Nat.not_lt_zero _ hshort
  · obtain ⟨hcount, hfew⟩ := not_or.1 hnone
    replace hcount := Nat.lt_of_not_le hcount
    rw [ofBuffer_of_counted hcount hfew]
    by_cases hshort : elements.size < shape.count
    · rw [if_pos hshort]
      constructor
      case ok_iff =>
        refine fun store => iff_of_false (by simp [Attempt.refuse]) ?_
        rintro ⟨⟨-, -, hroom⟩, -⟩
        exact Nat.not_lt_of_le hroom hshort
      case overflow_iff => exact iff_of_false (by simp [Attempt.refuse]) hnone
      case tooShort_iff =>
        intro expected actual
        simp [Attempt.refuse, hcount, hshort, eq_comm]
    · rw [if_neg hshort]
      constructor
      case ok_iff =>
        intro store
        simp [hcount, hfew, Nat.le_of_not_lt hshort, eq_comm]
      case overflow_iff => exact iff_of_false (by simp [Attempt.refuse]) hnone
      case tooShort_iff =>
        refine fun expected actual => iff_of_false (by simp [Attempt.refuse]) ?_
        rintro ⟨⟨-, hlt⟩, -⟩
        exact hshort hlt

end FlatStore

/-! ### What is counted -/

/-- **The elements of a shape are counted** when their number is a word, except those of a
shape with too many empty rows. This exception apart, the order of the extents makes no
difference, and a flat buffer is addressed, refused as too short or refused for an overflow by
the true number of elements. -/
theorem elements_are_counted {T : Type} (shape : Shape) :
    (∀ v, shape.volume = some v ↔
      v = shape.count ∧ shape.count < Word.bound ∧ ¬ shape.HasTooManyEmptyRows) ∧
    (shape.volume = none ↔ Word.bound ≤ shape.count ∨ shape.HasTooManyEmptyRows) ∧
    (∀ other : Shape, other.extents.Perm shape.extents → (other.volume = shape.volume ↔
      (other.HasTooManyEmptyRows ↔ shape.HasTooManyEmptyRows))) ∧
    (∀ elements : Array T, CountsElements shape elements (FlatStore.ofBuffer shape elements)) :=
  ⟨fun _ => Shape.volume_eq_some_iff, Shape.volume_eq_none_iff,
    fun _ => Shape.volume_eq_iff_of_perm, FlatStore.countsElements_ofBuffer shape⟩

/-- Six elements are counted in either order of their extents, and a buffer of five is too
short for them. -/
theorem elements_are_counted_of_six :
    Shape.volume ⟨1, 2, 3⟩ = some 6 ∧
    (Shape.extents ⟨3, 1, 2⟩).Perm (Shape.extents ⟨1, 2, 3⟩) ∧
    Shape.volume ⟨3, 1, 2⟩ = Shape.volume ⟨1, 2, 3⟩ ∧
    FlatStore.ofBuffer ⟨1, 2, 3⟩ #[0, 0, 0, 0, 0] = .refuse (.bufferTooShort 6 5) := by
  have h := elements_are_counted (T := Nat) ⟨1, 2, 3⟩
  have hperm : (Shape.extents ⟨3, 1, 2⟩).Perm (Shape.extents ⟨1, 2, 3⟩) := by decide
  refine ⟨(h.1 6).2 (by decide), hperm, (h.2.2.1 _ hperm).2 (by decide), ?_⟩
  exact ((h.2.2.2 _).tooShort_iff 6 5).2 (by decide)

/-- **An empty shape that overflows.** 2³² slices of 2³² rows have no element when the rows are
empty; a word tells this number, but the shape has no volume, and no buffer is long enough for
it. With the extents in another order the volume is zero. -/
theorem empty_shape_overflows :
    Shape.count ⟨4294967296, 4294967296, 0⟩ = 0 ∧
    Shape.volume ⟨4294967296, 4294967296, 0⟩ = none ∧
    Shape.volume ⟨0, 4294967296, 4294967296⟩ = some 0 ∧
    FlatStore.ofBuffer ⟨4294967296, 4294967296, 0⟩ (#[] : Array Nat) =
      .refuse .volumeOverflow := by
  have hmany : Shape.HasTooManyEmptyRows ⟨4294967296, 4294967296, 0⟩ := by decide
  exact ⟨hmany.count_eq_zero, Shape.volume_eq_none_iff.2 (.inr hmany),
    Shape.volume_eq_some_iff.2 (by decide), FlatStore.ofBuffer_of_overflow (.inr hmany)⟩

end CosineTransform
