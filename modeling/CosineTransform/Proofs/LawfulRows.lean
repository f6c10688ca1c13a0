import Mathlib
import CosineTransform.Proofs.Rules
import CosineTransform.Rows.Flat
import CosineTransform.Rows.Table

/-!
# Row stores that keep their rows

A row store is seen as an array of rows next to a rest that belongs to no row
(`RowView`), and it is **lawful** (`LawfulRowStore`) when its three operations read
and replace rows of this array and do nothing else: inside the shape no operation
faults, a row that is replaced is the only one that changes, and a store is known
once its shape, its rows and its rest are.

Both layouts are lawful. For a table of rows this is plain. For a flat buffer it is
the arithmetic of offsets: element `k` of row `(i, j)` has offset
`rowNumber i j * columns + k`, and different elements have different offsets
(`offset_mem_row_iff`), each of which is a word when the volume is one.
-/

namespace CosineTransform

/-- A row store as an array of rows. -/
class RowView (R : Type) (T : outParam Type) where
  /-- Row `(i, j)`. -/
  row : R → Nat → Nat → Array T
  /-- What belongs to no row. -/
  rest : R → Array T
  /-- Every row of the shape has its place and its length. -/
  Sound : R → Prop

namespace RowView

variable {R T : Type} [RowStore R T] [RowView R T]

/-- `s'` is the store `s` with row `(i, j)` replaced and nothing else changed. -/
structure Replaced (s : R) (i j : Nat) (xs : Array T) (s' : R) : Prop where
  sound : Sound s'
  shape_eq : RowStore.shape s' = RowStore.shape s
  rest_eq : rest s' = rest s
  row_eq : ∀ i' j', (RowStore.shape s).HasRow i' j' →
    row s' i' j' = if i' = i ∧ j' = j then xs else row s i' j'

end RowView

open RowView in
/-- A row store whose operations act on the rows of its shape and on nothing else. -/
class LawfulRowStore (R : Type) (T : outParam Type) [RowStore R T] [RowView R T] : Prop where
  size_row {s : R} {i j : Nat} : Sound s → (RowStore.shape s).HasRow i j →
    (row s i j).size = (RowStore.shape s).columns
  load_eq {s : R} {i j k : Nat} {x : T} : Sound s → (RowStore.shape s).HasRow i j →
    (row s i j)[k]? = some x → RowStore.load i j k s = .ok x s
  store_eq {s : R} {i j k : Nat} (x : T) : Sound s → (RowStore.shape s).HasRow i j →
    k < (RowStore.shape s).columns → ∃ s', RowStore.store i j k x s = .ok () s' ∧
      Replaced s i j ((row s i j).setIfInBounds k x) s'
  modifyRow_eq {α : Type} {s : R} {i j : Nat} {change : Array T → Checked (Array T × α)}
    {xs : Array T} {a : α} : Sound s → (RowStore.shape s).HasRow i j →
    change (row s i j) = .ok (xs, a) → xs.size = (RowStore.shape s).columns →
    ∃ s', RowStore.modifyRow i j change s = .ok a s' ∧ Replaced s i j xs s'
  ext {s s' : R} : Sound s → Sound s' → RowStore.shape s = RowStore.shape s' →
    rest s = rest s' →
    (∀ i j, (RowStore.shape s).HasRow i j → row s i j = row s' i j) → s = s'

/-! ### Row numbers and offsets -/

namespace Shape

/-- The number of row `(i, j)` when rows are counted slice after slice. -/
def rowNumber (s : Shape) (i j : Nat) : Nat :=
  i * s.rows + j

/-- Element `(i, j, k)` lies inside the shape. -/
def Has (s : Shape) (i j k : Nat) : Prop :=
  s.HasRow i j ∧ k < s.columns

instance (s : Shape) (i j k : Nat) : Decidable (s.Has i j k) :=
  inferInstanceAs (Decidable (_ ∧ _))

theorem offset_eq (s : Shape) (i j k : Nat) :
    s.offset i j k = s.rowNumber i j * s.columns + k := by
  unfold offset rowNumber sliceStep rowStep
  ring

theorem rowNumber_lt {s : Shape} {i j : Nat} (h : s.HasRow i j) :
    s.rowNumber i j < s.slices * s.rows := by
  have hle : (i + 1) * s.rows ≤ s.slices * s.rows := Nat.mul_le_mul_right _ h.1
  have hj := h.2
  unfold rowNumber
  rw [Nat.succ_mul] at hle
  omega

theorem rowNumber_inj {s : Shape} {i j i' j' : Nat} (h : s.HasRow i j) (h' : s.HasRow i' j') :
    s.rowNumber i j = s.rowNumber i' j' ↔ i = i' ∧ j = j' := by
  constructor
  · intro heq
    unfold rowNumber at heq
    have hpos : 0 < s.rows := Nat.zero_lt_of_lt h.2
    -- The row count is positive, so quotient and remainder recover the indices from the
    -- number.
    have hdiv := congrArg (· / s.rows) heq
    have hmod := congrArg (· % s.rows) heq
    simp only [Nat.mul_comm _ s.rows, Nat.mul_add_div hpos, Nat.mul_add_mod,
      Nat.div_eq_of_lt h.2, Nat.div_eq_of_lt h'.2, Nat.mod_eq_of_lt h.2,
      Nat.mod_eq_of_lt h'.2] at hdiv hmod
    exact ⟨by simpa using hdiv, hmod⟩
  · rintro ⟨rfl, rfl⟩
    rfl

/-- Every number below the count of rows is the number of a row. -/
theorem exists_rowNumber {s : Shape} {m : Nat} (h : m < s.slices * s.rows) :
    ∃ i j, s.HasRow i j ∧ s.rowNumber i j = m := by
  have hpos : 0 < s.rows := by
    by_contra hzero
    rw [Nat.eq_zero_of_not_pos hzero, Nat.mul_zero] at h
    omega
  refine ⟨m / s.rows, m % s.rows, ⟨?_, Nat.mod_lt m hpos⟩, Nat.div_add_mod' m s.rows⟩
  exact Nat.div_lt_of_lt_mul (by rwa [Nat.mul_comm])

theorem row_end_le {s : Shape} {i j : Nat} (h : s.HasRow i j) :
    s.rowNumber i j * s.columns + s.columns ≤ s.slices * s.rows * s.columns := by
  have hle := Nat.mul_le_mul_right s.columns (Nat.succ_le_of_lt (rowNumber_lt h))
  rwa [Nat.succ_mul] at hle

theorem offset_lt {s : Shape} {i j k : Nat} (h : s.Has i j k) :
    s.offset i j k < s.slices * s.rows * s.columns := by
  have hle := row_end_le h.1
  have hk := h.2
  rw [offset_eq]
  omega

/-- **Offsets tell elements apart**: the offset of an element lies in the stretch of
a row exactly when it is an element of this row. -/
theorem offset_mem_row_iff {s : Shape} {i j i' j' k : Nat} (h : s.HasRow i j)
    (h' : s.Has i' j' k) :
    (s.offset i j 0 ≤ s.offset i' j' k ∧ s.offset i' j' k < s.offset i j 0 + s.columns) ↔
      i' = i ∧ j' = j := by
  have hk := h'.2
  rw [← rowNumber_inj h'.1 h, offset_eq, offset_eq]
  constructor
  · rintro ⟨hle, hlt⟩
    -- `k` is below the length of a row, so the quotient of the offset is the number of its row.
    have hdiv : (s.rowNumber i' j' * s.columns + k) / s.columns = s.rowNumber i' j' := by
      rw [Nat.mul_comm, Nat.mul_add_div (by omega), Nat.div_eq_of_lt hk, Nat.add_zero]
    rw [← hdiv]
    exact Nat.div_eq_of_lt_le (by omega) (by rw [Nat.succ_mul]; omega)
  · intro heq
    rw [heq]
    omega

theorem offset_inj {s : Shape} {i j k i' j' k' : Nat} (h : s.Has i j k) (h' : s.Has i' j' k') :
    s.offset i j k = s.offset i' j' k' ↔ i = i' ∧ j = j' ∧ k = k' := by
  constructor
  · intro heq
    have hk := h.2
    -- The second offset lies in its own row, hence so does the first one.
    have hrow := (offset_mem_row_iff h'.1 h).1 (by
      rw [heq, offset_eq, offset_eq]
      have hk' := h'.2
      omega)
    obtain ⟨rfl, rfl⟩ := hrow
    rw [offset_eq, offset_eq] at heq
    exact ⟨rfl, rfl, by omega⟩
  · rintro ⟨rfl, rfl, rfl⟩
    rfl

/-- Every offset below the volume is the offset of an element. -/
theorem exists_offset {s : Shape} {m : Nat} (h : m < s.slices * s.rows * s.columns) :
    ∃ i j k, s.Has i j k ∧ s.offset i j k = m := by
  have hpos : 0 < s.columns := by
    by_contra hzero
    rw [Nat.eq_zero_of_not_pos hzero, Nat.mul_zero] at h
    omega
  obtain ⟨i, j, hrow, hm⟩ := exists_rowNumber (s := s) (m := m / s.columns)
    (Nat.div_lt_of_lt_mul (by rwa [Nat.mul_comm]))
  refine ⟨i, j, m % s.columns, ⟨hrow, Nat.mod_lt m hpos⟩, ?_⟩
  rw [offset_eq, hm]
  exact Nat.div_add_mod' m s.columns

/-- The start of a row inside a shape whose volume is a word. -/
theorem rowStart_eq {s : Shape} {i j : Nat} (hv : s.slices * s.rows * s.columns < Word.bound)
    (h : s.HasRow i j) : s.rowStart i j = .ok (s.offset i j 0) := by
  have hend := row_end_le h
  have hoffset := s.offset_eq i j 0
  -- The step of a slice is at most the volume, as there is a slice: no product overflows.
  have hslice : s.rows * s.columns ≤ s.slices * s.rows * s.columns := by
    rw [Nat.mul_assoc]
    exact Nat.le_mul_of_pos_left _ (Nat.zero_lt_of_lt h.1)
  unfold offset sliceStep rowStep at hoffset
  unfold rowStart
  rw [if_pos h, Word.mul_of_lt (by omega), Checked.ok_bind, Word.mul_of_lt (by omega),
    Checked.ok_bind, Word.mul_of_lt (by omega), Checked.ok_bind, Word.add_of_lt (by omega)]
  rfl

theorem place_eq {s : Shape} {i j k : Nat} (hv : s.slices * s.rows * s.columns < Word.bound)
    (h : s.Has i j k) : s.place i j k = .ok (s.offset i j k) := by
  have hlt := offset_lt h
  have hk := h.2
  rw [offset_eq] at hlt
  unfold place
  rw [rowStart_eq hv h.1, Checked.ok_bind, if_pos hk, offset_eq, offset_eq, Nat.add_zero,
    Word.add_of_lt (by omega)]

end Shape

/-! ### Flat buffers -/

namespace FlatStore

variable {T : Type}

instance : RowView (FlatStore T) T where
  row s i j := s.elements.extract (s.shape.offset i j 0) (s.shape.offset i j 0 + s.shape.columns)
  rest s := s.elements.extract (s.shape.slices * s.shape.rows * s.shape.columns) s.elements.size
  Sound s := s.shape.slices * s.shape.rows * s.shape.columns < Word.bound ∧
    s.shape.slices * s.shape.rows * s.shape.columns ≤ s.elements.size

theorem size_row {s : FlatStore T} {i j : Nat} (hs : RowView.Sound s) (h : s.shape.HasRow i j) :
    (RowView.row s i j).size = s.shape.columns := by
  have hle := Shape.row_end_le h
  have hsize := hs.2
  have hoffset := s.shape.offset_eq i j 0
  simp only [RowView.row, Array.size_extract]
  omega

theorem getElem?_row {s : FlatStore T} {i j k : Nat} (hs : RowView.Sound s)
    (h : s.shape.Has i j k) : (RowView.row s i j)[k]? = s.elements[s.shape.offset i j k]? := by
  have hlt := Shape.offset_lt h
  have hsize := hs.2
  have hk := h.2
  have hle := Shape.row_end_le h.1
  have hoffset := s.shape.offset_eq i j 0
  simp only [RowView.row]
  rw [Array.getElem?_extract, if_pos (by omega), s.shape.offset_eq, s.shape.offset_eq,
    Nat.add_zero]

/-- A store whose elements differ from those of `s` in row `(i, j)` only. -/
theorem replaced_of_getElem? {s : FlatStore T} {i j : Nat} {xs elements : Array T}
    (hs : RowView.Sound s) (h : s.shape.HasRow i j) (hxs : xs.size = s.shape.columns)
    (hsize : elements.size = s.elements.size)
    (hget : ∀ m, elements[m]? = if s.shape.offset i j 0 ≤ m ∧
      m < s.shape.offset i j 0 + s.shape.columns then xs[m - s.shape.offset i j 0]?
      else s.elements[m]?) :
    RowView.Replaced s i j xs { s with elements := elements } := by
  have hs' : RowView.Sound { s with elements := elements } := ⟨hs.1, by
    dsimp only
    rw [hsize]
    exact hs.2⟩
  have hend := Shape.row_end_le h
  have hoffset := s.shape.offset_eq i j 0
  -- The rest lies after the volume, so no row reaches into it. Two rows either are the
  -- same or have disjoint stretches.
  refine ⟨hs', rfl, ?_, fun i' j' h' => ?_⟩
  · apply Array.ext_getElem?
    intro m
    simp only [RowView.rest]
    rw [Array.getElem?_extract, Array.getElem?_extract, hsize]
    refine if_congr Iff.rfl ?_ rfl
    rw [hget, if_neg (by omega)]
  · have hcolumns : (RowView.row { s with elements := elements } i' j').size = s.shape.columns :=
      size_row hs' h'
    apply Array.ext_getElem?
    intro k
    by_cases hk : k < s.shape.columns
    · have hmem := Shape.offset_mem_row_iff h ⟨h', hk⟩
      rw [getElem?_row hs' ⟨h', hk⟩, hget]
      by_cases hij : i' = i ∧ j' = j
      · obtain ⟨rfl, rfl⟩ := hij
        rw [if_pos (hmem.2 ⟨rfl, rfl⟩), if_pos ⟨rfl, rfl⟩, s.shape.offset_eq, s.shape.offset_eq,
          Nat.add_zero, Nat.add_sub_cancel_left]
      · rw [if_neg fun hm => hij (hmem.1 hm), if_neg hij, getElem?_row hs ⟨h', hk⟩]
    · -- Outside the row both sides have no entry.
      rw [Array.getElem?_eq_none (by omega)]
      by_cases hij : i' = i ∧ j' = j
      · rw [if_pos hij, Array.getElem?_eq_none (by omega)]
      · rw [if_neg hij, Array.getElem?_eq_none (by rw [size_row hs h']; omega)]

theorem load_eq {s : FlatStore T} {i j k : Nat} {x : T} (hs : RowView.Sound s)
    (h : s.shape.HasRow i j) (hx : (RowView.row s i j)[k]? = some x) :
    load i j k s = .ok x s := by
  have hk : k < s.shape.columns := by
    rw [← size_row hs h]
    exact (Array.getElem?_eq_some_iff.1 hx).1
  rw [getElem?_row hs ⟨h, hk⟩] at hx
  obtain ⟨hlt, rfl⟩ := Array.getElem?_eq_some_iff.1 hx
  unfold load
  rw [Shape.place_eq hs.1 ⟨h, hk⟩]
  dsimp only
  rw [dif_pos hlt]

/-- **Storing** at an offset replaces the row of the element. -/
theorem store_eq {s : FlatStore T} {i j k : Nat} (x : T) (hs : RowView.Sound s)
    (h : s.shape.HasRow i j) (hk : k < s.shape.columns) :
    ∃ s', store i j k x s = .ok () s' ∧
      RowView.Replaced s i j ((RowView.row s i j).setIfInBounds k x) s' := by
  have hlt : s.shape.offset i j k < s.elements.size :=
    lt_of_lt_of_le (Shape.offset_lt ⟨h, hk⟩) hs.2
  have hoffset := s.shape.offset_eq i j k
  have hstart := s.shape.offset_eq i j 0
  refine ⟨{ s with elements := s.elements.set (s.shape.offset i j k) x hlt }, ?_,
    replaced_of_getElem? hs h ?_ (by simp) fun m => ?_⟩
  · unfold store
    rw [Shape.place_eq hs.1 ⟨h, hk⟩]
    dsimp only
    rw [dif_pos hlt]
  · rw [Array.size_setIfInBounds, size_row hs h]
  · -- Inside the row, offset `start + c` is written exactly when `c` is `k`.
    by_cases hm : s.shape.offset i j 0 ≤ m ∧ m < s.shape.offset i j 0 + s.shape.columns
    · rw [if_pos hm]
      obtain ⟨c, rfl⟩ := Nat.exists_eq_add_of_le hm.1
      have hc : c < s.shape.columns := by omega
      have hrow : (RowView.row s i j)[c]? = s.elements[s.shape.offset i j 0 + c]? := by
        rw [getElem?_row hs ⟨h, hc⟩, s.shape.offset_eq, hstart, Nat.add_zero]
      rw [Nat.add_sub_cancel_left, Array.getElem?_set hlt]
      by_cases hck : k = c
      · subst hck
        rw [if_pos (by omega),
          Array.getElem?_setIfInBounds_self_of_lt (by rw [size_row hs h]; exact hk)]
      · rw [if_neg (by omega), Array.getElem?_setIfInBounds_ne hck, hrow]
    · rw [if_neg hm, Array.getElem?_set hlt, if_neg (by omega)]

theorem modifyRow_eq {α : Type} {s : FlatStore T} {i j : Nat}
    {change : Array T → Checked (Array T × α)} {xs : Array T} {a : α} (hs : RowView.Sound s)
    (h : s.shape.HasRow i j) (hchange : change (RowView.row s i j) = .ok (xs, a))
    (hxs : xs.size = s.shape.columns) :
    ∃ s', modifyRow i j change s = .ok a s' ∧ RowView.Replaced s i j xs s' := by
  have hend := Shape.row_end_le h
  have hsize := hs.2
  have hoffset := s.shape.offset_eq i j 0
  refine ⟨{ s with elements := Buffer.overlay s.elements (s.shape.offset i j 0) xs.toList }, ?_,
    replaced_of_getElem? hs h hxs (Buffer.size_overlay _ _ _) fun m => ?_⟩
  · have hrow : change (s.elements.extract (s.shape.offset i j 0)
        (s.shape.offset i j 0 + s.shape.columns)) = .ok (xs, a) := hchange
    unfold modifyRow
    rw [Shape.rowStart_eq hs.1 h]
    dsimp only
    rw [if_pos (by omega), hrow]
    dsimp only
    rw [if_pos hxs]
  · rw [Buffer.getElem?_overlay, Array.length_toList, hxs, Array.getElem?_toList]
    exact if_congr (by omega) rfl rfl

/-- Flat buffers with the same rows and the same rest are the same. -/
theorem eq_of_rows {s s' : FlatStore T} (hs : RowView.Sound s) (hs' : RowView.Sound s')
    (hshape : s.shape = s'.shape) (hrest : RowView.rest s = RowView.rest s')
    (hrow : ∀ i j, s.shape.HasRow i j → RowView.row s i j = RowView.row s' i j) : s = s' := by
  obtain ⟨shape, elements⟩ := s
  obtain ⟨shape', elements'⟩ := s'
  obtain rfl : shape = shape' := hshape
  have hsize : elements.size = elements'.size :=
    Buffer.size_eq_of_extract_eq hs.2 hs'.2 hrest
  congr 1
  apply Array.ext_getElem?
  intro m
  -- Every index belongs to an element of the shape or to the rest.
  by_cases hm : m < shape.slices * shape.rows * shape.columns
  · obtain ⟨i, j, k, hijk, rfl⟩ := Shape.exists_offset hm
    rw [← getElem?_row hs hijk, ← getElem?_row hs' hijk, hrow i j hijk.1]
  · exact Buffer.getElem?_eq_of_extract_eq hsize hrest (Nat.le_of_not_lt hm)

instance : LawfulRowStore (FlatStore T) T where
  size_row := size_row
  load_eq := load_eq
  store_eq := store_eq
  modifyRow_eq := modifyRow_eq
  ext := eq_of_rows

end FlatStore

/-! ### Tables of rows -/

namespace RowTable

variable {T : Type}

instance : RowView (RowTable T) T where
  row s i j := s.rows.getD (s.shape.rowNumber i j) #[]
  rest _ := #[]
  Sound s := s.shape.slices * s.shape.rows < Word.bound ∧
    s.rows.size = s.shape.slices * s.shape.rows ∧ ∀ xs ∈ s.rows, xs.size = s.shape.columns

theorem entry_eq {s : Shape} {i j : Nat} (hv : s.slices * s.rows < Word.bound)
    (h : s.HasRow i j) : entry s i j = .ok (s.rowNumber i j) := by
  have hlt := Shape.rowNumber_lt h
  unfold Shape.rowNumber at hlt ⊢
  unfold entry
  rw [if_pos h, Word.mul_of_lt (by omega), Checked.ok_bind, Word.add_of_lt (by omega)]

theorem getElem?_rows {s : RowTable T} {i j : Nat} (hs : RowView.Sound s)
    (h : s.shape.HasRow i j) : s.rows[s.shape.rowNumber i j]? = some (RowView.row s i j) := by
  have hlt : s.shape.rowNumber i j < s.rows.size := by
    rw [hs.2.1]
    exact Shape.rowNumber_lt h
  simp only [RowView.row]
  rw [Array.getD_eq_getD_getElem?, Array.getElem?_eq_getElem hlt, Option.getD_some]

theorem size_row {s : RowTable T} {i j : Nat} (hs : RowView.Sound s) (h : s.shape.HasRow i j) :
    (RowView.row s i j).size = s.shape.columns :=
  hs.2.2 _ (Array.mem_of_getElem? (getElem?_rows hs h))

/-- A table whose entries differ from those of `s` at row `(i, j)` only. -/
theorem replaced_of_getElem? {s : RowTable T} {i j : Nat} {xs : Array T} {rows : Array (Array T)}
    (hs : RowView.Sound s) (h : s.shape.HasRow i j) (hxs : xs.size = s.shape.columns)
    (hsize : rows.size = s.rows.size)
    (hget : ∀ m, rows[m]? = if m = s.shape.rowNumber i j then some xs else s.rows[m]?) :
    RowView.Replaced s i j xs { s with rows := rows } := by
  have hs' : RowView.Sound { s with rows := rows } := by
    -- A row of the new table is the new row or a row that `s` had.
    refine ⟨hs.1, hsize.trans hs.2.1, fun ys hys => ?_⟩
    obtain ⟨m, hm⟩ := Array.getElem?_of_mem hys
    change rows[m]? = some ys at hm
    rw [hget] at hm
    split at hm
    · rw [← Option.some.inj hm]
      exact hxs
    · exact hs.2.2 ys (Array.mem_of_getElem? hm)
  refine ⟨hs', rfl, rfl, fun i' j' h' => ?_⟩
  have hrow := getElem?_rows hs' h'
  change rows[s.shape.rowNumber i' j']? = _ at hrow
  rw [hget, getElem?_rows hs h'] at hrow
  have hiff := Shape.rowNumber_inj (s := s.shape) h' h
  by_cases hij : i' = i ∧ j' = j
  · rw [if_pos (hiff.2 hij)] at hrow
    rw [if_pos hij, ← Option.some.inj hrow]
  · rw [if_neg fun heq => hij (hiff.1 heq)] at hrow
    rw [if_neg hij, ← Option.some.inj hrow]

theorem load_eq {s : RowTable T} {i j k : Nat} {x : T} (hs : RowView.Sound s)
    (h : s.shape.HasRow i j) (hx : (RowView.row s i j)[k]? = some x) :
    load i j k s = .ok x s := by
  obtain ⟨hr, hrow⟩ := Array.getElem?_eq_some_iff.1 (getElem?_rows hs h)
  rw [← hrow] at hx
  obtain ⟨hk, hx⟩ := Array.getElem?_eq_some_iff.1 hx
  unfold load
  rw [entry_eq hs.1 h]
  dsimp only
  rw [dif_pos hr, dif_pos hk, hx]

theorem store_eq {s : RowTable T} {i j k : Nat} (x : T) (hs : RowView.Sound s)
    (h : s.shape.HasRow i j) (hk : k < s.shape.columns) :
    ∃ s', store i j k x s = .ok () s' ∧
      RowView.Replaced s i j ((RowView.row s i j).setIfInBounds k x) s' := by
  have hcolumns := size_row hs h
  obtain ⟨hr, hrow⟩ := Array.getElem?_eq_some_iff.1 (getElem?_rows hs h)
  refine ⟨{ s with rows := s.rows.modify (s.shape.rowNumber i j) (·.setIfInBounds k x) }, ?_,
    replaced_of_getElem? hs h ?_ (by simp) fun m => ?_⟩
  · unfold store
    rw [entry_eq hs.1 h]
    dsimp only
    rw [dif_pos hr, if_pos (by rw [hrow, hcolumns]; exact hk)]
  · rw [Array.size_setIfInBounds, hcolumns]
  · -- The new row is the old one with an entry set.
    rw [Array.getElem?_modify]
    by_cases hm : m = s.shape.rowNumber i j
    · subst hm
      rw [if_pos rfl, if_pos rfl, getElem?_rows hs h, Option.map_some]
    · rw [if_neg (Ne.symm hm), if_neg hm]

theorem modifyRow_eq {α : Type} {s : RowTable T} {i j : Nat}
    {change : Array T → Checked (Array T × α)} {xs : Array T} {a : α} (hs : RowView.Sound s)
    (h : s.shape.HasRow i j) (hchange : change (RowView.row s i j) = .ok (xs, a))
    (hxs : xs.size = s.shape.columns) :
    ∃ s', modifyRow i j change s = .ok a s' ∧ RowView.Replaced s i j xs s' := by
  have hcolumns := size_row hs h
  obtain ⟨hr, hrow⟩ := Array.getElem?_eq_some_iff.1 (getElem?_rows hs h)
  refine ⟨{ s with rows := s.rows.set (s.shape.rowNumber i j) xs hr }, ?_,
    replaced_of_getElem? hs h hxs (by simp) fun m => ?_⟩
  · unfold modifyRow
    rw [entry_eq hs.1 h]
    dsimp only
    rw [dif_pos hr, hrow, hchange]
    dsimp only
    rw [if_pos (by rw [hcolumns]; exact hxs)]
  · rw [Array.getElem?_set hr]
    exact if_congr eq_comm rfl rfl

/-- Tables with the same rows are the same: nothing belongs to no row. -/
theorem eq_of_rows {s s' : RowTable T} (hs : RowView.Sound s) (hs' : RowView.Sound s')
    (hshape : s.shape = s'.shape)
    (hrow : ∀ i j, s.shape.HasRow i j → RowView.row s i j = RowView.row s' i j) : s = s' := by
  obtain ⟨shape, rows⟩ := s
  obtain ⟨shape', rows'⟩ := s'
  obtain rfl : shape = shape' := hshape
  have hsize := hs.2.1
  have hsize' := hs'.2.1
  dsimp only at hsize hsize'
  congr 1
  apply Array.ext_getElem?
  intro m
  by_cases hm : m < shape.slices * shape.rows
  · obtain ⟨i, j, hij, rfl⟩ := Shape.exists_rowNumber hm
    have hget := getElem?_rows hs hij
    have hget' := getElem?_rows hs' hij
    rw [hrow i j hij, ← hget'] at hget
    exact hget
  · rw [Array.getElem?_eq_none (by omega), Array.getElem?_eq_none (by omega)]

instance : LawfulRowStore (RowTable T) T where
  size_row := size_row
  load_eq := load_eq
  store_eq := store_eq
  modifyRow_eq := modifyRow_eq
  ext hs hs' hshape _ hrow := eq_of_rows hs hs' hshape hrow

end RowTable

end CosineTransform
