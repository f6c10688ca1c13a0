import Mathlib
import CosineTransform.Proofs.LawfulRows
import CosineTransform.Rows.Layout

/-!
# Layouts that keep their data

The data of a caller is an array with three indices, whatever its layout
(`Indexed.element?`). A layout is **lawful** (`LawfulLayout`) when the row store it
leads to holds this array, and when going to the row store and back loses nothing:
data that is addressed is collected unchanged, and the data collected from a row
store is addressed as this row store again.

Flat buffers, lists of slices and planes are lawful. For the lists the point is that
a table of rows is the concatenation of the slices (`ofSlices_eq_ok_iff`), and that a
concatenation of lists of one length is addressed by quotient and remainder
(`getElem?_flatten`).
-/

namespace CosineTransform

/-- Data with three indices. -/
class Indexed (D : Type) (T : outParam Type) where
  /-- Element `(i, j, k)` of data that has the sizes of a shape. -/
  element? : D → Shape → Nat → Nat → Nat → Option T

/-- **Data holds a volume** when each element of the shape is the one of the volume. -/
def Indexed.Holds {D T : Type} [Indexed D T] (shape : Shape) (data : D)
    (g : Nat → Nat → Nat → T) : Prop :=
  ∀ i j k, shape.Has i j k → Indexed.element? data shape i j k = some (g i j k)

/-- A layout whose row stores hold the data, no more and no less. -/
class LawfulLayout (D : Type) {R T : Type} [Layout D R] [RowStore R T] [RowView R T]
    [Indexed D T] : Prop where
  sound_of_address {shape : Shape} {data : D} {s : R} :
    Layout.address shape data = .ok s → RowView.Sound s ∧ RowStore.shape s = shape
  collect_of_address {shape : Shape} {data : D} {s : R} :
    Layout.address shape data = .ok s → Layout.collect s = data
  address_collect {shape : Shape} {data : D} {s s' : R} :
    Layout.address shape data = .ok s → RowView.Sound s' → RowStore.shape s' = shape →
    Layout.address shape (Layout.collect s' : D) = .ok s'
  element?_eq {shape : Shape} {data : D} {s : R} {i j k : Nat} :
    Layout.address shape data = .ok s → shape.Has i j k →
    Indexed.element? data shape i j k = (RowView.row s i j)[k]?

/-! ### Flat buffers -/

instance {T : Type} : Indexed (FlatVolume T) T where
  element? data shape i j k := data.elements[shape.offset i j k]?

namespace FlatStore

variable {T : Type}

theorem ofBuffer_eq_ok_iff {shape : Shape} {elements : Array T} {s : FlatStore T} :
    ofBuffer shape elements = .ok s ↔
      (∃ v, shape.volume = some v ∧ v ≤ elements.size) ∧ s = ⟨shape, elements⟩ := by
  unfold ofBuffer
  cases shape.volume with
  | none => simp [Attempt.refuse]
  | some v =>
    by_cases hv : elements.size < v
    · simp [hv, Attempt.refuse]
    · simp [hv, Nat.le_of_not_lt hv, eq_comm]

end FlatStore

instance {T : Type} : LawfulLayout (FlatVolume T) where
  sound_of_address h := by
    obtain ⟨⟨v, hv, hle⟩, rfl⟩ := FlatStore.ofBuffer_eq_ok_iff.1 h
    obtain ⟨rfl, hlt⟩ := Shape.volume_eq_some hv
    exact ⟨⟨hlt, hle⟩, rfl⟩
  collect_of_address h := by
    obtain ⟨-, rfl⟩ := FlatStore.ofBuffer_eq_ok_iff.1 h
    rfl
  address_collect {shape data s s'} h hs' hshape := by
    obtain ⟨⟨v, hv, -⟩, -⟩ := FlatStore.ofBuffer_eq_ok_iff.1 h
    obtain ⟨rfl, -⟩ := Shape.volume_eq_some hv
    obtain ⟨shape', elements⟩ := s'
    obtain rfl : shape' = shape := hshape
    exact FlatStore.ofBuffer_eq_ok_iff.2 ⟨⟨_, hv, hs'.2⟩, rfl⟩
  element?_eq {shape data s i j k} h hijk := by
    obtain ⟨⟨v, hv, hle⟩, rfl⟩ := FlatStore.ofBuffer_eq_ok_iff.1 h
    obtain ⟨rfl, hlt⟩ := Shape.volume_eq_some hv
    exact (FlatStore.getElem?_row (s := ⟨shape, data.elements⟩) ⟨hlt, hle⟩ hijk).symm

/-! ### Lists of slices and planes -/

/-- An entry of a concatenation of lists that have one length. -/
theorem getElem?_flatten {α : Type} {slices : Array (Array α)} {n i j : Nat}
    (h : ∀ slice ∈ slices, slice.size = n) (hj : j < n) :
    slices.flatten[i * n + j]? = slices[i]?.bind (·[j]?) := by
  -- By induction on the lists: the first one holds the entries of quotient zero.
  have key : ∀ (ls : List (List α)) (i : Nat), (∀ l ∈ ls, l.length = n) →
      ls.flatten[i * n + j]? = ls[i]?.bind (·[j]?) := by
    intro ls
    induction ls with
    | nil => intro i _; simp
    | cons l ls ih =>
      intro i hls
      obtain ⟨hl, hls⟩ := List.forall_mem_cons.1 hls
      rw [List.flatten_cons]
      cases i with
      | zero =>
        rw [Nat.zero_mul, Nat.zero_add, List.getElem?_append_left (by omega)]
        rfl
      | succ i =>
        rw [Nat.succ_mul, List.getElem?_append_right (by omega), List.getElem?_cons_succ,
          show i * n + n + j - l.length = i * n + j by omega]
        exact ih i hls
  rw [← Array.getElem?_toList, Array.toList_flatten, key _ i fun l hl => ?_]
  · rw [List.getElem?_map, Array.getElem?_toList]
    cases slices[i]? with
    | none => rfl
    | some slice => exact Array.getElem?_toList
  · obtain ⟨slice, hslice, rfl⟩ := List.mem_map.1 hl
    rw [Array.length_toList]
    exact h slice (by simpa using hslice)

theorem size_flatten {α : Type} {slices : Array (Array α)} {n : Nat}
    (h : ∀ slice ∈ slices, slice.size = n) : slices.flatten.size = slices.size * n := by
  -- The sizes are a constant array.
  have hmap : slices.map Array.size = Array.replicate slices.size n := by
    apply Array.ext (by simp)
    intro i hi _
    simp only [Array.getElem_map, Array.getElem_replicate]
    exact h _ (Array.getElem_mem _)
  rw [Array.size_flatten, hmap, Array.sum_replicate_nat]

instance {T : Type} : Indexed (NestedVolume T) T where
  element? data _ i j k := (data.slices[i]?.bind (·[j]?)).bind (·[k]?)

instance {T : Type} : Indexed (PlaneVolume T) T where
  element? data _ i j k := if i = 0 then data.rows[j]?.bind (·[k]?) else none

namespace RowTable

variable {T : Type}

theorem checkLength_eq_ok_iff {axis : Nat} {place : Nat × Nat} {expected actual : Nat} :
    checkLength axis place expected actual = .ok () ↔ expected = actual := by
  unfold checkLength
  split <;> simp_all [Attempt.refuse]

/-- **A loop that checks and appends**: it succeeds when every entry passes its check, and
then it has appended what each of them contributes. -/
theorem foldlM_append_eq_ok_iff {α β : Type} {f : Array β → α × Nat → Attempt (Array β)}
    (passes : α → Prop) (part : α → Array β)
    (hf : ∀ table x t, f table x = .ok t ↔ passes x.1 ∧ t = table ++ part x.1) (xs : List α)
    (n : Nat) {table t : Array β} :
    (xs.zipIdx n).foldlM f table = .ok t ↔
      (∀ x ∈ xs, passes x) ∧ t = table ++ xs.toArray.flatMap part := by
  induction xs generalizing n table with
  | nil => simp [eq_comm]
  | cons x xs ih =>
    have hcons : (x :: xs).toArray.flatMap part = part x ++ xs.toArray.flatMap part := by
      apply Array.ext'
      simp
    rw [List.zipIdx_cons, List.foldlM_cons, List.forall_mem_cons, Attempt.bind_eq_ok_iff, hcons,
      ← Array.append_assoc]
    constructor
    · rintro ⟨t', ht', h⟩
      obtain ⟨hx, rfl⟩ := (hf _ _ _).1 ht'
      obtain ⟨hall, rfl⟩ := (ih _).1 h
      exact ⟨⟨hx, hall⟩, rfl⟩
    · rintro ⟨⟨hx, hall⟩, rfl⟩
      exact ⟨table ++ part x, (hf _ _ _).2 ⟨hx, rfl⟩, (ih _).2 ⟨hall, rfl⟩⟩

/-- **Adding a slice** appends its rows, each of which has its length. -/
theorem addSlice_eq_ok_iff {shape : Shape} {i : Nat} {table slice t : Array (Array T)} :
    addSlice shape i table slice = .ok t ↔
      (∀ row ∈ slice, row.size = shape.columns) ∧ t = table ++ slice := by
  -- Each row is checked and contributes itself.
  have hrow : ∀ (table : Array (Array T)) (x : Array T × Nat) (t : Array (Array T)),
      (do
        checkLength 2 (i, x.2) shape.columns x.1.size
        return table.push x.1 : Attempt (Array (Array T))) = .ok t ↔
      x.1.size = shape.columns ∧ t = table ++ #[x.1] := by
    intro table x t
    constructor
    · intro h
      obtain ⟨u, hu, h⟩ := Attempt.bind_eq_ok_iff.1 h
      exact ⟨(checkLength_eq_ok_iff.1 hu).symm, (Except.ok.inj h).symm⟩
    · rintro ⟨hx, rfl⟩
      rw [checkLength_eq_ok_iff.2 hx.symm]
      rfl
  refine (foldlM_append_eq_ok_iff (fun row => row.size = shape.columns) (fun row => #[row]) hrow
    slice.toList 0).trans ?_
  simp

/-- Adding slices, as the loop over all of them does. -/
theorem addSlices_eq_ok_iff {shape : Shape} {slices : Array (Array (Array T))}
    {rows : Array (Array T)} :
    slices.toList.zipIdx.foldlM (fun table x => do
        checkLength 1 (x.2, 0) shape.rows x.1.size
        addSlice shape x.2 table x.1) #[] = (.ok rows : Attempt _) ↔
      (∀ slice ∈ slices, slice.size = shape.rows ∧ ∀ row ∈ slice, row.size = shape.columns) ∧
        rows = slices.flatten := by
  -- Each slice is checked and contributes its rows.
  have hslice : ∀ (table : Array (Array T)) (x : Array (Array T) × Nat) (t : Array (Array T)),
      (do
        checkLength 1 (x.2, 0) shape.rows x.1.size
        addSlice shape x.2 table x.1 : Attempt (Array (Array T))) = .ok t ↔
      (x.1.size = shape.rows ∧ ∀ row ∈ x.1, row.size = shape.columns) ∧ t = table ++ x.1 := by
    intro table x t
    constructor
    · intro h
      obtain ⟨u, hu, h⟩ := Attempt.bind_eq_ok_iff.1 h
      obtain ⟨hrows, rfl⟩ := addSlice_eq_ok_iff.1 h
      exact ⟨⟨(checkLength_eq_ok_iff.1 hu).symm, hrows⟩, rfl⟩
    · rintro ⟨⟨hsize, hrows⟩, rfl⟩
      rw [checkLength_eq_ok_iff.2 hsize.symm]
      exact addSlice_eq_ok_iff.2 ⟨hrows, rfl⟩
  refine (foldlM_append_eq_ok_iff
    (fun slice => slice.size = shape.rows ∧ ∀ row ∈ slice, row.size = shape.columns)
    (fun slice => slice) hslice slices.toList 0).trans ?_
  simp

/-- **Addressing slices.** Every list has the length that the shape gives it, there
is room for the table, and the table is the concatenation of the slices. -/
theorem ofSlices_eq_ok_iff {shape : Shape} {slices : Array (Array (Array T))} {s : RowTable T} :
    ofSlices shape slices = .ok s ↔
      (shape.slices = slices.size ∧ Word.bytes * (shape.slices * shape.rows) < Word.byteBound ∧
        ∀ slice ∈ slices, slice.size = shape.rows ∧
          ∀ row ∈ slice, row.size = shape.columns) ∧ s = ⟨shape, slices.flatten⟩ := by
  unfold ofSlices
  constructor
  · intro h
    -- The four steps in their order: the outer length, the two reservations, the loop.
    obtain ⟨u, hslices, h⟩ := Attempt.bind_eq_ok_iff.1 h
    obtain ⟨count, hcount, h⟩ := Attempt.bind_eq_ok_iff.1 h
    obtain ⟨u', hroom, h⟩ := Attempt.bind_eq_ok_iff.1 h
    obtain ⟨rows, hrows, h⟩ := Attempt.bind_eq_ok_iff.1 h
    obtain ⟨hlengths, rfl⟩ := addSlices_eq_ok_iff.1 hrows
    rw [Attempt.liftM_eq_ok_iff, Word.mul_eq_ok_iff] at hcount
    rw [Attempt.liftM_eq_ok_iff, Word.reserve_eq_ok_iff] at hroom
    exact ⟨⟨checkLength_eq_ok_iff.1 hslices, hcount.2 ▸ hroom, hlengths⟩,
      (Except.ok.inj h).symm⟩
  · rintro ⟨⟨hslices, hroom, hlengths⟩, rfl⟩
    -- A table that fits in memory has fewer entries than there are words.
    have hcount : shape.slices * shape.rows < Word.bound := by
      unfold Word.bytes Word.byteBound at hroom
      unfold Word.bound
      omega
    rw [checkLength_eq_ok_iff.2 hslices, Attempt.ok_bind, Word.mul_of_lt hcount,
      Attempt.liftM_ok, Attempt.ok_bind, Word.reserve_of_lt hroom, Attempt.liftM_ok,
      Attempt.ok_bind]
    exact Attempt.bind_eq_ok_iff.2 ⟨_, addSlices_eq_ok_iff.2 ⟨hlengths, rfl⟩, rfl⟩

/-- **Addressing a plane.** -/
theorem ofPlane_eq_ok_iff {shape : Shape} {plane : Array (Array T)} {s : RowTable T} :
    ofPlane shape plane = .ok s ↔
      (shape.slices = 1 ∧ shape.rows = plane.size ∧ Word.bytes * shape.rows < Word.byteBound ∧
        ∀ row ∈ plane, row.size = shape.columns) ∧ s = ⟨shape, plane⟩ := by
  unfold ofPlane
  constructor
  · intro h
    obtain ⟨u, hslices, h⟩ := Attempt.bind_eq_ok_iff.1 h
    obtain ⟨u', hrows, h⟩ := Attempt.bind_eq_ok_iff.1 h
    obtain ⟨u'', hroom, h⟩ := Attempt.bind_eq_ok_iff.1 h
    obtain ⟨rows, hadd, h⟩ := Attempt.bind_eq_ok_iff.1 h
    obtain ⟨hlengths, rfl⟩ := addSlice_eq_ok_iff.1 hadd
    rw [Attempt.liftM_eq_ok_iff, Word.reserve_eq_ok_iff] at hroom
    exact ⟨⟨checkLength_eq_ok_iff.1 hslices, checkLength_eq_ok_iff.1 hrows, hroom, hlengths⟩,
      by simpa using (Except.ok.inj h).symm⟩
  · rintro ⟨⟨hslices, hrows, hroom, hlengths⟩, rfl⟩
    rw [checkLength_eq_ok_iff.2 hslices, Attempt.ok_bind, checkLength_eq_ok_iff.2 hrows,
      Attempt.ok_bind, Word.reserve_of_lt hroom, Attempt.liftM_ok, Attempt.ok_bind,
      addSlice_eq_ok_iff.2 ⟨hlengths, rfl⟩]
    simp

theorem size_of_mem_toSlices {s : RowTable T} (hs : RowView.Sound s) {slice : Array (Array T)}
    (h : slice ∈ s.toSlices) : slice.size = s.shape.rows := by
  have hsize := hs.2.1
  simp only [toSlices, Array.mem_map, Array.mem_range] at h
  obtain ⟨i, hi, rfl⟩ := h
  -- Slice `i` ends at row `(i + 1) * rows`, which the table still has.
  have hle : (i + 1) * s.shape.rows ≤ s.shape.slices * s.shape.rows :=
    Nat.mul_le_mul_right _ hi
  rw [Nat.succ_mul] at hle
  rw [Array.size_extract]
  omega

/-- A sound table cut into slices and put together again. -/
theorem flatten_toSlices {s : RowTable T} (hs : RowView.Sound s) : s.toSlices.flatten = s.rows := by
  have hsize := hs.2.1
  have hsizes := fun slice (h : slice ∈ s.toSlices) => size_of_mem_toSlices hs h
  have hflat : s.toSlices.flatten.size = s.shape.slices * s.shape.rows := by
    rw [size_flatten hsizes]
    simp [toSlices]
  apply Array.ext_getElem?
  intro m
  by_cases hm : m < s.shape.slices * s.shape.rows
  · -- Row `m` is row `j` of slice `i`.
    obtain ⟨i, j, hij, rfl⟩ := Shape.exists_rowNumber hm
    have hlt := Shape.rowNumber_lt hij
    unfold Shape.rowNumber at hlt ⊢
    rw [getElem?_flatten hsizes hij.2]
    unfold toSlices
    rw [Buffer.getElem?_map_range _ hij.1, Option.bind_some, Array.getElem?_extract,
      if_pos (by have := hij.2; omega)]
  · rw [Array.getElem?_eq_none (by omega), Array.getElem?_eq_none (by omega)]

/-- A concatenation cut into slices again. -/
theorem toSlices_flatten {shape : Shape} {slices : Array (Array (Array T))}
    (hslices : shape.slices = slices.size) (h : ∀ slice ∈ slices, slice.size = shape.rows) :
    toSlices ⟨shape, slices.flatten⟩ = slices := by
  have hsize := size_flatten h
  apply Array.ext_getElem?
  intro i
  unfold toSlices
  dsimp only
  by_cases hi : i < shape.slices
  · have hi' : i < slices.size := by omega
    -- Slice `i` is cut out at its own rows, and has no others.
    have hrows : slices[i].size = shape.rows := h _ (Array.getElem_mem hi')
    have hle : (i + 1) * shape.rows ≤ slices.size * shape.rows := Nat.mul_le_mul_right _ hi'
    rw [Nat.succ_mul] at hle
    rw [Buffer.getElem?_map_range _ hi, Array.getElem?_eq_getElem hi']
    congr 1
    apply Array.ext_getElem?
    intro j
    by_cases hj : j < shape.rows
    · rw [Array.getElem?_extract, if_pos (by omega), getElem?_flatten h hj,
        Array.getElem?_eq_getElem hi', Option.bind_some]
    · rw [Array.getElem?_eq_none (by rw [Array.size_extract]; omega),
        Array.getElem?_eq_none (by omega)]
  · rw [Array.getElem?_eq_none (by simpa using hi), Array.getElem?_eq_none (by omega)]

theorem sound_ofSlices {shape : Shape} {slices : Array (Array (Array T))}
    (hslices : shape.slices = slices.size)
    (hroom : Word.bytes * (shape.slices * shape.rows) < Word.byteBound)
    (h : ∀ slice ∈ slices, slice.size = shape.rows ∧ ∀ row ∈ slice, row.size = shape.columns) :
    RowView.Sound (⟨shape, slices.flatten⟩ : RowTable T) := by
  refine ⟨?_, ?_, fun row hrow => ?_⟩
  · unfold Word.bytes Word.byteBound at hroom
    unfold Word.bound
    dsimp only
    omega
  · dsimp only
    rw [size_flatten fun slice hslice => (h slice hslice).1, hslices]
  · obtain ⟨slice, hslice, hrow⟩ := Array.mem_flatten.1 hrow
    exact (h slice hslice).2 row hrow

end RowTable

instance {T : Type} : LawfulLayout (NestedVolume T) where
  sound_of_address h := by
    obtain ⟨⟨hslices, hroom, hlengths⟩, rfl⟩ := RowTable.ofSlices_eq_ok_iff.1 h
    exact ⟨RowTable.sound_ofSlices hslices hroom hlengths, rfl⟩
  collect_of_address {shape data s} h := by
    obtain ⟨⟨hslices, -, hlengths⟩, rfl⟩ := RowTable.ofSlices_eq_ok_iff.1 h
    exact congrArg NestedVolume.mk
      (RowTable.toSlices_flatten hslices fun slice hslice => (hlengths slice hslice).1)
  address_collect {shape data s s'} h hs' hshape := by
    obtain ⟨⟨-, hroom, -⟩, -⟩ := RowTable.ofSlices_eq_ok_iff.1 h
    obtain ⟨shape', rows⟩ := s'
    obtain rfl : shape' = shape := hshape
    have hflatten := RowTable.flatten_toSlices hs'
    refine RowTable.ofSlices_eq_ok_iff.2 ⟨⟨by simp [Layout.collect, RowTable.toSlices], hroom,
      fun slice hslice => ⟨RowTable.size_of_mem_toSlices hs' hslice, fun row hrow => ?_⟩⟩, ?_⟩
    · refine hs'.2.2 row ?_
      rw [← hflatten]
      exact Array.mem_flatten.2 ⟨slice, hslice, hrow⟩
    · exact congrArg (RowTable.mk shape') hflatten.symm
  element?_eq {shape data s i j k} h hijk := by
    obtain ⟨⟨hslices, hroom, hlengths⟩, rfl⟩ := RowTable.ofSlices_eq_ok_iff.1 h
    have hrow := RowTable.getElem?_rows (s := ⟨shape, data.slices.flatten⟩)
      (RowTable.sound_ofSlices hslices hroom hlengths) hijk.1
    dsimp only [Shape.rowNumber] at hrow
    rw [getElem?_flatten (fun slice hslice => (hlengths slice hslice).1) hijk.1.2] at hrow
    simp only [Indexed.element?]
    rw [hrow, Option.bind_some]

instance {T : Type} : LawfulLayout (PlaneVolume T) where
  sound_of_address {shape data s} h := by
    obtain ⟨⟨hslices, hrows, hroom, hlengths⟩, rfl⟩ := RowTable.ofPlane_eq_ok_iff.1 h
    refine ⟨⟨?_, ?_, hlengths⟩, rfl⟩
    · unfold Word.bytes Word.byteBound at hroom
      unfold Word.bound
      dsimp only
      rw [hslices]
      omega
    · dsimp only
      rw [hslices, hrows, Nat.one_mul]
  collect_of_address h := by
    obtain ⟨-, rfl⟩ := RowTable.ofPlane_eq_ok_iff.1 h
    rfl
  address_collect {shape data s s'} h hs' hshape := by
    obtain ⟨⟨hslices, -, hroom, -⟩, -⟩ := RowTable.ofPlane_eq_ok_iff.1 h
    obtain ⟨shape', rows⟩ := s'
    obtain rfl : shape' = shape := hshape
    have hsize := hs'.2.1
    dsimp only at hsize
    rw [hslices, Nat.one_mul] at hsize
    exact RowTable.ofPlane_eq_ok_iff.2 ⟨⟨hslices, hsize.symm, hroom, hs'.2.2⟩, rfl⟩
  element?_eq {shape data s i j k} h hijk := by
    obtain ⟨⟨hslices, hrows, hroom, hlengths⟩, rfl⟩ := RowTable.ofPlane_eq_ok_iff.1 h
    have hi : i = 0 := by
      have := hijk.1.1
      omega
    have hj : j < data.rows.size := by
      have := hijk.1.2
      omega
    simp only [Indexed.element?, RowView.row, Shape.rowNumber]
    rw [if_pos hi, hi, Nat.zero_mul, Nat.zero_add, Array.getD_eq_getD_getElem?,
      Array.getElem?_eq_getElem hj, Option.bind_some, Option.getD_some]

end CosineTransform
