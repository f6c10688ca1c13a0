import Mathlib
import CosineTransform.Proofs.Separable

/-!
# Volumes as lists of rows

A list of slices and a plane are lists of rows, and a shape gives a length to each of the
lists (`Listed.HasSizes`). Addressing such data compares these lengths one by one, in the
order in which the lists are met (`LengthCheck`), and is refused at the first one that
differs (`LawfulListed.address_eq`, `LengthCheck.forM_run`).

Data that is addressed holds the same array as a flat buffer does: put one after the other,
its rows follow the volume that its row store holds (`LawfulListed.follows`). Element
`(i, j, k)` is found in both at the same place, since row `(i, j)` is entry
`i * rows + j` of the table and begins in the buffer at this multiple of the columns.
-/

namespace CosineTransform

/-! ### Checks of lengths -/

/-- A list on an axis, the length that the shape gives it, and the length that it has. -/
structure LengthCheck where
  axis : Nat
  place : Nat × Nat
  expected : Nat
  actual : Nat
deriving DecidableEq, Inhabited

namespace LengthCheck

variable {T : Type}

/-- The list has its length. -/
def Passes (c : LengthCheck) : Prop :=
  c.expected = c.actual

instance : DecidablePred Passes := fun c => inferInstanceAs (Decidable (c.expected = c.actual))

/-- What is answered when the list has another length. -/
def refusal (c : LengthCheck) : TransformError :=
  .ragged c.axis c.place c.expected c.actual

/-- The check made. -/
def run (c : LengthCheck) : Attempt Unit :=
  RowTable.checkLength c.axis c.place c.expected c.actual

/-- The rows of slice `i`. -/
def ofRows (shape : Shape) (i : Nat) (slice : Array (Array T)) : List LengthCheck :=
  slice.toList.zipIdx.map fun x => ⟨2, (i, x.2), shape.columns, x.1.size⟩

/-- A slice with its number, and its rows. -/
def ofSlice (shape : Shape) (x : Array (Array T) × Nat) : List LengthCheck :=
  ⟨1, (x.2, 0), shape.rows, x.1.size⟩ :: ofRows shape x.2 x.1

/-- A list of slices, and each of the slices. -/
def ofSlices (shape : Shape) (slices : Array (Array (Array T))) : List LengthCheck :=
  ⟨0, (0, 0), shape.slices, slices.size⟩ :: slices.toList.zipIdx.flatMap (ofSlice shape)

/-- A single slice. -/
def ofPlane (shape : Shape) (plane : Array (Array T)) : List LengthCheck :=
  ⟨0, (0, 0), shape.slices, 1⟩ :: ofSlice shape (plane, 0)

/-- What is said of the entries of a list with their numbers, and not of the numbers. -/
theorem forall_mem_zipIdx {α : Type} (xs : Array α) (P : α → Prop) :
    (∀ x ∈ xs.toList.zipIdx, P x.1) ↔ ∀ a ∈ xs, P a := by
  have hmap := List.forall_mem_map (f := Prod.fst) (l := xs.toList.zipIdx) (P := P)
  rw [List.zipIdx_map_fst] at hmap
  simpa using hmap.symm

theorem ofRows_pass_iff {shape : Shape} {i : Nat} {slice : Array (Array T)} :
    (∀ c ∈ ofRows shape i slice, c.Passes) ↔ ∀ row ∈ slice, row.size = shape.columns := by
  unfold ofRows
  rw [List.forall_mem_map]
  exact (forall₂_congr fun _ _ => eq_comm).trans
    (forall_mem_zipIdx slice fun row => row.size = shape.columns)

theorem ofSlice_pass_iff {shape : Shape} {x : Array (Array T) × Nat} :
    (∀ c ∈ ofSlice shape x, c.Passes) ↔
      x.1.size = shape.rows ∧ ∀ row ∈ x.1, row.size = shape.columns := by
  unfold ofSlice
  rw [List.forall_mem_cons, ofRows_pass_iff]
  exact and_congr_left' eq_comm

theorem ofSlices_pass_iff {shape : Shape} {slices : Array (Array (Array T))} :
    (∀ c ∈ ofSlices shape slices, c.Passes) ↔ slices.size = shape.slices ∧
      ∀ slice ∈ slices, slice.size = shape.rows ∧ ∀ row ∈ slice, row.size = shape.columns := by
  unfold ofSlices
  rw [List.forall_mem_cons, List.forall_mem_flatMap]
  exact and_congr eq_comm ((forall₂_congr fun _ _ => ofSlice_pass_iff).trans
    (forall_mem_zipIdx slices fun slice =>
      slice.size = shape.rows ∧ ∀ row ∈ slice, row.size = shape.columns))

theorem ofPlane_pass_iff {shape : Shape} {plane : Array (Array T)} :
    (∀ c ∈ ofPlane shape plane, c.Passes) ↔ shape.slices = 1 ∧ plane.size = shape.rows ∧
      ∀ row ∈ plane, row.size = shape.columns := by
  unfold ofPlane
  rw [List.forall_mem_cons, ofSlice_pass_iff]
  rfl

theorem run_of_passes {c : LengthCheck} (h : c.Passes) : c.run = .ok () :=
  RowTable.checkLength_eq_ok_iff.2 h

theorem run_of_not_passes {c : LengthCheck} (h : ¬ c.Passes) : c.run = .refuse c.refusal :=
  if_neg h

theorem forM_run_cons_of_passes {c : LengthCheck} (h : c.Passes) (checks : List LengthCheck) :
    (c :: checks).forM run = checks.forM run :=
  congrArg (· >>= fun _ => checks.forM run) (run_of_passes h)

theorem forM_run_cons_of_not_passes {c : LengthCheck} (h : ¬ c.Passes)
    (checks : List LengthCheck) : (c :: checks).forM run = .refuse c.refusal :=
  congrArg (· >>= fun _ => checks.forM run) (run_of_not_passes h)

theorem find?_cons_of_passes {c : LengthCheck} (h : c.Passes) (checks : List LengthCheck) :
    (c :: checks).find? (fun c => ¬ c.Passes) = checks.find? fun c => ¬ c.Passes :=
  List.find?_cons_of_neg (by simpa using h)

theorem find?_cons_of_not_passes {c : LengthCheck} (h : ¬ c.Passes)
    (checks : List LengthCheck) : (c :: checks).find? (fun c => ¬ c.Passes) = some c :=
  List.find?_cons_of_pos (by simpa using h)

/-- No check fails when all of them pass. -/
theorem find?_eq_none_iff {checks : List LengthCheck} :
    checks.find? (fun c => ¬ c.Passes) = none ↔ ∀ c ∈ checks, c.Passes := by
  rw [List.find?_eq_none]
  exact forall₂_congr fun c _ => by simp

/-- **Checks in a row** are refused at the first one that does not pass. -/
theorem forM_run (checks : List LengthCheck) :
    checks.forM run = match checks.find? (fun c => ¬ c.Passes) with
      | none => .ok ()
      | some c => .refuse c.refusal := by
  induction checks with
  | nil => rfl
  | cons c checks ih =>
    by_cases hc : c.Passes
    · rw [forM_run_cons_of_passes hc, find?_cons_of_passes hc]
      exact ih
    · rw [forM_run_cons_of_not_passes hc, find?_cons_of_not_passes hc]

theorem forM_run_append (checks checks' : List LengthCheck) :
    (checks ++ checks').forM run = (do checks.forM run; checks'.forM run) :=
  List.forM_append

/-- The slices of a list are checked one after the other. -/
theorem forM_run_flatMap {α : Type} (xs : List α) (checks : α → List LengthCheck) :
    (xs.flatMap checks).forM run = xs.forM fun x => (checks x).forM run := by
  induction xs with
  | nil => rfl
  | cons x xs ih =>
    rw [List.flatMap_cons, forM_run_append, ih]
    rfl

end LengthCheck

/-! ### Addressing lists -/

/-- There is room for the table of rows. Lists in a memory always leave it: each of the
rows takes more than its entry in the table. -/
def Shape.HasTableRoom (s : Shape) : Prop :=
  Word.bytes * (s.slices * s.rows) < Word.byteBound

instance (s : Shape) : Decidable s.HasTableRoom :=
  inferInstanceAs (Decidable (_ < _))

/-- Rows that fit in a table are counted by words. -/
theorem Shape.HasTableRoom.count_lt {s : Shape} (h : s.HasTableRoom) :
    s.slices * s.rows < Word.bound := by
  unfold HasTableRoom Word.bytes Word.byteBound at h
  unfold Word.bound
  omega

namespace RowTable

variable {T : Type}

/-- **A loop that checks and appends** makes its checks, and then it has appended what each
entry contributes. -/
theorem foldlM_append_eq {α β : Type} {f : Array β → α → Attempt (Array β)}
    (check : α → Attempt Unit) (part : α → Array β)
    (hf : ∀ table x, f table x = do check x; return table ++ part x) (xs : List α)
    (table : Array β) :
    xs.foldlM f table = do xs.forM check; return table ++ xs.toArray.flatMap part := by
  induction xs generalizing table with
  | nil => simp
  | cons x xs ih =>
    have hcons : (x :: xs).toArray.flatMap part = part x ++ xs.toArray.flatMap part := by
      apply Array.ext'
      simp
    rw [List.foldlM_cons, hf, hcons, List.forM_eq_forM, List.forM_cons]
    cases hx : check x with
    | error e => rfl
    | ok u => exact (ih _).trans (by rw [← Array.append_assoc]; rfl)

theorem addSlice_eq (shape : Shape) (i : Nat) (table slice : Array (Array T)) :
    addSlice shape i table slice =
      do (LengthCheck.ofRows shape i slice).forM LengthCheck.run; return table ++ slice := by
  have hpart : slice.toList.zipIdx.toArray.flatMap (fun x => #[x.1]) = slice := by
    apply Array.ext'
    rw [Array.toList_flatMap]
    change slice.toList.zipIdx.flatMap (fun x => [x.1]) = slice.toList
    rw [← List.map_eq_flatMap, List.zipIdx_map_fst]
  refine (foldlM_append_eq (fun x => checkLength 2 (i, x.2) shape.columns x.1.size)
    (fun x => #[x.1]) (fun table x => ?_) slice.toList.zipIdx table).trans ?_
  · simp
  · rw [hpart, LengthCheck.ofRows, List.forM_eq_forM, List.forM_eq_forM, List.forM_map]
    rfl

/-- **Addressing slices** checks their lengths and puts them one after the other. -/
theorem ofSlices_eq {shape : Shape} (hroom : shape.HasTableRoom)
    (slices : Array (Array (Array T))) :
    ofSlices shape slices =
      do
        (LengthCheck.ofSlices shape slices).forM LengthCheck.run
        return ⟨shape, slices.flatten⟩ := by
  have hpart : slices.toList.zipIdx.toArray.flatMap (fun x => x.1) = slices.flatten := by
    apply Array.ext'
    have hmap : slices.toList.zipIdx.map (Array.toList ∘ Prod.fst) =
        slices.toList.map Array.toList := by
      rw [← List.map_map, List.zipIdx_map_fst]
    rw [Array.toList_flatMap, Array.toList_flatten, List.flatMap_def]
    exact congrArg List.flatten hmap
  have hslices : slices.toList.zipIdx.foldlM (fun table x => do
        checkLength 1 (x.2, 0) shape.rows x.1.size
        addSlice shape x.2 table x.1) #[] =
      do (slices.toList.zipIdx.flatMap (LengthCheck.ofSlice shape)).forM LengthCheck.run
         return slices.flatten := by
    refine (foldlM_append_eq (fun x => (LengthCheck.ofSlice shape x).forM LengthCheck.run)
      (fun x => x.1) (fun table x => ?_) slices.toList.zipIdx #[]).trans ?_
    · rw [addSlice_eq, ← bind_assoc]
      rfl
    · rw [hpart, LengthCheck.forM_run_flatMap, Array.empty_append]
  unfold ofSlices
  rw [Word.mul_of_lt hroom.count_lt, Attempt.liftM_ok, Attempt.ok_bind, Word.reserve_of_lt hroom,
    Attempt.liftM_ok, Attempt.ok_bind, hslices, bind_assoc]
  exact (bind_assoc _ _ _).symm

/-- **Addressing a plane** checks its lengths. Room for the table is asked for only when the
plane has the rows of a shape of one slice. -/
theorem ofPlane_eq_of_room {shape : Shape} {plane : Array (Array T)}
    (hroom : shape.slices = 1 → shape.rows = plane.size → Word.bytes * shape.rows < Word.byteBound) :
    ofPlane shape plane =
      do (LengthCheck.ofPlane shape plane).forM LengthCheck.run; return ⟨shape, plane⟩ := by
  have hplane : addSlice shape 0 #[] plane =
      do (LengthCheck.ofRows shape 0 plane).forM LengthCheck.run; return plane := by
    rw [addSlice_eq, Array.empty_append]
  unfold ofPlane LengthCheck.ofPlane
  by_cases hslices : (⟨0, (0, 0), shape.slices, 1⟩ : LengthCheck).Passes
  swap
  · -- A shape of several slices is refused before anything else is done.
    have hrun : checkLength 0 (0, 0) shape.slices 1 = _ := LengthCheck.run_of_not_passes hslices
    rw [LengthCheck.forM_run_cons_of_not_passes hslices, hrun]
    rfl
  have hrun : checkLength 0 (0, 0) shape.slices 1 = .ok () := LengthCheck.run_of_passes hslices
  rw [LengthCheck.forM_run_cons_of_passes hslices, hrun, Attempt.ok_bind]
  unfold LengthCheck.ofSlice
  by_cases hrows : (⟨1, (0, 0), shape.rows, plane.size⟩ : LengthCheck).Passes
  · have hrun : checkLength 1 (0, 0) shape.rows plane.size = .ok () :=
      LengthCheck.run_of_passes hrows
    rw [LengthCheck.forM_run_cons_of_passes hrows, hrun, Attempt.ok_bind,
      Word.reserve_of_lt (hroom hslices hrows), Attempt.liftM_ok, hplane, Attempt.ok_bind,
      bind_assoc]
    rfl
  · have hrun : checkLength 1 (0, 0) shape.rows plane.size = _ :=
      LengthCheck.run_of_not_passes hrows
    rw [LengthCheck.forM_run_cons_of_not_passes hrows, hrun]
    rfl

/-- The table of a single slice has as many entries as the slice has rows. -/
theorem ofPlane_eq {shape : Shape} (hroom : shape.HasTableRoom) (plane : Array (Array T)) :
    ofPlane shape plane =
      do (LengthCheck.ofPlane shape plane).forM LengthCheck.run; return ⟨shape, plane⟩ := by
  refine ofPlane_eq_of_room fun hslices _ => ?_
  unfold Shape.HasTableRoom at hroom
  rwa [hslices, Nat.one_mul] at hroom

/-- **The rows of a table** follow the volume that it holds. -/
theorem follows_flatten {shape : Shape} {rest : Array T} {g : Nat → Nat → Nat → T}
    {s : RowTable T} (h : RowView.Holds shape rest g s) :
    Separable.Follows shape g s.rows.flatten := by
  obtain ⟨-, hsize, hcolumns⟩ := h.sound
  obtain rfl := h.shape_eq
  refine ⟨?_, fun i j k hijk => ?_⟩
  · rw [size_flatten hcolumns, hsize]
    rfl
  · -- Row `(i, j)` begins at the multiple of the columns that its number tells.
    rw [Shape.offset_eq]
    change s.rows.flatten[s.shape.rowNumber i j * s.shape.columns + k]? = _
    rw [getElem?_flatten hcolumns hijk.2, getElem?_rows h.sound hijk.1, Option.bind_some]
    exact h.element i j k hijk

end RowTable

/-! ### Lists of rows -/

/-- Data that is a list of rows, or of slices, which are lists of rows. -/
class Listed (D : Type) (T : outParam Type) where
  /-- All elements, one list after the other. -/
  elements : D → Array T
  /-- Every list has the length that a shape gives it. -/
  HasSizes : Shape → D → Prop
  /-- The checks of the lengths in their order. -/
  checks : Shape → D → List LengthCheck
  hasSizes_iff {shape : Shape} {data : D} :
    HasSizes shape data ↔ ∀ c ∈ checks shape data, c.Passes

instance {T : Type} : Listed (NestedVolume T) T where
  elements data := data.slices.flatten.flatten
  HasSizes shape data := data.slices.size = shape.slices ∧
    ∀ slice ∈ data.slices, slice.size = shape.rows ∧ ∀ row ∈ slice, row.size = shape.columns
  checks shape data := LengthCheck.ofSlices shape data.slices
  hasSizes_iff := LengthCheck.ofSlices_pass_iff.symm

instance {T : Type} : Listed (PlaneVolume T) T where
  elements data := data.rows.flatten
  HasSizes shape data := shape.slices = 1 ∧ data.rows.size = shape.rows ∧
    ∀ row ∈ data.rows, row.size = shape.columns
  checks shape data := LengthCheck.ofPlane shape data.rows
  hasSizes_iff := LengthCheck.ofPlane_pass_iff.symm

/-- Lists whose lengths are checked when they are addressed, and whose elements are those
of their row store. -/
class LawfulListed (D : Type) {R T : Type} [Layout D R] [RowStore R T] [RowView R T]
    [Listed D T] : Prop where
  address_eq {shape : Shape} (hroom : shape.HasTableRoom) (data : D) :
    ∃ s : R, Layout.address shape data =
      do (Listed.checks shape data).forM LengthCheck.run; return s
  follows {shape : Shape} {data : D} {s : R} {rest : Array T} {g : Nat → Nat → Nat → T} :
    Layout.address shape data = .ok s → RowView.Holds shape rest g s →
    Separable.Follows shape g (Listed.elements data)

instance {T : Type} : LawfulListed (NestedVolume T) where
  address_eq hroom data := ⟨_, RowTable.ofSlices_eq hroom data.slices⟩
  follows h hrows := by
    obtain ⟨-, rfl⟩ := RowTable.ofSlices_eq_ok_iff.1 h
    exact RowTable.follows_flatten hrows

instance {T : Type} : LawfulListed (PlaneVolume T) where
  address_eq hroom data := ⟨_, RowTable.ofPlane_eq hroom data.rows⟩
  follows h hrows := by
    obtain ⟨-, rfl⟩ := RowTable.ofPlane_eq_ok_iff.1 h
    exact RowTable.follows_flatten hrows

/-! ### What addressing lists answers -/

section Address

variable {D R T : Type} [Layout D R] [RowStore R T] [RowView R T] [Listed D T] [LawfulListed D]
  {shape : Shape} {data : D}

/-- **Lists of the right lengths** are addressed. -/
theorem address_of_hasSizes (hroom : shape.HasTableRoom) (h : Listed.HasSizes shape data) :
    ∃ s : R, Layout.address shape data = .ok s := by
  obtain ⟨s, hs⟩ := LawfulListed.address_eq (R := R) (T := T) hroom data
  rw [LengthCheck.forM_run, LengthCheck.find?_eq_none_iff.2 (Listed.hasSizes_iff.1 h)] at hs
  exact ⟨s, hs⟩

/-- **Lists of other lengths** are refused, at the first one whose length differs. -/
theorem address_of_not_hasSizes (hroom : shape.HasTableRoom) (h : ¬ Listed.HasSizes shape data) :
    ∃ c, (Listed.checks shape data).find? (fun c => ¬ c.Passes) = some c ∧
      (Layout.address shape data : Attempt R) = .refuse c.refusal := by
  obtain ⟨s, hs⟩ := LawfulListed.address_eq (R := R) (T := T) hroom data
  rw [LengthCheck.forM_run] at hs
  cases hfind : (Listed.checks shape data).find? (fun c => ¬ c.Passes) with
  | none => exact absurd (Listed.hasSizes_iff.2 (LengthCheck.find?_eq_none_iff.1 hfind)) h
  | some c =>
    rw [hfind] at hs
    exact ⟨c, rfl, hs⟩

theorem hasSizes_of_address (hroom : shape.HasTableRoom) {s : R}
    (h : Layout.address shape data = .ok s) : Listed.HasSizes shape data := by
  by_contra hnot
  obtain ⟨c, -, hc⟩ := address_of_not_hasSizes (R := R) hroom hnot
  rw [h] at hc
  cases hc

end Address

end CosineTransform
