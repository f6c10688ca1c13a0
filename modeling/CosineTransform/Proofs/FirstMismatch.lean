import Mathlib
import CosineTransform.Proofs.ListedLayouts

/-!
# The list that is reported

A nested volume can have wrong lengths in many places at once, and one of them is
reported. `FirstMismatch` says which one without mentioning the checks that are made: the
list of slices itself; else the first slice that is not right, for its own number of rows
if that is wrong and otherwise for the first of its rows that has another length. Slices
before it are right in all their rows.

`addressing_names_first_mismatch` says that addressing slices accepts exactly the volumes
that have the sizes of the shape and reports the first mismatch of every other one, and
that a plane is addressed as the nested volume whose only slice it is. The proof goes
through the list of checks (`LengthCheck.ofSlices`): its first check that fails is the
first mismatch (`find?_ofSlices_eq_some_iff`), since a loop over entries with their numbers
fails first at an entry behind some entries that pass (`find?_flatMap_zipIdx_eq_some_iff`).

Room for the table of rows is asked for when only the slices have been counted, so a
shape with very long slices meets a fault where its slices could have been refused.
`addressing_meets_fault_iff` says exactly when: the slices are as many as the shape has,
and the rows of the shape are too many for a table, or for a word. A plane asks for room
when its rows have been counted too, and never meets a fault.
-/

namespace CosineTransform

variable {T : Type}

/-- A slice has the rows of the shape, each with the columns of the shape. -/
def Shape.FitsSlice (s : Shape) (slice : Array (Array T)) : Prop :=
  slice.size = s.rows ∧ ∀ row ∈ slice, row.size = s.columns

/-- **The first list whose length differs** from the shape, in the order volume, first slice,
rows of the first slice, second slice, and so on. -/
inductive FirstMismatch (shape : Shape) (slices : Array (Array (Array T))) :
    LengthCheck → Prop where
  /-- There is another number of slices. -/
  | slices (hsize : slices.size ≠ shape.slices) :
      FirstMismatch shape slices ⟨0, (0, 0), shape.slices, slices.size⟩
  /-- A slice has another number of rows. -/
  | rows {before after : List (Array (Array T))} {slice : Array (Array T)}
      (hsize : slices.size = shape.slices) (hsplit : slices.toList = before ++ slice :: after)
      (hbefore : ∀ other ∈ before, shape.FitsSlice other) (hrows : slice.size ≠ shape.rows) :
      FirstMismatch shape slices ⟨1, (before.length, 0), shape.rows, slice.size⟩
  /-- A row has another length. -/
  | columns {before after : List (Array (Array T))} {slice : Array (Array T)}
      {earlier later : List (Array T)} {row : Array T}
      (hsize : slices.size = shape.slices) (hsplit : slices.toList = before ++ slice :: after)
      (hbefore : ∀ other ∈ before, shape.FitsSlice other) (hrows : slice.size = shape.rows)
      (hrow : slice.toList = earlier ++ row :: later)
      (hearlier : ∀ other ∈ earlier, other.size = shape.columns)
      (hcolumns : row.size ≠ shape.columns) :
      FirstMismatch shape slices ⟨2, (before.length, earlier.length), shape.columns, row.size⟩

/-! ### The first check that fails -/

namespace LengthCheck

variable {shape : Shape} {c : LengthCheck}

/-- **The first check that fails in a loop** over entries with their numbers: it is the first
one of some entry, and the checks of the entries before it all pass. -/
theorem find?_flatMap_zipIdx_eq_some_iff {α : Type} {checks : α × Nat → List LengthCheck}
    {xs : List α} :
    (xs.zipIdx.flatMap checks).find? (fun c => ¬ c.Passes) = some c ↔
      ∃ before x after, xs = before ++ x :: after ∧
        (checks (x, before.length)).find? (fun c => ¬ c.Passes) = some c ∧
        ∀ y ∈ before.zipIdx, ∀ c ∈ checks y, c.Passes := by
  rw [List.find?_flatMap, List.findSome?_eq_some_iff]
  simp only [find?_eq_none_iff]
  constructor
  · rintro ⟨l, y, l', hsplit, hy, hl⟩
    -- The numbers of the entries in front are those of a list of their own.
    obtain ⟨before, rest, rfl, rfl, hrest⟩ := List.zipIdx_eq_append_iff.1 hsplit
    obtain ⟨x, after, rfl, rfl, -⟩ := List.zipIdx_eq_cons_iff.1 hrest.symm
    exact ⟨before, x, after, rfl, by simpa using hy, hl⟩
  · rintro ⟨before, x, after, rfl, hx, hbefore⟩
    refine ⟨before.zipIdx, (x, before.length), after.zipIdx (before.length + 1), ?_, hx, hbefore⟩
    rw [List.zipIdx_append, List.zipIdx_cons, Nat.zero_add]

/-- **The first row that fails** its check. -/
theorem find?_ofRows_eq_some_iff {i : Nat} {slice : Array (Array T)} :
    (ofRows shape i slice).find? (fun c => ¬ c.Passes) = some c ↔
      ∃ earlier row later, slice.toList = earlier ++ row :: later ∧
        (∀ other ∈ earlier, other.size = shape.columns) ∧ row.size ≠ shape.columns ∧
        c = ⟨2, (i, earlier.length), shape.columns, row.size⟩ := by
  have hearlier : ∀ earlier : List (Array T), (∀ y ∈ earlier.zipIdx,
      ∀ c ∈ [(⟨2, (i, y.2), shape.columns, y.1.size⟩ : LengthCheck)], c.Passes) ↔
      ∀ other ∈ earlier, other.size = shape.columns := by
    intro earlier
    simp only [List.forall_mem_singleton]
    refine (forall_mem_zipIdx earlier.toArray fun row => shape.columns = row.size).trans ?_
    exact (forall₂_congr fun _ _ => eq_comm).trans (by simp)
  unfold ofRows
  rw [List.map_eq_flatMap, find?_flatMap_zipIdx_eq_some_iff]
  simp only [hearlier]
  constructor
  · rintro ⟨earlier, row, later, hsplit, hfind, hall⟩
    -- The only check of the row is the one that fails.
    obtain rfl := List.mem_singleton.1 (List.mem_of_find?_eq_some hfind)
    have hrow : ¬ Passes ⟨2, (i, earlier.length), shape.columns, row.size⟩ := by
      simpa using List.find?_some hfind
    exact ⟨earlier, row, later, hsplit, hall, Ne.symm hrow, rfl⟩
  · rintro ⟨earlier, row, later, hsplit, hall, hrow, rfl⟩
    exact ⟨earlier, row, later, hsplit, find?_cons_of_not_passes (Ne.symm hrow) [], hall⟩

/-- The checks of slices, each with its rows, all pass when the slices fit. -/
theorem forall_ofSlice_pass_iff {slices : List (Array (Array T))} :
    (∀ y ∈ slices.zipIdx, ∀ c ∈ ofSlice shape y, c.Passes) ↔
      ∀ slice ∈ slices, shape.FitsSlice slice := by
  refine (forall₂_congr fun _ _ => ofSlice_pass_iff).trans ?_
  exact (forall_mem_zipIdx slices.toArray shape.FitsSlice).trans (by simp)

/-- **The first check that fails** is the first mismatch. -/
theorem find?_ofSlices_eq_some_iff {slices : Array (Array (Array T))} :
    (ofSlices shape slices).find? (fun c => ¬ c.Passes) = some c ↔
      FirstMismatch shape slices c := by
  unfold ofSlices
  by_cases hsize : (⟨0, (0, 0), shape.slices, slices.size⟩ : LengthCheck).Passes
  swap
  · rw [find?_cons_of_not_passes hsize]
    constructor
    · intro h
      obtain rfl := Option.some.inj h
      exact .slices (Ne.symm hsize)
    · intro h
      cases h with
      | slices => rfl
      | rows hsame => exact absurd hsame.symm hsize
      | columns hsame => exact absurd hsame.symm hsize
  rw [find?_cons_of_passes hsize, find?_flatMap_zipIdx_eq_some_iff]
  simp only [forall_ofSlice_pass_iff]
  constructor
  · rintro ⟨before, slice, after, hsplit, hslice, hbefore⟩
    unfold ofSlice at hslice
    -- Either the number of rows is reported or one of the rows.
    by_cases hrows : (⟨1, (before.length, 0), shape.rows, slice.size⟩ : LengthCheck).Passes
    · rw [find?_cons_of_passes hrows, find?_ofRows_eq_some_iff] at hslice
      obtain ⟨earlier, row, later, hrow, hearlier, hcolumns, rfl⟩ := hslice
      exact .columns hsize.symm hsplit hbefore hrows.symm hrow hearlier hcolumns
    · rw [find?_cons_of_not_passes hrows] at hslice
      obtain rfl := Option.some.inj hslice
      exact .rows hsize.symm hsplit hbefore (Ne.symm hrows)
  · intro h
    cases h with
    | slices hne => exact absurd hsize.symm hne
    | rows _ hsplit hbefore hrows =>
      exact ⟨_, _, _, hsplit, find?_cons_of_not_passes (Ne.symm hrows) _, hbefore⟩
    | @columns before _ slice _ _ _ _ hsplit hbefore hrows hrow hearlier hcolumns =>
      have hpass : Passes ⟨1, (before.length, 0), shape.rows, slice.size⟩ := hrows.symm
      refine ⟨_, _, _, hsplit, (find?_cons_of_passes hpass _).trans ?_, hbefore⟩
      exact find?_ofRows_eq_some_iff.2 ⟨_, _, _, hrow, hearlier, hcolumns, rfl⟩

/-- A single slice is checked as a plane is. -/
theorem ofSlices_singleton (plane : Array (Array T)) :
    ofSlices shape #[plane] = ofPlane shape plane :=
  congrArg (List.cons _) (List.append_nil _)

/-- Checks and then an answer: there is one when all checks pass. -/
theorem forM_run_return_eq_ok_iff {α : Type} {checks : List LengthCheck} {a a' : α} :
    (do checks.forM run; return a : Attempt α) = .ok a' ↔
      (∀ c ∈ checks, c.Passes) ∧ a' = a := by
  rw [forM_run, ← find?_eq_none_iff]
  cases checks.find? (fun c => ¬ c.Passes) with
  | none => simp [eq_comm]
  | some c => simp [Attempt.refuse]

/-- Checks and then an answer: otherwise the first check that fails is reported. -/
theorem forM_run_return_eq_error_iff {α : Type} {checks : List LengthCheck} {a : α}
    {failure : Failure} :
    (do checks.forM run; return a : Attempt α) = .error failure ↔
      ∃ c, checks.find? (fun c => ¬ c.Passes) = some c ∧ failure = .refused c.refusal := by
  rw [forM_run]
  cases checks.find? (fun c => ¬ c.Passes) with
  | none => simp
  | some c => simp [Attempt.refuse, eq_comm]

end LengthCheck

/-! ### What addressing lists answers -/

/-- **Slices are addressed, or the first mismatch is reported.** -/
structure NamesFirstMismatch (shape : Shape) (slices : Array (Array (Array T)))
    (answer : Attempt (RowTable T)) : Prop where
  /-- Slices that have the sizes of the shape are addressed, one after the other. -/
  ok_iff : ∀ table, answer = .ok table ↔
    (slices.size = shape.slices ∧ ∀ slice ∈ slices, shape.FitsSlice slice) ∧
      table = ⟨shape, slices.flatten⟩
  /-- Otherwise the first list whose length differs is named. -/
  error_iff : ∀ failure, answer = .error failure ↔ ∃ c, FirstMismatch shape slices c ∧
    failure = .refused (.ragged c.axis c.place c.expected c.actual)

/-- An answer that names the first mismatch is no fault. -/
theorem NamesFirstMismatch.ne_fault {shape : Shape} {slices : Array (Array (Array T))}
    {answer : Attempt (RowTable T)} (h : NamesFirstMismatch shape slices answer) (fault : Fault) :
    answer ≠ .error (.fault fault) := by
  intro hfault
  obtain ⟨c, -, hc⟩ := (h.error_iff _).1 hfault
  cases hc

namespace RowTable

variable {shape : Shape} {slices : Array (Array (Array T))} {plane : Array (Array T)}

/-- Checks of all lengths and then the table are an answer that names the first mismatch. -/
theorem namesFirstMismatch_of_eq {answer : Attempt (RowTable T)}
    (h : answer = do
      (LengthCheck.ofSlices shape slices).forM LengthCheck.run
      return ⟨shape, slices.flatten⟩) :
    NamesFirstMismatch shape slices answer where
  ok_iff table := by
    rw [h, LengthCheck.forM_run_return_eq_ok_iff, LengthCheck.ofSlices_pass_iff]
    rfl
  error_iff failure := by
    rw [h, LengthCheck.forM_run_return_eq_error_iff]
    simp only [LengthCheck.find?_ofSlices_eq_some_iff]
    rfl

/-- Slices of another number are refused before room is asked for. -/
theorem ofSlices_of_size_ne (h : slices.size ≠ shape.slices) :
    ofSlices shape slices = .refuse (.ragged 0 (0, 0) shape.slices slices.size) := by
  have hrun : checkLength 0 (0, 0) shape.slices slices.size = _ :=
    LengthCheck.run_of_not_passes (c := ⟨0, (0, 0), shape.slices, slices.size⟩) (Ne.symm h)
  unfold ofSlices
  rw [hrun]
  rfl

/-- **Slices that are counted** but whose table there is no room for. -/
theorem ofSlices_of_not_hasTableRoom (hsize : slices.size = shape.slices)
    (hroom : ¬ shape.HasTableRoom) :
    ofSlices shape slices = .error (.fault
      (if shape.slices * shape.rows < Word.bound then .capacityOverflow
        else .wordOverflow .multiply)) := by
  unfold Shape.HasTableRoom at hroom
  unfold ofSlices Word.mul Word.checked Word.reserve
  rw [checkLength_eq_ok_iff.2 hsize.symm, Attempt.ok_bind]
  by_cases hlt : shape.slices * shape.rows < Word.bound
  · rw [if_pos hlt, if_pos hlt, Attempt.liftM_ok, Attempt.ok_bind, if_neg hroom]
    rfl
  · rw [if_neg hlt, if_neg hlt]
    rfl

theorem ofSlices_namesFirstMismatch (hroom : slices.size = shape.slices → shape.HasTableRoom) :
    NamesFirstMismatch shape slices (ofSlices shape slices) := by
  refine namesFirstMismatch_of_eq ?_
  by_cases hsize : slices.size = shape.slices
  · exact ofSlices_eq (hroom hsize) slices
  · unfold LengthCheck.ofSlices
    rw [ofSlices_of_size_ne hsize, LengthCheck.forM_run_cons_of_not_passes (Ne.symm hsize)]
    rfl

theorem ofPlane_namesFirstMismatch (hroom : Word.bytes * plane.size < Word.byteBound) :
    NamesFirstMismatch shape #[plane] (ofPlane shape plane) := by
  refine namesFirstMismatch_of_eq ((ofPlane_eq_of_room fun _ hrows => hrows ▸ hroom).trans ?_)
  rw [LengthCheck.ofSlices_singleton, Array.flatten_singleton]

/-- **A fault of addressing slices** is met when the slices are counted and there is no room
for their rows. -/
theorem ofSlices_eq_fault_iff {fault : Fault} :
    ofSlices shape slices = .error (.fault fault) ↔
      slices.size = shape.slices ∧ ¬ shape.HasTableRoom ∧ fault =
        if shape.slices * shape.rows < Word.bound then .capacityOverflow
        else .wordOverflow .multiply := by
  constructor
  · intro hfault
    have hnot : ¬ (slices.size = shape.slices → shape.HasTableRoom) := fun h =>
      (ofSlices_namesFirstMismatch h).ne_fault fault hfault
    obtain ⟨hsize, hroom⟩ := Classical.not_imp.1 hnot
    rw [ofSlices_of_not_hasTableRoom hsize hroom] at hfault
    exact ⟨hsize, hroom, (Failure.fault.inj (Except.error.inj hfault)).symm⟩
  · rintro ⟨hsize, hroom, rfl⟩
    exact ofSlices_of_not_hasTableRoom hsize hroom

/-- **A plane is the volume whose only slice it is.** Room for the table is asked for only
in a shape of one slice. -/
theorem ofPlane_eq_ofSlices (hroom : shape.slices = 1 → shape.HasTableRoom) :
    ofPlane shape plane = ofSlices shape #[plane] := by
  by_cases hslices : shape.slices = 1
  · rw [ofPlane_eq (hroom hslices), ofSlices_eq (hroom hslices), Array.flatten_singleton,
      LengthCheck.ofSlices_singleton]
  · have hcheck : ¬ LengthCheck.Passes ⟨0, (0, 0), shape.slices, 1⟩ := hslices
    rw [ofPlane_eq_of_room fun h => absurd h hslices, ofSlices_of_size_ne (Ne.symm hslices),
      LengthCheck.ofPlane, LengthCheck.forM_run_cons_of_not_passes hcheck]
    rfl

/-- Whatever the volume of one slice is answered, other than a fault, its plane is too. -/
theorem ofPlane_eq_of_ne_fault {answer : Attempt (RowTable T)}
    (h : ofSlices shape #[plane] = answer) (hanswer : ∀ fault, answer ≠ .error (.fault fault)) :
    ofPlane shape plane = answer := by
  have hroom : shape.slices = 1 → shape.HasTableRoom := by
    intro hslices
    by_contra hroom
    exact hanswer _ (h.symm.trans (ofSlices_of_not_hasTableRoom hslices.symm hroom))
  exact (ofPlane_eq_ofSlices hroom).trans h

/-- A plane is accepted exactly when the volume of one slice is, in every shape. -/
theorem ofPlane_eq_ok_iff_ofSlices {table : RowTable T} :
    ofPlane shape plane = .ok table ↔ ofSlices shape #[plane] = .ok table := by
  constructor
  · intro h
    obtain ⟨⟨hslices, -, hbytes, -⟩, -⟩ := ofPlane_eq_ok_iff.1 h
    have hroom : shape.HasTableRoom := by
      unfold Shape.HasTableRoom
      rwa [hslices, Nat.one_mul]
    exact (ofPlane_eq_ofSlices fun _ => hroom).symm.trans h
  · intro h
    exact ofPlane_eq_of_ne_fault h fun _ => nofun

end RowTable

/-! ### Which list is reported -/

/-- **Addressing is exact and names the first mismatch.** When there is room for the table of
rows, slices are addressed exactly when all their lengths are those of the shape, and the
first list of another length is reported otherwise. A plane is accepted, refused and
addressed as the volume whose only slice it is; for what is accepted no room is assumed, and
neither is it for what the volume is refused for. A plane in a memory is judged exactly in
every shape. -/
theorem addressing_names_first_mismatch (shape : Shape) :
    (shape.HasTableRoom → ∀ slices : Array (Array (Array T)),
      NamesFirstMismatch shape slices (RowTable.ofSlices shape slices)) ∧
    (∀ plane : Array (Array T), (shape.slices = 1 → shape.HasTableRoom) →
      RowTable.ofPlane shape plane = RowTable.ofSlices shape #[plane]) ∧
    (∀ (plane : Array (Array T)) (table : RowTable T),
      RowTable.ofPlane shape plane = .ok table ↔
        RowTable.ofSlices shape #[plane] = .ok table) ∧
    (∀ (plane : Array (Array T)) (error : TransformError),
      RowTable.ofSlices shape #[plane] = .refuse error →
        RowTable.ofPlane shape plane = .refuse error) ∧
    (∀ plane : Array (Array T), Word.bytes * plane.size < Word.byteBound →
      NamesFirstMismatch shape #[plane] (RowTable.ofPlane shape plane)) :=
  ⟨fun hroom _ => RowTable.ofSlices_namesFirstMismatch fun _ => hroom,
    fun _ => RowTable.ofPlane_eq_ofSlices,
    fun _ _ => RowTable.ofPlane_eq_ok_iff_ofSlices,
    fun _ _ hrefuse => RowTable.ofPlane_eq_of_ne_fault hrefuse fun _ => nofun,
    fun _ => RowTable.ofPlane_namesFirstMismatch⟩

/-- A row that is too short stands before a slice with too few rows, and is reported; as a
plane, the first slice is refused for the number of slices. -/
theorem addressing_names_first_mismatch_of_two :
    Shape.HasTableRoom ⟨2, 2, 2⟩ ∧
    RowTable.ofSlices ⟨2, 2, 2⟩ #[#[#[1, 2], #[3]], #[#[5]]] = .refuse (.ragged 2 (0, 1) 2 1) ∧
    RowTable.ofPlane ⟨2, 2, 2⟩ #[#[1, 2], #[3]] =
      RowTable.ofSlices ⟨2, 2, 2⟩ #[#[#[1, 2], #[3]]] ∧
    RowTable.ofPlane ⟨2, 2, 2⟩ #[#[1, 2], #[3]] = .refuse (.ragged 0 (0, 0) 2 1) ∧
    RowTable.ofPlane ⟨1, 2, 2⟩ #[#[1, 2], #[3]] = .refuse (.ragged 2 (0, 1) 2 1) := by
  have hroom : Shape.HasTableRoom ⟨2, 2, 2⟩ := by decide
  have htwo := addressing_names_first_mismatch (T := Nat) ⟨2, 2, 2⟩
  have hone := addressing_names_first_mismatch (T := Nat) ⟨1, 2, 2⟩
  -- Whatever comes after the first slice, its second row is the first mismatch.
  have hfirst : ∀ (slices : Array (Array (Array Nat))) (after : List (Array (Array Nat))),
      slices.toList = [] ++ #[#[1, 2], #[3]] :: after →
      FirstMismatch ⟨slices.size, 2, 2⟩ slices ⟨2, (0, 1), 2, 1⟩ := by
    intro slices after hsplit
    have hrow : (#[#[1, 2], #[3]] : Array (Array Nat)).toList = [#[1, 2]] ++ #[3] :: [] := rfl
    exact .columns rfl hsplit nofun rfl hrow (by simp) (by simp)
  refine ⟨hroom, ?_, htwo.2.1 _ fun _ => hroom, htwo.2.2.2.1 _ _ rfl, ?_⟩
  · exact ((htwo.1 hroom _).error_iff _).2 ⟨_, hfirst #[_, _] _ rfl, rfl⟩
  · exact ((hone.2.2.2.2 _ (by decide)).error_iff _).2 ⟨_, hfirst #[_] _ rfl, rfl⟩

/-! ### When addressing meets a fault -/

/-- **Addressing meets a fault** exactly when the slices are as many as the shape has and the
table of its rows has no room, or their number is no word, whatever the slices are. Slices of
which this does not hold are judged exactly, and planes in a memory always are. -/
theorem addressing_meets_fault_iff (shape : Shape) :
    (∀ (slices : Array (Array (Array T))) (fault : Fault),
      RowTable.ofSlices shape slices = .error (.fault fault) ↔
        slices.size = shape.slices ∧ ¬ shape.HasTableRoom ∧ fault =
          if shape.slices * shape.rows < Word.bound then .capacityOverflow
          else .wordOverflow .multiply) ∧
    (∀ slices : Array (Array (Array T)), (slices.size = shape.slices → shape.HasTableRoom) →
      NamesFirstMismatch shape slices (RowTable.ofSlices shape slices)) ∧
    (∀ plane : Array (Array T), Word.bytes * plane.size < Word.byteBound →
      ∀ fault, RowTable.ofPlane shape plane ≠ .error (.fault fault)) :=
  ⟨fun _ _ => RowTable.ofSlices_eq_fault_iff,
    fun _ => RowTable.ofSlices_namesFirstMismatch,
    fun _ hplane => (RowTable.ofPlane_namesFirstMismatch hplane).ne_fault⟩

/-- In a shape of one slice with 2⁶¹ rows, a slice of one row meets a fault, while two slices
are refused and the plane is refused for its rows. -/
theorem addressing_meets_fault_iff_of_long_slice :
    RowTable.ofSlices ⟨1, 2305843009213693952, 1⟩ #[#[#[1]]] =
      .error (.fault .capacityOverflow) ∧
    RowTable.ofSlices ⟨1, 2305843009213693952, 1⟩ #[#[#[1]], #[]] =
      .refuse (.ragged 0 (0, 0) 1 2) ∧
    RowTable.ofPlane ⟨1, 2305843009213693952, 1⟩ #[#[1]] ≠ .error (.fault .capacityOverflow) := by
  have h := addressing_meets_fault_iff (T := Nat) ⟨1, 2305843009213693952, 1⟩
  refine ⟨(h.1 _ _).2 ⟨rfl, by decide, rfl⟩, ?_, h.2.2 _ (by decide) _⟩
  refine ((h.2.1 _ fun hsize => absurd hsize (by decide)).error_iff _).2
    ⟨⟨0, (0, 0), 1, 2⟩, ?_, rfl⟩
  exact .slices (by decide)

/-- **Room is asked for too early.** In a shape of one slice with 2⁶¹ rows, a slice of one row
meets a fault, so it is neither addressed nor refused; its plane is refused for its rows. -/
theorem addressing_long_slice_neither_ok_nor_refused :
    ¬ (∃ answer : RowTable Nat ⊕ TransformError,
        RowTable.ofSlices ⟨1, 2305843009213693952, 1⟩ #[#[#[1]]] =
          answer.elim Except.ok Attempt.refuse) ∧
    RowTable.ofPlane ⟨1, 2305843009213693952, 1⟩ #[#[1]] =
      .refuse (.ragged 1 (0, 0) 2305843009213693952 1) := by
  have hfault : RowTable.ofSlices ⟨1, 2305843009213693952, 1⟩ #[#[#[1]]] =
      .error (.fault .capacityOverflow) :=
    RowTable.ofSlices_of_not_hasTableRoom rfl (by decide)
  refine ⟨?_, rfl⟩
  rintro ⟨table | error, hanswer⟩
  · cases hfault.symm.trans hanswer
  · cases hfault.symm.trans hanswer

end CosineTransform
