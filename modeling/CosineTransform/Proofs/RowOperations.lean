import Mathlib
import CosineTransform.Proofs.Calls

/-!
# Programs of row operations

A row store is asked for single elements and for whole rows, to read them or to put others
in their place (`RowOp`). Operations are done one after the other, and go on after one of
them has met a fault (`RowOp.inTurn`).

The reference is an array of three indices together with a shape (`RowOp.onArray`). It
answers an operation on a row of the shape from its elements, and replaces the elements
that the operation names; an operation on any other row is a fault and leaves the array as
it is. Data that holds an array answers every program as the array does, and what is left
of the data holds what is left of the array (`Layout.answersAsArray`). So data of different
layouts that hold one array cannot be told apart by their answers
(`rows_answer_as_array`).

One operation is a step from a row store that holds an array to one that holds the array
after it (`RowOp.perform_eq`). For a row inside the shape this is the law of the row store,
for a row outside it is the check that comes before every access (`RefusesOutside`). A
program is an induction on its operations (`RowOp.inTurn_perform`).
-/

namespace CosineTransform

/-! ### Rows outside the shape -/

/-- A row store that refuses every access to a row outside its shape, and is left as it
was. -/
class RefusesOutside (R : Type) (T : outParam Type) [RowStore R T] : Prop where
  load_outside {s : R} {i j : Nat} (k : Nat) : ¬ (RowStore.shape s).HasRow i j →
    RowStore.load i j k s = .error (.rowOutside i j (RowStore.shape s)) s
  store_outside {s : R} {i j : Nat} (k : Nat) (x : T) : ¬ (RowStore.shape s).HasRow i j →
    RowStore.store i j k x s = .error (.rowOutside i j (RowStore.shape s)) s
  modifyRow_outside {α : Type} {s : R} {i j : Nat} (change : Array T → Checked (Array T × α)) :
    ¬ (RowStore.shape s).HasRow i j →
    RowStore.modifyRow i j change s = .error (.rowOutside i j (RowStore.shape s)) s

theorem Shape.rowStart_outside {s : Shape} {i j : Nat} (h : ¬ s.HasRow i j) :
    s.rowStart i j = .error (.rowOutside i j s) :=
  if_neg h

theorem Shape.place_outside {s : Shape} {i j : Nat} (k : Nat) (h : ¬ s.HasRow i j) :
    s.place i j k = .error (.rowOutside i j s) := by
  unfold place
  rw [rowStart_outside h]
  rfl

theorem RowTable.entry_outside {s : Shape} {i j : Nat} (h : ¬ s.HasRow i j) :
    RowTable.entry s i j = .error (.rowOutside i j s) :=
  if_neg h

namespace FlatStore

variable {T α : Type} {s : FlatStore T} {i j : Nat}

theorem load_outside (k : Nat) (h : ¬ s.shape.HasRow i j) :
    load i j k s = .error (.rowOutside i j s.shape) s := by
  unfold load
  rw [Shape.place_outside k h]

theorem store_outside (k : Nat) (x : T) (h : ¬ s.shape.HasRow i j) :
    store i j k x s = .error (.rowOutside i j s.shape) s := by
  unfold store
  rw [Shape.place_outside k h]

theorem modifyRow_outside (change : Array T → Checked (Array T × α))
    (h : ¬ s.shape.HasRow i j) :
    modifyRow i j change s = .error (.rowOutside i j s.shape) s := by
  unfold modifyRow
  rw [Shape.rowStart_outside h]

instance : RefusesOutside (FlatStore T) T where
  load_outside := load_outside
  store_outside := store_outside
  modifyRow_outside := modifyRow_outside

end FlatStore

namespace RowTable

variable {T α : Type} {s : RowTable T} {i j : Nat}

theorem load_outside (k : Nat) (h : ¬ s.shape.HasRow i j) :
    load i j k s = .error (.rowOutside i j s.shape) s := by
  unfold load
  rw [entry_outside h]

theorem store_outside (k : Nat) (x : T) (h : ¬ s.shape.HasRow i j) :
    store i j k x s = .error (.rowOutside i j s.shape) s := by
  unfold store
  rw [entry_outside h]

theorem modifyRow_outside (change : Array T → Checked (Array T × α))
    (h : ¬ s.shape.HasRow i j) :
    modifyRow i j change s = .error (.rowOutside i j s.shape) s := by
  unfold modifyRow
  rw [entry_outside h]

instance : RefusesOutside (RowTable T) T where
  load_outside := load_outside
  store_outside := store_outside
  modifyRow_outside := modifyRow_outside

end RowTable

/-! ### Operations -/

/-- An operation on a row, or on one of its elements. -/
inductive RowOp (T : Type) where
  | load (i j k : Nat)
  | store (i j k : Nat) (x : T)
  | read (i j : Nat)
  | overwrite (i j : Nat) (xs : Array T)

/-- What an operation answers. -/
inductive RowReply (T : Type) where
  | element (x : T)
  | row (xs : Array T)
  | done

namespace RowOp

variable {T R S A : Type}

/-- The row of an operation. -/
def row : RowOp T → Nat × Nat
  | load i j _ | store i j _ _ | read i j | overwrite i j _ => (i, j)

/-- An operation on an element names a column, and one on a row brings a whole row. -/
def Fits (shape : Shape) : RowOp T → Prop
  | load _ _ k | store _ _ k _ => k < shape.columns
  | read _ _ => True
  | overwrite _ _ xs => xs.size = shape.columns

instance (shape : Shape) : DecidablePred (Fits shape : RowOp T → Prop)
  | load _ _ k | store _ _ k _ => inferInstanceAs (Decidable (k < shape.columns))
  | read _ _ => inferInstanceAs (Decidable True)
  | overwrite _ _ xs => inferInstanceAs (Decidable (xs.size = shape.columns))

/-- An operation as an access to a row store. -/
def act [RowStore R T] : RowOp T → EStateM Fault R (RowReply T)
  | load i j k => do return .element (← RowStore.load i j k)
  | store i j k x => do
    RowStore.store i j k x
    return .done
  | read i j => do return .row (← RowStore.modifyRow i j fun xs => .ok (xs, xs))
  | overwrite i j xs => do
    RowStore.modifyRow i j fun _ => .ok (xs, ())
    return .done

/-- An operation done on a row store: what it answers, a fault included, and what is left. -/
def perform [RowStore R T] (op : RowOp T) (s : R) : Except Fault (RowReply T) × R :=
  match op.act s with
  | .ok reply s => (.ok reply, s)
  | .error f s => (.error f, s)

/-- What an array answers to an operation on one of its rows. -/
def reply (shape : Shape) (g : Nat → Nat → Nat → T) : RowOp T → RowReply T
  | load i j k => .element (g i j k)
  | read i j => .row ((Array.range shape.columns).map (g i j))
  | store _ _ _ _ | overwrite _ _ _ => .done

/-- The array after an operation on one of its rows. -/
def changed (g : Nat → Nat → Nat → T) : RowOp T → Nat → Nat → Nat → T
  | load _ _ _ | read _ _ => g
  | store i j k x => fun i' j' k' => if i' = i ∧ j' = j ∧ k' = k then x else g i' j' k'
  | overwrite i j xs => fun i' j' =>
      if i' = i ∧ j' = j then fun k => xs[k]?.getD (g i j k) else g i' j'

/-- **An operation on an array** of a shape. -/
def onArray (shape : Shape) (op : RowOp T) (g : Nat → Nat → Nat → T) :
    Except Fault (RowReply T) × (Nat → Nat → Nat → T) :=
  if shape.HasRow op.row.1 op.row.2 then (.ok (op.reply shape g), op.changed g)
  else (.error (.rowOutside op.row.1 op.row.2 shape), g)

/-- **Operations one after the other**: what each of them answers, and what is left. -/
def inTurn (step : RowOp T → S → A × S) : List (RowOp T) → S → List A × S
  | [], s => ([], s)
  | op :: ops, s =>
      let (answer, s) := step op s
      let (answers, s) := inTurn step ops s
      (answer :: answers, s)

theorem inTurn_cons (step : RowOp T → S → A × S) (op : RowOp T) (ops : List (RowOp T)) (s : S) :
    inTurn step (op :: ops) s =
      ((step op s).1 :: (inTurn step ops (step op s).2).1,
        (inTurn step ops (step op s).2).2) :=
  rfl

section Perform

variable [RowStore R T] {s s' : R}

theorem perform_of_ok {op : RowOp T} {answer : RowReply T} (h : op.act s = .ok answer s') :
    op.perform s = (.ok answer, s') := by
  unfold perform
  rw [h]

theorem perform_of_error {op : RowOp T} {f : Fault} (h : op.act s = .error f s') :
    op.perform s = (.error f, s') := by
  unfold perform
  rw [h]

/-- **An operation on a row outside the shape** is refused and changes nothing. -/
theorem perform_outside [RefusesOutside R T] (op : RowOp T)
    (h : ¬ (RowStore.shape s).HasRow op.row.1 op.row.2) :
    op.perform s = (.error (.rowOutside op.row.1 op.row.2 (RowStore.shape s)), s) := by
  refine perform_of_error ?_
  cases op with
  | load i j k => exact Workspace.bind_of_error (RefusesOutside.load_outside k h)
  | store i j k x => exact Workspace.bind_of_error (RefusesOutside.store_outside k x h)
  | read i j => exact Workspace.bind_of_error (RefusesOutside.modifyRow_outside _ h)
  | overwrite i j xs => exact Workspace.bind_of_error (RefusesOutside.modifyRow_outside _ h)

variable [RowView R T] [LawfulRowStore R T] {shape : Shape} {rest : Array T}
  {g : Nat → Nat → Nat → T}

/-- **An operation on a row of the shape** answers from the elements that the row store
holds, and leaves a row store that holds the array after the operation. -/
theorem perform_inside (h : RowView.Holds shape rest g s) {op : RowOp T} (hfits : op.Fits shape)
    (hrow : shape.HasRow op.row.1 op.row.2) :
    ∃ s', op.perform s = (.ok (op.reply shape g), s') ∧
      RowView.Holds shape rest (op.changed g) s' := by
  cases op with
  | load i j k =>
    exact ⟨s, perform_of_ok (Workspace.bind_of_ok (h.load_eq ⟨hrow, hfits⟩)), h⟩
  | store i j k x =>
    obtain ⟨s', hstore, hs'⟩ := h.store_eq x ⟨hrow, hfits⟩
    exact ⟨s', perform_of_ok (Workspace.bind_of_ok hstore), hs'⟩
  | read i j =>
    obtain ⟨s', hread, hs'⟩ :=
      h.modifyRow_eq (i := i) (j := j) hrow (fun xs => .ok (xs, xs)) rfl
    -- The row is put back as it was.
    have hkept : (fun i' j' => if i' = i ∧ j' = j then g i j else g i' j') = g := by
      funext i' j'
      by_cases hij : i' = i ∧ j' = j
      · rw [if_pos hij, hij.1, hij.2]
      · rw [if_neg hij]
    rw [hkept] at hs'
    exact ⟨s', perform_of_ok (Workspace.bind_of_ok hread), hs'⟩
  | overwrite i j xs =>
    have hxs : xs = (Array.range shape.columns).map fun k => xs[k]?.getD (g i j k) := by
      refine Buffer.eq_map_range hfits fun k hk => ?_
      have hk' : k < xs.size := hk.trans_eq (Eq.symm hfits)
      rw [Array.getElem?_eq_getElem hk', Option.getD_some]
    obtain ⟨s', hoverwrite, hs'⟩ := h.modifyRow_eq hrow (fun _ => .ok (xs, ()))
      (congrArg (fun row => Except.ok (row, ())) hxs)
    exact ⟨s', perform_of_ok (Workspace.bind_of_ok hoverwrite), hs'⟩

/-- **An operation on a row store that holds an array** answers as the array does, and leaves
a row store that holds what is left of the array. -/
theorem perform_eq [RefusesOutside R T] (h : RowView.Holds shape rest g s) {op : RowOp T}
    (hfits : op.Fits shape) :
    ∃ s', op.perform s = ((op.onArray shape g).1, s') ∧
      RowView.Holds shape rest (op.onArray shape g).2 s' := by
  unfold onArray
  by_cases hrow : shape.HasRow op.row.1 op.row.2
  · rw [if_pos hrow]
    exact perform_inside h hfits hrow
  · rw [if_neg hrow]
    have houtside := perform_outside (s := s) op (by rwa [h.shape_eq])
    rw [h.shape_eq] at houtside
    exact ⟨s, houtside, h⟩

/-- **A program of operations**, by induction: what one operation leaves holds the array that
the next one is answered from. -/
theorem inTurn_perform [RefusesOutside R T] {ops : List (RowOp T)}
    (h : RowView.Holds shape rest g s) (hfits : ∀ op ∈ ops, op.Fits shape) :
    ∃ s', inTurn perform ops s = ((inTurn (onArray shape) ops g).1, s') ∧
      RowView.Holds shape rest (inTurn (onArray shape) ops g).2 s' := by
  induction ops generalizing g s with
  | nil => exact ⟨s, rfl, h⟩
  | cons op ops ih =>
    obtain ⟨hop, hops⟩ := List.forall_mem_cons.1 hfits
    obtain ⟨s', hstep, hs'⟩ := perform_eq h hop
    obtain ⟨s'', hrun, hs''⟩ := ih hs' hops
    refine ⟨s'', ?_, hs''⟩
    rw [inTurn_cons, inTurn_cons, hstep, hrun]

end Perform

end RowOp

/-! ### Data of a layout -/

/-- The data that operations on its rows leave. -/
def RowOp.dataAfter (D : Type) {R T : Type} [Layout D R] [RowStore R T] (ops : List (RowOp T))
    (rows : R) : D :=
  Layout.collect (inTurn perform ops rows).2

/-- **The rows of data answer as an array**, whatever they are asked, and what is left of the
data holds what is left of the array, and can be asked again. -/
structure AnswersAsArray (D : Type) {R T : Type} [Layout D R] [RowStore R T] [Indexed D T]
    (shape : Shape) (g : Nat → Nat → Nat → T) (ops : List (RowOp T)) (rows : R) : Prop where
  answers_eq : (RowOp.inTurn RowOp.perform ops rows).1 =
    (RowOp.inTurn (RowOp.onArray shape) ops g).1
  holds : Indexed.Holds shape (RowOp.dataAfter D ops rows)
    (RowOp.inTurn (RowOp.onArray shape) ops g).2
  address_eq : Layout.address shape (RowOp.dataAfter D ops rows) =
    .ok (RowOp.inTurn RowOp.perform ops rows).2

/-- **Data that holds an array** answers as the array does. What belongs to no row is left as
it is. -/
theorem Layout.answersAsArray {D R T : Type} [Layout D R] [RowStore R T] [RowView R T]
    [LawfulRowStore R T] [RefusesOutside R T] [Indexed D T] [LawfulLayout D] {shape : Shape}
    {g : Nat → Nat → Nat → T} {ops : List (RowOp T)} {data : D} {rows : R}
    (hfits : ∀ op ∈ ops, op.Fits shape) (h : Layout.address shape data = .ok rows)
    (hdata : Indexed.Holds shape data g) :
    AnswersAsArray D shape g ops rows ∧
      RowView.rest (RowOp.inTurn RowOp.perform ops rows).2 = RowView.rest rows := by
  obtain ⟨s', hrun, hs'⟩ := RowOp.inTurn_perform ((LawfulLayout.holds_iff h).1 hdata) hfits
  have haddress : Layout.address shape (Layout.collect s' : D) = .ok s' :=
    LawfulLayout.address_collect h hs'.sound hs'.shape_eq
  refine ⟨⟨by rw [hrun], ?_, ?_⟩, ?_⟩
  · unfold RowOp.dataAfter
    rw [hrun]
    refine (LawfulLayout.holds_iff haddress).2 ?_
    rwa [hs'.rest_eq]
  · unfold RowOp.dataAfter
    rw [hrun]
    exact haddress
  · rw [hrun]
    exact hs'.rest_eq

/-- The lengths of the rows, slice by slice. -/
def NestedVolume.lengths {T : Type} (data : NestedVolume T) : Array (Array Nat) :=
  data.slices.map (·.map Array.size)

/-- The lengths of the rows. -/
def PlaneVolume.lengths {T : Type} (data : PlaneVolume T) : Array Nat :=
  data.rows.map Array.size

/-- Slices that are addressed have the lengths of the shape. -/
theorem NestedVolume.lengths_eq {T : Type} {shape : Shape} {data : NestedVolume T}
    {rows : RowTable T} (h : Layout.address shape data = .ok rows) :
    data.lengths = Array.replicate shape.slices (Array.replicate shape.rows shape.columns) := by
  obtain ⟨⟨hslices, -, hlengths⟩, -⟩ := RowTable.ofSlices_eq_ok_iff.1 h
  unfold lengths
  rw [hslices, Array.map_eq_replicate_iff]
  intro slice hslice
  obtain ⟨hrows, hcolumns⟩ := hlengths slice hslice
  rw [← hrows, Array.map_eq_replicate_iff]
  exact hcolumns

theorem PlaneVolume.lengths_eq {T : Type} {shape : Shape} {data : PlaneVolume T}
    {rows : RowTable T} (h : Layout.address shape data = .ok rows) :
    data.lengths = Array.replicate shape.rows shape.columns := by
  obtain ⟨⟨-, hrows, -, hcolumns⟩, -⟩ := RowTable.ofPlane_eq_ok_iff.1 h
  unfold lengths
  rw [hrows, Array.map_eq_replicate_iff]
  exact hcolumns

/-- **A buffer is kept** around the volume: its size, and every element behind it. -/
structure FlatVolume.KeptAround {T : Type} (shape : Shape) (data data' : FlatVolume T) : Prop where
  size_eq : data'.elements.size = data.elements.size
  end_eq : ∀ m, shape.slices * shape.rows * shape.columns ≤ m →
    data'.elements[m]? = data.elements[m]?

/-- Buffers with the same rest. -/
theorem FlatVolume.keptAround {T : Type} {shape : Shape} {data data' : FlatVolume T}
    {rows rows' : FlatStore T} (h : Layout.address shape data = .ok rows)
    (h' : Layout.address shape data' = .ok rows') (hrest : RowView.rest rows' = RowView.rest rows) :
    KeptAround shape data data' := by
  obtain ⟨⟨v, hv, hle⟩, rfl⟩ := FlatStore.ofBuffer_eq_ok_iff.1 h
  obtain ⟨⟨v', hv', hle'⟩, rfl⟩ := FlatStore.ofBuffer_eq_ok_iff.1 h'
  obtain ⟨rfl, -⟩ := Shape.volume_eq_some hv
  obtain ⟨rfl, -⟩ := Shape.volume_eq_some hv'
  have hsize := Buffer.size_eq_of_extract_eq hle' hle hrest
  exact ⟨hsize, fun m hm => Buffer.getElem?_eq_of_extract_eq hsize hrest hm⟩

/-- **Offsets are words**: no step of the computation of an offset leaves the words, and the
offset lies inside the buffer. -/
structure FlatVolume.OffsetsFit {T : Type} (shape : Shape) (data : FlatVolume T) : Prop where
  rowStart_eq : ∀ i j, shape.HasRow i j → shape.rowStart i j = .ok (shape.offset i j 0)
  place_eq : ∀ i j k, shape.Has i j k → shape.place i j k = .ok (shape.offset i j k)
  offset_lt : ∀ i j k, shape.Has i j k → shape.offset i j k < data.elements.size

theorem FlatVolume.offsetsFit {T : Type} {shape : Shape} {data : FlatVolume T}
    {rows : FlatStore T} (h : Layout.address shape data = .ok rows) : OffsetsFit shape data := by
  obtain ⟨⟨v, hv, hle⟩, -⟩ := FlatStore.ofBuffer_eq_ok_iff.1 h
  obtain ⟨rfl, hlt⟩ := Shape.volume_eq_some hv
  exact ⟨fun i j hij => Shape.rowStart_eq hlt hij, fun i j k hijk => Shape.place_eq hlt hijk,
    fun i j k hijk => (Shape.offset_lt hijk).trans_le hle⟩

/-- **Rows of every layout answer as one array** of three indices. A buffer keeps its size and
what lies behind the volume, and no offset of it overflows; lists keep their lengths. -/
theorem rows_answer_as_array {T : Type} {shape : Shape} {g : Nat → Nat → Nat → T}
    {ops : List (RowOp T)} (hfits : ∀ op ∈ ops, op.Fits shape) :
    (∀ {data : FlatVolume T} {rows : FlatStore T}, Layout.address shape data = .ok rows →
      Indexed.Holds shape data g →
      AnswersAsArray (FlatVolume T) shape g ops rows ∧
        data.KeptAround shape (RowOp.dataAfter (FlatVolume T) ops rows) ∧
        data.OffsetsFit shape) ∧
    (∀ {data : NestedVolume T} {rows : RowTable T}, Layout.address shape data = .ok rows →
      Indexed.Holds shape data g →
      AnswersAsArray (NestedVolume T) shape g ops rows ∧
        (RowOp.dataAfter (NestedVolume T) ops rows).lengths = data.lengths) ∧
    (∀ {data : PlaneVolume T} {rows : RowTable T}, Layout.address shape data = .ok rows →
      Indexed.Holds shape data g →
      AnswersAsArray (PlaneVolume T) shape g ops rows ∧
        (RowOp.dataAfter (PlaneVolume T) ops rows).lengths = data.lengths) := by
  refine ⟨?_, ?_, ?_⟩
  · intro data rows h hdata
    obtain ⟨hanswers, hrest⟩ := Layout.answersAsArray hfits h hdata
    exact ⟨hanswers, FlatVolume.keptAround h hanswers.address_eq hrest, FlatVolume.offsetsFit h⟩
  · intro data rows h hdata
    obtain ⟨hanswers, -⟩ := Layout.answersAsArray hfits h hdata
    refine ⟨hanswers, ?_⟩
    rw [NestedVolume.lengths_eq hanswers.address_eq, NestedVolume.lengths_eq h]
  · intro data rows h hdata
    obtain ⟨hanswers, -⟩ := Layout.answersAsArray hfits h hdata
    refine ⟨hanswers, ?_⟩
    rw [PlaneVolume.lengths_eq hanswers.address_eq, PlaneVolume.lengths_eq h]

/-- Two rows of three, in a buffer with one element behind them, as a slice and as a plane.
Row two is refused, and the operations after it see what those before it have stored. -/
theorem rows_answer_as_array_small :
    let ops : List (RowOp Nat) := [.store 0 1 2 9, .load 0 2 0, .read 0 1,
      .overwrite 0 0 #[7, 8, 9], .load 0 0 1]
    let answers : List (Except Fault (RowReply Nat)) := [.ok .done,
      .error (.rowOutside 0 2 ⟨1, 2, 3⟩), .ok (.row #[3, 4, 9]), .ok .done, .ok (.element 8)]
    (RowOp.inTurn RowOp.perform ops (⟨⟨1, 2, 3⟩, Array.range 7⟩ : FlatStore Nat)).1 = answers ∧
      (RowOp.dataAfter (FlatVolume Nat) ops
        (⟨⟨1, 2, 3⟩, Array.range 7⟩ : FlatStore Nat)).elements[6]? = some 6 ∧
      (RowOp.inTurn RowOp.perform ops
        (⟨⟨1, 2, 3⟩, #[#[0, 1, 2], #[3, 4, 5]]⟩ : RowTable Nat)).1 = answers ∧
      (RowOp.dataAfter (NestedVolume Nat) ops
        (⟨⟨1, 2, 3⟩, #[#[0, 1, 2], #[3, 4, 5]]⟩ : RowTable Nat)).lengths = #[#[3, 3]] ∧
      (RowOp.dataAfter (PlaneVolume Nat) ops
        (⟨⟨1, 2, 3⟩, #[#[0, 1, 2], #[3, 4, 5]]⟩ : RowTable Nat)).lengths = #[3, 3] := by
  intro ops answers
  have hfits : ∀ op ∈ ops, op.Fits ⟨1, 2, 3⟩ := by decide
  have hflat : Layout.address ⟨1, 2, 3⟩ (⟨Array.range 7⟩ : FlatVolume Nat) =
      .ok (⟨⟨1, 2, 3⟩, Array.range 7⟩ : FlatStore Nat) :=
    FlatStore.ofBuffer_eq_ok_iff.2 ⟨⟨6, by decide, by simp⟩, rfl⟩
  have hnested : Layout.address ⟨1, 2, 3⟩ (⟨#[#[#[0, 1, 2], #[3, 4, 5]]]⟩ : NestedVolume Nat) =
      .ok (⟨⟨1, 2, 3⟩, #[#[0, 1, 2], #[3, 4, 5]]⟩ : RowTable Nat) :=
    RowTable.ofSlices_eq_ok_iff.2 ⟨⟨rfl, by decide, by simp⟩, by simp⟩
  have hplane : Layout.address ⟨1, 2, 3⟩ (⟨#[#[0, 1, 2], #[3, 4, 5]]⟩ : PlaneVolume Nat) =
      .ok (⟨⟨1, 2, 3⟩, #[#[0, 1, 2], #[3, 4, 5]]⟩ : RowTable Nat) :=
    RowTable.ofPlane_eq_ok_iff.2 ⟨⟨rfl, rfl, by decide, by simp⟩, rfl⟩
  -- All three hold the numbers of their elements.
  have hholds : ∀ {D : Type} [Indexed D Nat] (data : D),
      (∀ i < 1, ∀ j < 2, ∀ k < 3, Indexed.element? data ⟨1, 2, 3⟩ i j k = some (3 * j + k)) →
      Indexed.Holds ⟨1, 2, 3⟩ data fun _ j k => 3 * j + k :=
    fun data h i j k hijk => h i hijk.1.1 j hijk.1.2 k hijk.2
  obtain ⟨hflats, hnesteds, hplanes⟩ :=
    rows_answer_as_array (g := fun _ j k => 3 * j + k) hfits
  obtain ⟨hflatAnswers, hkept, -⟩ := hflats hflat (hholds _ (by decide))
  obtain ⟨hnestedAnswers, hnestedLengths⟩ := hnesteds hnested (hholds _ (by decide))
  obtain ⟨-, hplaneLengths⟩ := hplanes hplane (hholds _ (by decide))
  have hanswers : (RowOp.inTurn (RowOp.onArray ⟨1, 2, 3⟩) ops fun _ j k => 3 * j + k).1 =
      answers := by
    have hrange : Array.range 3 = #[0, 1, 2] := by decide
    simp [ops, answers, RowOp.inTurn, RowOp.onArray, RowOp.row, RowOp.reply, RowOp.changed,
      Shape.HasRow, hrange]
  exact ⟨hflatAnswers.answers_eq.trans hanswers, (hkept.end_eq 6 (by decide)).trans (by decide),
    hnestedAnswers.answers_eq.trans hanswers,
    hnestedLengths.trans (by simp [NestedVolume.lengths]),
    hplaneLengths.trans (by simp [PlaneVolume.lengths])⟩

end CosineTransform
