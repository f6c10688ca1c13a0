import Mathlib
import CosineTransform.Proofs.Accesses
import CosineTransform.Proofs.GrowingTables
import CosineTransform.Proofs.Separable

/-!
# The lines that a share replaces

What one share of a pass does to a flat buffer is said without the steps that do it. The lines
of the pass whose outer index the share reaches are replaced, each of them by the transform of
what it held before, and no other entry of the buffer changes, the entries behind the volume
included (`LinesReplaced`). `PassJob.run_replaces_lines` says that every share does this and
succeeds, for every pass, every start and stride, and every region that is large enough.

The buffer that is left does not depend on the bundle in which columns are gathered, as long as
bundles fill the rows. So the bundle cannot be observed: the rows that a bundle leaves hold a
volume (`PassJob.run_share_eq`) in which the bundle does not occur, and a volume determines its
rows.
-/

namespace CosineTransform

open Separable (lineOffset lineOffset_inj offset_eq_lineOffset)

namespace Share

/-- The share comes to an index by whole strides from its start. -/
def Reaches (s : Share) (o : Nat) : Prop :=
  ∃ m, o = s.start + s.stride * m

end Share

/-! ### Lines of a flat buffer -/

section Lines

variable {T : Type}

/-- The line of a pass, read out of a buffer that begins with the volume. -/
def Pass.readLine (pass : Pass) (shape : Shape) (xs : Array T) (line : Nat × Nat) :
    Checked (Array T) :=
  Buffer.tabulate (pass.lineLength shape) fun t => Buffer.read xs (lineOffset pass shape line t)

/-- **The lines of a share are replaced**: every line that the share reaches holds afterwards
what `f` makes of it as it was, and every entry that lies on none of these lines is kept. -/
structure LinesReplaced (pass : Pass) (shape : Shape) (share : Share)
    (f : Array T → Attempt (Array T)) (before after : Array T) : Prop where
  size_eq : after.size = before.size
  replaced : ∀ line ∈ pass.lines shape, share.Reaches line.1 → ∃ old new,
    pass.readLine shape before line = .ok old ∧ f old = .ok new ∧
      pass.readLine shape after line = .ok new
  kept : ∀ m, (∀ line ∈ pass.lines shape, share.Reaches line.1 →
    ∀ t < pass.lineLength shape, lineOffset pass shape line t ≠ m) → after[m]? = before[m]?

variable {pass : Pass} {shape : Shape} {rest before after : Array T}
  {g g' : Nat → Nat → Nat → T} {line : Nat × Nat}

/-- A line that a share reaches is one of those that it visits. -/
theorem Pass.mem_visits_iff (share : Share) (hline : line ∈ pass.lines shape) :
    line.1 ∈ share.visits (pass.outerCount shape) ↔ share.Reaches line.1 := by
  refine Share.mem_visits.trans (and_iff_right ?_)
  cases pass <;> exact List.mem_range.1 (List.pair_mem_product.1 hline).1

/-- The rows of a flat buffer hold what is read at the offsets of the volume. -/
theorem RowView.Holds.getElem?_offset
    (h : RowView.Holds shape rest g (⟨shape, before⟩ : FlatStore T)) {i j k : Nat}
    (hijk : shape.Has i j k) : before[shape.offset i j k]? = some (g i j k) :=
  (FlatStore.getElem?_row (s := ⟨shape, before⟩) h.sound hijk).symm.trans (h.element i j k hijk)

/-- **A line that is read** holds the volume along it. -/
theorem RowView.Holds.readLine_eq
    (h : RowView.Holds shape rest g (⟨shape, before⟩ : FlatStore T))
    (hline : line ∈ pass.lines shape) : pass.readLine shape before line =
      .ok ((Array.range (pass.lineLength shape)).map fun t =>
        g (pass.element line t).1 (pass.element line t).2.1 (pass.element line t).2.2) := by
  refine Buffer.tabulate_of_ok fun t ht => ?_
  obtain ⟨hlt, hget⟩ := Array.getElem?_eq_some_iff.1
    (h.getElem?_offset (Pass.has_element hline ht))
  exact (Buffer.read_of_lt hlt).trans (congrArg Except.ok hget)

/-- The rest of a flat store is what lies behind the volume. -/
theorem RowView.Holds.getElem?_rest
    (h : RowView.Holds shape rest g (⟨shape, before⟩ : FlatStore T))
    (h' : RowView.Holds shape rest g' (⟨shape, after⟩ : FlatStore T)) :
    after.size = before.size ∧
      ∀ m, shape.slices * shape.rows * shape.columns ≤ m → after[m]? = before[m]? := by
  have hrest : after.extract (shape.slices * shape.rows * shape.columns) after.size =
      before.extract (shape.slices * shape.rows * shape.columns) before.size :=
    h'.rest_eq.trans h.rest_eq.symm
  have hsize := Buffer.size_eq_of_extract_eq h'.sound.2 h.sound.2 hrest
  exact ⟨hsize, fun m hm => Buffer.getElem?_eq_of_extract_eq hsize hrest hm⟩

/-- **The image of a share** replaces the lines of the share. -/
theorem LinesReplaced.of_holds {share : Share} {f : Array T → Attempt (Array T)}
    {F : (Nat → T) → Nat → T}
    (hf : ∀ x : Nat → T, f ((Array.range (pass.lineLength shape)).map x) =
      .ok ((Array.range (pass.lineLength shape)).map (F x)))
    (h : RowView.Holds shape rest g (⟨shape, before⟩ : FlatStore T))
    (h' : RowView.Holds shape rest (fun i j k =>
      if pass.outerIndex i j ∈ share.visits (pass.outerCount shape) then pass.image F g i j k
      else g i j k) (⟨shape, after⟩ : FlatStore T)) :
    LinesReplaced pass shape share f before after := by
  refine ⟨(h.getElem?_rest h').1, fun line hline hreaches => ?_, fun m hm => ?_⟩
  · refine ⟨_, _, h.readLine_eq hline, hf _, (h'.readLine_eq hline).trans ?_⟩
    -- All elements of the line have the outer index of the line, which the share visits.
    have hvisits := (pass.mem_visits_iff share hline).2 hreaches
    refine congrArg Except.ok (Buffer.map_range_congr fun t _ => ?_)
    have houter : pass.outerIndex (pass.element line t).1 (pass.element line t).2.1 = line.1 := by
      rw [← pass.lineThrough_fst _ _ (pass.element line t).2.2, Pass.lineThrough_element]
    rw [houter, if_pos hvisits, Pass.image_eq, Pass.lineThrough_element, Pass.placeInLine_element]
  · by_cases hlt : m < shape.slices * shape.rows * shape.columns
    · -- The entry is an element of the volume, on a line that the share does not reach.
      obtain ⟨i, j, k, hijk, rfl⟩ := Shape.exists_offset hlt
      obtain ⟨hline, hplace⟩ := (Pass.has_iff (p := pass)).1 hijk
      have hmissed : ¬ pass.outerIndex i j ∈ share.visits (pass.outerCount shape) := by
        intro hvisits
        rw [← pass.lineThrough_fst i j k] at hvisits
        exact hm _ hline ((pass.mem_visits_iff share hline).1 hvisits) _ hplace
          (offset_eq_lineOffset pass shape i j k).symm
      rw [h'.getElem?_offset hijk, h.getElem?_offset hijk, if_neg hmissed]
    · exact (h.getElem?_rest h').2 m (Nat.le_of_not_lt hlt)

end Lines

/-! ### Shares of a pass -/

namespace PassJob

variable {T W : Type} [Precision W] [Sample T W]

/-- **A share replaces its lines**, and nothing else, on every flat buffer with room for the
volume and in every region that is large enough. The same buffer is left for every bundle that
fills the rows, the one for the number of columns included when this is a power of two. -/
theorem run_replaces_lines {lengths : List Nat} {table : CircleTable T} {pass : Pass}
    {shape : Shape} {volume : Nat} {elements : Array T}
    (htable : CircleTable.ofLengths lengths = .ok table)
    (hpow : (pass.lineLength shape).isPowerOfTwo) (hserves : table.Serves (pass.lineLength shape))
    (hvolume : shape.volume = some volume) (hroom : volume ≤ elements.size)
    (d : Direction) (scaled : Bool) (share : Share) :
    FlatStore.ofBuffer shape elements = .ok ⟨shape, elements⟩ ∧
    (shape.columns.isPowerOfTwo → (Bundle.ofColumns shape.columns).width ∣ shape.columns) ∧
    ∃ l : LineTransform T, LineTransform.onTable (pass.lineLength shape) table = .ok l ∧
      ∃ elements', LinesReplaced pass shape share (l.call d scaled) elements elements' ∧
        ∀ bundle : Bundle, bundle.width ∣ shape.columns → ∀ (bench : Bench T) (w : Nat),
          bench.Serves (w + 1) (PassJob.slots ⟨pass, l, d, scaled, bundle⟩) l.spectrumLength →
          ∃ bench', PassJob.run ⟨pass, l, d, scaled, bundle⟩ share (bench.region w)
              (⟨⟨shape, elements⟩, bench⟩ : Workspace (FlatStore T) T) =
            .ok () ⟨⟨shape, elements'⟩, bench'⟩ := by
  obtain ⟨hproduct, hbound⟩ := Shape.volume_eq_some hvolume
  rw [hproduct] at hbound hroom
  obtain ⟨N, hserved, rfl⟩ := LineTransform.served_of_ofLengths htable hpow hserves
  have hsound : RowView.Sound (⟨shape, elements⟩ : FlatStore T) := ⟨hbound, hroom⟩
  have hholds := RowView.Holds.of_sound hsound
  have hplanned : ∀ bundle : Bundle, bundle.width ∣ shape.columns →
      (⟨pass, LineTransform.shared N (pass.lineLength shape), d, scaled, bundle⟩ :
        PassJob T).Planned shape N := fun bundle hwidth => ⟨hserved, rfl, hwidth⟩
  refine ⟨FlatStore.ofBuffer_eq_ok_iff.2 ⟨⟨_, hvolume, by rwa [hproduct]⟩, rfl⟩,
    Bundle.width_ofColumns_dvd, _, hserved.onTable_eq, ?_⟩
  -- The buffer is the one that single columns leave on a bench made for them.
  obtain ⟨st, -, hrows, -⟩ := run_share_eq (hplanned .one (one_dvd _)) (w := 0)
    (Bench.serves_fitted _ _) hholds share
  obtain ⟨⟨shape', elements'⟩, bench'⟩ := st
  obtain rfl : shape' = shape := hrows.shape_eq
  refine ⟨elements', LinesReplaced.of_holds (LineTransform.call_eq hserved d scaled) hholds hrows,
    fun bundle hwidth bench w hbench => ?_⟩
  obtain ⟨⟨rows', bench''⟩, hrun, hrows', -⟩ :=
    run_share_eq (hplanned bundle hwidth) hbench hholds share
  -- Another bundle leaves the same volume, hence the same rows.
  obtain rfl : rows' = ⟨shape', elements'⟩ := hrows'.unique hrows fun _ _ _ _ => rfl
  exact ⟨bench'', hrun⟩

/-- The lines along the rows of every second slice from slice one on, in rows of six columns
that are taken two at a time. The first slice and the entry behind the volume are kept. -/
theorem run_replaces_lines_middle :
    ∃ (table : CircleTable Float) (l : LineTransform Float) (elements' : Array Float)
      (bench' : Bench Float),
      CircleTable.ofLengths [8] = .ok table ∧ LineTransform.onTable 2 table = .ok l ∧
      PassJob.run ⟨.middle, l, .forward, false, .two⟩ ⟨1, 2, Nat.two_pos⟩
          ((Bench.fitted 4 1 : Bench Float).region 0)
          (⟨⟨⟨3, 2, 6⟩, Array.replicate 37 1⟩, Bench.fitted 4 1⟩ :
            Workspace (FlatStore Float) Float) =
        .ok () ⟨⟨⟨3, 2, 6⟩, elements'⟩, bench'⟩ ∧
      LinesReplaced .middle ⟨3, 2, 6⟩ ⟨1, 2, Nat.two_pos⟩ (l.call .forward false)
        (Array.replicate 37 1) elements' ∧
      elements'[0]? = some 1 ∧ elements'[36]? = some 1 := by
  have htable : CircleTable.ofLengths [8] = .ok (CircleTable.complete 8 : CircleTable Float) :=
    CircleTable.ofLengths_singleton (by decide) (by decide)
  have hpow : (Pass.middle.lineLength ⟨3, 2, 6⟩).isPowerOfTwo := by decide
  have hserves : (CircleTable.complete 8 : CircleTable Float).Serves
      (Pass.middle.lineLength ⟨3, 2, 6⟩) :=
    CircleTable.serves_complete.2 (by decide)
  have hvolume : Shape.volume ⟨3, 2, 6⟩ = some 36 := by decide
  have hroom : 36 ≤ (Array.replicate 37 (1 : Float)).size := by simp
  obtain ⟨-, -, l, hl, elements', hlines, hruns⟩ := run_replaces_lines htable hpow hserves hvolume
    hroom .forward false ⟨1, 2, Nat.two_pos⟩
  -- Two lines of two elements make four slots, and a line of two needs one spectrum entry.
  have hlength : l.length = 2 := by
    obtain ⟨_, -, rfl⟩ := LineTransform.served_of_onTable htable hl
    rfl
  obtain ⟨bench', hrun⟩ := hruns .two (by decide) (Bench.fitted 4 1) 0 (by
    simpa [slots, Bundle.width, LineTransform.spectrumLength, hlength] using
      (Bench.serves_fitted 4 1 : (Bench.fitted 4 1 : Bench Float).Serves 1 4 1))
  refine ⟨_, _, elements', bench', htable, hl, hrun, hlines, ?_, ?_⟩
  · -- Every line that the share reaches lies behind the first slice.
    refine (hlines.kept 0 fun line _ hreaches t _ heq => ?_).trans (by simp)
    obtain ⟨m, hm⟩ := hreaches
    simp only [lineOffset, Shape.offset, Shape.sliceStep, Pass.element] at heq hm
    omega
  · refine (hlines.kept 36 fun line hline _ t ht heq => ?_).trans (by simp)
    have hlt := Shape.offset_lt (Pass.has_element hline ht)
    exact absurd heq (Nat.ne_of_lt hlt)

end PassJob

end CosineTransform
