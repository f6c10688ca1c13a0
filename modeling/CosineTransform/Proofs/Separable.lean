import Mathlib
import CosineTransform.Proofs.Calls
import CosineTransform.Proofs.ExactCircle
import CosineTransform.Proofs.Lines

/-!
# The separable reference

The transform of a volume is defined most plainly without workers, bundles, benches and
shared tables: take every line along an axis out of the buffer, transform it with a
line transform that is planned for its length alone, and put it back; do this for the
innermost axis, then for the middle one, then for the outer one. `Separable.transform`
is this program.

`call_eq_separable` says that a call computes the same, bit for bit, whatever numbers
are transformed and however the work is shared. The working precision has to keep
angles when they are doubled (`Precision.AnglesDouble`), since a call reads the phasors
of a short line in the table of a longer one.

A buffer of the size of the volume **follows** a rule when it holds its values at their
offsets (`Separable.Follows`). Replacing a line changes the rule on this line and
nowhere else (`replaceLine_eq`), and the lines of an axis have no element in common, so
that replacing all of them applies the pass (`replaceAxis_eq`).
-/

namespace CosineTransform

/-! ### The reference -/

namespace Separable

variable {T W : Type} [Precision W] [Sample T W]

/-- The offset of element `t` of a line in a buffer that holds the volume. -/
def lineOffset (pass : Pass) (shape : Shape) (line : Nat × Nat) (t : Nat) : Nat :=
  shape.offset (pass.element line t).1 (pass.element line t).2.1 (pass.element line t).2.2

/-- The buffer with the first `n` entries of a line put at their places. -/
def scatter (n : Nat) (place : Nat → Nat) (line xs : Array T) : Checked (Array T) :=
  (List.range n).foldlM (fun xs t => do Buffer.write xs (place t) (← Buffer.read line t)) xs

/-- A line taken out, transformed, and put back. -/
def replaceLine (l : LineTransform T) (d : Direction) (scaled : Bool) (place : Nat → Nat)
    (xs : Array T) : Attempt (Array T) := do
  let line ← Buffer.tabulate l.length fun t => Buffer.read xs (place t)
  let line ← l.call d scaled line
  scatter l.length place line xs

/-- Every line of an axis replaced, with a transform of its length alone. -/
def replaceAxis (shape : Shape) (d : Direction) (scaled : Bool) (xs : Array T) (pass : Pass) :
    Attempt (Array T) := do
  let l ← LineTransform.plan (pass.lineLength shape)
  (pass.lines shape).foldlM (fun xs line =>
    replaceLine l d scaled (lineOffset pass shape line) xs) xs

/-- **The separable reference**: the innermost axis first, the outermost last. -/
def transform (shape : Shape) (d : Direction) (scaled : Bool) (xs : Array T) :
    Attempt (Array T) :=
  [Pass.inner, Pass.middle, Pass.outer].foldlM (replaceAxis shape d scaled) xs

/-! ### Scattering a line -/

omit [Precision W] [Sample T W] in
/-- **Scattering** a line to places that differ writes it there and nowhere else. -/
theorem scatter_eq {n : Nat} (f : Nat → T) {place : Nat → Nat} {xs : Array T}
    (hplace : ∀ t < n, place t < xs.size)
    (hinj : ∀ t < n, ∀ t' < n, place t = place t' → t = t') :
    ∃ ys, scatter n place ((Array.range n).map f) xs = .ok ys ∧
      ys.size = xs.size ∧ (∀ t < n, ys[place t]? = some (f t)) ∧
      ∀ m, (∀ t < n, place t ≠ m) → ys[m]? = xs[m]? := by
  -- After `m` steps the first `m` places are written.
  have key : ∀ m ≤ n, ∃ ys, scatter m place ((Array.range n).map f) xs = .ok ys ∧
      ys.size = xs.size ∧ (∀ t < m, ys[place t]? = some (f t)) ∧
      ∀ o, (∀ t < m, place t ≠ o) → ys[o]? = xs[o]? := by
    intro m
    induction m with
    | zero => exact fun _ => ⟨xs, rfl, rfl, fun t ht => absurd ht (by omega), fun _ _ => rfl⟩
    | succ m ih =>
      intro hm
      obtain ⟨ys, hys, hsize, hwritten, hothers⟩ := ih (by omega)
      have hlt : place m < ys.size := by
        rw [hsize]
        exact hplace m (by omega)
      refine ⟨ys.set (place m) (f m), ?_, by rw [Array.size_set, hsize], fun t ht => ?_,
        fun o ho => ?_⟩
      · unfold scatter at hys ⊢
        rw [List.range_succ, List.foldlM_append, hys, Checked.ok_bind]
        simp only [List.foldlM_cons, List.foldlM_nil, bind_pure]
        rw [Buffer.read_map_range f (by omega), Checked.ok_bind, Buffer.write_of_lt hlt]
      · -- A place written before is not written again, as places differ.
        rw [Array.getElem?_set hlt]
        by_cases htm : t = m
        · rw [if_pos (by rw [htm]), htm]
        · rw [if_neg fun heq => htm (hinj m (by omega) t (by omega) heq).symm]
          exact hwritten t (by omega)
      · rw [Array.getElem?_set hlt, if_neg (ho m (by omega))]
        exact hothers o fun t ht => ho t (by omega)
  exact key n le_rfl

/-! ### Buffers that hold a volume -/

/-- The buffer has the size of the volume and holds the values of a rule. -/
structure Follows (shape : Shape) (g : Nat → Nat → Nat → T) (xs : Array T) : Prop where
  size_eq : xs.size = shape.slices * shape.rows * shape.columns
  element : ∀ i j k, shape.Has i j k → xs[shape.offset i j k]? = some (g i j k)

omit [Precision W] [Sample T W] in
/-- Buffers that hold the same volume are the same. -/
theorem Follows.unique {shape : Shape} {g g' : Nat → Nat → Nat → T} {xs ys : Array T}
    (h : Follows shape g xs) (h' : Follows shape g' ys)
    (hg : ∀ i j k, shape.Has i j k → g i j k = g' i j k) : xs = ys := by
  apply Array.ext_getElem?
  intro m
  by_cases hm : m < shape.slices * shape.rows * shape.columns
  · obtain ⟨i, j, k, hijk, rfl⟩ := Shape.exists_offset hm
    rw [h.element i j k hijk, h'.element i j k hijk, hg i j k hijk]
  · rw [Array.getElem?_eq_none (by rw [h.size_eq]; omega),
      Array.getElem?_eq_none (by rw [h'.size_eq]; omega)]

section Lines

variable {shape : Shape} {pass : Pass} {n : Nat} {g : Nat → Nat → Nat → T} {xs : Array T}

/-- The line transform of the reference for a length. -/
def lineImage (n : Nat) (d : Direction) (scaled : Bool) : (Nat → T) → Nat → T :=
  LineTransform.image (LineTransform.sharedPhase n n) n d scaled

theorem lineOffset_inj {line line' : Nat × Nat} {t t' : Nat} (hline : line ∈ pass.lines shape)
    (hline' : line' ∈ pass.lines shape) (ht : t < pass.lineLength shape)
    (ht' : t' < pass.lineLength shape) :
    lineOffset pass shape line t = lineOffset pass shape line' t' ↔ line = line' ∧ t = t' := by
  unfold lineOffset
  rw [Shape.offset_inj (Pass.has_element hline ht) (Pass.has_element hline' ht')]
  unfold Pass.element
  cases pass <;> simp [Prod.ext_iff] <;> tauto

/-- The offset of an element, by its line and its place in it. -/
theorem offset_eq_lineOffset (pass : Pass) (shape : Shape) (i j k : Nat) :
    shape.offset i j k =
      lineOffset pass shape (pass.lineThrough i j k) (pass.placeInLine i j k) := by
  unfold lineOffset
  rw [Pass.element_lineThrough]

/-- **Replacing one line** applies the pass to this line. -/
theorem replaceLine_eq (hserved : LineTransform.Served T n n) (hn : n = pass.lineLength shape)
    (d : Direction) (scaled : Bool) {line : Nat × Nat} (hline : line ∈ pass.lines shape)
    (h : Follows shape g xs) :
    ∃ ys, replaceLine (LineTransform.shared n n) d scaled (lineOffset pass shape line) xs =
        .ok ys ∧
      Follows shape (fun i j k => if pass.lineThrough i j k = line then
        pass.image (lineImage n d scaled) g i j k else g i j k) ys := by
  subst hn
  -- The values on the line, and the line as it is taken out.
  obtain ⟨x, hx⟩ : ∃ x : Nat → T, x = fun t => g (pass.element line t).1
    (pass.element line t).2.1 (pass.element line t).2.2 := ⟨_, rfl⟩
  have hread : ∀ t < pass.lineLength shape,
      Buffer.read xs (lineOffset pass shape line t) = .ok (x t) := by
    intro t ht
    have helement := h.element _ _ _ (Pass.has_element hline ht)
    obtain ⟨hlt, hget⟩ := Array.getElem?_eq_some_iff.1 helement
    unfold lineOffset
    rw [Buffer.read_of_lt hlt, hget, hx]
  have hplace : ∀ t < pass.lineLength shape, lineOffset pass shape line t < xs.size :=
    fun t ht => by
      rw [h.size_eq]
      exact Shape.offset_lt (Pass.has_element hline ht)
  obtain ⟨ys, hys, hsize, hwritten, hothers⟩ := scatter_eq
    (lineImage (pass.lineLength shape) d scaled x) hplace fun t ht t' ht' heq =>
      ((lineOffset_inj hline hline ht ht').1 heq).2
  refine ⟨ys, ?_, hsize.trans h.size_eq, fun i j k hijk => ?_⟩
  · unfold replaceLine
    rw [show (LineTransform.shared (pass.lineLength shape) (pass.lineLength shape) :
      LineTransform T).length = pass.lineLength shape from rfl, Buffer.tabulate_of_ok hread,
      Attempt.liftM_ok, Attempt.ok_bind, LineTransform.call_eq hserved, Attempt.ok_bind]
    exact Attempt.liftM_eq_ok_iff.2 hys
  · -- Every element lies on one line, at one place.
    obtain ⟨hthrough, hplaceInLine⟩ := Pass.has_iff (p := pass).1 hijk
    have hoffset := offset_eq_lineOffset pass shape i j k
    rw [hoffset]
    by_cases hline' : pass.lineThrough i j k = line
    · rw [if_pos hline', hline', hwritten _ hplaceInLine, hx, Pass.image_eq, hline']
    · rw [if_neg hline', hothers _ fun t ht heq => hline'
        ((lineOffset_inj hline hthrough ht hplaceInLine).1 heq).1.symm, ← hoffset]
      exact h.element i j k hijk

/-- **Replacing the lines of an axis** applies the pass. -/
theorem replaceAxis_eq (hserved : LineTransform.Served T (pass.lineLength shape)
    (pass.lineLength shape)) (d : Direction) (scaled : Bool) (h : Follows shape g xs) :
    ∃ ys, replaceAxis shape d scaled xs pass = .ok ys ∧
      Follows shape (pass.image (lineImage (pass.lineLength shape) d scaled) g) ys := by
  -- The lines that are done follow the image, the others follow the rule as it was.
  have key : ∀ (rest : List (Nat × Nat)) (done : Nat × Nat → Prop) [DecidablePred done]
      (xs : Array T), rest.Nodup → (∀ line ∈ rest, line ∈ pass.lines shape ∧ ¬ done line) →
      Follows shape (fun i j k => if done (pass.lineThrough i j k) then
        pass.image (lineImage (pass.lineLength shape) d scaled) g i j k else g i j k) xs →
      ∃ ys, rest.foldlM (fun xs line => replaceLine (LineTransform.shared (pass.lineLength shape)
          (pass.lineLength shape)) d scaled (lineOffset pass shape line) xs) xs =
          (.ok ys : Attempt (Array T)) ∧
        Follows shape (fun i j k =>
          if done (pass.lineThrough i j k) ∨ pass.lineThrough i j k ∈ rest then
            pass.image (lineImage (pass.lineLength shape) d scaled) g i j k else g i j k) ys := by
    intro rest
    induction rest with
    | nil =>
      intro done _ xs _ _ h
      refine ⟨xs, rfl, h.size_eq, fun i j k hijk => ?_⟩
      simp [h.element i j k hijk]
    | cons line rest ih =>
      intro done _ xs hnodup hrest h
      obtain ⟨hnot, hnodup⟩ := List.nodup_cons.1 hnodup
      obtain ⟨⟨hline, hdone⟩, hrest⟩ := List.forall_mem_cons.1 hrest
      obtain ⟨ys, hys, hfollows⟩ := replaceLine_eq hserved rfl d scaled hline h
      have hdone' : Follows shape (fun i j k =>
          if done (pass.lineThrough i j k) ∨ pass.lineThrough i j k = line then
            pass.image (lineImage (pass.lineLength shape) d scaled) g i j k else g i j k) ys := by
        refine ⟨hfollows.size_eq, fun i j k hijk => ?_⟩
        rw [hfollows.element i j k hijk]
        by_cases hthrough : pass.lineThrough i j k = line
        · -- No element of the line was done, so its image is that of the rule.
          rw [if_pos hthrough, if_pos (Or.inr hthrough), Pass.image_eq, Pass.image_eq, hthrough]
          simp only [Pass.lineThrough_element, hdone, if_false]
        · rw [if_neg hthrough]
          simp [hthrough]
      obtain ⟨zs, hzs, hfollows'⟩ := ih (fun l => done l ∨ l = line) ys hnodup
        (fun l hl => ⟨(hrest l hl).1, fun hor => hor.elim (hrest l hl).2 fun heq =>
          hnot (heq ▸ hl)⟩) hdone'
      refine ⟨zs, ?_, hfollows'.size_eq, fun i j k hijk => ?_⟩
      · rw [List.foldlM_cons, hys, Attempt.ok_bind]
        exact hzs
      · rw [hfollows'.element i j k hijk]
        simp only [List.mem_cons, or_assoc]
  -- At the start no line is done.
  obtain ⟨ys, hys, hfollows⟩ := key (pass.lines shape) (fun _ => False) xs
    (pass.nodup_lines shape) (fun line hline => ⟨hline, not_false⟩)
    ⟨h.size_eq, fun i j k hijk => by rw [h.element i j k hijk, if_neg not_false]⟩
  refine ⟨ys, ?_, hfollows.size_eq, fun i j k hijk => ?_⟩
  · unfold replaceAxis
    rw [LineTransform.plan_eq_ok_iff.2 ⟨hserved.length_pow, hserved.room, rfl⟩, Attempt.ok_bind]
    exact hys
  · rw [hfollows.element i j k hijk, if_pos (Or.inr (Pass.has_iff.1 hijk).1)]

end Lines

/-! ### The reference and the call -/

/-- **The reference** leaves the image of the volume. -/
theorem transform_eq (hW : Precision.AnglesDouble W) {shape : Shape}
    (h : ∀ n ∈ shape.extents, n.isPowerOfTwo ∧ HalfCircle.HasRoom T n) (d : Direction)
    (scaled : Bool) {g : Nat → Nat → Nat → T} {xs : Array T} (hxs : Follows shape g xs) :
    ∃ ys, transform shape d scaled xs = .ok ys ∧
      Follows shape (VolumeTransform.imageOf HalfCircle.phasor shape d scaled Pass.inOrder g)
        ys := by
  -- Each axis has a table of its own length, for which there is room.
  have hserved : ∀ pass : Pass,
      LineTransform.Served T (pass.lineLength shape) (pass.lineLength shape) := fun pass => by
    have hshared := VolumeTransform.served_of_extents h pass
    exact ⟨hshared.length_pow, hshared.length_pow, le_rfl, hshared.room.mono hshared.length_le⟩
  have hphase : ∀ pass : Pass, lineImage (T := T) (pass.lineLength shape) d scaled =
      LineTransform.image (HalfCircle.phasor (pass.lineLength shape)) (pass.lineLength shape) d
        scaled := fun pass => by
    unfold lineImage
    rw [LineTransform.sharedPhase_eq hW (hserved pass)]
  -- Each axis starts from the volume that the one before leaves.
  obtain ⟨ys, hys, hinner⟩ := replaceAxis_eq (hserved .inner) d scaled hxs
  obtain ⟨zs, hzs, hmiddle⟩ := replaceAxis_eq (hserved .middle) d scaled hinner
  obtain ⟨ws, hws, houter⟩ := replaceAxis_eq (hserved .outer) d scaled hmiddle
  rw [hphase, hphase, hphase] at houter
  refine ⟨ws, ?_, houter⟩
  unfold transform
  rw [List.foldlM_cons, hys, Attempt.ok_bind, List.foldlM_cons, hzs, Attempt.ok_bind,
    List.foldlM_cons, hws, Attempt.ok_bind]
  rfl

/-- The rows of a flat buffer, and the buffer cut to the volume. -/
theorem follows_extract {shape : Shape} {rest elements : Array T} {g : Nat → Nat → Nat → T}
    (h : RowView.Holds shape rest g (⟨shape, elements⟩ : FlatStore T)) :
    Follows shape g (elements.extract 0 (shape.slices * shape.rows * shape.columns)) := by
  have hsize := h.sound.2
  dsimp only at hsize
  refine ⟨by rw [Array.size_extract]; omega, fun i j k hijk => ?_⟩
  have hlt := Shape.offset_lt hijk
  -- An element of the volume has an offset below the cut.
  rw [Array.getElem?_extract, if_pos (by omega), Nat.zero_add, ← h.element i j k hijk]
  exact (FlatStore.getElem?_row (s := ⟨shape, elements⟩) h.sound hijk).symm

/-- **A call is the separable reference**, bit for bit: on a flat buffer with room for the
volume it succeeds, leaves in the volume what the reference makes of it, and leaves
everything behind the volume as it is. -/
theorem call_eq_separable (hW : Precision.AnglesDouble W) {host : Host}
    {options : SharingOptions} {shape : Shape} {v : VolumeTransform T}
    (hv : VolumeTransform.plan host options shape = .ok v) {bench : Bench T}
    (hbench : Bench.allocate v.workers v.gatheredLength v.spectrumLength = .ok bench)
    (d : Direction) (scaled : Bool) {elements : Array T}
    (hsize : shape.slices * shape.rows * shape.columns ≤ elements.size) :
    (v.call d scaled (⟨elements⟩ : FlatVolume T)).outcome = .ok () ∧
      transform shape d scaled
          (elements.extract 0 (shape.slices * shape.rows * shape.columns)) =
        .ok ((v.call d scaled (⟨elements⟩ : FlatVolume T)).data.elements.extract 0
          (shape.slices * shape.rows * shape.columns)) ∧
      (v.call d scaled (⟨elements⟩ : FlatVolume T)).data.elements.size = elements.size ∧
      ∀ m, shape.slices * shape.rows * shape.columns ≤ m →
        (v.call d scaled (⟨elements⟩ : FlatVolume T)).data.elements[m]? = elements[m]? := by
  obtain ⟨hplanned, rfl, -⟩ := VolumeTransform.planned_of_plan hv
  obtain ⟨hvolume, hlt⟩ := Shape.volume_eq_some hplanned.volume_eq
  have haddress : Layout.address v.shape (⟨elements⟩ : FlatVolume T) =
      .ok (⟨v.shape, elements⟩ : FlatStore T) :=
    FlatStore.ofBuffer_eq_ok_iff.2 ⟨⟨_, hplanned.volume_eq, by rw [hvolume]; exact hsize⟩, rfl⟩
  have hholds := RowView.Holds.of_sound (LawfulLayout.sound_of_address (T := T) haddress).1
  obtain ⟨rows, houtcome, hdata, hrows⟩ := VolumeTransform.call_eq hplanned hbench haddress
    hholds d scaled
  rw [VolumeTransform.imageOf_sharedPhase hW hplanned.extents] at hrows
  obtain ⟨ys, hys, hfollows⟩ := transform_eq hW hplanned.extents d scaled (follows_extract hholds)
  obtain ⟨shape, elements'⟩ := rows
  obtain rfl : shape = v.shape := hrows.shape_eq
  have helements : (v.call d scaled (⟨elements⟩ : FlatVolume T)).data.elements = elements' := by
    rw [hdata]
    rfl
  -- What belongs to no row is the end of the buffer, and it has not changed.
  have hrest : elements'.extract (v.shape.slices * v.shape.rows * v.shape.columns)
      elements'.size = elements.extract (v.shape.slices * v.shape.rows * v.shape.columns)
        elements.size := hrows.rest_eq
  have hsize' := hrows.sound.2
  dsimp only at hsize'
  have hsizes : elements'.size = elements.size :=
    Buffer.size_eq_of_extract_eq hsize' hsize hrest
  rw [helements]
  refine ⟨houtcome, ?_, hsizes,
    fun m hm => Buffer.getElem?_eq_of_extract_eq hsizes hrest hm⟩
  rw [hys, hfollows.unique (follows_extract hrows) fun _ _ _ _ => rfl]

/-- Real numbers, with two workers, on a buffer with one element behind the volume. -/
theorem call_eq_separable_two_workers :
    ∃ v : VolumeTransform ℝ,
      VolumeTransform.plan (.willing 1) ⟨0, .own 2⟩ ⟨2, 2, 4⟩ = .ok v ∧ v.workers = 2 ∧
      transform ⟨2, 2, 4⟩ .inverse true (Array.replicate 16 1) =
        .ok ((v.call .inverse true (⟨Array.replicate 17 1⟩ : FlatVolume ℝ)).data.elements.extract
          0 16) ∧
      (v.call .inverse true (⟨Array.replicate 17 1⟩ : FlatVolume ℝ)).data.elements[16]? =
        some 1 := by
  have hplan : VolumeTransform.plan (.willing 1) ⟨0, .own 2⟩ ⟨2, 2, 4⟩ =
      .ok (VolumeTransform.plannedFor (.willing 1) ⟨0, .own 2⟩ ⟨2, 2, 4⟩ 16 : VolumeTransform ℝ) :=
    VolumeTransform.plan_eq_ok_iff.2 ⟨by decide, Crew.canHire_willing (by decide), 16, by decide, rfl⟩
  obtain ⟨bench, hbench⟩ : ∃ bench : Bench ℝ, Bench.allocate 2 2 2 = .ok bench :=
    ⟨_, Bench.allocate_eq_ok_iff.2 ⟨by decide, rfl⟩⟩
  have hsize : 2 * 2 * 4 ≤ (Array.replicate 17 (1 : ℝ)).size := by simp
  obtain ⟨-, htransform, -, hrest⟩ := call_eq_separable Precision.anglesDouble_real hplan hbench
    .inverse true hsize
  have hextract : (Array.replicate 17 (1 : ℝ)).extract 0 (2 * 2 * 4) = Array.replicate 16 1 := by
    rw [Array.extract_replicate]
    rfl
  rw [hextract] at htransform
  exact ⟨_, hplan, by decide, htransform, hrest 16 (by decide)⟩

end Separable

end CosineTransform
