import Mathlib
import CosineTransform.Proofs.Lines
import CosineTransform.Proofs.Simulation

/-!
# The accesses of a pass

The accesses that a worker makes are fixed by its program (`accessesOf`). What a pass
over a shape may access at all is `Pass.Makes`: the inner pass takes whole rows, the
other passes load and store single elements. `Pass.MayPrecede` says which of two
accesses may come first: they differ, and no element is stored before an element of the
same line is loaded.

The programs of a dealt pass keep both in any interleaving. Each access of the pass is
made (`mem_accesses_interleaved`), and it is made once and in its place
(`pairwise_interleaved`). Inside a program this follows its structure, from the bundle
to the outer index to the share; between two programs it holds since their rows differ.
-/

namespace CosineTransform

/-! ### Accesses -/

namespace Access

/-- The row that is accessed. -/
def rowOf : Access → Nat × Nat
  | row i j => (i, j)
  | load i j _ => (i, j)
  | store i j _ => (i, j)

end Access

/-- The accesses of a list of steps, in their order. -/
def accessesOf (steps : List Step) : List Access :=
  steps.filterMap Step.access?

theorem mem_accessesOf {steps : List Step} {a : Access} :
    a ∈ accessesOf steps ↔ ∃ x ∈ steps, x.access? = some a :=
  List.mem_filterMap

theorem accessesOf_cons (x : Step) (steps : List Step) :
    accessesOf (x :: steps) = x.access?.toList ++ accessesOf steps := by
  unfold accessesOf
  cases hx : x.access? with
  | none => rw [List.filterMap_cons_none hx]; rfl
  | some a => rw [List.filterMap_cons_some hx]; rfl

@[simp] theorem accessesOf_append (steps steps' : List Step) :
    accessesOf (steps ++ steps') = accessesOf steps ++ accessesOf steps' :=
  List.filterMap_append

/-- The accesses of tagged steps, each of them tagged with the worker that makes it. -/
def taggedAccesses (order : List (Nat × Step)) : List (Nat × Access) :=
  order.filterMap fun x => x.2.access?.map fun a => (x.1, a)

theorem map_taggedAccesses (order : List (Nat × Step)) :
    (taggedAccesses order).map (·.2) = accessesOf (order.map (·.2)) := by
  unfold taggedAccesses accessesOf
  rw [List.map_filterMap, List.filterMap_map]
  congr 1
  funext x
  rw [Option.map_map]
  exact Option.map_id_apply

theorem ownSteps_taggedAccesses (w : Nat) (order : List (Nat × Step)) :
    ownSteps w (taggedAccesses order) = accessesOf (ownSteps w order) := by
  induction order with
  | nil => rfl
  | cons y order ih =>
    obtain ⟨w', x⟩ := y
    by_cases hw : w' = w
    · subst hw
      rw [ownSteps_cons_self]
      cases hx : x.access? with
      | none => simpa [taggedAccesses, accessesOf, hx] using ih
      | some a => simpa [taggedAccesses, accessesOf, hx, ownSteps_cons_self] using ih
    · rw [ownSteps_cons_of_ne hw]
      cases hx : x.access? with
      | none => simpa [taggedAccesses, accessesOf, hx] using ih
      | some a => simpa [taggedAccesses, accessesOf, hx, ownSteps_cons_of_ne hw] using ih

/-- **The accesses of an interleaving** are an interleaving of the accesses. -/
theorem Interleaves.taggedAccesses {programs : List (List Step)} {order : List (Nat × Step)}
    (h : Interleaves programs order) :
    Interleaves (programs.map accessesOf) (taggedAccesses order) := by
  constructor
  · intro y hy
    obtain ⟨x, hx, hxy⟩ := List.mem_filterMap.1 hy
    obtain ⟨a, -, rfl⟩ := Option.map_eq_some_iff.1 hxy
    rw [List.length_map]
    exact h.worker_lt x hx
  · intro w hw
    rw [List.length_map] at hw
    rw [ownSteps_taggedAccesses, h.ownSteps_eq w hw, List.getElem_map]

theorem accessesOf_flatMap {α : Type} (xs : List α) (steps : α → List Step) :
    accessesOf (xs.flatMap steps) = xs.flatMap fun x => accessesOf (steps x) :=
  List.filterMap_flatMap

namespace Pass

/-- **The accesses of a pass** over a shape. -/
def Makes (p : Pass) (shape : Shape) : Access → Prop
  | .row i j => p = .inner ∧ shape.HasRow i j
  | .load i j k => p ≠ .inner ∧ shape.Has i j k
  | .store i j k => p ≠ .inner ∧ shape.Has i j k

instance (p : Pass) (shape : Shape) : DecidablePred (p.Makes shape)
  | .row _ _ => inferInstanceAs (Decidable (_ ∧ _))
  | .load _ _ _ => inferInstanceAs (Decidable (_ ∧ _))
  | .store _ _ _ => inferInstanceAs (Decidable (_ ∧ _))

/-- The first of two accesses may come before the second one: it is another access, and
it does not store to a line that is still to be loaded. -/
def MayPrecede (p : Pass) (a b : Access) : Prop :=
  a ≠ b ∧ ∀ i j k i' j' k', a = .store i j k → b = .load i' j' k' →
    p.lineThrough i j k ≠ p.lineThrough i' j' k'

/-- Every line runs through rows of one outer index. -/
theorem lineThrough_fst (p : Pass) (i j k : Nat) : (p.lineThrough i j k).1 = p.outerIndex i j := by
  cases p <;> rfl

/-- A line across rows runs through one column. -/
theorem lineThrough_snd {p : Pass} (h : p ≠ .inner) (i j k : Nat) :
    (p.lineThrough i j k).2 = k := by
  cases p with
  | inner => exact absurd rfl h
  | middle => rfl
  | outer => rfl

theorem makes_rowOf {p : Pass} {shape : Shape} {a : Access} (h : p.Makes shape a) :
    shape.HasRow a.rowOf.1 a.rowOf.2 := by
  cases a with
  | row i j => exact h.2
  | load i j k => exact h.2.1
  | store i j k => exact h.2.1

/-- Accesses to rows of different outer indices may come in either order. -/
theorem mayPrecede_of_outerIndex_ne {p : Pass} {a b : Access}
    (h : p.outerIndex a.rowOf.1 a.rowOf.2 ≠ p.outerIndex b.rowOf.1 b.rowOf.2) :
    p.MayPrecede a b := by
  refine ⟨fun hab => h (by rw [hab]), ?_⟩
  rintro i j k i' j' k' rfl rfl hline
  -- The lines would run through rows of one outer index.
  have houter := congrArg Prod.fst hline
  rw [lineThrough_fst, lineThrough_fst] at houter
  exact h houter

end Pass

/-! ### The accesses of a program -/

namespace PassJob

variable {T : Type} {job : PassJob T} {shape : Shape}

/-- **A bundle** is loaded as a whole and then stored as a whole. -/
theorem accessesOf_bundleSteps (job : PassJob T) (row : Nat → Nat × Nat) (k : Nat) :
    accessesOf (job.bundleSteps row k) =
      (job.cells row k).map (fun cell => .load cell.1 cell.2.1 cell.2.2.1) ++
        (job.cells row k).map fun cell => .store cell.1 cell.2.1 cell.2.2.1 := by
  have hloads : Step.access? ∘ (fun cell : Nat × Nat × Nat × Nat =>
      Step.load cell.1 cell.2.1 cell.2.2.1 cell.2.2.2) =
      some ∘ fun cell => .load cell.1 cell.2.1 cell.2.2.1 := rfl
  have hlines : Step.access? ∘ Step.line = fun _ => none := rfl
  have hstores : Step.access? ∘ (fun cell : Nat × Nat × Nat × Nat =>
      Step.store cell.1 cell.2.1 cell.2.2.1 cell.2.2.2) =
      some ∘ fun cell => .store cell.1 cell.2.1 cell.2.2.1 := rfl
  change accessesOf (((job.cells row k).map fun cell =>
      .load cell.1 cell.2.1 cell.2.2.1 cell.2.2.2) ++ (List.range job.bundle.width).map .line ++
    (job.cells row k).map fun cell => .store cell.1 cell.2.1 cell.2.2.1 cell.2.2.2) = _
  unfold accessesOf
  rw [List.filterMap_append, List.filterMap_append, List.filterMap_map, List.filterMap_map,
    List.filterMap_map, hloads, hlines, hstores, List.filterMap_eq_map, List.filterMap_eq_map]
  simp

/-- The elements that a bundle accesses lie in its rows and in its columns. -/
theorem mem_accesses_bundleSteps {row : Nat → Nat × Nat} {k : Nat} {a : Access} :
    a ∈ accessesOf (job.bundleSteps row k) ↔
      ∃ t < job.transform.length, ∃ c < job.bundle.width,
        a = .load (row t).1 (row t).2 (k + c) ∨ a = .store (row t).1 (row t).2 (k + c) := by
  rw [accessesOf_bundleSteps, List.mem_append, List.mem_map, List.mem_map]
  constructor
  · rintro (⟨⟨i, j, k', slot⟩, hcell, rfl⟩ | ⟨⟨i, j, k', slot⟩, hcell, rfl⟩)
    · obtain ⟨t, ht, c, hc, hrow, rfl, -⟩ := Tableau.mem_cells.1 hcell
      exact ⟨t, ht, c, hc, Or.inl (by rw [hrow])⟩
    · obtain ⟨t, ht, c, hc, hrow, rfl, -⟩ := Tableau.mem_cells.1 hcell
      exact ⟨t, ht, c, hc, Or.inr (by rw [hrow])⟩
  · rintro ⟨t, ht, c, hc, rfl | rfl⟩
    · exact Or.inl ⟨_, Tableau.mem_cells.2 ⟨t, ht, c, hc, rfl, rfl, rfl⟩, rfl⟩
    · exact Or.inr ⟨_, Tableau.mem_cells.2 ⟨t, ht, c, hc, rfl, rfl, rfl⟩, rfl⟩

/-- No element occurs twice among the cells of a bundle. -/
theorem pairwise_cells {row : Nat → Nat × Nat} {k : Nat}
    (hrow : ∀ t < job.transform.length, ∀ t' < job.transform.length, row t = row t' → t = t') :
    (job.cells row k).Pairwise fun cell cell' =>
      (cell.1, cell.2.1, cell.2.2.1) ≠ (cell'.1, cell'.2.1, cell'.2.2.1) := by
  unfold cells
  rw [List.pairwise_flatMap]
  constructor
  · -- Within a row the columns differ.
    intro t _
    rw [List.pairwise_map]
    refine List.nodup_range.imp fun {c c'} hne heq => hne ?_
    simp only [Prod.mk.injEq] at heq
    omega
  · -- The rows of different places differ.
    refine List.nodup_range.imp_of_mem fun {t t'} ht ht' hne => ?_
    simp only [List.mem_map]
    rintro _ ⟨c, -, rfl⟩ _ ⟨c', -, rfl⟩ heq
    simp only [Prod.mk.injEq] at heq
    exact hne (hrow t (List.mem_range.1 ht) t' (List.mem_range.1 ht') (Prod.ext heq.1 heq.2.1))

theorem pairwise_accesses_bundleSteps (p : Pass) {row : Nat → Nat × Nat} {k : Nat}
    (hrow : ∀ t < job.transform.length, ∀ t' < job.transform.length, row t = row t' → t = t') :
    (accessesOf (job.bundleSteps row k)).Pairwise p.MayPrecede := by
  have hcells := pairwise_cells (k := k) hrow
  rw [accessesOf_bundleSteps, List.pairwise_append, List.pairwise_map, List.pairwise_map]
  -- Only a store before a load could be in the wrong place, and the loads come first.
  refine ⟨hcells.imp fun {cell cell'} hne => ?_, hcells.imp fun {cell cell'} hne => ?_, ?_⟩
  · refine ⟨fun heq => hne ?_, nofun⟩
    simpa using heq
  · refine ⟨fun heq => hne ?_, nofun⟩
    simpa using heq
  · intro a ha b hb
    obtain ⟨cell, -, rfl⟩ := List.mem_map.1 ha
    obtain ⟨cell', -, rfl⟩ := List.mem_map.1 hb
    exact ⟨nofun, nofun⟩

namespace Planned

variable {W : Type} [Precision W] [Sample T W] {N : Nat}

/-- Bundles from all starts cover the columns of a row and no others. -/
theorem exists_bundle_iff (h : job.Planned shape N) {k : Nat} :
    (∃ start ∈ job.bundleStarts shape, ∃ c < job.bundle.width, k = start + c) ↔
      k < shape.columns := by
  constructor
  · rintro ⟨start, hstart, c, hc, rfl⟩
    exact Nat.lt_of_lt_of_le (Nat.add_lt_add_left hc start) (h.bundle_end_le hstart)
  · intro hk
    have hwidth := job.bundle.width_pos
    exact ⟨_, Tableau.mem_bundleStarts k hk, k % job.bundle.width, Nat.mod_lt k hwidth,
      (Nat.div_add_mod' k job.bundle.width).symm⟩

/-- The bundles of all starts access the columns of their rows. -/
theorem mem_accesses_bundles (h : job.Planned shape N) {row : Nat → Nat × Nat} {a : Access} :
    a ∈ accessesOf ((job.bundleStarts shape).flatMap (job.bundleSteps row)) ↔
      ∃ t < job.transform.length, ∃ k < shape.columns,
        a = .load (row t).1 (row t).2 k ∨ a = .store (row t).1 (row t).2 k := by
  rw [accessesOf_flatMap, List.mem_flatMap]
  constructor
  · rintro ⟨start, hstart, ha⟩
    obtain ⟨t, ht, c, hc, ha⟩ := mem_accesses_bundleSteps.1 ha
    exact ⟨t, ht, start + c, h.exists_bundle_iff.1 ⟨start, hstart, c, hc, rfl⟩, ha⟩
  · rintro ⟨t, ht, k, hk, ha⟩
    obtain ⟨start, hstart, c, hc, rfl⟩ := h.exists_bundle_iff.2 hk
    exact ⟨start, hstart, mem_accesses_bundleSteps.2 ⟨t, ht, c, hc, ha⟩⟩

/-- **An outer index** accesses its own rows, and all of them. -/
theorem mem_accesses_outerSteps (h : job.Planned shape N) {o : Nat}
    (ho : o < job.pass.outerCount shape) {a : Access} :
    a ∈ accessesOf (job.outerSteps shape o) ↔
      job.pass.Makes shape a ∧ job.pass.outerIndex a.rowOf.1 a.rowOf.2 = o := by
  have hlength := h.length_eq
  unfold outerSteps
  cases hpass : job.pass with
  | inner =>
    rw [hpass] at ho
    dsimp only
    rw [mem_accessesOf]
    constructor
    · rintro ⟨x, hx, ha⟩
      obtain ⟨j, hj, rfl⟩ := List.mem_map.1 hx
      obtain rfl := Option.some.inj ha
      exact ⟨⟨rfl, ho, List.mem_range.1 hj⟩, rfl⟩
    · rintro ⟨hmakes, houter⟩
      cases a with
      | row i j =>
        obtain rfl : i = o := houter
        exact ⟨_, List.mem_map_of_mem (List.mem_range.2 hmakes.2.2), rfl⟩
      | load i j k => exact absurd rfl hmakes.1
      | store i j k => exact absurd rfl hmakes.1
  | middle =>
    rw [hpass] at ho hlength
    dsimp only
    rw [h.mem_accesses_bundles, hlength]
    constructor
    · rintro ⟨j, hj, k, hk, rfl | rfl⟩
      · exact ⟨⟨nofun, ⟨ho, hj⟩, hk⟩, rfl⟩
      · exact ⟨⟨nofun, ⟨ho, hj⟩, hk⟩, rfl⟩
    · rintro ⟨hmakes, houter⟩
      cases a with
      | row i j => exact absurd hmakes.1 nofun
      | load i j k =>
        obtain rfl : i = o := houter
        exact ⟨j, hmakes.2.1.2, k, hmakes.2.2, Or.inl rfl⟩
      | store i j k =>
        obtain rfl : i = o := houter
        exact ⟨j, hmakes.2.1.2, k, hmakes.2.2, Or.inr rfl⟩
  | outer =>
    rw [hpass] at ho hlength
    dsimp only
    rw [h.mem_accesses_bundles, hlength]
    constructor
    · rintro ⟨i, hi, k, hk, rfl | rfl⟩
      · exact ⟨⟨nofun, ⟨hi, ho⟩, hk⟩, rfl⟩
      · exact ⟨⟨nofun, ⟨hi, ho⟩, hk⟩, rfl⟩
    · rintro ⟨hmakes, houter⟩
      cases a with
      | row i j => exact absurd hmakes.1 nofun
      | load i j k =>
        obtain rfl : j = o := houter
        exact ⟨i, hmakes.2.1.1, k, hmakes.2.2, Or.inl rfl⟩
      | store i j k =>
        obtain rfl : j = o := houter
        exact ⟨i, hmakes.2.1.1, k, hmakes.2.2, Or.inr rfl⟩

/-- **The accesses of a share** are those of the pass to the rows that it visits. -/
theorem mem_accesses_program (h : job.Planned shape N) {share : Share} {a : Access} :
    a ∈ accessesOf (job.program shape share) ↔ job.pass.Makes shape a ∧
      job.pass.outerIndex a.rowOf.1 a.rowOf.2 ∈ share.visits (job.pass.outerCount shape) := by
  unfold program
  rw [accessesOf_flatMap, List.mem_flatMap]
  constructor
  · rintro ⟨o, ho, ha⟩
    obtain ⟨hmakes, rfl⟩ := (h.mem_accesses_outerSteps (Share.mem_visits.1 ho).1).1 ha
    exact ⟨hmakes, ho⟩
  · rintro ⟨hmakes, ho⟩
    exact ⟨_, ho, (h.mem_accesses_outerSteps (Share.mem_visits.1 ho).1).2 ⟨hmakes, rfl⟩⟩

/-- Accesses to different columns of lines across rows may come in either order. -/
theorem mayPrecede_of_bundles {p : Pass} (hp : p ≠ .inner) {row : Nat → Nat × Nat}
    {start start' : Nat} (hstart : job.bundle.width ∣ start) (hstart' : job.bundle.width ∣ start')
    (hne : start ≠ start') {a b : Access} (ha : a ∈ accessesOf (job.bundleSteps row start))
    (hb : b ∈ accessesOf (job.bundleSteps row start')) : p.MayPrecede a b := by
  obtain ⟨t, -, c, hc, ha⟩ := mem_accesses_bundleSteps.1 ha
  obtain ⟨t', -, c', hc', hb⟩ := mem_accesses_bundleSteps.1 hb
  -- A column tells the bundle that it belongs to.
  have hcolumn : start + c ≠ start' + c' := by
    intro heq
    have hin := (Tableau.mem_columns_iff job.bundle.width_pos hstart).1
      ⟨Nat.le_add_right start c, Nat.add_lt_add_left hc start⟩
    have hin' := (Tableau.mem_columns_iff job.bundle.width_pos hstart').1
      ⟨Nat.le_add_right start' c', Nat.add_lt_add_left hc' start'⟩
    rw [← heq] at hin'
    exact hne (hin.symm.trans hin')
  refine ⟨?_, ?_⟩
  · rintro rfl
    rcases ha with rfl | rfl
    · rcases hb with hb | hb
      · exact hcolumn (Access.load.inj hb).2.2
      · cases hb
    · rcases hb with hb | hb
      · cases hb
      · exact hcolumn (Access.store.inj hb).2.2
  · rintro i j k i' j' k' rfl rfl hline
    rcases ha with ha | ha
    · cases ha
    · rcases hb with hb | hb
      · have hk := congrArg Prod.snd hline
        rw [Pass.lineThrough_snd hp, Pass.lineThrough_snd hp, (Access.store.inj ha).2.2,
          (Access.load.inj hb).2.2] at hk
        exact hcolumn hk
      · cases hb

theorem pairwise_accesses_bundles {p : Pass} (hp : p ≠ .inner) {row : Nat → Nat × Nat}
    (hrow : ∀ t < job.transform.length, ∀ t' < job.transform.length, row t = row t' → t = t') :
    (accessesOf ((job.bundleStarts shape).flatMap (job.bundleSteps row))).Pairwise
      p.MayPrecede := by
  rw [accessesOf_flatMap, List.pairwise_flatMap]
  refine ⟨fun start _ => pairwise_accesses_bundleSteps p hrow, ?_⟩
  exact (Share.nodup_visits _ _).imp_of_mem fun hstart hstart' hne _ ha _ hb =>
    mayPrecede_of_bundles hp (Tableau.dvd_of_mem_bundleStarts hstart)
      (Tableau.dvd_of_mem_bundleStarts hstart') hne ha hb

/-- The accesses of an outer index are in their order, each of them once. -/
theorem pairwise_accesses_outerSteps (job : PassJob T) (shape : Shape) (o : Nat) :
    (accessesOf (job.outerSteps shape o)).Pairwise job.pass.MayPrecede := by
  unfold outerSteps
  cases hpass : job.pass with
  | inner =>
    -- Rows are not loaded, so they only have to differ.
    dsimp only
    unfold accessesOf
    rw [List.filterMap_map, show Step.access? ∘ Step.row o = some ∘ Access.row o from rfl,
      List.filterMap_eq_map, List.pairwise_map]
    exact List.nodup_range.imp fun hne => ⟨fun heq => hne (Access.row.inj heq).2, nofun⟩
  | middle =>
    exact pairwise_accesses_bundles (p := .middle) nofun fun t _ t' _ htt => (Prod.mk.inj htt).2
  | outer =>
    exact pairwise_accesses_bundles (p := .outer) nofun fun t _ t' _ htt => (Prod.mk.inj htt).1

/-- **The accesses of a share** are in their order, each of them once. -/
theorem pairwise_accesses_program (h : job.Planned shape N) (share : Share) :
    (accessesOf (job.program shape share)).Pairwise job.pass.MayPrecede := by
  unfold program
  rw [accessesOf_flatMap, List.pairwise_flatMap]
  refine ⟨fun o _ => pairwise_accesses_outerSteps job shape o, ?_⟩
  refine (Share.nodup_visits _ _).imp_of_mem fun {o o'} ho ho' hne a ha b hb => ?_
  obtain ⟨-, rfl⟩ := (h.mem_accesses_outerSteps (Share.mem_visits.1 ho).1).1 ha
  obtain ⟨-, rfl⟩ := (h.mem_accesses_outerSteps (Share.mem_visits.1 ho').1).1 hb
  exact Pass.mayPrecede_of_outerIndex_ne hne

/-! ### The accesses of a dealt pass -/

section Interleaved

variable {workers : Nat} {order : List (Nat × Step)}

/-- **A dealt pass makes its accesses**, each of them by the worker that the outer index
of its row leaves as the remainder. -/
theorem mem_taggedAccesses (h : job.Planned shape N)
    (horder : Interleaves ((Share.deal workers).map (job.program shape)) order) {w : Nat}
    {a : Access} : (w, a) ∈ taggedAccesses order ↔
      job.pass.Makes shape a ∧ job.pass.outerIndex a.rowOf.1 a.rowOf.2 % max workers 1 = w := by
  rw [horder.taggedAccesses.mem_iff]
  simp only [List.length_map, Share.length_deal, List.getElem_map, Share.getElem_deal]
  constructor
  · rintro ⟨hw, ha⟩
    obtain ⟨hmakes, ho⟩ := h.mem_accesses_program.1 ha
    exact ⟨hmakes, ((Share.mem_visits_dealt hw).1 ho).2⟩
  · rintro ⟨hmakes, hw⟩
    have hlt : w < max workers 1 := by
      rw [← hw]
      exact Nat.mod_lt _ (Share.workers_pos workers)
    exact ⟨hlt, h.mem_accesses_program.2 ⟨hmakes, (Share.mem_visits_dealt hlt).2
      ⟨job.pass.outerIndex_lt (Pass.makes_rowOf hmakes), hw⟩⟩⟩

/-- **The accesses of a dealt pass**, all of them. -/
theorem mem_accesses_interleaved (h : job.Planned shape N)
    (horder : Interleaves ((Share.deal workers).map (job.program shape)) order) {a : Access} :
    a ∈ accessesOf (order.map (·.2)) ↔ job.pass.Makes shape a := by
  rw [← map_taggedAccesses, List.mem_map]
  constructor
  · rintro ⟨⟨w, b⟩, hb, rfl⟩
    exact ((h.mem_taggedAccesses horder).1 hb).1
  · intro hmakes
    exact ⟨_, (h.mem_taggedAccesses horder).2 ⟨hmakes, rfl⟩, rfl⟩

/-- **Each access is made in its place**, and once, however the shares of a pass are
interleaved. -/
theorem pairwise_interleaved (h : job.Planned shape N)
    (horder : Interleaves ((Share.deal workers).map (job.program shape)) order) :
    (accessesOf (order.map (·.2))).Pairwise job.pass.MayPrecede := by
  rw [← map_taggedAccesses, List.pairwise_map]
  refine horder.taggedAccesses.pairwise (fun accesses haccesses => ?_) fun w w' a b hne ha hb => ?_
  · obtain ⟨program, hprogram, rfl⟩ := List.mem_map.1 haccesses
    obtain ⟨share, -, rfl⟩ := List.mem_map.1 hprogram
    exact h.pairwise_accesses_program share
  · -- Different workers access rows of different outer indices.
    refine Pass.mayPrecede_of_outerIndex_ne fun heq => hne ?_
    rw [← ((h.mem_taggedAccesses horder).1 ha).2, ← ((h.mem_taggedAccesses horder).1 hb).2, heq]

theorem nodup_interleaved (h : job.Planned shape N)
    (horder : Interleaves ((Share.deal workers).map (job.program shape)) order) :
    (accessesOf (order.map (·.2))).Nodup :=
  (h.pairwise_interleaved horder).imp And.left

end Interleaved

end Planned

end PassJob

end CosineTransform
