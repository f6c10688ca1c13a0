import Mathlib
import CosineTransform.Proofs.ProbedCalls
import CosineTransform.Sample.Binary

/-!
# The access discipline of a call

Rows are accessed by several workers at a time and without checks on the columns, so it
matters which accesses a call makes, by whom, and in which order. This is the **discipline**
of a pass (`Pass.Disciplined`), a predicate on its trace, in which every access carries the
number of the worker that makes it: each access of the pass is made exactly once and no
others are, no line is stored to before it has been loaded as a whole, and the accesses to
a row come from one worker.

`call_accesses` says that every call in which no payload is raised keeps the discipline, in
any schedule of its workers, and that its accesses are those of the shape
(`Pass.allAccesses`), pass after pass. Up to the order within the passes they therefore do
not depend on the workers, nor on anything else than the shape.

The proof rests on `Accesses`: an interleaving of the programs of a pass makes the accesses
of the pass, and any two of them may precede each other (`Pass.MayPrecede`). The journal
of a call records such an interleaving for each pass.
-/

namespace CosineTransform

/-! ### The accesses of a shape -/

namespace Shape

/-- The places of the rows. -/
def rowPlaces (s : Shape) : List (Nat × Nat) :=
  (List.range s.slices).product (List.range s.rows)

/-- The places of the elements. -/
def places (s : Shape) : List ((Nat × Nat) × Nat) :=
  s.rowPlaces.product (List.range s.columns)

theorem mem_rowPlaces {s : Shape} {i j : Nat} : (i, j) ∈ s.rowPlaces ↔ s.HasRow i j := by
  unfold rowPlaces HasRow
  rw [List.pair_mem_product, List.mem_range, List.mem_range]

theorem mem_places {s : Shape} {i j k : Nat} : ((i, j), k) ∈ s.places ↔ s.Has i j k := by
  unfold places Has
  rw [List.pair_mem_product, mem_rowPlaces, List.mem_range]

theorem nodup_rowPlaces (s : Shape) : s.rowPlaces.Nodup :=
  List.nodup_range.product List.nodup_range

theorem nodup_places (s : Shape) : s.places.Nodup :=
  s.nodup_rowPlaces.product List.nodup_range

end Shape

namespace Pass

/-- A list with an entry for each pass. -/
theorem exists_of_forall₂ {α : Type} {P : Pass → α → Prop} {xs : List α}
    (h : List.Forall₂ P inOrder xs) : ∃ x : Pass → α, xs = inOrder.map x ∧ ∀ p, P p (x p) := by
  obtain _ | ⟨hinner, _ | ⟨hmiddle, _ | ⟨houter, _ | _⟩⟩⟩ := h
  refine ⟨fun p => if p = inner then _ else if p = middle then _ else _, rfl, fun p => ?_⟩
  cases p with
  | inner => exact hinner
  | middle => exact hmiddle
  | outer => exact houter

/-- **All accesses of a pass** over a shape: none to lines of length one, the rows in the
inner pass, and the elements, to load them and to store them, in the others. -/
def allAccesses (p : Pass) (shape : Shape) : List Access :=
  if p.lineLength shape = 1 then []
  else if p = .inner then shape.rowPlaces.map fun x => .row x.1 x.2
  else (shape.places.map fun x => .load x.1.1 x.1.2 x.2) ++
    shape.places.map fun x => .store x.1.1 x.1.2 x.2

theorem mem_allAccesses {p : Pass} {shape : Shape} {a : Access} :
    a ∈ p.allAccesses shape ↔ p.lineLength shape ≠ 1 ∧ p.Makes shape a := by
  unfold allAccesses
  by_cases hone : p.lineLength shape = 1
  · rw [if_pos hone]
    exact ⟨nofun, fun h => absurd hone h.1⟩
  · rw [if_neg hone, and_iff_right hone]
    by_cases hinner : p = .inner
    · rw [if_pos hinner, List.mem_map]
      constructor
      · rintro ⟨⟨i, j⟩, hij, rfl⟩
        exact ⟨hinner, Shape.mem_rowPlaces.1 hij⟩
      · intro hmakes
        cases a with
        | row i j => exact ⟨(i, j), Shape.mem_rowPlaces.2 hmakes.2, rfl⟩
        | load i j k => exact absurd hinner hmakes.1
        | store i j k => exact absurd hinner hmakes.1
    · rw [if_neg hinner, List.mem_append, List.mem_map, List.mem_map]
      constructor
      · rintro (⟨⟨⟨i, j⟩, k⟩, hijk, rfl⟩ | ⟨⟨⟨i, j⟩, k⟩, hijk, rfl⟩)
        · exact ⟨hinner, Shape.mem_places.1 hijk⟩
        · exact ⟨hinner, Shape.mem_places.1 hijk⟩
      · intro hmakes
        cases a with
        | row i j => exact absurd hmakes.1 hinner
        | load i j k => exact Or.inl ⟨((i, j), k), Shape.mem_places.2 hmakes.2, rfl⟩
        | store i j k => exact Or.inr ⟨((i, j), k), Shape.mem_places.2 hmakes.2, rfl⟩

theorem nodup_allAccesses (p : Pass) (shape : Shape) : (p.allAccesses shape).Nodup := by
  unfold allAccesses
  split_ifs
  · exact List.nodup_nil
  · refine shape.nodup_rowPlaces.map fun x y hxy => ?_
    exact Prod.ext (Access.row.inj hxy).1 (Access.row.inj hxy).2
  · refine List.nodup_append'.2 ⟨shape.nodup_places.map fun x y hxy => ?_,
      shape.nodup_places.map fun x y hxy => ?_, fun a hload hstore => ?_⟩
    · obtain ⟨hi, hj, hk⟩ := Access.load.inj hxy
      exact Prod.ext (Prod.ext hi hj) hk
    · obtain ⟨hi, hj, hk⟩ := Access.store.inj hxy
      exact Prod.ext (Prod.ext hi hj) hk
    · -- A load is not a store.
      obtain ⟨x, -, rfl⟩ := List.mem_map.1 hload
      obtain ⟨y, -, hy⟩ := List.mem_map.1 hstore
      cases hy

/-! ### Disciplined traces -/

/-- **The discipline of a pass.** Each access of the trace carries the worker that makes it. -/
structure Disciplined (p : Pass) (shape : Shape) (trace : List (Nat × Access)) : Prop where
  /-- Lines of length one are not accessed. -/
  idle : p.lineLength shape = 1 → trace = []
  /-- Otherwise each access of the pass is made exactly once, and no others are made. -/
  count_eq : p.lineLength shape ≠ 1 →
    ∀ a, (trace.map (·.2)).count a = if p.Makes shape a then 1 else 0
  /-- When an element is stored, all elements of its line have been loaded. -/
  loads_first : ∀ earlier later i j k, trace.map (·.2) = earlier ++ .store i j k :: later →
    ∀ t < p.lineLength shape, .load (p.element (p.lineThrough i j k) t).1
      (p.element (p.lineThrough i j k) t).2.1 (p.element (p.lineThrough i j k) t).2.2 ∈ earlier
  /-- The accesses to a row are made by one worker. -/
  worker_eq : ∀ w a w' a', (w, a) ∈ trace → (w', a') ∈ trace → a.rowOf = a'.rowOf → w = w'

end Pass

namespace VolumeTransform

variable {T W : Type} [Precision W] [Sample T W] {v : VolumeTransform T} {d : Direction}
  {scaled : Bool} {pass : Pass} {order : List (Nat × Step)}

/-- **Orders of a pass are disciplined.** -/
theorem Planned.disciplined (hv : v.Planned)
    (horder : Interleaves (v.programs d scaled pass) order) :
    pass.Disciplined v.shape (taggedAccesses order) where
  idle hone := by
    rw [order_eq_nil_of_length_one hone horder]
    rfl
  count_eq hone a := by
    rw [map_taggedAccesses, (hv.nodup_accesses horder).count]
    exact if_congr ((hv.mem_accesses_iff horder).trans (and_iff_right hone)) rfl rfl
  loads_first earlier later i j k htrace t ht := by
    rw [map_taggedAccesses] at htrace
    have hpairwise := hv.pairwise_accesses horder
    have hmem := fun a => hv.mem_accesses_iff (a := a) horder
    rw [htrace] at hpairwise hmem
    -- The line runs through the shape, so its element is loaded.
    obtain ⟨hone, hmakes⟩ := (hmem (.store i j k)).1 (List.mem_append_right _ List.mem_cons_self)
    have hhas := Pass.has_element (Pass.has_iff.1 hmakes.2).1 ht
    have hload := (hmem (.load _ _ _)).2 ⟨hone, hmakes.1, hhas⟩
    -- It is not loaded after the store.
    rcases List.mem_append.1 hload with hload | hload
    · exact hload
    rcases List.mem_cons.1 hload with hload | hload
    · cases hload
    have hprecede := (List.pairwise_cons.1 (List.pairwise_append.1 hpairwise).2.1).1 _ hload
    exact absurd (Pass.lineThrough_element _ _ _).symm (hprecede.2 _ _ _ _ _ _ rfl rfl)
  worker_eq w a w' a' ha ha' hrow := by
    by_cases hone : pass.lineLength v.shape = 1
    · rw [order_eq_nil_of_length_one hone horder] at ha
      exact absurd ha nofun
    · -- A worker is told by the outer index of the row.
      rw [programs_of_length_ne_one hone] at horder
      have hworker := ((hv.job_planned d scaled pass).mem_taggedAccesses horder).1 ha
      have hworker' := ((hv.job_planned d scaled pass).mem_taggedAccesses horder).1 ha'
      rw [← hworker.2, ← hworker'.2, hrow]

/-- The accesses of a pass are those of the shape. -/
theorem Planned.accesses_perm_allAccesses (hv : v.Planned)
    (horder : Interleaves (v.programs d scaled pass) order) :
    (accessesOf (order.map (·.2))).Perm (pass.allAccesses v.shape) := by
  rw [List.perm_ext_iff_of_nodup (hv.nodup_accesses horder) (pass.nodup_allAccesses v.shape)]
  exact fun a => (hv.mem_accesses_iff horder).trans Pass.mem_allAccesses.symm

section Calls

variable {D R : Type} [Layout D R] [RowStore R T] [RowView R T] [LawfulRowStore R T]
  [Indexed D T] [LawfulLayout D] {bench : Bench T} {rows : R}

/-- **The accesses of a call** in which no payload is raised, in any schedule of its workers.
The workers of each pass make the accesses of their programs, in some order, and this
order is disciplined; each pass begins when the one before has made all of its accesses.
Up to order the accesses are those of the shape. -/
theorem call_accesses {host : Host} {options : SharingOptions} {shape : Shape}
    (hv : plan host options shape = .ok v)
    (hbench : Bench.allocate v.workers v.gatheredLength v.spectrumLength = .ok bench)
    (d : Direction) (scaled : Bool) {data : ProbedVolume D}
    (haddress : Layout.address shape data.inside = .ok rows)
    (hquiet : v.firstFailure d scaled data.journal = none) {report : Report (ProbedVolume D)}
    (hreport : v.MayReport d scaled data report) :
    report.outcome = .ok () ∧
      (∃ trace : Pass → List (Nat × Access),
        (∀ pass, Interleaves ((v.programs d scaled pass).map accessesOf) (trace pass) ∧
          pass.Disciplined shape (trace pass)) ∧
        report.data.journal.accesses.toList = data.journal.accesses.toList ++
          Pass.inOrder.flatMap fun pass => (trace pass).map (·.2)) ∧
      report.data.journal.accesses.toList.Perm (data.journal.accesses.toList ++
        Pass.inOrder.flatMap fun pass => pass.allAccesses shape) := by
  obtain ⟨hplanned, rfl, -⟩ := planned_of_plan hv
  have hrows := LawfulLayout.holds_of_address (T := T) haddress
  rcases mayReport_probed hplanned hbench haddress hrows hreport with
    ⟨-, rows', orders, houtcome, hdata, hran⟩ | ⟨f, -, -, -, -, hf, -⟩
  swap
  · rw [hquiet] at hf
    cases hf
  -- An order for each pass.
  obtain ⟨order, horders, horder⟩ : ∃ order : Pass → List (Nat × Step),
      orders = Pass.inOrder.map order ∧
        ∀ pass, Interleaves (v.programs d scaled pass) (order pass) :=
    Pass.exists_of_forall₂ hran.orders_interleave
  have hjournal : report.data.journal.accesses.toList = data.journal.accesses.toList ++
      Pass.inOrder.flatMap fun pass => accessesOf ((order pass).map (·.2)) := by
    rw [hdata]
    change rows'.journal.accesses.toList = _
    rw [hran.journal_eq, Journal.accesses_after, horders]
    unfold accessesOfOrders
    rw [List.flatMap_map]
  refine ⟨houtcome, ⟨fun pass => taggedAccesses (order pass), fun pass =>
    ⟨(horder pass).taggedAccesses, hplanned.disciplined (horder pass)⟩, ?_⟩, ?_⟩
  · simp only [map_taggedAccesses]
    exact hjournal
  · rw [hjournal]
    exact (List.Perm.flatMap_left _ fun pass _ =>
      hplanned.accesses_perm_allAccesses (horder pass)).append_left _

/-- Two workers of their own on a volume of `2 × 2 × 4` doubles: `4` rows, and `16` elements
that two passes load and store. -/
theorem call_accesses_two_workers :
    ∃ v : VolumeTransform Float, plan (.willing 1) ⟨0, .own 2⟩ ⟨2, 2, 4⟩ = .ok v ∧
      (v.call .forward true (⟨⟨Array.replicate 16 1⟩, .empty⟩ :
        ProbedVolume (FlatVolume Float))).outcome = .ok () ∧
      (v.call .forward true (⟨⟨Array.replicate 16 1⟩, .empty⟩ :
        ProbedVolume (FlatVolume Float))).data.journal.accesses.toList.length = 4 + 64 := by
  obtain ⟨bench, hbench⟩ := allocate_small (T := Float)
  have hreport : (plannedFor (.willing 1) ⟨0, .own 2⟩ ⟨2, 2, 4⟩ 16).MayReport .forward true
      (⟨⟨Array.replicate 16 1⟩, .empty⟩ : ProbedVolume (FlatVolume Float)) _ := Or.inl rfl
  obtain ⟨houtcome, -, hperm⟩ := call_accesses (plan_small (T := Float)) hbench .forward true
    (address_small 1) (firstFailure_eq_none _ _ _ rfl) hreport
  refine ⟨_, plan_small, houtcome, hperm.length_eq.trans ?_⟩
  rfl

end Calls

end VolumeTransform

end CosineTransform
