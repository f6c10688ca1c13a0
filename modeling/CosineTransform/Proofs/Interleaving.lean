import Mathlib
import CosineTransform.Proofs.Tableau

/-!
# Interleaved workers

The workers of a pass take their steps in any order that keeps the order of each
worker (`Interleaves`). `Tableau.volume_interleaved` says that the order does not
matter: however the shares of a dealt pass are interleaved, the volume ends as the
image of the pass.

The argument follows one worker. What it sees is the rows of its share and its own
slots (`Tableau.SeesSame`). Its own steps read and write nothing else
(`SeesSame.own`), and the steps of the others write to none of it (`SeesSame.other`),
because the shares of a dealt pass have no index in common. So the rows of its share
end as if the worker had been alone, and the rows of all shares together are the
rows of the shape (`Share.mem_visits_dealt`).
-/

namespace CosineTransform

/-! ### Interleavings -/

section Orders

variable {α : Type}

/-- The steps of worker `w` in an order of tagged steps. -/
def ownSteps (w : Nat) (order : List (Nat × α)) : List α :=
  (order.filter fun x => x.1 = w).map (·.2)

/-- **An interleaving** of programs, one for each worker: every step is tagged with a
worker, and the steps of each worker are its program. -/
structure Interleaves (programs : List (List α)) (order : List (Nat × α)) : Prop where
  worker_lt : ∀ x ∈ order, x.1 < programs.length
  ownSteps_eq : ∀ w, (h : w < programs.length) → ownSteps w order = programs[w]

theorem mem_ownSteps {w : Nat} {x : α} {order : List (Nat × α)} :
    x ∈ ownSteps w order ↔ (w, x) ∈ order := by
  simp [ownSteps]

theorem ownSteps_append (w : Nat) (order order' : List (Nat × α)) :
    ownSteps w (order ++ order') = ownSteps w order ++ ownSteps w order' := by
  simp [ownSteps]

theorem ownSteps_sublist (w : Nat) {order order' : List (Nat × α)} (h : order.Sublist order') :
    (ownSteps w order).Sublist (ownSteps w order') := by
  unfold ownSteps
  exact (h.filter _).map _

theorem ownSteps_cons_self (w : Nat) (x : α) (order : List (Nat × α)) :
    ownSteps w ((w, x) :: order) = x :: ownSteps w order := by
  simp [ownSteps]

theorem ownSteps_cons_of_ne {w w' : Nat} (h : w' ≠ w) (x : α) (order : List (Nat × α)) :
    ownSteps w ((w', x) :: order) = ownSteps w order := by
  simp [ownSteps, h]

theorem ownSteps_map (w w' : Nat) (program : List α) :
    ownSteps w (program.map fun x => (w', x)) = if w' = w then program else [] := by
  unfold ownSteps
  rw [List.filter_map, List.map_map]
  by_cases hw : w' = w
  · rw [if_pos hw]
    simp [Function.comp_def, hw]
  · rw [if_neg hw]
    simp [Function.comp_def, hw]

/-- Every step of an interleaving is a step of its worker's program. -/
theorem Interleaves.mem_program {programs : List (List α)} {order : List (Nat × α)}
    (h : Interleaves programs order) {w : Nat} {x : α} (hx : (w, x) ∈ order) :
    ∃ hw : w < programs.length, x ∈ programs[w] := by
  have hw : w < programs.length := h.worker_lt _ hx
  exact ⟨hw, by rw [← h.ownSteps_eq w hw]; exact mem_ownSteps.2 hx⟩

theorem Interleaves.mem_iff {programs : List (List α)} {order : List (Nat × α)}
    (h : Interleaves programs order) {w : Nat} {x : α} :
    (w, x) ∈ order ↔ ∃ hw : w < programs.length, x ∈ programs[w] := by
  refine ⟨h.mem_program, ?_⟩
  rintro ⟨hw, hx⟩
  rw [← h.ownSteps_eq w hw] at hx
  exact mem_ownSteps.1 hx

/-- A relation between the steps of an interleaving, from the one between the steps of
each program and the one between the steps of two programs. -/
theorem Interleaves.pairwise {R : α → α → Prop} {programs : List (List α)}
    {order : List (Nat × α)} (h : Interleaves programs order)
    (hown : ∀ program ∈ programs, program.Pairwise R)
    (hcross : ∀ w w' x y, w ≠ w' → (w, x) ∈ order → (w', y) ∈ order → R x y) :
    order.Pairwise fun x y => R x.2 y.2 := by
  rw [List.pairwise_iff_forall_sublist]
  rintro ⟨w, x⟩ ⟨w', y⟩ hsub
  have hx : (w, x) ∈ order := hsub.subset List.mem_cons_self
  have hy : (w', y) ∈ order := hsub.subset (List.mem_cons_of_mem _ List.mem_cons_self)
  by_cases hw : w = w'
  · -- Two steps of one worker occur in its program in the same order.
    subst hw
    have hlt : w < programs.length := h.worker_lt _ hx
    have hprogram : [x, y].Sublist (ownSteps w order) := by
      have hown := ownSteps_sublist w hsub
      rwa [ownSteps_cons_self, ownSteps_cons_self] at hown
    rw [h.ownSteps_eq w hlt] at hprogram
    exact List.pairwise_iff_forall_sublist.1 (hown _ (List.getElem_mem hlt)) hprogram
  · exact hcross w w' x y hw hx hy

/-- All programs one after the other, each step tagged with its worker. -/
def inTurn (count : Nat) (program : Nat → List α) : List (Nat × α) :=
  (List.range count).flatMap fun w => (program w).map fun x => (w, x)

/-- **One after the other** is an interleaving. -/
theorem interleaves_inTurn (count : Nat) (program : Nat → List α) :
    Interleaves ((List.range count).map program) (inTurn count program) := by
  have hown : ∀ w, ownSteps w (inTurn count program) = if w < count then program w else [] := by
    intro w
    -- Induction on the workers: the last program adds its steps to its own worker only.
    induction count with
    | zero => rfl
    | succ count ih =>
      have hlast : inTurn (count + 1) program =
          inTurn count program ++ (program count).map fun x => (count, x) := by
        simp [inTurn, List.range_succ]
      rw [hlast, ownSteps_append, ih, ownSteps_map]
      by_cases hw : w < count
      · rw [if_pos hw, if_neg (by omega), if_pos (by omega), List.append_nil]
      · rw [if_neg hw, List.nil_append]
        by_cases hwc : count = w
        · rw [if_pos hwc, if_pos (by omega), hwc]
        · rw [if_neg hwc, if_neg (by omega)]
  constructor
  · rintro ⟨w, x⟩ hx
    simp only [inTurn, List.mem_flatMap, List.mem_range, List.mem_map, Prod.mk.injEq] at hx
    obtain ⟨_, hw, _, _, rfl, _⟩ := hx
    simpa using hw
  · intro w hw
    simp only [List.length_map, List.length_range] at hw
    rw [hown, if_pos hw, List.getElem_map, List.getElem_range]

end Orders

/-! ### Shares of a dealt loop -/

namespace Share

theorem workers_pos (workers : Nat) : 0 < max workers 1 :=
  Nat.lt_of_lt_of_le Nat.zero_lt_one (Nat.le_max_right workers 1)

/-- The share of worker `w` when a loop is dealt out. -/
def dealt (workers w : Nat) : Share where
  start := w
  stride := max workers 1
  stride_pos := workers_pos workers

theorem deal_eq (workers : Nat) :
    deal workers = (List.range (max workers 1)).map (dealt workers) :=
  rfl

@[simp] theorem length_deal (workers : Nat) : (deal workers).length = max workers 1 := by
  rw [deal_eq, List.length_map, List.length_range]

@[simp] theorem getElem_deal {workers w : Nat} (h : w < (deal workers).length) :
    (deal workers)[w] = dealt workers w := by
  simp only [deal_eq, List.getElem_map, List.getElem_range]

/-- **The indices of a dealt share** are those that leave the number of its worker as
the remainder. -/
theorem mem_visits_dealt {workers w extent i : Nat} (hw : w < max workers 1) :
    i ∈ (dealt workers w).visits extent ↔ i < extent ∧ i % max workers 1 = w := by
  rw [mem_visits]
  refine and_congr_right fun _ => ⟨?_, fun h => ⟨i / max workers 1, ?_⟩⟩
  · -- Whole strides do not change the remainder.
    rintro ⟨m, rfl⟩
    dsimp only [dealt]
    rw [Nat.add_mul_mod_self_left, Nat.mod_eq_of_lt hw]
  · -- The quotient counts the strides.
    dsimp only [dealt]
    rw [← h, Nat.mod_add_div]

end Share

/-- The outer index of a row of the shape is in range. -/
theorem Pass.outerIndex_lt (p : Pass) {shape : Shape} {i j : Nat} (h : shape.HasRow i j) :
    p.outerIndex i j < p.outerCount shape := by
  cases p with
  | inner => exact h.1
  | middle => exact h.1
  | outer => exact h.2

/-! ### Rows that a step stays in -/

namespace Step

/-- The step accesses no row outside of `rows`. -/
def StaysIn (rows : Nat → Nat → Prop) : Step → Prop
  | .row i j => rows i j
  | .load i j _ _ => rows i j
  | .line _ => True
  | .store i j _ _ => rows i j

theorem StaysIn.mono {rows rows' : Nat → Nat → Prop} {x : Step} (h : x.StaysIn rows)
    (hrows : ∀ i j, rows i j → rows' i j) : x.StaysIn rows' := by
  cases x with
  | row i j => exact hrows i j h
  | load i j k slot => exact hrows i j h
  | line c => trivial
  | store i j k slot => exact hrows i j h

end Step

namespace PassJob

variable {T : Type} {job : PassJob T} {shape : Shape}

theorem staysIn_bundleSteps {rows : Nat → Nat → Prop} {row : Nat → Nat × Nat} {k : Nat}
    (h : ∀ t, rows (row t).1 (row t).2) : ∀ x ∈ job.bundleSteps row k, x.StaysIn rows := by
  intro x hx
  -- Cells lie in the rows of their bundle.
  have hcell : ∀ i j k' slot, (i, j, k', slot) ∈ job.cells row k → rows i j := by
    intro i j k' slot hcell
    obtain ⟨t, -, c, -, hrow, -⟩ := Tableau.mem_cells.1 hcell
    have ht := h t
    rwa [hrow] at ht
  simp only [bundleSteps, List.mem_append, List.mem_map] at hx
  rcases hx with (⟨⟨i, j, k', slot⟩, hmem, rfl⟩ | ⟨c, -, rfl⟩) | ⟨⟨i, j, k', slot⟩, hmem, rfl⟩
  · exact hcell i j k' slot hmem
  · trivial
  · exact hcell i j k' slot hmem

/-- The steps of an outer index stay in the rows with this outer index. -/
theorem staysIn_outerSteps {o : Nat} :
    ∀ x ∈ job.outerSteps shape o, x.StaysIn fun i j => job.pass.outerIndex i j = o := by
  intro x hx
  unfold outerSteps at hx
  cases hpass : job.pass with
  | inner =>
    rw [hpass] at hx
    obtain ⟨j, -, rfl⟩ := List.mem_map.1 hx
    rfl
  | middle =>
    rw [hpass] at hx
    obtain ⟨k, -, hx⟩ := List.mem_flatMap.1 hx
    exact staysIn_bundleSteps (fun _ => rfl) x hx
  | outer =>
    rw [hpass] at hx
    obtain ⟨k, -, hx⟩ := List.mem_flatMap.1 hx
    exact staysIn_bundleSteps (fun _ => rfl) x hx

theorem staysIn_program {share : Share} :
    ∀ x ∈ job.program shape share, x.StaysIn fun i j =>
      job.pass.outerIndex i j ∈ share.visits (job.pass.outerCount shape) := by
  intro x hx
  obtain ⟨o, ho, hx⟩ := List.mem_flatMap.1 hx
  exact (staysIn_outerSteps x hx).mono fun i j heq => by rwa [heq]

end PassJob

/-! ### What a worker sees -/

namespace Tableau

variable {T : Type} {f : (Nat → T) → Nat → T} {n : Nat}

/-- Two tableaus are the same to worker `w`, who looks at the given rows and at its
own slots. -/
structure SeesSame (rows : Nat → Nat → Prop) (w : Nat) (s s' : Tableau T) : Prop where
  volume_eq : ∀ i j, rows i j → s.volume i j = s'.volume i j
  slots_eq : s.slots w = s'.slots w

namespace SeesSame

variable {rows : Nat → Nat → Prop} {w w' : Nat} {s s' : Tableau T} {x : Step}

/-- **A worker's own step** does the same to tableaus that are the same to it. -/
theorem own (h : SeesSame rows w s s') (hx : x.StaysIn rows) :
    SeesSame rows w (s.step f n w x) (s'.step f n w x) := by
  cases x with
  | row i j =>
    -- The row that is transformed is one that is looked at.
    refine ⟨fun i' j' hij => ?_, h.slots_eq⟩
    funext k
    change (if i' = i ∧ j' = j then f (s.volume i j) else s.volume i' j') k =
      (if i' = i ∧ j' = j then f (s'.volume i j) else s'.volume i' j') k
    rw [h.volume_eq i j hx, h.volume_eq i' j' hij]
  | load i j k slot =>
    refine ⟨h.volume_eq, ?_⟩
    funext m
    change (if w = w ∧ m = slot then s.volume i j k else s.slots w m) =
      if w = w ∧ m = slot then s'.volume i j k else s'.slots w m
    rw [h.volume_eq i j hx, h.slots_eq]
  | line c =>
    refine ⟨h.volume_eq, ?_⟩
    funext m
    simp only [step, h.slots_eq]
  | store i j k slot =>
    refine ⟨fun i' j' hij => ?_, h.slots_eq⟩
    funext k'
    change (if i' = i ∧ j' = j ∧ k' = k then s.slots w slot else s.volume i' j' k') =
      if i' = i ∧ j' = j ∧ k' = k then s'.slots w slot else s'.volume i' j' k'
    rw [h.slots_eq, h.volume_eq i' j' hij]

/-- **A step of another worker**, who stays out of the rows, changes nothing to see. -/
theorem other (h : SeesSame rows w s s') (hw : w' ≠ w)
    (hx : x.StaysIn fun i j => ¬ rows i j) : SeesSame rows w (s.step f n w' x) s' := by
  cases x with
  | row i j =>
    refine ⟨fun i' j' hij => ?_, h.slots_eq⟩
    change (if i' = i ∧ j' = j then f (s.volume i j) else s.volume i' j') = _
    -- The row of another worker is not looked at.
    rw [if_neg, h.volume_eq i' j' hij]
    rintro ⟨rfl, rfl⟩
    exact hx hij
  | load i j k slot =>
    refine ⟨h.volume_eq, ?_⟩
    funext m
    change (if w = w' ∧ m = slot then s.volume i j k else s.slots w m) = _
    rw [if_neg fun hand => hw hand.1.symm, h.slots_eq]
  | line c =>
    refine ⟨h.volume_eq, ?_⟩
    funext m
    change (if w = w' ∧ c * n ≤ m ∧ m < c * n + n then _ else s.slots w m) = _
    rw [if_neg fun hand => hw hand.1.symm, h.slots_eq]
  | store i j k slot =>
    refine ⟨fun i' j' hij => ?_, h.slots_eq⟩
    funext k'
    change (if i' = i ∧ j' = j ∧ k' = k then s.slots w' slot else s.volume i' j' k') = _
    rw [if_neg, h.volume_eq i' j' hij]
    rintro ⟨rfl, rfl, -⟩
    exact hx hij

/-- **A run of many workers** is, to one of them, the run of its own steps. -/
theorem run {order : List (Nat × Step)} (h : SeesSame rows w s s')
    (hown : ∀ x, (w, x) ∈ order → x.StaysIn rows)
    (hother : ∀ w' x, w' ≠ w → (w', x) ∈ order → x.StaysIn fun i j => ¬ rows i j) :
    SeesSame rows w (s.run f n order) (s'.solo f n w (ownSteps w order)) := by
  -- Induction on the order: a step is one of the worker itself, and is taken on both sides,
  -- or it is a step of another worker, and is left out on the right side.
  induction order generalizing s s' with
  | nil => exact h
  | cons y order ih =>
    obtain ⟨w', x⟩ := y
    have hown' : ∀ x, (w, x) ∈ order → x.StaysIn rows := fun x hx =>
      hown x (List.mem_cons_of_mem _ hx)
    have hother' : ∀ w' x, w' ≠ w → (w', x) ∈ order → x.StaysIn fun i j => ¬ rows i j :=
      fun w' x hw hx => hother w' x hw (List.mem_cons_of_mem _ hx)
    by_cases hw : w' = w
    · subst hw
      rw [ownSteps_cons_self]
      exact ih (h.own (hown x List.mem_cons_self)) hown' hother'
    · rw [ownSteps_cons_of_ne hw]
      exact ih (h.other hw (hother w' x hw List.mem_cons_self)) hown' hother'

end SeesSame

/-! ### Interleaved shares -/

/-- **What a worker of a dealt pass sees**: when every step belongs to the share of its
worker, the rows of a share end as if its worker had been alone. -/
theorem sees_own {job : PassJob T} {shape : Shape} {s : Tableau T} {workers : Nat}
    {order : List (Nat × Step)}
    (horder : ∀ w x, (w, x) ∈ order → w < max workers 1 ∧
      x ∈ job.program shape (Share.dealt workers w)) (w : Nat) :
    SeesSame (fun i j => job.pass.outerIndex i j < job.pass.outerCount shape ∧
        job.pass.outerIndex i j % max workers 1 = w) w (s.run f n order)
      (s.solo f n w (ownSteps w order)) := by
  -- The steps of a worker stay in the rows whose outer index leaves its number as remainder.
  have hstays : ∀ w x, (w, x) ∈ order → x.StaysIn fun i j =>
      job.pass.outerIndex i j < job.pass.outerCount shape ∧
        job.pass.outerIndex i j % max workers 1 = w := by
    intro w x hx
    obtain ⟨hw, hx⟩ := horder w x hx
    have hrows := PassJob.staysIn_program x hx
    simp only [Share.mem_visits_dealt hw] at hrows
    exact hrows
  refine SeesSame.run ⟨fun _ _ _ => rfl, rfl⟩ (fun x hx => hstays w x hx) fun w' x hne hx => ?_
  exact (hstays w' x hx).mono fun i j hrows hand => hne (hrows.2.symm.trans hand.2)

/-- Every step of an interleaving of dealt shares belongs to the share of its worker. -/
theorem mem_dealt_program {job : PassJob T} {shape : Shape} {workers : Nat}
    {order : List (Nat × Step)}
    (horder : Interleaves ((Share.deal workers).map (job.program shape)) order) {w : Nat}
    {x : Step} (hx : (w, x) ∈ order) :
    w < max workers 1 ∧ x ∈ job.program shape (Share.dealt workers w) := by
  obtain ⟨hw, hx⟩ := horder.mem_program hx
  rw [List.length_map, Share.length_deal] at hw
  rw [List.getElem_map, Share.getElem_deal] at hx
  exact ⟨hw, hx⟩

theorem ownSteps_dealt {job : PassJob T} {shape : Shape} {workers : Nat}
    {order : List (Nat × Step)}
    (horder : Interleaves ((Share.deal workers).map (job.program shape)) order) {w : Nat}
    (hw : w < max workers 1) :
    ownSteps w order = job.program shape (Share.dealt workers w) := by
  rw [horder.ownSteps_eq w (by rwa [List.length_map, Share.length_deal]), List.getElem_map,
    Share.getElem_deal]

/-- **Any interleaving of the shares of a dealt pass** ends in the image of the pass. -/
theorem volume_interleaved {job : PassJob T} {shape : Shape} {s : Tableau T}
    (hlength : job.transform.length = job.pass.lineLength shape)
    (hf : Pass.LooksAt f job.transform.length) {workers : Nat} {order : List (Nat × Step)}
    (horder : Interleaves ((Share.deal workers).map (job.program shape)) order) {i j k : Nat}
    (hi : i < shape.slices) (hj : j < shape.rows) (hk : k < shape.columns) :
    (s.run f job.transform.length order).volume i j k = job.pass.image f s.volume i j k := by
  have ho := job.pass.outerIndex_lt ⟨hi, hj⟩
  -- The element belongs to the share of the worker that its outer index leaves as remainder.
  obtain ⟨w, hw⟩ : ∃ w, job.pass.outerIndex i j % max workers 1 = w := ⟨_, rfl⟩
  have hwlt : w < max workers 1 := by
    rw [← hw]
    exact Nat.mod_lt _ (Share.workers_pos workers)
  have hsame := sees_own (f := f) (n := job.transform.length) (s := s)
    (fun w x hx => mem_dealt_program horder hx) w
  rw [hsame.volume_eq i j ⟨ho, hw⟩, ownSteps_dealt horder hwlt,
    volume_program hlength hf _ hi hj hk, if_pos ((Share.mem_visits_dealt hwlt).2 ⟨ho, hw⟩)]

end Tableau

end CosineTransform
