import Mathlib
import CosineTransform.Proofs.Accesses
import CosineTransform.Proofs.FaultyRuns
import CosineTransform.Proofs.ProbedSteps

/-!
# Passes over rows whose accesses may fail

The workers of a pass share a row store with a journal, which may raise a payload at
some of their accesses. `runInterleaved_probed` says how the pass ends, whatever the
journal raises and however the workers take turns.

* What each worker meets is fixed beforehand. Every access of the pass is made once, so
  no access before it changes what it raises, and a worker meets the first payload that
  the journal raises along its program (`Journal.raisedBy`).
* The rows inside are those that the taken steps leave, and these steps leave every
  element as it was or give it its image. An element is written once in a program: before
  this it has its old value, and after this the value that the whole program gives it
  (`Tableau.volume_solo_part`).

A roster that runs the shares one after the other is one of these schedules
(`roster_run_eq_runInterleaved`).
-/

namespace CosineTransform

/-! ### Steps that write an element -/

namespace Step

/-- The step gives element `(i, j, k)` another value. -/
def WritesTo (i j k : Nat) (x : Step) : Prop :=
  x.access? = some (.row i j) ∨ x.access? = some (.store i j k)

end Step

namespace Tableau

variable {T : Type} {f : (Nat → T) → Nat → T} {n w : Nat} {s : Tableau T} {i j k : Nat}

theorem volume_step_of_not_writes {x : Step} (h : ¬ x.WritesTo i j k) :
    (s.step f n w x).volume i j k = s.volume i j k := by
  cases x with
  | row i' j' =>
    change (if i = i' ∧ j = j' then f (s.volume i' j') else s.volume i j) k = _
    rw [if_neg]
    rintro ⟨rfl, rfl⟩
    exact h (Or.inl rfl)
  | load i' j' k' slot => rfl
  | line c => rfl
  | store i' j' k' slot =>
    change (if i = i' ∧ j = j' ∧ k = k' then s.slots w slot else s.volume i j k) = _
    rw [if_neg]
    rintro ⟨rfl, rfl, rfl⟩
    exact h (Or.inr rfl)

/-- Steps that do not write an element leave it alone. -/
theorem volume_solo_of_not_writes {program : List Step} (h : ∀ x ∈ program, ¬ x.WritesTo i j k) :
    (s.solo f n w program).volume i j k = s.volume i j k := by
  induction program generalizing s with
  | nil => rfl
  | cons x program ih =>
    obtain ⟨hx, hprogram⟩ := List.forall_mem_cons.1 h
    exact (ih hprogram).trans (volume_step_of_not_writes hx)

/-- **No element is written twice** in steps that make the accesses of a pass, each of
them once. -/
theorem not_writes_of_nodup {p : Pass} {shape : Shape} {program program' : List Step}
    (hmakes : ∀ a ∈ accessesOf (program ++ program'), p.Makes shape a)
    (hnodup : (accessesOf (program ++ program')).Nodup) {x : Step} (hx : x ∈ program)
    (hwrites : x.WritesTo i j k) : ∀ y ∈ program', ¬ y.WritesTo i j k := by
  intro y hy hwrites'
  rw [accessesOf_append] at hmakes hnodup
  have hdisjoint := (List.nodup_append.1 hnodup).2.2
  -- The same access would be made twice, or a row and an element of it would be accessed.
  rcases hwrites with ha | ha <;> rcases hwrites' with hb | hb
  · exact hdisjoint _ (mem_accessesOf.2 ⟨x, hx, ha⟩) _ (mem_accessesOf.2 ⟨y, hy, hb⟩) rfl
  · have hrow := hmakes _ (List.mem_append_left _ (mem_accessesOf.2 ⟨x, hx, ha⟩))
    have hstore := hmakes _ (List.mem_append_right _ (mem_accessesOf.2 ⟨y, hy, hb⟩))
    exact hstore.1 hrow.1
  · have hstore := hmakes _ (List.mem_append_left _ (mem_accessesOf.2 ⟨x, hx, ha⟩))
    have hrow := hmakes _ (List.mem_append_right _ (mem_accessesOf.2 ⟨y, hy, hb⟩))
    exact hstore.1 hrow.1
  · exact hdisjoint _ (mem_accessesOf.2 ⟨x, hx, ha⟩) _ (mem_accessesOf.2 ⟨y, hy, hb⟩) rfl

/-- **A part of a program** leaves an element as it was, or gives it the value that the
whole program gives it. -/
theorem volume_solo_part {p : Pass} {shape : Shape} {program program' : List Step}
    (hmakes : ∀ a ∈ accessesOf (program ++ program'), p.Makes shape a)
    (hnodup : (accessesOf (program ++ program')).Nodup) (i j k : Nat) :
    (s.solo f n w program).volume i j k = s.volume i j k ∨
      (s.solo f n w program).volume i j k =
        (s.solo f n w (program ++ program')).volume i j k := by
  by_cases h : ∃ x ∈ program, x.WritesTo i j k
  · -- What the first part has written, the second part does not write again.
    obtain ⟨x, hx, hwrites⟩ := h
    right
    rw [solo_append]
    exact (volume_solo_of_not_writes (not_writes_of_nodup hmakes hnodup hx hwrites)).symm
  · left
    exact volume_solo_of_not_writes fun x hx hwrites => h ⟨x, hx, hwrites⟩

end Tableau

/-! ### What the programs of a pass meet -/

namespace Journal

variable {j : Journal} {x y : Step}

/-- **What a program meets**: the first payload that is raised along its accesses. -/
def raisedBy (j : Journal) (program : List Step) : Option Payload :=
  (accessesOf program).findSome? j.raises

theorem findSome?_faultOf (j : Journal) (program : List Step) :
    program.findSome? j.faultOf = (j.raisedBy program).map .raised := by
  induction program with
  | nil => rfl
  | cons x program ih =>
    rw [List.findSome?_cons, ih]
    unfold raisedBy accessesOf faultOf
    cases hx : x.access? with
    | none => rw [List.filterMap_cons_none hx, Option.bind_none]
    | some a =>
      rw [List.filterMap_cons_some hx, Option.bind_some, List.findSome?_cons]
      cases j.raises a with
      | none => rfl
      | some payload => rfl

theorem raisedBy_eq_none_iff {program : List Step} :
    j.raisedBy program = none ↔ ∀ x ∈ program, j.faultOf x = none := by
  rw [← List.findSome?_eq_none_iff, findSome?_faultOf, Option.map_eq_none_iff]

/-- A step does not change what a step with another access meets. -/
theorem faultOf_afterStep (h : ∀ a ∈ y.access?, a ∉ x.access?) :
    (j.afterStep x).faultOf y = j.faultOf y := by
  unfold faultOf
  cases hy : y.access? with
  | none => rfl
  | some a =>
    have hnot : a ∉ x.access?.toList := by
      rw [Option.mem_toList]
      exact h a hy
    rw [Option.bind_some, Option.bind_some]
    exact congrArg (Option.map Fault.raised) (raises_after_of_not_mem hnot)

end Journal

namespace PassJob

open Workspace

variable {R T W : Type} [Precision W] [Sample T W] [RowStore R T] [RowView R T]
  [LawfulRowStore R T] {job : PassJob T} {N : Nat}

/-! ### Tagged steps with a journal -/

/-- **Tagged steps of a planned pass, with a journal.** Each worker takes its steps up to
the first one that fails, the taken steps do to the rows inside what they do to the
tableau, and the accesses of all steps that are begun are recorded. -/
theorem interleaved_probed {e : Setting T} (hjob : job.Planned e.shape N) (he : job.Suits e)
    {order : List (Nat × Step)}
    (horder : ∀ x ∈ order, x.1 < e.workers ∧ job.Admits e.shape x.2)
    (hnodup : (accessesOf (order.map (·.2))).Nodup) (fails : Step → Option Fault) {j : Journal}
    (hj : ∀ x ∈ order, j.faultOf x.2 = fails x.2) (faults : Nat → Option Fault) {inside : R}
    {bench : Bench T} {s : Tableau T} (h : Mirrors e ⟨inside, bench⟩ s) :
    ∃ inside' bench',
      Roster.interleaved (fun w => job.step (e.bench.region w)) order faults
          (⟨⟨inside, j⟩, bench⟩ : Workspace (ProbedStore R) T) =
        (Roster.faultsAfter fails order faults,
          ⟨⟨inside', j.after (accessesOf ((Roster.begun fails order faults).map (·.2)))⟩,
            bench'⟩) ∧
      Mirrors e ⟨inside', bench'⟩ (s.run (job.lineImage N) job.transform.length
        (Roster.taken fails order faults)) := by
  -- Induction on the order. The rest of it meets in the journal what it would have met
  -- before the first step, since no access is made twice.
  induction order generalizing j faults inside bench s with
  | nil =>
    refine ⟨inside, bench, ?_, h⟩
    have hfaults : Roster.faultsAfter fails [] faults = faults := by
      funext w
      exact Option.or_none
    rw [hfaults]
    rfl
  | cons y order ih =>
    obtain ⟨w, x⟩ := y
    obtain ⟨⟨hw, hx⟩, horder⟩ := List.forall_mem_cons.1 horder
    obtain ⟨hjx, hj⟩ := List.forall_mem_cons.1 hj
    rw [List.map_cons, accessesOf_cons] at hnodup
    obtain ⟨-, hnodup, hdisjoint⟩ := List.nodup_append.1 hnodup
    have hlater : ∀ y ∈ order, (j.afterStep x).faultOf y.2 = fails y.2 := by
      intro y hy
      rw [← hj y hy]
      refine Journal.faultOf_afterStep fun a ha hax => ?_
      exact hdisjoint a (Option.mem_toList.2 hax) a
        (mem_accessesOf.2 ⟨y.2, List.mem_map_of_mem hy, ha⟩) rfl
    by_cases hfault : (faults w).isSome
    · -- The worker has stopped.
      obtain ⟨inside', bench', hrun, h'⟩ := ih horder hnodup hj faults h
      have htaken : Roster.taken fails ((w, x) :: order) faults =
          Roster.taken fails order faults := by
        unfold Roster.taken
        rw [Roster.begun_cons_of_isSome hfault]
      refine ⟨inside', bench', ?_, by rwa [htaken]⟩
      rw [Roster.interleaved, if_pos hfault, hrun, Roster.faultsAfter_cons_of_isSome hfault,
        Roster.begun_cons_of_isSome hfault]
    · rw [Option.not_isSome_iff_eq_none] at hfault
      obtain ⟨⟨inside₁, bench₁⟩, hstep, h₁⟩ := step_mirrors hjob he h hw hx
      have hprobed := step_probed hstep j
      have hjournal : ∀ order' : List (Nat × Step), (j.afterStep x).after
          (accessesOf (order'.map (·.2))) =
            j.after (accessesOf (((w, x) :: order').map (·.2))) := by
        intro order'
        rw [List.map_cons, accessesOf_cons, Journal.after_append]
        rfl
      rw [Roster.interleaved, if_neg (by rw [hfault]; exact Bool.false_ne_true),
        Roster.faultsAfter_cons_of_eq_none hfault, Roster.begun_cons_of_eq_none hfault,
        ← hjournal]
      cases hfails : fails x with
      | none =>
        -- The step is taken.
        have htaken : Roster.taken fails ((w, x) :: order) faults =
            (w, x) :: Roster.taken fails order faults := by
          unfold Roster.taken
          rw [Roster.begun_cons_of_eq_none hfault, Roster.faults_of_not_fails hfault hfails,
            List.filter_cons_of_pos (by rw [hfails]; rfl)]
        obtain ⟨inside', bench', hrun, h'⟩ := ih horder hnodup hlater faults h₁
        refine ⟨inside', bench', ?_, by rw [htaken]; exact h'⟩
        rw [hprobed.1 (hjx.trans hfails)]
        dsimp only
        rw [hrun, ← hfails, Roster.faults_of_not_fails hfault hfails]
      | some fault =>
        -- The step fails, and leaves the rows inside and the bench as they were.
        have htaken : Roster.taken fails ((w, x) :: order) faults =
            Roster.taken fails order fun w' => if w' = w then some fault else faults w' := by
          unfold Roster.taken
          rw [Roster.begun_cons_of_eq_none hfault,
            List.filter_cons_of_neg (by rw [hfails]; exact Bool.false_ne_true), hfails]
        obtain ⟨inside', bench', hrun, h'⟩ := ih horder hnodup hlater
          (fun w' => if w' = w then some fault else faults w') h
        refine ⟨inside', bench', ?_, by rwa [htaken]⟩
        rw [hprobed.2 fault (hjx.trans hfails)]
        exact hrun

/-! ### What the taken steps leave -/

section Dealt

variable {shape : Shape} {workers : Nat} {order : List (Nat × Step)}

omit [RowStore R T] [RowView R T] [LawfulRowStore R T] in
/-- The rows of a share end as after the steps of its worker that are taken. -/
theorem volume_taken_eq
    (horder : Interleaves ((Share.deal workers).map (job.program shape)) order)
    (fails : Step → Option Fault) (s : Tableau T) {w i j : Nat} (hw : w < max workers 1)
    (hij : job.pass.outerIndex i j ∈ (Share.dealt workers w).visits (job.pass.outerCount shape)) :
    (s.run (job.lineImage N) job.transform.length
        (Roster.taken fails order fun _ => none)).volume i j =
      (s.solo (job.lineImage N) job.transform.length w
        ((job.program shape (Share.dealt workers w)).takeWhile
          fun x => (fails x).isNone)).volume i j := by
  have hmem : ∀ w x, (w, x) ∈ Roster.taken fails order (fun _ => none) → w < max workers 1 ∧
      x ∈ job.program shape (Share.dealt workers w) := fun w x hx =>
    Tableau.mem_dealt_program horder ((Roster.taken_sublist fails order _).subset hx)
  rw [(Tableau.sees_own hmem w).volume_eq i j ((Share.mem_visits_dealt hw).1 hij),
    Roster.ownSteps_taken, Tableau.ownSteps_dealt horder hw]
  rfl

omit [RowStore R T] [RowView R T] [LawfulRowStore R T] in
/-- **Every element** is left as it was, or it is given its image. -/
theorem volume_taken (hjob : job.Planned shape N)
    (horder : Interleaves ((Share.deal workers).map (job.program shape)) order)
    (fails : Step → Option Fault) (s : Tableau T) {i j k : Nat} (hijk : shape.Has i j k) :
    (s.run (job.lineImage N) job.transform.length
        (Roster.taken fails order fun _ => none)).volume i j k = s.volume i j k ∨
      (s.run (job.lineImage N) job.transform.length
        (Roster.taken fails order fun _ => none)).volume i j k =
        job.pass.image (job.lineImage N) s.volume i j k := by
  -- The element belongs to one share, and its worker takes a part of the program.
  obtain ⟨w, hw⟩ : ∃ w, job.pass.outerIndex i j % max workers 1 = w := ⟨_, rfl⟩
  have hwlt : w < max workers 1 := by
    rw [← hw]
    exact Nat.mod_lt _ (Share.workers_pos workers)
  have hvisits : job.pass.outerIndex i j ∈
      (Share.dealt workers w).visits (job.pass.outerCount shape) :=
    (Share.mem_visits_dealt hwlt).2 ⟨job.pass.outerIndex_lt hijk.1, hw⟩
  have hprogram := List.takeWhile_append_dropWhile (p := fun x => (fails x).isNone)
    (l := job.program shape (Share.dealt workers w))
  have hmakes : ∀ a ∈ accessesOf (job.program shape (Share.dealt workers w)),
      job.pass.Makes shape a := fun a ha => (hjob.mem_accesses_program.1 ha).1
  have hnodup : (accessesOf (job.program shape (Share.dealt workers w))).Nodup :=
    (hjob.pairwise_accesses_program _).imp And.left
  rw [← hprogram] at hmakes hnodup
  rw [volume_taken_eq horder fails s hwlt hvisits]
  refine (Tableau.volume_solo_part hmakes hnodup i j k).imp_right fun hpart => ?_
  rw [hpart, hprogram, Tableau.volume_program hjob.length_eq hjob.looksAt _ hijk.1.1 hijk.1.2
    hijk.2, if_pos hvisits]

omit [RowStore R T] [RowView R T] [LawfulRowStore R T] in
/-- **A share whose steps do not fail** is transformed as a whole. -/
theorem volume_taken_of_not_fails (hjob : job.Planned shape N)
    (horder : Interleaves ((Share.deal workers).map (job.program shape)) order)
    {fails : Step → Option Fault} (s : Tableau T) {w : Nat} (hw : w < max workers 1)
    (hspared : ∀ x ∈ job.program shape (Share.dealt workers w), fails x = none) {i j k : Nat}
    (hijk : shape.Has i j k)
    (hvisits : job.pass.outerIndex i j ∈
      (Share.dealt workers w).visits (job.pass.outerCount shape)) :
    (s.run (job.lineImage N) job.transform.length
        (Roster.taken fails order fun _ => none)).volume i j k =
      job.pass.image (job.lineImage N) s.volume i j k := by
  have hall : (job.program shape (Share.dealt workers w)).takeWhile (fun x => (fails x).isNone) =
      job.program shape (Share.dealt workers w) :=
    List.takeWhile_eq_self_iff.2 fun x hx => Option.isNone_iff_eq_none.2 (hspared x hx)
  rw [volume_taken_eq horder fails s hw hvisits, hall, Tableau.volume_program hjob.length_eq
    hjob.looksAt _ hijk.1.1 hijk.1.2 hijk.2, if_pos hvisits]

/-! ### A pass with a journal -/

/-- How a pass ends in which a payload is raised, or none. -/
def ended {σ : Type} (pass : Pass) : Option Payload → σ → EStateM.Result TransformError σ Unit
  | none, s => .ok () s
  | some payload, s => .error (.workerFailed pass payload.message) s

/-- **What a pass leaves**, when its workers share a journal and take turns in a given
order. -/
structure LeavesProbed (job : PassJob T) (N : Nat) (shape : Shape) (rest : Array T)
    (g : Nat → Nat → Nat → T) (shares : List Share) (j : Journal) (order : List (Nat × Step))
    (rows : ProbedStore R) : Prop where
  /-- The accesses of all steps that are begun are recorded. -/
  journal_eq : rows.journal =
    j.after (accessesOf ((Roster.begun j.faultOf order fun _ => none).map (·.2)))
  /-- Every element has its old value or its image, and it has its image when it belongs to
  a share in which nothing is raised. -/
  holds : ∃ g', RowView.Holds shape rest g' rows.inside ∧
    (∀ i k l, shape.Has i k l → g' i k l = g i k l ∨
      g' i k l = job.pass.image (job.lineImage N) g i k l) ∧
    ∀ share ∈ shares, j.raisedBy (job.program shape share) = none → ∀ i k l, shape.Has i k l →
      job.pass.outerIndex i k ∈ share.visits (job.pass.outerCount shape) →
      g' i k l = job.pass.image (job.lineImage N) g i k l

omit [Precision W] [RowStore R T] [RowView R T] [LawfulRowStore R T] [Sample T W] in
/-- The first fault in the order of the workers comes from the first program that meets a
payload. -/
theorem findSome?_faultsAfter (j : Journal)
    (horder : Interleaves ((Share.deal workers).map (job.program shape)) order) :
    ((List.range (max workers 1)).map
        (Roster.faultsAfter j.faultOf order fun _ => none)).findSome? id =
      (((Share.deal workers).map (job.program shape)).findSome? j.raisedBy).map .raised := by
  have hfaults : (List.range (max workers 1)).map
      (Roster.faultsAfter j.faultOf order fun _ => none) =
      (List.range (max workers 1)).map fun w =>
        (j.raisedBy (job.program shape (Share.dealt workers w))).map Fault.raised := by
    refine List.map_congr_left fun w hw => ?_
    unfold Roster.faultsAfter
    rw [Option.none_or, Tableau.ownSteps_dealt horder (List.mem_range.1 hw),
      Journal.findSome?_faultOf]
  rw [hfaults, List.map_findSome?, Share.deal_eq, List.map_map, List.findSome?_map,
    List.findSome?_map]
  rfl

/-- **A pass whose workers share a journal**, in any order of their steps. -/
theorem runInterleaved_probed {rest : Array T} {g : Nat → Nat → Nat → T} {inside : R}
    {bench : Bench T} (hjob : job.Planned shape N)
    (hbench : bench.Serves (max workers 1) job.slots job.transform.spectrumLength)
    (hrows : RowView.Holds shape rest g inside)
    (horder : Interleaves ((Share.deal workers).map (job.program shape)) order) (j : Journal) :
    ∃ st : Workspace (ProbedStore R) T,
      job.runInterleaved (max workers 1) order ⟨⟨inside, j⟩, bench⟩ =
        ended job.pass (((Share.deal workers).map (job.program shape)).findSome? j.raisedBy) st ∧
      st.bench.SameCut bench ∧
      job.LeavesProbed N shape rest g (Share.deal workers) j order st.rows := by
  have hadmits : ∀ x ∈ order, x.1 < max workers 1 ∧ job.Admits shape x.2 := by
    rintro ⟨w, x⟩ hx
    obtain ⟨hw, hx⟩ := Tableau.mem_dealt_program horder hx
    exact ⟨hw, hjob.admits_program x hx⟩
  obtain ⟨inside', bench', hrun, h⟩ := interleaved_probed
    (e := job.startSetting shape rest hbench) hjob ⟨rfl, rfl⟩ hadmits
    (hjob.nodup_interleaved horder) j.faultOf (fun _ _ => rfl) (fun _ => none)
    (start_mirrors hbench hrows)
  refine ⟨⟨⟨inside', _⟩, bench'⟩, ?_, h.cut, rfl, _, h.holds, fun i k l hikl => ?_, ?_⟩
  · have hfirst := findSome?_faultsAfter j horder
    dsimp only [startSetting] at hrun
    unfold runInterleaved
    dsimp only
    rw [hrun]
    dsimp only
    rw [Roster.verdict, hfirst]
    cases ((Share.deal workers).map (job.program shape)).findSome? j.raisedBy with
    | none => rfl
    | some payload => rfl
  · exact volume_taken hjob horder j.faultOf _ hikl
  · intro share hshare hspared i k l hikl hvisits
    obtain ⟨w, hw, rfl⟩ := List.mem_map.1 hshare
    exact volume_taken_of_not_fails hjob horder _ (List.mem_range.1 hw)
      (Journal.raisedBy_eq_none_iff.1 hspared) hikl hvisits

/-! ### Rosters with a journal -/

/-- **A share with a journal** leaves a workspace whose rows inside and whose bench mirror
a tableau, whether its worker meets a fault or not. -/
theorem forM_step_probed {e : Setting T} (hjob : job.Planned e.shape N) (he : job.Suits e)
    {w : Nat} (hw : w < e.workers) (share : Share) {inside : R} {bench : Bench T} {s : Tableau T}
    (h : Mirrors e ⟨inside, bench⟩ s) (j : Journal) :
    ∃ (st : Workspace (ProbedStore R) T) (s' : Tableau T),
      Mirrors e ⟨st.rows.inside, st.bench⟩ s' ∧
      ((job.program e.shape share).forM (job.step (e.bench.region w)) ⟨⟨inside, j⟩, bench⟩ =
          .ok () st ∨
        ∃ fault, (job.program e.shape share).forM (job.step (e.bench.region w))
          ⟨⟨inside, j⟩, bench⟩ = .error fault st) := by
  have hadmits : ∀ x ∈ (job.program e.shape share).map (fun x => (w, x)),
      x.1 < e.workers ∧ job.Admits e.shape x.2 := by
    intro y hy
    obtain ⟨x, hx, rfl⟩ := List.mem_map.1 hy
    exact ⟨hw, hjob.admits_program x hx⟩
  have hsnd : ((job.program e.shape share).map fun x => (w, x)).map (·.2) =
      job.program e.shape share := by
    rw [List.map_map]
    exact List.map_id _
  have hnodup :
      (accessesOf (((job.program e.shape share).map fun x => (w, x)).map (·.2))).Nodup := by
    rw [hsnd]
    exact (hjob.pairwise_accesses_program share).imp And.left
  obtain ⟨inside', bench', hrun, h'⟩ := interleaved_probed hjob he hadmits hnodup j.faultOf
    (fun _ _ => rfl) (fun _ => none) h
  -- The share is run as the only program of a schedule.
  rw [← List.append_nil ((job.program e.shape share).map _), Roster.interleaved_program rfl]
    at hrun
  split at hrun
  case h_1 u st hst =>
    obtain ⟨-, rfl⟩ := Prod.mk.inj hrun
    exact ⟨_, _, h', Or.inl hst⟩
  case h_2 fault st hst =>
    obtain ⟨-, rfl⟩ := Prod.mk.inj hrun
    exact ⟨_, _, h', Or.inr ⟨fault, hst⟩⟩

/-- **A roster with a journal** is the schedule in which the shares come in turn. -/
theorem roster_run_eq_runInterleaved {rest : Array T} {g : Nat → Nat → Nat → T} {inside : R}
    {bench : Bench T} (hjob : job.Planned shape N)
    (hbench : bench.Serves (max workers 1) job.slots job.transform.spectrumLength)
    (hrows : RowView.Holds shape rest g inside) (crew : Crew) (j : Journal) :
    Roster.run crew job.pass (fun x : Share × Region => job.run x.1 x.2)
        ((List.range (max workers 1)).map fun w => (Share.dealt workers w, bench.region w))
        (⟨⟨inside, j⟩, bench⟩ : Workspace (ProbedStore R) T) =
      job.runInterleaved (max workers 1)
        (inTurn (max workers 1) fun w => job.program shape (Share.dealt workers w))
        ⟨⟨inside, j⟩, bench⟩ := by
  have houtcomes := Roster.outcomes_eq_interleaved
    (fun w => job.step (R := ProbedStore R) (bench.region w))
    (fun x : Share × Region => job.run x.1 x.2)
    (fun w => (Share.dealt workers w, bench.region w))
    (fun w => job.program shape (Share.dealt workers w))
    (fun st => ∃ s, Mirrors (job.startSetting shape rest hbench) ⟨st.rows.inside, st.bench⟩ s)
    (List.nodup_range (n := max workers 1)) ?_ ?_ (fun _ _ => Eq.refl (none : Option Fault))
    (s := ⟨⟨inside, j⟩, bench⟩) ⟨_, start_mirrors hbench hrows⟩
  · rw [Roster.run_eq_verdict, houtcomes]
    rfl
  · -- Each worker finds the shape as it was.
    rintro w - st ⟨s, h⟩
    unfold run steps
    rw [show RowStore.shape st.rows = shape from h.holds.shape_eq]
  · -- Each worker leaves rows and a bench that mirror a tableau.
    rintro w hw st ⟨s, h⟩
    obtain ⟨st', s', h', hst'⟩ := forM_step_probed (e := job.startSetting shape rest hbench)
      hjob ⟨rfl, rfl⟩ (List.mem_range.1 hw) (Share.dealt workers w) h st.rows.journal
    have hitem : job.run (Share.dealt workers w) (bench.region w) st =
        (job.program shape (Share.dealt workers w)).forM (job.step (bench.region w)) st := by
      unfold run steps
      rw [show RowStore.shape st.rows = shape from h.holds.shape_eq]
    rw [hitem]
    rcases hst' with hst' | ⟨fault', hst'⟩
    · refine ⟨fun st'' hst'' => ?_, fun fault st'' hst'' => ?_⟩
      · cases hst'.symm.trans hst''
        exact ⟨s', h'⟩
      · cases hst'.symm.trans hst''
    · refine ⟨fun st'' hst'' => ?_, fun fault st'' hst'' => ?_⟩
      · cases hst'.symm.trans hst''
      · cases hst'.symm.trans hst''
        exact ⟨s', h'⟩

end Dealt

end PassJob

end CosineTransform
