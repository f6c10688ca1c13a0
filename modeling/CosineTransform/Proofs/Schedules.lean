import Mathlib
import CosineTransform.Proofs.Simulation
import CosineTransform.Work.Roster

/-!
# Schedules of a pass

A schedule runs the workers of a pass step by step, in an order that interleaves
their programs (`PassJob.runInterleaved`). As with a roster, a fault ends the worker
that meets it and no other, and the first fault in the order of the workers is
reported.

`runInterleaved_eq` says what any schedule of a planned pass does: it succeeds, and the
volume ends as the image of the pass. A roster that is run worker after worker is one
more schedule (`roster_run_eq`). A single share does the same for the lines that it visits
and leaves the others alone (`run_share_eq`), so the single worker who takes the whole pass
(`run_whole_eq`) ends in the same rows as any schedule, since a volume determines its row
store.
-/

namespace CosineTransform

/-! ### Rosters without faults -/

namespace Roster

variable {σ ι : Type}

/-- Tagged steps in the order in which they are taken. A worker that has met a fault
takes no more steps. The answer is the fault of each worker, where it met one, and the
final state. -/
def interleaved (step : Nat → ι → EStateM Fault σ Unit) :
    List (Nat × ι) → (Nat → Option Fault) → σ → (Nat → Option Fault) × σ
  | [], faults, s => (faults, s)
  | (w, x) :: order, faults, s =>
      if (faults w).isSome then
        interleaved step order faults s
      else
        match step w x s with
        | .ok _ s => interleaved step order faults s
        | .error fault s =>
            interleaved step order (fun w' => if w' = w then some fault else faults w') s

/-- Steps that succeed one after the other leave no worker with a fault. -/
theorem interleaved_of_ok (step : Nat → ι → EStateM Fault σ Unit) {order : List (Nat × ι)}
    {s s' : σ} (h : order.forM (fun x => step x.1 x.2) s = .ok () s') :
    interleaved step order (fun _ => none) s = (fun _ => none, s') := by
  induction order generalizing s with
  | nil =>
    cases h
    rfl
  | cons y order ih =>
    obtain ⟨w, x⟩ := y
    unfold interleaved
    rw [if_neg (by simp)]
    cases hx : step w x s with
    | ok u t => exact ih ((Workspace.bind_of_ok hx).symm.trans h)
    | error fault t => cases (Workspace.bind_of_error hx).symm.trans h

/-- A roster whose items succeed one after the other reports no fault. -/
theorem run_of_ok {task : ι → EStateM Fault σ Unit} {items : List ι} {s s' : σ} (crew : Crew)
    (pass : Pass) (h : items.forM task s = .ok () s') :
    run crew pass task items s = .ok () s' := by
  -- The outcomes of items that succeed are all empty.
  have key : ∀ (items : List ι) (s : σ), items.forM task s = .ok () s' →
      outcomes task items s = (items.map fun _ => none, s') := by
    intro items
    induction items with
    | nil =>
      intro s h
      cases h
      rfl
    | cons item items ih =>
      intro s h
      cases hx : task item s with
      | ok u t =>
        have houtcome : outcome (task item) s = (none, t) := by rw [outcome, hx]
        rw [outcomes_cons, houtcome, ih t ((Workspace.bind_of_ok hx).symm.trans h), List.map_cons]
      | error fault t => cases (Workspace.bind_of_error hx).symm.trans h
  rw [run_eq_verdict, key items s h]
  exact verdict_of_forall_none (by simp) pass s'

end Roster

namespace PassJob

open Workspace

variable {R T W : Type} [Precision W] [Sample T W] [RowStore R T]

/-! ### Running tagged steps -/

/-- Tagged steps, one after the other, each in the region of its worker. The first fault
ends the run. -/
def runOrder (job : PassJob T) (bench : Bench T) (order : List (Nat × Step)) :
    EStateM Fault (Workspace R T) Unit :=
  order.forM fun x => job.step (bench.region x.1) x.2

/-- **A schedule of a pass** for a number of workers. -/
def runInterleaved (job : PassJob T) (workers : Nat) (order : List (Nat × Step)) :
    EStateM TransformError (Workspace R T) Unit := fun s =>
  let (faults, s) :=
    Roster.interleaved (fun w => job.step (s.bench.region w)) order (fun _ => none) s
  Roster.verdict job.pass ((List.range workers).map faults) s

theorem runOrder_map (job : PassJob T) (bench : Bench T) (w : Nat) (program : List Step)
    (st : Workspace R T) :
    job.runOrder bench (program.map fun x => (w, x)) st =
      job.steps (bench.region w) program st := by
  unfold runOrder steps
  rw [List.forM_eq_forM, List.forM_eq_forM, List.forM_map]

theorem runOrder_append_of_ok {job : PassJob T} {bench : Bench T}
    {order order' : List (Nat × Step)} {st st' : Workspace R T}
    (h : job.runOrder bench order st = .ok () st') :
    job.runOrder bench (order ++ order') st = job.runOrder bench order' st' := by
  unfold runOrder at h ⊢
  rw [List.forM_eq_forM] at h ⊢
  rw [List.forM_append]
  exact bind_of_ok h

theorem runInterleaved_of_ok {job : PassJob T} {workers : Nat} {order : List (Nat × Step)}
    {st st' : Workspace R T} (h : job.runOrder st.bench order st = .ok () st') :
    job.runInterleaved workers order st = .ok () st' := by
  unfold runInterleaved
  rw [Roster.interleaved_of_ok (fun w => job.step (st.bench.region w)) h]
  exact Roster.verdict_of_forall_none (by simp) job.pass st'

variable [RowView R T] [LawfulRowStore R T] {job : PassJob T} {N : Nat}

/-- **Tagged steps of a planned pass** succeed, and do to the workspace what they do to
the tableau. -/
theorem runOrder_mirrors {e : Setting T} {s : Tableau T} (hjob : job.Planned e.shape N)
    (he : job.Suits e) {order : List (Nat × Step)}
    (horder : ∀ x ∈ order, x.1 < e.workers ∧ job.Admits e.shape x.2) {st : Workspace R T}
    (h : Mirrors e st s) :
    ∃ st', job.runOrder e.bench order st = .ok () st' ∧
      Mirrors e st' (s.run (job.lineImage N) job.transform.length order) := by
  -- Induction on the order, with the workspace and the tableau going along.
  induction order generalizing st s with
  | nil => exact ⟨st, rfl, h⟩
  | cons x order ih =>
    obtain ⟨hx, horder⟩ := List.forall_mem_cons.1 horder
    obtain ⟨st', hstep, h'⟩ := step_mirrors hjob he h hx.1 hx.2
    obtain ⟨st'', hrun, h''⟩ := ih horder h'
    exact ⟨st'', (bind_of_ok hstep).trans hrun, h''⟩

/-! ### Schedules of a pass -/

section Schedules

variable {shape : Shape} {rest : Array T} {g : Nat → Nat → Nat → T} {rows : R} {bench : Bench T}
  {workers : Nat}

/-- The setting in which a job starts. -/
def startSetting (job : PassJob T) (shape : Shape) (rest : Array T)
    (h : bench.Serves workers job.slots job.transform.spectrumLength) : Setting T where
  shape := shape
  rest := rest
  bench := bench
  workers := workers
  slots := job.slots
  entries := job.transform.spectrumLength
  serves := h

omit [Precision W] [LawfulRowStore R T] in
/-- Any rows and any bench mirror a tableau to start with. -/
theorem start_mirrors (hbench : bench.Serves workers job.slots job.transform.spectrumLength)
    (hrows : RowView.Holds shape rest g rows) :
    Mirrors (job.startSetting shape rest hbench) ⟨rows, bench⟩
      ⟨g, fun w m => bench.lines.getD (w * bench.lineRoom + m) 0⟩ := by
  refine ⟨hrows, Bench.SameCut.rfl, fun w hw m hm => ?_⟩
  -- Every slot has its place within the lines of the bench.
  have hend := Bench.stretch_le (m := m + 1) hbench.lines_le hw
    (Nat.le_trans hm hbench.slots_le)
  change bench.lines[w * bench.lineRoom + m]? = some (bench.lines.getD (w * bench.lineRoom + m) 0)
  rw [Array.getD_eq_getD_getElem?, Array.getElem?_eq_getElem (by omega), Option.getD_some]

/-- **Any interleaving** of the shares of a planned pass, run on any bench that serves
the workers, succeeds and leaves the image of the pass. -/
theorem runOrder_interleaved (hjob : job.Planned shape N)
    (hbench : bench.Serves (max workers 1) job.slots job.transform.spectrumLength)
    (hrows : RowView.Holds shape rest g rows) {order : List (Nat × Step)}
    (horder : Interleaves ((Share.deal workers).map (job.program shape)) order) :
    ∃ st, job.runOrder bench order ⟨rows, bench⟩ = .ok () st ∧
      RowView.Holds shape rest (job.pass.image (job.lineImage N) g) st.rows ∧
      st.bench.SameCut bench := by
  -- Every step belongs to the program of a share, so all that it asks for is there.
  have hadmits : ∀ x ∈ order, x.1 < max workers 1 ∧ job.Admits shape x.2 := by
    rintro ⟨w, x⟩ hx
    obtain ⟨hw, hx⟩ := Tableau.mem_dealt_program horder hx
    exact ⟨hw, hjob.admits_program x hx⟩
  obtain ⟨st, hrun, h⟩ := runOrder_mirrors (e := job.startSetting shape rest hbench) hjob
    ⟨rfl, rfl⟩ hadmits (start_mirrors hbench hrows)
  refine ⟨st, hrun, h.holds.congr fun i j k hijk => ?_, h.cut⟩
  exact Tableau.volume_interleaved hjob.length_eq hjob.looksAt horder hijk.1.1 hijk.1.2 hijk.2

theorem runInterleaved_eq (hjob : job.Planned shape N)
    (hbench : bench.Serves (max workers 1) job.slots job.transform.spectrumLength)
    (hrows : RowView.Holds shape rest g rows) {order : List (Nat × Step)}
    (horder : Interleaves ((Share.deal workers).map (job.program shape)) order) :
    ∃ st, job.runInterleaved (max workers 1) order ⟨rows, bench⟩ = .ok () st ∧
      RowView.Holds shape rest (job.pass.image (job.lineImage N) g) st.rows ∧
      st.bench.SameCut bench := by
  obtain ⟨st, hrun, h⟩ := runOrder_interleaved hjob hbench hrows horder
  exact ⟨st, runInterleaved_of_ok hrun, h⟩

/-- **One share of a pass**, run in any region of a bench that serves its worker, succeeds. It
replaces the lines that the share visits by their images and leaves all other elements as they
are. -/
theorem run_share_eq (hjob : job.Planned shape N) {w : Nat}
    (hbench : bench.Serves (w + 1) job.slots job.transform.spectrumLength)
    (hrows : RowView.Holds shape rest g rows) (share : Share) :
    ∃ st, job.run share (bench.region w) ⟨rows, bench⟩ = .ok () st ∧
      RowView.Holds shape rest (fun i j k =>
        if job.pass.outerIndex i j ∈ share.visits (job.pass.outerCount shape) then
          job.pass.image (job.lineImage N) g i j k
        else g i j k) st.rows ∧
      st.bench.SameCut bench := by
  have hadmits : ∀ x ∈ (job.program shape share).map (fun x => (w, x)),
      x.1 < w + 1 ∧ job.Admits shape x.2 := by
    intro x hx
    obtain ⟨x', hx', rfl⟩ := List.mem_map.1 hx
    exact ⟨Nat.lt_succ_self w, hjob.admits_program x' hx'⟩
  obtain ⟨st, hrun, h⟩ := runOrder_mirrors (e := job.startSetting shape rest hbench) hjob
    ⟨rfl, rfl⟩ hadmits (start_mirrors hbench hrows)
  refine ⟨st, ?_, h.holds.congr fun i j k hijk => ?_, h.cut⟩
  · unfold run
    rw [hrows.shape_eq, ← runOrder_map]
    exact hrun
  · rw [Tableau.run_map]
    exact Tableau.volume_program hjob.length_eq hjob.looksAt share hijk.1.1 hijk.1.2 hijk.2

/-- **One worker** who takes the whole pass. -/
theorem run_whole_eq (hjob : job.Planned shape N)
    (hbench : bench.Serves 1 job.slots job.transform.spectrumLength)
    (hrows : RowView.Holds shape rest g rows) :
    ∃ st, job.run Share.whole (bench.region 0) ⟨rows, bench⟩ = .ok () st ∧
      RowView.Holds shape rest (job.pass.image (job.lineImage N) g) st.rows ∧
      st.bench.SameCut bench := by
  obtain ⟨st, hrun, h, hcut⟩ := run_share_eq hjob hbench hrows Share.whole
  refine ⟨st, hrun, h.congr fun i j k hijk => ?_, hcut⟩
  -- The whole share leaves no index out.
  have hvisits : job.pass.outerIndex i j ∈ Share.whole.visits (job.pass.outerCount shape) :=
    Share.mem_visits.2
      ⟨job.pass.outerIndex_lt hijk.1, job.pass.outerIndex i j, by simp [Share.whole]⟩
  rw [if_pos hvisits]

/-- **The roster of a pass** runs the shares one after the other, which is one of their
interleavings. -/
theorem roster_run_eq (hjob : job.Planned shape N)
    (hbench : bench.Serves (max workers 1) job.slots job.transform.spectrumLength)
    (hrows : RowView.Holds shape rest g rows) (crew : Crew) (pass : Pass) :
    ∃ st, Roster.run crew pass (fun x : Share × Region => job.run x.1 x.2)
        ((List.range (max workers 1)).map fun w => (Share.dealt workers w, bench.region w))
        ⟨rows, bench⟩ = .ok () st ∧
      RowView.Holds shape rest (job.pass.image (job.lineImage N) g) st.rows ∧
      st.bench.SameCut bench := by
  -- Each worker finds the shape as it was, so its share is the program that was dealt out.
  have key : ∀ (ws : List Nat) (st : Workspace R T) (s : Tableau T), (∀ w ∈ ws, w < max workers 1) →
      Mirrors (job.startSetting shape rest hbench) st s →
      (ws.map fun w => (Share.dealt workers w, bench.region w)).forM
          (fun x : Share × Region => job.run x.1 x.2) st =
        job.runOrder bench (ws.flatMap fun w =>
          (job.program shape (Share.dealt workers w)).map fun x => (w, x)) st := by
    intro ws
    induction ws with
    | nil => intro st s _ _; rfl
    | cons w ws ih =>
      intro st s hws h
      obtain ⟨hw, hws⟩ := List.forall_mem_cons.1 hws
      have hadmits : ∀ x ∈ (job.program shape (Share.dealt workers w)).map (fun x => (w, x)),
          x.1 < max workers 1 ∧ job.Admits shape x.2 := by
        intro x hx
        obtain ⟨x', hx', rfl⟩ := List.mem_map.1 hx
        exact ⟨hw, hjob.admits_program x' hx'⟩
      obtain ⟨st', hrun, h'⟩ := runOrder_mirrors (e := job.startSetting shape rest hbench) hjob
        ⟨rfl, rfl⟩ hadmits h
      have hitem : job.run (Share.dealt workers w) (bench.region w) st = .ok () st' := by
        unfold run
        rw [h.holds.shape_eq, ← runOrder_map]
        exact hrun
      rw [List.flatMap_cons]
      have hitems : ((w :: ws).map fun w => (Share.dealt workers w, bench.region w)).forM
            (fun x : Share × Region => job.run x.1 x.2) st =
          (ws.map fun w => (Share.dealt workers w, bench.region w)).forM
            (fun x : Share × Region => job.run x.1 x.2) st' :=
        forM_cons_of_ok (f := fun x : Share × Region => job.run x.1 x.2)
          (x := (Share.dealt workers w, bench.region w)) hitem
      exact hitems.trans ((ih st' _ hws h').trans (runOrder_append_of_ok hrun).symm)
  have horder : Interleaves ((Share.deal workers).map (job.program shape))
      (inTurn (max workers 1) fun w => job.program shape (Share.dealt workers w)) := by
    rw [Share.deal_eq, List.map_map]
    exact interleaves_inTurn _ _
  obtain ⟨st, hrun, h⟩ := runOrder_interleaved hjob hbench hrows horder
  refine ⟨st, Roster.run_of_ok crew pass ?_, h⟩
  rw [key _ _ _ (fun w hw => List.mem_range.1 hw) (start_mirrors hbench hrows)]
  exact hrun

end Schedules

end PassJob

end CosineTransform
