import Mathlib
import CosineTransform.Proofs.ProbedCalls
import CosineTransform.Sample.Binary

/-!
# Calls in which accesses fail

Some accesses to the rows are arranged to raise a payload. `call_with_failures` says what a
call does then, for every set of arrangements, every lawful layout and every schedule of
the workers. If no payload is raised along the programs of the passes, the call succeeds
with the data of a call without arrangements. Otherwise the first pass in which one is
raised, and no later one, is named in the refusal, with the words of the first work item
that fails. The data is left between two calls that can be named: the call that ends
before this pass, and the call that ends after it (`callOver`). Each element has its value
after one of them, and an item that did not fail has done all of its lines.

The proof reads off `ProbedCalls` what the passes leave. What is added here is the data:
the elements of the caller's data are those of the rows that were collected
(`LawfulLayout.element?_collect`).
-/

namespace CosineTransform

/-- The elements of collected data are those of its rows. -/
theorem LawfulLayout.element?_collect {D R T : Type} [Layout D R] [RowStore R T] [RowView R T]
    [Indexed D T] [LawfulLayout D] {shape : Shape} {data : D} {rows rows' : R} {rest : Array T}
    {g : Nat → Nat → Nat → T} (haddress : Layout.address shape data = .ok rows)
    (h : RowView.Holds shape rest g rows') {i j k : Nat} (hijk : shape.Has i j k) :
    Indexed.element? (Layout.collect rows' : D) shape i j k = some (g i j k) := by
  rw [LawfulLayout.element?_eq (address_collect haddress h.sound h.shape_eq) hijk]
  exact h.element i j k hijk

namespace VolumeTransform

variable {T W : Type} [Precision W] [Sample T W] {D R : Type} [Layout D R] [RowStore R T]

/-- **A call that runs some of its passes only.** -/
def callOver (v : VolumeTransform T) (passes : List Pass) (d : Direction) (scaled : Bool)
    (data : D) : Report D :=
  v.callBy d scaled (fun pass => if pass ∈ passes then v.runPass d scaled pass else pure ()) data

variable [RowView R T] [LawfulRowStore R T] {v : VolumeTransform T} {bench : Bench T} {data : D}
  {rows : R} {rest : Array T} {g : Nat → Nat → Nat → T}

/-- **A call over the first passes** succeeds and leaves their image. -/
theorem callOver_eq (hv : v.Planned)
    (hbench : Bench.allocate v.workers v.gatheredLength v.spectrumLength = .ok bench)
    (haddress : Layout.address v.shape data = .ok rows)
    (hrows : RowView.Holds v.shape rest g rows) (d : Direction) (scaled : Bool)
    {done others : List Pass} (hinOrder : Pass.inOrder = done ++ others) :
    ∃ rows' : R, (v.callOver done d scaled data).outcome = .ok () ∧
      (v.callOver done d scaled data).data = Layout.collect rows' ∧
      RowView.Holds v.shape rest (imageOf (LineTransform.sharedPhase v.shape.longest) v.shape d
        scaled done g) rows' := by
  -- No pass is listed twice, so the other passes are left out.
  have hnodup : (done ++ others).Nodup := by
    rw [← hinOrder]
    decide
  have hnot : ∀ pass ∈ others, pass ∉ done := fun pass hpass hdone =>
    (List.nodup_append.1 hnodup).2.2 pass hdone pass hpass rfl
  obtain ⟨run, hrun⟩ : ∃ run : Pass → EStateM Failure (CallState R T) Unit,
      run = fun pass => if pass ∈ done then v.runPass d scaled pass else pure () := ⟨_, rfl⟩
  have hleaves : ∀ pass ∈ done, LeavesImage v d scaled bench pass (run pass) := by
    intro pass hpass
    rw [hrun]
    dsimp only
    rw [if_pos hpass]
    exact runPass_leavesImage hv (equips_of_allocate hbench) d scaled pass
  have hothers : ∀ (passes : List Pass) (s : CallState R T), (∀ pass ∈ passes, pass ∉ done) →
      passes.forM run s = .ok () s := by
    intro passes
    induction passes with
    | nil => exact fun s _ => rfl
    | cons pass passes ih =>
      intro s hpasses
      obtain ⟨hpass, hpasses⟩ := List.forall_mem_cons.1 hpasses
      have hskip : run pass s = .ok () s := by
        rw [hrun]
        dsimp only
        rw [if_neg hpass]
        rfl
      exact (Workspace.forM_cons_of_ok hskip).trans (ih s hpasses)
  obtain ⟨s, hs, hholds⟩ := forM_leavesImage done hleaves
    (s := ⟨⟨rows, bench⟩, [Event.callStarted v.shape d scaled,
      Event.benchReady bench.workers v.gatheredLength v.spectrumLength]⟩) hrows Bench.SameCut.rfl
  have hforM : Pass.inOrder.forM run ⟨⟨rows, bench⟩, [Event.callStarted v.shape d scaled,
      Event.benchReady bench.workers v.gatheredLength v.spectrumLength]⟩ = .ok () s := by
    rw [List.forM_eq_forM] at hs ⊢
    rw [hinOrder, List.forM_append]
    exact (Workspace.bind_of_ok hs).trans (hothers others s hnot)
  have hcall := callBy_of_ok haddress hbench hforM
  rw [hrun] at hcall
  have hover : v.callOver done d scaled data =
      ⟨.ok (), Layout.collect s.workspace.rows, s.events⟩ := hcall
  exact ⟨s.workspace.rows, by rw [hover], by rw [hover], hholds⟩

/-- The image after one more pass. -/
theorem imageOf_concat (phase : Nat → Nat → Cartesian T) (shape : Shape) (d : Direction)
    (scaled : Bool) (passes : List Pass) (pass : Pass) (g : Nat → Nat → Nat → T) :
    imageOf phase shape d scaled (passes ++ [pass]) g =
      pass.image (LineTransform.image (phase (pass.lineLength shape)) (pass.lineLength shape) d
        scaled) (imageOf phase shape d scaled passes g) := by
  unfold imageOf
  rw [List.foldl_append]
  rfl

variable [Indexed D T] [LawfulLayout D]

/-- **The report of a call that fails in a pass.** The old value of an element is the one
that a call leaves which ends before the pass, and the new value is the one that a call
leaves which ends after it. Both of these calls are made without the journal. -/
structure FailsIn (v : VolumeTransform T) (d : Direction) (scaled : Bool)
    (data : ProbedVolume D) (f : PassFailure) (report : Report (ProbedVolume D)) : Prop where
  /-- The passes before are those that come before in the order of the passes. -/
  pass_mem : ∃ after, Pass.inOrder = f.before ++ f.pass :: after
  /-- The payload is that of the first item that meets one. -/
  payload_eq : (v.programs d scaled f.pass).findSome? f.journal.raisedBy = some f.payload
  outcome_eq : report.outcome = .error (.refused (.workerFailed f.pass f.payload.message))
  /-- The passes before make their accesses, the pass makes some of its own, and no others
  are made. -/
  accesses_eq : ∃ earlier own, report.data.journal.accesses.toList =
      data.journal.accesses.toList ++ earlier ++ own ∧
    earlier.Perm (f.before.flatMap (v.passAccesses d scaled)) ∧
    own.Subperm (v.passAccesses d scaled f.pass)
  outcome_before : (v.callOver f.before d scaled data.inside).outcome = .ok ()
  outcome_after : (v.callOver (f.before ++ [f.pass]) d scaled data.inside).outcome = .ok ()
  /-- Every element has its old value or its new value. -/
  element_eq : ∀ i j k, v.shape.Has i j k → ∃ old new,
    Indexed.element? (v.callOver f.before d scaled data.inside).data v.shape i j k = some old ∧
    Indexed.element? (v.callOver (f.before ++ [f.pass]) d scaled data.inside).data v.shape i j k =
      some new ∧
    (Indexed.element? report.data.inside v.shape i j k = some old ∨
      Indexed.element? report.data.inside v.shape i j k = some new)
  /-- The elements of an item that meets nothing have their new values. -/
  spared : ∀ share ∈ v.shares f.pass,
    f.journal.raisedBy ((v.job d scaled f.pass).program v.shape share) = none →
    ∀ i j k, v.shape.Has i j k →
      f.pass.outerIndex i j ∈ share.visits (f.pass.outerCount v.shape) →
      Indexed.element? report.data.inside v.shape i j k =
        Indexed.element? (v.callOver (f.before ++ [f.pass]) d scaled data.inside).data v.shape
          i j k

omit [RowStore R T] [RowView R T] [LawfulRowStore R T] in
/-- The accesses of passes that have run. -/
theorem Planned.accessesOfOrders_perm (hv : v.Planned) {d : Direction} {scaled : Bool}
    {passes : List Pass} {orders : List (List (Nat × Step))}
    (h : List.Forall₂ (fun pass order => Interleaves (v.programs d scaled pass) order) passes
      orders) :
    (accessesOfOrders orders).Perm (passes.flatMap (v.passAccesses d scaled)) := by
  induction h with
  | nil => exact .refl _
  | cons horder _ ih => exact (hv.accesses_perm horder).append ih

omit [LawfulRowStore R T] in
/-- **The accesses of passes that stop**: the journal has recorded those of the passes
before, and of the last pass those of the steps that were begun. -/
theorem StoppedIn.accesses_eq (hv : v.Planned) {d : Direction} {scaled : Bool} {j : Journal}
    {f : PassFailure} {rows : ProbedStore R} {orders : List (List (Nat × Step))}
    {order : List (Nat × Step)} (h : v.StoppedIn d scaled rest g j f.before f orders order rows) :
    ∃ earlier own, rows.journal.accesses.toList = j.accesses.toList ++ earlier ++ own ∧
      earlier.Perm (f.before.flatMap (v.passAccesses d scaled)) ∧
      own.Subperm (v.passAccesses d scaled f.pass) := by
  have hsublist := ((Roster.begun_sublist (j.after (accessesOfOrders orders)).faultOf order
    fun _ => none).map (·.2)).filterMap Step.access?
  refine ⟨accessesOfOrders orders, _, ?_, hv.accessesOfOrders_perm h.orders_interleave,
    hsublist.subperm.trans (hv.accesses_perm h.order_interleaves).subperm⟩
  rw [h.leaves.journal_eq, Journal.accesses_after, Journal.accesses_after]
  rfl

/-- **A call that stops in a pass** fails in it. -/
theorem StoppedIn.failsIn (hv : v.Planned)
    (hbench : Bench.allocate v.workers v.gatheredLength v.spectrumLength = .ok bench)
    {d : Direction} {scaled : Bool} {data : ProbedVolume D} {inside : R}
    (haddress : Layout.address v.shape data.inside = .ok inside)
    (hrows : RowView.Holds v.shape rest g inside) {f : PassFailure} {after : List Pass}
    (hinOrder : Pass.inOrder = f.before ++ f.pass :: after)
    (hpayload : (v.programs d scaled f.pass).findSome? f.journal.raisedBy = some f.payload)
    {rows : ProbedStore R} {orders : List (List (Nat × Step))} {order : List (Nat × Step)}
    (h : v.StoppedIn d scaled rest g data.journal f.before f orders order rows)
    {report : Report (ProbedVolume D)}
    (houtcome : report.outcome = .error (.refused (.workerFailed f.pass f.payload.message)))
    (hdata : report.data = Layout.collect rows) : v.FailsIn d scaled data f report := by
  obtain ⟨before, houtcomeBefore, hdataBefore, hbefore⟩ :=
    callOver_eq hv hbench haddress hrows d scaled hinOrder
  obtain ⟨done, houtcomeDone, hdataDone, hdone⟩ :=
    callOver_eq hv hbench haddress hrows d scaled (hinOrder.trans
      (List.append_cons f.before f.pass after))
  obtain ⟨g', hholds, heither, hspared⟩ := h.leaves.holds
  -- The image of the pass is the new value.
  rw [hv.lineImage_eq] at heither hspared
  rw [imageOf_concat] at hdone
  have helement : ∀ i j k, v.shape.Has i j k →
      Indexed.element? report.data.inside v.shape i j k = some (g' i j k) := by
    intro i j k hijk
    rw [hdata]
    exact LawfulLayout.element?_collect haddress hholds hijk
  obtain ⟨old, hold⟩ : ∃ old, old = imageOf (LineTransform.sharedPhase v.shape.longest) v.shape d
    scaled f.before g := ⟨_, rfl⟩
  rw [← hold] at hbefore hdone heither hspared
  have helementBefore : ∀ i j k, v.shape.Has i j k →
      Indexed.element? (v.callOver f.before d scaled data.inside).data v.shape i j k =
        some (old i j k) := by
    intro i j k hijk
    rw [hdataBefore]
    exact LawfulLayout.element?_collect haddress hbefore hijk
  have helementDone : ∀ i j k, v.shape.Has i j k →
      Indexed.element? (v.callOver (f.before ++ [f.pass]) d scaled data.inside).data v.shape i j k =
        some (f.pass.image (LineTransform.image
          (LineTransform.sharedPhase v.shape.longest (f.pass.lineLength v.shape))
          (f.pass.lineLength v.shape) d scaled) old i j k) := by
    intro i j k hijk
    rw [hdataDone]
    exact LawfulLayout.element?_collect haddress hdone hijk
  refine ⟨⟨after, hinOrder⟩, hpayload, houtcome, ?_, houtcomeBefore, houtcomeDone,
    fun i j k hijk => ⟨_, _, helementBefore i j k hijk, helementDone i j k hijk, ?_⟩,
    fun share hshare hnone i j k hijk hvisits => ?_⟩
  · rw [hdata]
    exact h.accesses_eq hv
  · rw [helement i j k hijk]
    exact (heither i j k hijk).imp (congrArg some) (congrArg some)
  · rw [helement i j k hijk, helementDone i j k hijk]
    refine congrArg some (hspared share hshare ?_ i j k hijk hvisits)
    unfold Journal.raisedBy at hnone ⊢
    rwa [Journal.raises_congr h.arranged_eq]

/-- **Calls in which accesses fail.** For every planned transform and every data with a
journal, whatever is arranged in it, and in any schedule of the workers: if no payload is
raised along the passes, the call succeeds with the data of a call without the journal, and
otherwise it fails in the first pass in which one is raised. -/
theorem call_with_failures {host : Host} {options : SharingOptions} {shape : Shape}
    (hv : plan host options shape = .ok v)
    (hbench : Bench.allocate v.workers v.gatheredLength v.spectrumLength = .ok bench)
    (d : Direction) (scaled : Bool) {data : ProbedVolume D}
    (haddress : Layout.address shape data.inside = .ok rows) {report : Report (ProbedVolume D)}
    (hreport : v.MayReport d scaled data report) :
    match v.firstFailure d scaled data.journal with
    | none =>
        report.outcome = .ok () ∧ (v.call d scaled data.inside).outcome = .ok () ∧
          report.data.inside = (v.call d scaled data.inside).data
    | some f => v.FailsIn d scaled data f report := by
  obtain ⟨hplanned, rfl, -⟩ := planned_of_plan hv
  have hrows := LawfulLayout.holds_of_address (T := T) haddress
  rcases mayReport_probed hplanned hbench haddress hrows hreport with
    ⟨hnone, rows', orders, houtcome, hdata, hran⟩ | ⟨f, rows', after, orders, order, hf, hinOrder,
      hpayload, houtcome, hdata, hstopped⟩
  · -- All passes have run, and a volume determines its rows.
    obtain ⟨rows'', houtcome', hdata', hrows'⟩ :=
      call_eq hplanned hbench haddress hrows d scaled
    rw [hnone]
    refine ⟨houtcome, houtcome', ?_⟩
    rw [hdata, hdata']
    exact congrArg Layout.collect (hran.holds.unique hrows' fun _ _ _ _ => rfl)
  · rw [hf]
    exact hstopped.failsIn hplanned hbench haddress hrows hinOrder hpayload houtcome hdata

/-- A payload in the middle pass: of two workers on a volume of `2 × 2 × 4` doubles, the
first one meets it at the first element. -/
theorem call_with_failures_middle :
    ∃ (v : VolumeTransform Float) (f : PassFailure), plan (.willing 1) ⟨0, .own 2⟩ ⟨2, 2, 4⟩ = .ok v ∧
      f.before = [.inner] ∧ f.pass = .middle ∧ f.payload = .text "lost" ∧
      v.FailsIn .forward true
        (⟨⟨Array.replicate 16 1⟩, ⟨#[], [⟨.load 0 0 0, 1, .text "lost", 0⟩]⟩⟩ :
          ProbedVolume (FlatVolume Float)) f
        (v.call .forward true
          ⟨⟨Array.replicate 16 1⟩, ⟨#[], [⟨.load 0 0 0, 1, .text "lost", 0⟩]⟩⟩) := by
  obtain ⟨bench, hbench⟩ := allocate_small (T := Float)
  obtain ⟨f, hf, hbefore, hpass, hpayload⟩ : ∃ f,
      (plannedFor (.willing 1) ⟨0, .own 2⟩ ⟨2, 2, 4⟩ 16 : VolumeTransform Float).firstFailure .forward true
        ⟨#[], [⟨.load 0 0 0, 1, .text "lost", 0⟩]⟩ = some f ∧
      f.before = [.inner] ∧ f.pass = .middle ∧ f.payload = .text "lost" :=
    ⟨_, rfl, rfl, rfl, rfl⟩
  have hreport : (plannedFor (.willing 1) ⟨0, .own 2⟩ ⟨2, 2, 4⟩ 16).MayReport .forward true
      (⟨⟨Array.replicate 16 1⟩, ⟨#[], [⟨.load 0 0 0, 1, .text "lost", 0⟩]⟩⟩ :
        ProbedVolume (FlatVolume Float)) _ := Or.inl rfl
  have hfails := call_with_failures (plan_small (T := Float)) hbench .forward true
    (address_small 1) hreport
  rw [hf] at hfails
  exact ⟨_, f, plan_small, hbefore, hpass, hpayload, hfails⟩

end VolumeTransform

end CosineTransform
