import Mathlib
import CosineTransform.Proofs.Calls
import CosineTransform.Proofs.FaultyPasses

/-!
# Calls on data with a journal

A call on probed data runs its passes until a payload is raised. In which pass this
happens, and which payload is reported, can be told before the call: `firstFailure`
follows the programs of the passes and counts the visits of the journal, and looks at no
element. The order in which workers take turns does not show in it, since accesses of
one pass differ from each other (`Journal.arranged_after_of_perm`).

`forM_probed` says what the passes of a call leave, in the two cases: all of them have run
(`RanPasses`), or they have stopped in the pass that fails first (`StoppedIn`). As in
`Calls`, the proof is made once for all ways to run a pass (`RunsProbed`); running the
roster is one such way (`runPass_probed`), following a schedule is another
(`runPassInOrder_probed`).
-/

namespace CosineTransform

namespace VolumeTransform

variable {T W : Type} [Precision W] [Sample T W]

/-! ### Programs and accesses of a pass -/

/-- **The programs of the work items of a pass.** A pass over lines of length one has no
items. -/
def programs (v : VolumeTransform T) (d : Direction) (scaled : Bool) (pass : Pass) :
    List (List Step) :=
  if pass.lineLength v.shape = 1 then []
  else (v.shares pass).map ((v.job d scaled pass).program v.shape)

/-- The accesses of a pass, item after item. -/
def passAccesses (v : VolumeTransform T) (d : Direction) (scaled : Bool) (pass : Pass) :
    List Access :=
  accessesOf (v.programs d scaled pass).flatten

variable {v : VolumeTransform T} {d : Direction} {scaled : Bool} {pass : Pass}
  {order : List (Nat × Step)}

omit [Precision W] [Sample T W] in
theorem programs_of_length_one (h : pass.lineLength v.shape = 1) :
    v.programs d scaled pass = [] :=
  if_pos h

omit [Precision W] [Sample T W] in
theorem programs_of_length_ne_one (h : pass.lineLength v.shape ≠ 1) :
    v.programs d scaled pass =
      (Share.deal (v.passWorkers pass)).map ((v.job d scaled pass).program v.shape) := by
  unfold programs
  rw [if_neg h, shares_eq]

omit [Precision W] [Sample T W] in
/-- An interleaving of no programs has no steps. -/
theorem order_eq_nil_of_length_one (h : pass.lineLength v.shape = 1)
    (horder : Interleaves (v.programs d scaled pass) order) : order = [] := by
  rw [programs_of_length_one h] at horder
  refine List.eq_nil_iff_forall_not_mem.2 fun x hx => ?_
  exact absurd (horder.worker_lt x hx) (Nat.not_lt_zero _)

/-- **The accesses of a pass**, in any order of its steps. -/
theorem Planned.mem_accesses_iff (hv : v.Planned)
    (horder : Interleaves (v.programs d scaled pass) order) {a : Access} :
    a ∈ accessesOf (order.map (·.2)) ↔
      pass.lineLength v.shape ≠ 1 ∧ pass.Makes v.shape a := by
  by_cases hone : pass.lineLength v.shape = 1
  · rw [order_eq_nil_of_length_one hone horder]
    exact ⟨nofun, fun h => absurd hone h.1⟩
  · rw [programs_of_length_ne_one hone] at horder
    rw [(hv.job_planned d scaled pass).mem_accesses_interleaved horder, and_iff_right hone]
    rfl

/-- The accesses of a pass are in their places, and each of them is made once. -/
theorem Planned.pairwise_accesses (hv : v.Planned)
    (horder : Interleaves (v.programs d scaled pass) order) :
    (accessesOf (order.map (·.2))).Pairwise pass.MayPrecede := by
  by_cases hone : pass.lineLength v.shape = 1
  · rw [order_eq_nil_of_length_one hone horder]
    exact List.Pairwise.nil
  · rw [programs_of_length_ne_one hone] at horder
    exact (hv.job_planned d scaled pass).pairwise_interleaved horder

theorem Planned.nodup_accesses (hv : v.Planned)
    (horder : Interleaves (v.programs d scaled pass) order) :
    (accessesOf (order.map (·.2))).Nodup :=
  (hv.pairwise_accesses horder).imp And.left

omit [Precision W] [Sample T W] in
/-- The items of a pass in turn. -/
theorem exists_turns (v : VolumeTransform T) (d : Direction) (scaled : Bool) (pass : Pass) :
    ∃ turns, Interleaves (v.programs d scaled pass) turns ∧
      turns.map (·.2) = (v.programs d scaled pass).flatten := by
  have hturns : ∀ programs : List (List Step),
      Interleaves programs (inTurn programs.length fun w => programs.getD w []) ∧
        (inTurn programs.length fun w => programs.getD w []).map (·.2) = programs.flatten := by
    intro programs
    have hprograms : (List.range programs.length).map (fun w => programs.getD w []) =
        programs := by
      refine List.ext_getElem (by simp) fun w hw hw' => ?_
      simp [hw']
    refine ⟨?_, ?_⟩
    · have h := interleaves_inTurn programs.length fun w => programs.getD w []
      rwa [hprograms] at h
    · unfold inTurn
      rw [List.map_flatMap]
      simp only [List.map_map]
      conv_rhs => rw [← hprograms]
      rw [List.flatten_eq_flatMap, List.flatMap_map]
      refine List.flatMap_congr fun w _ => ?_
      exact List.map_id _
  exact ⟨_, hturns (v.programs d scaled pass)⟩

/-- **The accesses of a pass do not depend on the order** in which its workers take turns. -/
theorem Planned.accesses_perm (hv : v.Planned)
    (horder : Interleaves (v.programs d scaled pass) order) :
    (accessesOf (order.map (·.2))).Perm (v.passAccesses d scaled pass) := by
  obtain ⟨turns, hturns, heq⟩ := exists_turns v d scaled pass
  unfold passAccesses
  rw [← heq, List.perm_ext_iff_of_nodup (hv.nodup_accesses horder) (hv.nodup_accesses hturns)]
  exact fun a => (hv.mem_accesses_iff horder).trans (hv.mem_accesses_iff hturns).symm

/-! ### The pass that fails first -/

/-- A pass in which a payload is raised. -/
structure PassFailure where
  /-- The passes before, which have run. -/
  before : List Pass
  pass : Pass
  /-- The journal when the pass begins. -/
  journal : Journal
  /-- What the first of the work items meets that meet anything. -/
  payload : Payload

/-- The first of some passes in which a payload is raised, after other passes. -/
def firstFailureFrom (v : VolumeTransform T) (d : Direction) (scaled : Bool) :
    List Pass → List Pass → Journal → Option PassFailure
  | _, [], _ => none
  | before, pass :: passes, j =>
      match (v.programs d scaled pass).findSome? j.raisedBy with
      | some payload => some ⟨before, pass, j, payload⟩
      | none =>
          firstFailureFrom v d scaled (before ++ [pass]) passes
            (j.after (v.passAccesses d scaled pass))

/-- **The pass of a call that fails first**, if one does. -/
def firstFailure (v : VolumeTransform T) (d : Direction) (scaled : Bool) (j : Journal) :
    Option PassFailure :=
  v.firstFailureFrom d scaled [] Pass.inOrder j

omit [Precision W] [Sample T W] in
/-- Where nothing is arranged, no pass fails. -/
theorem firstFailure_eq_none (v : VolumeTransform T) (d : Direction) (scaled : Bool) {j : Journal}
    (hj : j.arranged = []) : v.firstFailure d scaled j = none := by
  have hfrom : ∀ (passes before : List Pass) (j : Journal), j.arranged = [] →
      v.firstFailureFrom d scaled before passes j = none := by
    intro passes
    induction passes with
    | nil => exact fun before j _ => rfl
    | cons pass passes ih =>
      intro before j hj
      have hspared : (v.programs d scaled pass).findSome? j.raisedBy = none :=
        List.findSome?_eq_none_iff.2 fun program _ =>
          List.findSome?_eq_none_iff.2 fun a _ => Journal.raises_of_arranged_eq_nil hj
      rw [firstFailureFrom, hspared]
      exact ih _ _ (Journal.arranged_after_of_eq_nil hj _)
  exact hfrom Pass.inOrder [] j hj

/-! ### Passes with a journal -/

section Runs

variable {R : Type} [RowStore R T] [RowView R T] {bench : Bench T} {rest : Array T}
  {g : Nat → Nat → Nat → T} {j : Journal}

/-- How a pass ends in which a payload is raised, or none. -/
def passEnded (pass : Pass) (s : CallState (ProbedStore R) T) :
    Option Payload → EStateM.Result Failure (CallState (ProbedStore R) T) Unit
  | none => .ok () s
  | some payload => .error (.refused (.workerFailed pass payload.message)) s

/-- **A pass with a journal** follows some order of the steps of its workers. -/
def RunsProbed (v : VolumeTransform T) (d : Direction) (scaled : Bool) (bench : Bench T)
    (pass : Pass) (run : EStateM Failure (CallState (ProbedStore R) T) Unit) : Prop :=
  ∀ (rest : Array T) (g : Nat → Nat → Nat → T) (inside : R) (j : Journal) (b : Bench T)
    (events : List Event), RowView.Holds v.shape rest g inside → b.SameCut bench →
    ∃ order s, Interleaves (v.programs d scaled pass) order ∧
      run ⟨⟨⟨inside, j⟩, b⟩, events⟩ =
        passEnded pass s ((v.programs d scaled pass).findSome? j.raisedBy) ∧
      s.workspace.bench.SameCut bench ∧
      (v.job d scaled pass).LeavesProbed v.shape.longest v.shape rest g (v.shares pass) j order
        s.workspace.rows

/-- **A pass follows an order** of its steps when the action for its job does. -/
theorem runPassBy_probed (hv : v.Planned) (hbench : v.Equips bench)
    {act : List Share → PassJob T → EStateM TransformError (Workspace (ProbedStore R) T) Unit}
    (hact : ∀ (rest : Array T) (g : Nat → Nat → Nat → T) (inside : R) (j : Journal)
      (b : Bench T), RowView.Holds v.shape rest g inside → b.SameCut bench →
      ∃ order st, Interleaves ((v.shares pass).map ((v.job d scaled pass).program v.shape))
          order ∧
        act (v.shares pass) (v.job d scaled pass) ⟨⟨inside, j⟩, b⟩ = PassJob.ended pass
          (((v.shares pass).map ((v.job d scaled pass).program v.shape)).findSome?
            j.raisedBy) st ∧
        st.bench.SameCut bench ∧
        (v.job d scaled pass).LeavesProbed v.shape.longest v.shape rest g (v.shares pass) j order
          st.rows) :
    RunsProbed v d scaled bench pass (v.runPassBy d scaled pass act) := by
  intro rest g inside j b events hrows hcut
  by_cases hone : pass.lineLength v.shape = 1
  · -- A pass over lines of length one takes no steps, and each line is its own image.
    have himage : (v.job d scaled pass).pass.image
        ((v.job d scaled pass).lineImage v.shape.longest) g = g := by
      rw [hv.lineImage_eq]
      exact Planned.image_of_length_one d scaled hone _ g
    rw [programs_of_length_one hone, runPassBy_of_eq_one hv hone]
    exact ⟨[], ⟨⟨⟨inside, j⟩, b⟩, events ++ [.passSkipped pass]⟩, ⟨nofun, nofun⟩, rfl, hcut, rfl,
      g, hrows, fun i k l _ => Or.inl rfl, fun share _ _ i k l _ _ => by rw [himage]⟩
  · -- Otherwise the action does the job of the pass.
    obtain ⟨order, st, horder, hst, hcut', hleaves⟩ := hact rest g inside j b hrows hcut
    have hprograms : v.programs d scaled pass =
        (v.shares pass).map ((v.job d scaled pass).program v.shape) := if_neg hone
    rw [← hprograms] at horder hst
    refine ⟨order, ⟨st, events ++ [.passStarted pass (v.passWorkers pass)]⟩, horder, ?_, hcut',
      hleaves⟩
    rw [runPassBy_of_ne_one hv hbench hone]
    unfold CallState.onWorkspace
    dsimp only
    rw [hst]
    cases (v.programs d scaled pass).findSome? j.raisedBy with
    | none => rfl
    | some payload => rfl

variable [LawfulRowStore R T]

/-- **Following a schedule.** -/
theorem runPassInOrder_probed (hv : v.Planned) (hbench : v.Equips bench)
    {order : Pass → List (Nat × Step)} (horder : v.IsSchedule d scaled order) (pass : Pass) :
    RunsProbed (R := R) v d scaled bench pass (v.runPassInOrder order d scaled pass) := by
  refine runPassBy_probed hv hbench fun rest g inside j b hrows hcut => ?_
  have hserves := hbench.serves_pass hv hcut d scaled pass
  have hinterleaves := horder pass _ (hv.prepare_eq d scaled pass)
  rw [shares_eq] at hinterleaves ⊢
  obtain ⟨st, hst, hcut', hleaves⟩ := PassJob.runInterleaved_probed (hv.job_planned d scaled pass)
    hserves hrows hinterleaves j
  refine ⟨order pass, st, hinterleaves, ?_, hcut'.trans hcut, hleaves⟩
  rw [Share.length_deal]
  exact hst

/-- **Running the roster of a pass** follows the order in which the shares come in turn. -/
theorem runPass_probed (hv : v.Planned) (hbench : v.Equips bench) (d : Direction)
    (scaled : Bool) (pass : Pass) :
    RunsProbed (R := R) v d scaled bench pass (v.runPass d scaled pass) := by
  rw [runPass_eq_runPassBy]
  refine runPassBy_probed hv hbench fun rest g inside j b hrows hcut => ?_
  have hserves := hbench.serves_pass hv hcut d scaled pass
  have hregions := hbench.regions_pass hcut pass
  have hinterleaves : Interleaves ((Share.deal (v.passWorkers pass)).map
      ((v.job d scaled pass).program v.shape)) (inTurn (max (v.passWorkers pass) 1) fun w =>
        (v.job d scaled pass).program v.shape (Share.dealt (v.passWorkers pass) w)) := by
    rw [Share.deal_eq, List.map_map]
    exact interleaves_inTurn _ _
  obtain ⟨st, hst, hcut', hleaves⟩ := PassJob.runInterleaved_probed (hv.job_planned d scaled pass)
    hserves hrows hinterleaves j
  rw [shares_eq]
  refine ⟨_, st, hinterleaves, ?_, hcut'.trans hcut, hleaves⟩
  dsimp only
  rw [zip_regions hregions]
  exact (PassJob.roster_run_eq_runInterleaved (hv.job_planned d scaled pass) hserves hrows
    v.crew j).trans hst

end Runs

/-! ### Passes one after the other -/

section Passes

variable {R : Type} [RowStore R T] [RowView R T] {bench : Bench T} {rest : Array T}
  {g : Nat → Nat → Nat → T} {j : Journal}

/-- The accesses that a list of orders makes, one order after the other. -/
def accessesOfOrders (orders : List (List (Nat × Step))) : List Access :=
  orders.flatMap fun order => accessesOf (order.map (·.2))

/-- **Some passes have run**, each of them in some order of its steps. -/
structure RanPasses (v : VolumeTransform T) (d : Direction) (scaled : Bool) (rest : Array T)
    (g : Nat → Nat → Nat → T) (j : Journal) (passes : List Pass)
    (orders : List (List (Nat × Step))) (rows : ProbedStore R) : Prop where
  orders_interleave : List.Forall₂ (fun pass order => Interleaves (v.programs d scaled pass) order)
    passes orders
  journal_eq : rows.journal = j.after (accessesOfOrders orders)
  holds : RowView.Holds v.shape rest (imageOf (LineTransform.sharedPhase v.shape.longest) v.shape d
    scaled passes g) rows.inside

/-- **The passes have stopped** in one of them: the ones before it have run, and it has
followed some order of its steps, up to the steps that fail. -/
structure StoppedIn (v : VolumeTransform T) (d : Direction) (scaled : Bool) (rest : Array T)
    (g : Nat → Nat → Nat → T) (j : Journal) (done : List Pass) (f : PassFailure)
    (orders : List (List (Nat × Step))) (order : List (Nat × Step)) (rows : ProbedStore R) :
    Prop where
  orders_interleave : List.Forall₂ (fun pass order => Interleaves (v.programs d scaled pass) order)
    done orders
  order_interleaves : Interleaves (v.programs d scaled f.pass) order
  arranged_eq : (j.after (accessesOfOrders orders)).arranged = f.journal.arranged
  leaves : (v.job d scaled f.pass).LeavesProbed v.shape.longest v.shape rest
    (imageOf (LineTransform.sharedPhase v.shape.longest) v.shape d scaled done g)
    (v.shares f.pass) (j.after (accessesOfOrders orders)) order rows

omit [Precision W] [Sample T W] in
theorem mem_shares_iff {share : Share} :
    share ∈ v.shares pass ↔
      ∃ w < max (v.passWorkers pass) 1, Share.dealt (v.passWorkers pass) w = share := by
  rw [shares_eq, Share.deal_eq, List.mem_map]
  simp only [List.mem_range]

omit [Precision W] [Sample T W] in
/-- Every outer index belongs to a share. -/
theorem exists_share (v : VolumeTransform T) (pass : Pass) {o : Nat}
    (ho : o < pass.outerCount v.shape) :
    ∃ share ∈ v.shares pass, o ∈ share.visits (pass.outerCount v.shape) := by
  have hw : o % max (v.passWorkers pass) 1 < max (v.passWorkers pass) 1 :=
    Nat.mod_lt _ (Share.workers_pos _)
  exact ⟨_, mem_shares_iff.2 ⟨_, hw, rfl⟩, (Share.mem_visits_dealt hw).2 ⟨ho, rfl⟩⟩

omit [Precision W] [RowStore R T] [RowView R T] [Sample T W] in
/-- Steps that meet nothing are all begun. -/
theorem begun_of_spared {order : List (Nat × Step)}
    (horder : Interleaves (v.programs d scaled pass) order)
    (hspared : (v.programs d scaled pass).findSome? j.raisedBy = none) :
    Roster.begun j.faultOf order (fun _ => none) = order := by
  refine Roster.begun_of_not_fails (fun x hx => ?_) fun _ => rfl
  obtain ⟨w, x⟩ := x
  obtain ⟨hw, hx⟩ := horder.mem_program hx
  have hprogram := List.findSome?_eq_none_iff.1 hspared _ (List.getElem_mem hw)
  exact Journal.raisedBy_eq_none_iff.1 hprogram x hx

/-- **A pass in which nothing is raised** leaves its image. -/
theorem Planned.holds_of_spared (hv : v.Planned) {order : List (Nat × Step)}
    {rows : ProbedStore R}
    (hspared : (v.programs d scaled pass).findSome? j.raisedBy = none)
    (h : (v.job d scaled pass).LeavesProbed v.shape.longest v.shape rest g (v.shares pass) j order
      rows) :
    RowView.Holds v.shape rest (pass.image (LineTransform.image
      (LineTransform.sharedPhase v.shape.longest (pass.lineLength v.shape))
      (pass.lineLength v.shape) d scaled) g) rows.inside := by
  obtain ⟨g', hholds, heither, hshare⟩ := h.holds
  rw [hv.lineImage_eq] at heither hshare
  refine hholds.congr fun i k l hikl => ?_
  by_cases hone : pass.lineLength v.shape = 1
  · -- The image is the volume itself.
    have himage := Planned.image_of_length_one (v := v) d scaled hone
      (LineTransform.sharedPhase v.shape.longest (pass.lineLength v.shape)) g
    rcases heither i k l hikl with heq | heq
    · rw [heq, himage]
    · exact heq
  · -- The element belongs to a share, and nothing is raised in it.
    obtain ⟨share, hmem, hvisits⟩ := v.exists_share pass (pass.outerIndex_lt hikl.1)
    refine hshare share hmem ?_ i k l hikl hvisits
    refine List.findSome?_eq_none_iff.1 hspared _ ?_
    unfold programs
    rw [if_neg hone]
    exact List.mem_map_of_mem hmem

/-- **The passes of a call**: all of them run, or they stop in the one that fails first. The
journal may have seen its accesses so far in another order than the one that tells the
failing pass. -/
theorem forM_probed (hv : v.Planned)
    {run : Pass → EStateM Failure (CallState (ProbedStore R) T) Unit}
    (hrun : ∀ pass, RunsProbed v d scaled bench pass (run pass)) (passes before : List Pass)
    {j j₀ : Journal} (hj : j.arranged = j₀.arranged) {inside : R} {b : Bench T}
    (hrows : RowView.Holds v.shape rest g inside) (hcut : b.SameCut bench) (events : List Event) :
    (v.firstFailureFrom d scaled before passes j₀ = none ∧
      ∃ s orders, passes.forM run ⟨⟨⟨inside, j⟩, b⟩, events⟩ = .ok () s ∧
        v.RanPasses d scaled rest g j passes orders s.workspace.rows) ∨
    ∃ f s done after orders order, v.firstFailureFrom d scaled before passes j₀ = some f ∧
      passes = done ++ f.pass :: after ∧ f.before = before ++ done ∧
      (v.programs d scaled f.pass).findSome? f.journal.raisedBy = some f.payload ∧
      passes.forM run ⟨⟨⟨inside, j⟩, b⟩, events⟩ =
        .error (.refused (.workerFailed f.pass f.payload.message)) s ∧
      v.StoppedIn d scaled rest g j done f orders order s.workspace.rows := by
  -- Induction on the passes: the first one runs, and the others go on from there, or it fails.
  induction passes generalizing before j j₀ g inside b events with
  | nil => exact Or.inl ⟨rfl, _, [], rfl, .nil, rfl, hrows⟩
  | cons pass passes ih =>
    obtain ⟨order, s, horder, hs, hcut', hleaves⟩ := hrun pass rest g inside j b events hrows hcut
    have hraised : j.raisedBy = j₀.raisedBy := by
      funext program
      unfold Journal.raisedBy
      rw [Journal.raises_congr hj]
    cases hfirst : (v.programs d scaled pass).findSome? j.raisedBy with
    | some payload =>
      refine Or.inr ⟨⟨before, pass, j₀, payload⟩, s, [], passes, [], order, ?_, rfl,
        (List.append_nil _).symm, ?_, ?_, ⟨.nil, horder, hj, hleaves⟩⟩
      · unfold firstFailureFrom
        rw [← hraised, hfirst]
      · rw [← hraised]
        exact hfirst
      · rw [hfirst] at hs
        exact Workspace.bind_of_error hs
    | none =>
      rw [hfirst] at hs
      have hjournal : s.workspace.rows.journal = j.after (accessesOf (order.map (·.2))) := by
        rw [hleaves.journal_eq, begun_of_spared horder hfirst]
      have hholds := hv.holds_of_spared hfirst hleaves
      have harranged : (j.after (accessesOf (order.map (·.2)))).arranged =
          (j₀.after (v.passAccesses d scaled pass)).arranged := by
        rw [Journal.arranged_after_of_perm (hv.accesses_perm horder), Journal.arranged_after,
          Journal.arranged_after, hj]
      have hfrom : v.firstFailureFrom d scaled before (pass :: passes) j₀ =
          v.firstFailureFrom d scaled (before ++ [pass]) passes
            (j₀.after (v.passAccesses d scaled pass)) := by
        rw [firstFailureFrom, ← hraised, hfirst]
      have hafter : ∀ orders, (j.after (accessesOf (order.map (·.2)))).after
          (accessesOfOrders orders) = j.after (accessesOfOrders (order :: orders)) := by
        intro orders
        unfold accessesOfOrders
        rw [List.flatMap_cons, Journal.after_append]
      obtain ⟨⟨⟨inside', j'⟩, b'⟩, events'⟩ := s
      dsimp only at hjournal hholds hcut' hs
      subst hjournal
      have hforM : (pass :: passes).forM run ⟨⟨⟨inside, j⟩, b⟩, events⟩ = passes.forM run
          ⟨⟨⟨inside', j.after (accessesOf (order.map (·.2)))⟩, b'⟩, events'⟩ :=
        Workspace.forM_cons_of_ok hs
      rcases ih (before ++ [pass]) harranged hholds hcut' events' with
        ⟨hnone, s', orders, hs', hran⟩ | ⟨f, s', done, after, orders, own, hf, rfl, hbefore,
          hpayload, hs', hstopped⟩
      · refine Or.inl ⟨hfrom.trans hnone, s', order :: orders, hforM.trans hs',
          .cons horder hran.orders_interleave, ?_, hran.holds⟩
        rw [hran.journal_eq, hafter]
      · have harranged' := hstopped.arranged_eq
        have hleaves' := hstopped.leaves
        rw [hafter] at harranged' hleaves'
        exact Or.inr ⟨f, s', pass :: done, after, order :: orders, own, hfrom.trans hf, rfl,
          by rw [hbefore, List.append_assoc, List.singleton_append], hpayload, hforM.trans hs',
          .cons horder hstopped.orders_interleave, hstopped.order_interleaves, harranged',
          hleaves'⟩

end Passes

/-! ### Calls with a journal -/

section Calls

variable {D R : Type} [Layout D R] [RowStore R T] [RowView R T] {bench : Bench T}
  {rest : Array T} {g : Nat → Nat → Nat → T} {data : ProbedVolume D} {inside : R}

/-- **A call whose passes follow orders of their steps** runs all of them, or it stops in the
one that fails first. -/
theorem callBy_probed (hv : v.Planned)
    (hbench : Bench.allocate v.workers v.gatheredLength v.spectrumLength = .ok bench)
    {run : Pass → EStateM Failure (CallState (ProbedStore R) T) Unit}
    (hrun : ∀ pass, RunsProbed v d scaled bench pass (run pass))
    (haddress : Layout.address v.shape data.inside = .ok inside)
    (hrows : RowView.Holds v.shape rest g inside) :
    (v.firstFailure d scaled data.journal = none ∧ ∃ (rows : ProbedStore R) (orders : _),
      (v.callBy d scaled run data).outcome = .ok () ∧
        (v.callBy d scaled run data).data = Layout.collect rows ∧
        v.RanPasses d scaled rest g data.journal Pass.inOrder orders rows) ∨
    ∃ (f : PassFailure) (rows : ProbedStore R) (after : List Pass) (orders : _) (order : _),
      v.firstFailure d scaled data.journal = some f ∧
        Pass.inOrder = f.before ++ f.pass :: after ∧
        (v.programs d scaled f.pass).findSome? f.journal.raisedBy = some f.payload ∧
        (v.callBy d scaled run data).outcome =
          .error (.refused (.workerFailed f.pass f.payload.message)) ∧
        (v.callBy d scaled run data).data = Layout.collect rows ∧
        v.StoppedIn d scaled rest g data.journal f.before f orders order rows := by
  have haddress' : Layout.address v.shape data = .ok (⟨inside, data.journal⟩ : ProbedStore R) :=
    Attempt.bind_eq_ok_iff.2 ⟨inside, haddress, rfl⟩
  rcases forM_probed hv hrun Pass.inOrder [] (Eq.refl data.journal.arranged) hrows
      Bench.SameCut.rfl [Event.callStarted v.shape d scaled,
        Event.benchReady bench.workers v.gatheredLength v.spectrumLength] with
    ⟨hnone, s, orders, hs, hran⟩ | ⟨f, s, done, after, orders, order, hf, hinOrder, hbefore,
      hpayload, hs, hstopped⟩
  · have hcall := callBy_of_ok haddress' hbench hs
    exact Or.inl ⟨hnone, s.workspace.rows, orders, by rw [hcall], by rw [hcall], hran⟩
  · rw [List.nil_append] at hbefore
    subst hbefore
    have hcall := callBy_of_error haddress' hbench hs
    exact Or.inr ⟨f, s.workspace.rows, after, orders, order, hf, hinOrder, hpayload,
      by rw [hcall], by rw [hcall], hstopped⟩

variable [LawfulRowStore R T]

/-- **What a call with a journal may report.** -/
theorem mayReport_probed (hv : v.Planned)
    (hbench : Bench.allocate v.workers v.gatheredLength v.spectrumLength = .ok bench)
    (haddress : Layout.address v.shape data.inside = .ok inside)
    (hrows : RowView.Holds v.shape rest g inside) {report : Report (ProbedVolume D)}
    (hreport : v.MayReport d scaled data report) :
    (v.firstFailure d scaled data.journal = none ∧ ∃ (rows : ProbedStore R) (orders : _),
      report.outcome = .ok () ∧ report.data = Layout.collect rows ∧
        v.RanPasses d scaled rest g data.journal Pass.inOrder orders rows) ∨
    ∃ (f : PassFailure) (rows : ProbedStore R) (after : List Pass) (orders : _) (order : _),
      v.firstFailure d scaled data.journal = some f ∧
        Pass.inOrder = f.before ++ f.pass :: after ∧
        (v.programs d scaled f.pass).findSome? f.journal.raisedBy = some f.payload ∧
        report.outcome = .error (.refused (.workerFailed f.pass f.payload.message)) ∧
        report.data = Layout.collect rows ∧
        v.StoppedIn d scaled rest g data.journal f.before f orders order rows := by
  have hequips := equips_of_allocate hbench
  rcases hreport with rfl | ⟨order, horder, rfl⟩
  · exact callBy_probed hv hbench (fun pass => runPass_probed hv hequips d scaled pass) haddress
      hrows
  · exact callBy_probed hv hbench (fun pass => runPassInOrder_probed hv hequips horder pass)
      haddress hrows

end Calls

end VolumeTransform

end CosineTransform
