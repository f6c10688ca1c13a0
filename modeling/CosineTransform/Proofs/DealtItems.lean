import Mathlib
import CosineTransform.Proofs.Accesses
import CosineTransform.Proofs.DealtShares
import CosineTransform.Proofs.PrivateRegions
import CosineTransform.Proofs.ScheduleIndependence

/-!
# The items that are dealt out

A pass pairs its shares with the regions of the bench, and pairing two lists drops what the
longer one has left over. `no_work_is_lost` says that nothing is dropped in any pass of any
call: the items of a pass are as many as the workers that share it, they are all its shares,
each of them goes with a region of its own, and together they visit every outer index once
(`VolumeTransform.DealsAll`). An item visits an outer index exactly when its program accesses
a row of it, and the programs of all items are together the program of the whole pass. With the largest word for a threshold, there is one item only.

The regions are those that the bench has when the pass begins, after earlier passes have used
it, and some of their items may have met faults. `Keeps` says of an action what it leaves as
it was. No action on a workspace changes how its bench is cut, in whatever row store, so all
passes of a call find the regions of the bench that was allocated
(`VolumeTransform.keeps_regions_runPass`), and the items of each of them can be told
beforehand (`VolumeTransform.items`).
-/

namespace CosineTransform

/-! ### What an action keeps -/

section Keeps

variable {ε σ α β γ : Type}

/-- The state that an action leaves, whether it succeeds or fails. -/
def leftBy (act : EStateM ε σ α) (s : σ) : σ :=
  match act s with
  | .ok _ s' => s'
  | .error _ s' => s'

/-- **What an action keeps**: something that is observed of the state is the same afterwards,
whether the action succeeds or fails. -/
def Keeps (observe : σ → γ) (act : EStateM ε σ α) : Prop :=
  ∀ s, observe (leftBy act s) = observe s

variable {observe : σ → γ}

theorem Keeps.of_ok {act : EStateM ε σ α} (h : Keeps observe act) {s s' : σ} {a : α}
    (heq : act s = .ok a s') : observe s' = observe s := by
  have hact := h s
  unfold leftBy at hact
  rwa [heq] at hact

theorem Keeps.of_error {act : EStateM ε σ α} (h : Keeps observe act) {s s' : σ} {e : ε}
    (heq : act s = .error e s') : observe s' = observe s := by
  have hact := h s
  unfold leftBy at hact
  rwa [heq] at hact

theorem Keeps.bind {act : EStateM ε σ α} {f : α → EStateM ε σ β} (h : Keeps observe act)
    (hf : ∀ a, Keeps observe (f a)) : Keeps observe (act >>= f) := by
  intro s
  cases heq : act s with
  | ok a s' =>
    have hleft : leftBy (act >>= f) s = leftBy (f a) s' := by
      unfold leftBy
      rw [Workspace.bind_of_ok heq]
    rw [hleft]
    exact (hf a s').trans (h.of_ok heq)
  | error e s' =>
    have hleft : leftBy (act >>= f) s = s' := by
      unfold leftBy
      rw [Workspace.bind_of_error heq]
    rw [hleft]
    exact h.of_error heq

theorem keeps_pure (a : α) : Keeps observe (pure a : EStateM ε σ α) :=
  fun _ => rfl

theorem keeps_lift (x : Checked α) : Keeps observe (Checked.lift x : EStateM Fault σ α) := by
  intro s
  cases x with
  | ok _ => rfl
  | error _ => rfl

theorem keeps_forM {ι : Type} {f : ι → EStateM ε σ Unit} (hf : ∀ x, Keeps observe (f x))
    (xs : List ι) : Keeps observe (xs.forM f) := by
  induction xs with
  | nil => exact keeps_pure ()
  | cons x xs ih => exact (hf x).bind fun _ => ih

/-- **Actions that agree** on the states of which something is observed agree one after the
other, when they keep what is observed. -/
theorem forM_congr_of_keeps {ι : Type} {f g : ι → EStateM ε σ Unit}
    (hf : ∀ x, Keeps observe (f x)) {seen : γ} (hfg : ∀ x s, observe s = seen → f x s = g x s)
    (xs : List ι) {s : σ} (hs : observe s = seen) : xs.forM f s = xs.forM g s := by
  induction xs generalizing s with
  | nil => rfl
  | cons x xs ih =>
    cases heq : f x s with
    | ok _ s' =>
      calc (x :: xs).forM f s
        _ = xs.forM f s' := Workspace.forM_cons_of_ok heq
        _ = xs.forM g s' := ih (((hf x).of_ok heq).trans hs)
        _ = (x :: xs).forM g s := (Workspace.forM_cons_of_ok ((hfg x s hs).symm.trans heq)).symm
    | error _ s' =>
      exact (Workspace.bind_of_error heq).trans
        (Workspace.bind_of_error ((hfg x s hs).symm.trans heq)).symm

theorem snd_outcome (task : EStateM Fault σ Unit) (s : σ) : (outcome task s).2 = leftBy task s := by
  unfold outcome leftBy
  cases task s with
  | ok _ _ => rfl
  | error _ _ => rfl

/-- An answer is given on the state that the items have left. -/
theorem Roster.keeps_verdict (pass : Pass) (faults : List (Option Fault)) :
    Keeps observe (verdict pass faults : EStateM TransformError σ Unit) := by
  intro s
  unfold leftBy verdict
  cases faults.findSome? id with
  | none => rfl
  | some _ => rfl

/-- A roster keeps what each of its items keeps. -/
theorem Roster.keeps_run {ι : Type} {task : ι → EStateM Fault σ Unit}
    (htask : ∀ item, Keeps observe (task item)) (crew : Crew) (pass : Pass) (items : List ι) :
    Keeps observe (Roster.run crew pass task items) := by
  intro s
  have houtcomes : ∀ (items : List ι) (s : σ), observe (outcomes task items s).2 = observe s := by
    intro items
    induction items with
    | nil => exact fun _ => rfl
    | cons item items ih =>
      intro s
      rw [outcomes_cons]
      exact (ih _).trans ((congrArg observe (snd_outcome _ _)).trans (htask item s))
  unfold leftBy
  rw [run_eq_verdict]
  exact (keeps_verdict pass _ _).trans (houtcomes items s)

end Keeps

/-! ### The regions of a bench in use -/

section Regions

variable {R T W α γ : Type}

theorem Workspace.keeps_onRows (observe : Bench T → γ) (act : EStateM Fault R α) :
    Keeps (fun w : Workspace R T => observe w.bench) (onRows act) := by
  rintro ⟨rows, bench⟩
  unfold leftBy onRows
  dsimp only
  cases act rows with
  | ok _ _ => rfl
  | error _ _ => rfl

theorem Workspace.keeps_onBench {observe : Bench T → γ} {act : EStateM Fault (Bench T) α}
    (h : Keeps observe act) :
    Keeps (fun w : Workspace R T => observe w.bench) (onBench act) := by
  rintro ⟨rows, bench⟩
  unfold leftBy onBench
  dsimp only
  cases heq : act bench with
  | ok _ _ => exact h.of_ok heq
  | error _ _ => exact h.of_error heq

namespace Bench

variable (window : Window)

theorem keeps_slot (m : Nat) : Keeps regions (slot (T := T) window m) := by
  intro s
  unfold leftBy slot
  cases window.place m with
  | error _ => rfl
  | ok p =>
    dsimp only
    split_ifs <;> rfl

theorem keeps_setSlot (m : Nat) (value : T) : Keeps regions (setSlot window m value) := by
  intro s
  unfold leftBy setSlot
  cases window.place m with
  | error _ => rfl
  | ok p =>
    dsimp only
    split_ifs <;> rfl

theorem keeps_line : Keeps regions (line (T := T) window) := by
  intro s
  unfold leftBy line
  dsimp only
  split_ifs <;> rfl

theorem keeps_setLine (values : Array T) : Keeps regions (setLine window values) := by
  intro s
  unfold leftBy setLine
  split_ifs <;> rfl

theorem keeps_spectrum : Keeps regions (spectrum (T := T) window) := by
  intro s
  unfold leftBy spectrum
  dsimp only
  split_ifs <;> rfl

theorem keeps_setSpectrum (values : Array (Cartesian T)) :
    Keeps regions (setSpectrum window values) := by
  intro s
  unfold leftBy setSpectrum
  split_ifs
  · -- The spectra are overlaid and keep their size.
    unfold regions workers
    dsimp only
    rw [Buffer.size_overlay]
    rfl
  · rfl

end Bench

namespace PassJob

variable [Precision W] [Sample T W] [RowStore R T]

/-- **A step** keeps the regions, also when it meets a fault. -/
theorem keeps_regions_step (job : PassJob T) (region : Region) (x : Step) :
    Keeps (fun w : Workspace R T => w.bench.regions) (job.step region x) := by
  cases x with
  | row i j =>
    refine (keeps_lift _).bind fun window => ?_
    refine (Workspace.keeps_onBench (Bench.keeps_spectrum _)).bind fun spectrum => ?_
    refine (Workspace.keeps_onRows Bench.regions _).bind fun worked => ?_
    exact Workspace.keeps_onBench (Bench.keeps_setSpectrum _ _)
  | load i j k slot =>
    refine (keeps_lift _).bind fun bundle => ?_
    refine (Workspace.keeps_onRows Bench.regions _).bind fun value => ?_
    exact Workspace.keeps_onBench (Bench.keeps_setSlot _ _ _)
  | line c =>
    refine (keeps_lift _).bind fun bundle => ?_
    refine (keeps_lift _).bind fun place => ?_
    refine (keeps_lift _).bind fun window => ?_
    refine (Workspace.keeps_onBench (Bench.keeps_line _)).bind fun line => ?_
    refine (Workspace.keeps_onBench (Bench.keeps_spectrum _)).bind fun spectrum => ?_
    refine (keeps_lift _).bind fun answer => ?_
    refine (Workspace.keeps_onBench (Bench.keeps_setLine _ _)).bind fun _ => ?_
    exact Workspace.keeps_onBench (Bench.keeps_setSpectrum _ _)
  | store i j k slot =>
    refine (keeps_lift _).bind fun bundle => ?_
    refine (Workspace.keeps_onBench (Bench.keeps_slot _ _)).bind fun value => ?_
    exact Workspace.keeps_onRows Bench.regions _

theorem keeps_regions_run (job : PassJob T) (share : Share) (region : Region) :
    Keeps (fun w : Workspace R T => w.bench.regions) (job.run share region) :=
  fun s => keeps_forM (job.keeps_regions_step region) _ s

end PassJob

namespace CallState

theorem keeps_emit (observe : Workspace R T → γ) (event : Event) :
    Keeps (fun s : CallState R T => observe s.workspace) (emit event) :=
  fun _ => rfl

theorem keeps_attempt (observe : Workspace R T → γ) (x : Attempt α) :
    Keeps (fun s : CallState R T => observe s.workspace) (attempt x) := by
  intro s
  cases x with
  | ok _ => rfl
  | error _ => rfl

theorem keeps_onWorkspace (observe : Workspace R T → γ)
    {act : EStateM TransformError (Workspace R T) Unit} (h : Keeps observe act) :
    Keeps (fun s : CallState R T => observe s.workspace) (onWorkspace act) := by
  rintro ⟨workspace, events⟩
  unfold leftBy onWorkspace
  dsimp only
  cases heq : act workspace with
  | ok _ _ => exact h.of_ok heq
  | error _ _ => exact h.of_error heq

end CallState

end Regions

/-- The programs of dealt shares are together the program of the whole pass. -/
theorem PassJob.program_deal_perm {T : Type} (job : PassJob T) (shape : Shape) (workers : Nat) :
    ((Share.deal workers).flatMap (job.program shape)).Perm (job.program shape Share.whole) := by
  have hwhole : (Share.whole.visits (job.pass.outerCount shape)).Perm
      (List.range (job.pass.outerCount shape)) := by
    have hperm := Share.visits_deal_perm 1 (job.pass.outerCount shape)
    rwa [show Share.deal 1 = [Share.whole] from rfl, List.flatMap_singleton] at hperm
  unfold program
  rw [← List.flatMap_assoc]
  exact ((Share.visits_deal_perm _ _).trans hwhole.symm).flatMap_right _

namespace VolumeTransform

variable {T W : Type} [Precision W] [Sample T W]

/-! ### The items of a pass -/

/-- **The items of a pass**: none for lines of length one, and otherwise each share with a
region of the bench. -/
def items (v : VolumeTransform T) (bench : Bench T) (pass : Pass) : List (Share × Region) :=
  if (v.lineTransform pass).length = 1 then [] else (v.shares pass).zip bench.regions

/-- **Given items are run** as a pass: their number is told, and they are put on a roster. A
pass without items is skipped. -/
def runItems {R : Type} [RowStore R T] (v : VolumeTransform T) (d : Direction) (scaled : Bool)
    (items : Pass → List (Share × Region)) (pass : Pass) :
    EStateM Failure (CallState R T) Unit :=
  match items pass with
  | [] => CallState.emit (.passSkipped pass)
  | item :: others => do
      CallState.emit (.passStarted pass (item :: others).length)
      let job ← CallState.attempt
        (Attempt.ofChecked (PassJob.prepare pass (v.lineTransform pass) v.shape d scaled))
      CallState.onWorkspace
        (Roster.run v.crew pass (fun (share, region) => job.run share region) (item :: others))

/-- **Nothing of a pass is lost**: the items are as many as the workers that share it, they
are all its shares, each with a region of its own, and together they take the steps of the
whole pass. -/
structure DealsAll (v : VolumeTransform T) (bench : Bench T) (pass : Pass)
    (items : List (Share × Region)) : Prop where
  /-- A large volume is shared by the crew, as far as there are indices. -/
  length_eq : items.length = if v.options.threshold ≤ v.volume then
    min v.crew.workers (pass.outerCount v.shape) else 1
  one_le : 1 ≤ items.length
  le_regions : items.length ≤ bench.regions.length
  /-- No share is dropped. -/
  shares_eq : items.map (·.1) = v.shares pass
  /-- The regions are the first ones of the bench, in their order. -/
  regions_eq : items.map (·.2) = bench.regions.take items.length
  apart : items.Pairwise fun x y => x.2.Apart y.2
  liesIn : ∀ x ∈ items, x.2.LiesIn bench
  /-- Together the items visit each outer index once. -/
  visits_perm : (items.flatMap fun x => x.1.visits (pass.outerCount v.shape)).Perm
    (List.range (pass.outerCount v.shape))
  /-- The outer indices of an item are those of the rows that its program accesses. -/
  visits_iff : ∀ d scaled job,
    PassJob.prepare pass (v.lineTransform pass) v.shape d scaled = .ok job →
    ∀ x ∈ items, ∀ o, o ∈ x.1.visits (pass.outerCount v.shape) ↔
      ∃ a ∈ accessesOf (job.program v.shape x.1), pass.outerIndex a.rowOf.1 a.rowOf.2 = o
  /-- Together the programs of the items are the program of the whole pass. -/
  programs_perm : ∀ d scaled job,
    PassJob.prepare pass (v.lineTransform pass) v.shape d scaled = .ok job →
    (items.flatMap fun x => job.program v.shape x.1).Perm (job.program v.shape Share.whole)

section Items

variable {v : VolumeTransform T} {bench : Bench T} {pass : Pass}

theorem Planned.one_le_outerCount (hv : v.Planned) (pass : Pass) :
    1 ≤ pass.outerCount v.shape := by
  have hextent : ∀ n ∈ v.shape.extents, 1 ≤ n := fun n hn =>
    Nat.pos_of_isPowerOfTwo (hv.extents n hn).1
  cases pass with
  | inner => exact hextent v.shape.slices (by simp [Shape.extents])
  | middle => exact hextent v.shape.slices (by simp [Shape.extents])
  | outer => exact hextent v.shape.rows (by simp [Shape.extents])

/-- A planned pass has a worker. -/
theorem Planned.one_le_passWorkers (hv : v.Planned) (pass : Pass) : 1 ≤ v.passWorkers pass :=
  le_min v.one_le_workers (hv.one_le_outerCount pass)

/-- The workers of a pass, when the crew has any. -/
theorem Planned.passWorkers_eq (hv : v.Planned) (hcrew : 1 ≤ v.crew.workers) (pass : Pass) :
    v.passWorkers pass = if v.options.threshold ≤ v.volume then
      min v.crew.workers (pass.outerCount v.shape) else 1 := by
  unfold passWorkers workers
  by_cases hlarge : v.options.threshold ≤ v.volume
  · rw [if_pos hlarge, if_pos hlarge, Nat.max_eq_left hcrew]
  · rw [if_neg hlarge, if_neg hlarge]
    exact Nat.min_eq_left (hv.one_le_outerCount pass)

theorem Planned.items_of_length_one (hv : v.Planned) (h : pass.lineLength v.shape = 1) :
    v.items bench pass = [] :=
  if_pos ((hv.length_eq pass).trans h)

/-- Each worker of a pass has a share and a region. -/
theorem Planned.items_eq (hv : v.Planned) (hbench : v.Equips bench)
    (h : 1 < pass.lineLength v.shape) :
    v.items bench pass = (List.range (v.passWorkers pass)).map fun w =>
      (Share.dealt (v.passWorkers pass) w, bench.region w) := by
  unfold items
  rw [if_neg (by rw [hv.length_eq]; exact Nat.ne_of_gt h), shares_eq,
    zip_regions (hbench.regions_pass Bench.SameCut.rfl pass),
    Nat.max_eq_left (hv.one_le_passWorkers pass)]

theorem Planned.length_items (hv : v.Planned) (hbench : v.Equips bench)
    (h : 1 < pass.lineLength v.shape) : (v.items bench pass).length = v.passWorkers pass := by
  rw [hv.items_eq hbench h, List.length_map, List.length_range]

/-- A pass accesses a row for each of its outer indices. -/
theorem Planned.exists_makes (hv : v.Planned) {o : Nat} (ho : o < pass.outerCount v.shape) :
    ∃ a, pass.Makes v.shape a ∧ pass.outerIndex a.rowOf.1 a.rowOf.2 = o := by
  have hpos : ∀ n ∈ v.shape.extents, 0 < n := fun n hn =>
    Nat.pos_of_isPowerOfTwo (hv.extents n hn).1
  have hslices := hpos v.shape.slices (by simp [Shape.extents])
  have hrows := hpos v.shape.rows (by simp [Shape.extents])
  have hcolumns := hpos v.shape.columns (by simp [Shape.extents])
  cases pass with
  | inner => exact ⟨.row o 0, ⟨rfl, ho, hrows⟩, rfl⟩
  | middle => exact ⟨.load o 0 0, ⟨by decide, ⟨ho, hrows⟩, hcolumns⟩, rfl⟩
  | outer => exact ⟨.load 0 o 0, ⟨by decide, ⟨hslices, ho⟩, hcolumns⟩, rfl⟩

/-- **The items of a pass** are all of its work. -/
theorem Planned.dealsAll_items (hv : v.Planned) (hcrew : 1 ≤ v.crew.workers)
    (hbench : v.Equips bench) (h : 1 < pass.lineLength v.shape) :
    v.DealsAll bench pass (v.items bench pass) := by
  have hone := hv.one_le_passWorkers pass
  have hregions : v.passWorkers pass ≤ bench.workers := by
    have hle := hbench.regions_pass Bench.SameCut.rfl pass
    rwa [Nat.max_eq_left hone] at hle
  have hlength := hv.length_items hbench h
  have hshares : (v.items bench pass).map (·.1) = v.shares pass := by
    rw [hv.items_eq hbench h, shares_eq, Share.deal_eq, Nat.max_eq_left hone, List.map_map]
    rfl
  have htake : (v.items bench pass).map (·.2) =
      bench.regions.take (v.items bench pass).length := by
    rw [hlength, hv.items_eq hbench h, List.map_map]
    unfold Bench.regions
    rw [← List.map_take, List.take_range, Nat.min_eq_left hregions]
    rfl
  constructor
  case length_eq => exact hlength.trans (hv.passWorkers_eq hcrew pass)
  case one_le => exact hone.trans_eq hlength.symm
  case le_regions =>
    rw [hlength]
    unfold Bench.regions
    rwa [List.length_map, List.length_range]
  case shares_eq => exact hshares
  case regions_eq => exact htake
  case apart =>
    have happart : ((v.items bench pass).map (·.2)).Pairwise Region.Apart := by
      rw [htake]
      exact bench.regions_apart.sublist (List.take_sublist _ _)
    exact List.pairwise_map.1 happart
  case liesIn =>
    intro x hx
    rw [hv.items_eq hbench h] at hx
    obtain ⟨w, hw, rfl⟩ := List.mem_map.1 hx
    have hworkers := (Nat.le_max_left _ 1).trans (v.passWorkers_le pass)
    exact Bench.liesIn_of_serves hbench.serves (by unfold Bundle.widest; omega) (by omega)
      ((List.mem_range.1 hw).trans_le hworkers)
  case visits_perm =>
    have hflat : ((v.items bench pass).flatMap fun x => x.1.visits (pass.outerCount v.shape)) =
        ((v.items bench pass).map (·.1)).flatMap (·.visits (pass.outerCount v.shape)) := by
      rw [List.flatMap_map]
    rw [hflat, hshares, shares_eq]
    exact Share.visits_deal_perm _ _
  case visits_iff =>
    intro d scaled job hjob x _ o
    rw [hv.prepare_eq] at hjob
    cases hjob
    have hmem : ∀ a, a ∈ accessesOf ((v.job d scaled pass).program v.shape x.1) ↔
        pass.Makes v.shape a ∧
          pass.outerIndex a.rowOf.1 a.rowOf.2 ∈ x.1.visits (pass.outerCount v.shape) :=
      fun _ => (hv.job_planned d scaled pass).mem_accesses_program
    constructor
    · intro ho
      -- A pass over a planned shape accesses some row for each outer index.
      obtain ⟨a, hmakes, rfl⟩ := hv.exists_makes (Share.mem_visits.1 ho).1
      exact ⟨a, (hmem a).2 ⟨hmakes, ho⟩, rfl⟩
    · rintro ⟨a, ha, rfl⟩
      exact ((hmem a).1 ha).2
  case programs_perm =>
    intro d scaled job hjob
    rw [hv.prepare_eq] at hjob
    cases hjob
    have hflat : ((v.items bench pass).flatMap fun x => (v.job d scaled pass).program v.shape x.1) =
        ((v.items bench pass).map (·.1)).flatMap ((v.job d scaled pass).program v.shape) := by
      rw [List.flatMap_map]
    rw [hflat, hshares, shares_eq]
    exact (v.job d scaled pass).program_deal_perm v.shape _

/-- With the largest word for a threshold, one item takes the whole pass. -/
theorem Planned.items_of_threshold_last (hv : v.Planned) (hbench : v.Equips bench)
    (hlast : v.options.threshold = Word.last) (h : 1 < pass.lineLength v.shape) :
    v.items bench pass = [(Share.whole, bench.region 0)] := by
  have hsmall : ¬ v.options.threshold ≤ v.volume := by
    rw [hlast]
    exact Nat.not_le_of_lt hv.volume_lt_last
  have hworkers : v.passWorkers pass = 1 := by
    unfold passWorkers workers
    rw [if_neg hsmall]
    exact Nat.min_eq_left (hv.one_le_outerCount pass)
  rw [hv.items_eq hbench h, hworkers]
  rfl

end Items

/-! ### The items of a call -/

section Calls

variable {D R : Type} [Layout D R] [RowStore R T] {v : VolumeTransform T} {bench : Bench T}

/-- **A pass keeps the regions** of the bench, also when it fails. -/
theorem keeps_regions_runPass (v : VolumeTransform T) (d : Direction) (scaled : Bool)
    (pass : Pass) :
    Keeps (fun s : CallState R T => s.workspace.bench.regions) (v.runPass d scaled pass) := by
  unfold runPass
  dsimp only
  split_ifs
  · exact CallState.keeps_emit (·.bench.regions) _
  · refine (CallState.keeps_attempt (·.bench.regions) _).bind fun shares => ?_
    refine (CallState.keeps_emit (·.bench.regions) _).bind fun _ => ?_
    refine (CallState.keeps_attempt (·.bench.regions) _).bind fun job => ?_
    refine CallState.keeps_onWorkspace (·.bench.regions) fun w => ?_
    -- The roster is made up when the pass begins, and is a roster of items all the same.
    have hitem : ∀ item : Share × Region,
        Keeps (fun w : Workspace R T => w.bench.regions) (job.run item.1 item.2) :=
      fun item => job.keeps_regions_run item.1 item.2
    exact Roster.keeps_run hitem v.crew pass (shares.zip w.bench.regions) w

/-- A pass that finds the regions of a bench runs the items that go with it. -/
theorem Planned.runPass_eq_runItems (hv : v.Planned) (hbench : v.Equips bench) (d : Direction)
    (scaled : Bool) (pass : Pass) {s : CallState R T}
    (hs : s.workspace.bench.regions = bench.regions) :
    v.runPass d scaled pass s = v.runItems d scaled (v.items bench) pass s := by
  rw [runPass_eq_runPassBy]
  by_cases hone : pass.lineLength v.shape = 1
  · refine (runPassBy_of_eq_one hv hone d scaled _ s).trans ?_
    unfold runItems
    rw [hv.items_of_length_one hone]
    rfl
  · have hpos := Nat.pos_of_isPowerOfTwo (hv.served pass).length_pow
    have hcount := hv.length_items hbench (show 1 < pass.lineLength v.shape by omega)
    have hitems : v.items bench pass = (v.shares pass).zip s.workspace.bench.regions := by
      unfold items
      rw [if_neg (by rwa [hv.length_eq]), hs]
    have hne : v.items bench pass ≠ [] :=
      List.ne_nil_of_length_pos (hcount ▸ hv.one_le_passWorkers pass)
    obtain ⟨item, others, hcons⟩ := List.exists_cons_of_ne_nil hne
    refine (runPassBy_of_ne_one hv hbench hone d scaled _ s).trans ?_
    unfold runItems
    rw [hcons]
    dsimp only
    rw [hv.prepare_eq, ← hcons, hcount, hitems]
    rfl

/-- **No work is lost.** A call of a planned transform runs, in each of its passes, items that
are known when the bench is there, whatever the data, the row store and earlier passes do: no
items for lines of length one, and otherwise all the work of the pass. One item takes the
whole pass when the threshold is the largest word, which no volume is, whoever is hired. -/
theorem no_work_is_lost {host : Host} {options : SharingOptions} {shape : Shape}
    (hv : plan host options shape = .ok v) (hcrew : 1 ≤ v.crew.workers)
    (hbench : Bench.allocate v.workers v.gatheredLength v.spectrumLength = .ok bench) :
    (∀ (d : Direction) (scaled : Bool) (data : D),
      v.call d scaled data = v.callBy d scaled (v.runItems d scaled (v.items bench)) data) ∧
    (∀ pass, pass.lineLength shape = 1 → v.items bench pass = []) ∧
    (∀ pass, 1 < pass.lineLength shape → v.DealsAll bench pass (v.items bench pass)) ∧
    v.volume < Word.last ∧
    (options.threshold = Word.last → ∀ pass, 1 < pass.lineLength shape →
      v.items bench pass = [(Share.whole, bench.region 0)]) ∧
    (∀ staffing, (SharingOptions.serial.withStaffing staffing).threshold = Word.last) := by
  obtain ⟨hplanned, rfl, rfl⟩ := planned_of_plan hv
  have hequips := equips_of_allocate hbench
  refine ⟨fun d scaled data => ?_, fun _ => hplanned.items_of_length_one,
    fun _ => hplanned.dealsAll_items hcrew hequips, hplanned.volume_lt_last,
    fun hlast _ => hplanned.items_of_threshold_last hequips hlast, fun _ => rfl⟩
  rw [call_eq_callBy]
  unfold callBy
  rw [hbench]
  cases Layout.address v.shape data with
  | error _ => rfl
  | ok rows =>
    dsimp only
    rw [forM_congr_of_keeps (v.keeps_regions_runPass d scaled)
      (fun pass _ hs => hplanned.runPass_eq_runItems hequips d scaled pass hs) Pass.inOrder rfl]

end Calls

/-- Two workers of their own on a volume of `2 × 2 × 4` doubles get an item each, and one item
is left when the transform is serial. -/
theorem no_work_is_lost_two_workers :
    ∃ (v serial : VolumeTransform Float) (bench serialBench : Bench Float),
      plan (.willing 1) ⟨0, .own 2⟩ ⟨2, 2, 4⟩ = .ok v ∧ 1 ≤ v.crew.workers ∧
      Bench.allocate v.workers v.gatheredLength v.spectrumLength = .ok bench ∧
      (v.items bench .inner).length = 2 ∧
      v.call .forward true (⟨Array.replicate 16 1⟩ : FlatVolume Float) =
        v.callBy .forward true (v.runItems .forward true (v.items bench))
          ⟨Array.replicate 16 1⟩ ∧
      plan (.willing 1) (SharingOptions.serial.withStaffing (.own 2)) ⟨2, 2, 4⟩ = .ok serial ∧
      1 ≤ serial.crew.workers ∧
      Bench.allocate serial.workers serial.gatheredLength serial.spectrumLength =
        .ok serialBench ∧
      serial.items serialBench .inner = [(Share.whole, serialBench.region 0)] := by
  have hserial : plan (.willing 1) (SharingOptions.serial.withStaffing (.own 2)) ⟨2, 2, 4⟩ =
      .ok (plannedFor (.willing 1) (SharingOptions.serial.withStaffing (.own 2)) ⟨2, 2, 4⟩ 16 :
        VolumeTransform Float) :=
    plan_eq_ok_iff.2 ⟨by decide, Crew.canHire_willing (by decide), 16, by decide, rfl⟩
  obtain ⟨bench, hbench⟩ := allocate_small (T := Float)
  obtain ⟨serialBench, hserialBench⟩ := exists_allocate_one hbench
  obtain ⟨hcall, -, hdeals, -⟩ :=
    no_work_is_lost (D := FlatVolume Float) (plan_small (T := Float)) (by decide) hbench
  obtain ⟨-, -, -, -, hlast, -⟩ :=
    no_work_is_lost (D := FlatVolume Float) hserial (by decide) hserialBench
  refine ⟨_, _, bench, serialBench, plan_small, by decide, hbench, ?_, hcall _ _ _, hserial,
    by decide, hserialBench, hlast rfl .inner (by decide)⟩
  exact (hdeals .inner (by decide)).length_eq

end VolumeTransform

end CosineTransform
