import Mathlib
import CosineTransform.Proofs.LawfulLayouts
import CosineTransform.Proofs.Schedules
import CosineTransform.Volume.Plane

/-!
# What a call computes

Planning succeeds for extents that are powers of two, a volume that is a word, tables
that there is room for and a crew that the host provides; the transforms of the
three passes then share the table of the longest extent (`plan_eq_ok_iff`).

`VolumeTransform.imageOf` is the volume with its three passes applied one after the
other. A call on data that is addressed and a bench that is allocated succeeds and
leaves this image (`call_eq`). The proof is made once for all ways to run a pass
(`callBy_eq`): the only thing that matters is that each pass leaves its image and
does not change how the bench is cut. Running the roster is one such way
(`runPass_leavesImage`), following a schedule is another (`runPassInOrder_leavesImage`).
-/

namespace CosineTransform

/-! ### Benches of a call -/

namespace Bench

variable {T : Type} {b : Bench T}

theorem Serves.mono {workers slots entries workers' slots' entries' : Nat}
    (h : b.Serves workers slots entries) (hworkers : workers' ≤ workers) (hslots : slots' ≤ slots)
    (hentries : entries' ≤ entries) : b.Serves workers' slots' entries' :=
  ⟨(Nat.mul_le_mul_right _ hworkers).trans h.lines_le,
    (Nat.mul_le_mul_right _ hworkers).trans h.spectra_le, hslots.trans h.slots_le,
    hentries.trans h.entries_le⟩

/-- There is room for a bench for some number of workers: for the elements of its lines and
for the entries of its spectra, both counted in bytes. -/
structure HasRoom (T : Type) [Stored T] (workers lineLength spectrumLength : Nat) : Prop where
  lines : Stored.bytes T * (max workers 1 * (Bundle.widest * max lineLength 1)) < Word.byteBound
  spectra : 2 * Stored.bytes T * (max workers 1 * max spectrumLength 1) < Word.byteBound

instance (T : Type) [Stored T] (workers lineLength spectrumLength : Nat) :
    Decidable (HasRoom T workers lineLength spectrumLength) :=
  decidable_of_iff
    (Stored.bytes T * (max workers 1 * (Bundle.widest * max lineLength 1)) < Word.byteBound ∧
      2 * Stored.bytes T * (max workers 1 * max spectrumLength 1) < Word.byteBound)
    ⟨fun h => ⟨h.1, h.2⟩, fun h => ⟨h.lines, h.spectra⟩⟩

/-- There is room for a bench whatever its samples are, if there is with the widest ones. -/
theorem HasRoom.of_lt [Stored T] {workers lineLength spectrumLength : Nat}
    (hlines : 8 * (max workers 1 * (Bundle.widest * max lineLength 1)) < Word.byteBound)
    (hspectra : 2 * 8 * (max workers 1 * max spectrumLength 1) < Word.byteBound) :
    HasRoom T workers lineLength spectrumLength where
  lines := lt_of_le_of_lt (Nat.mul_le_mul_right _ (Width.bytes_le_eight _)) hlines
  spectra := lt_of_le_of_lt
    (Nat.mul_le_mul_right _ (Nat.mul_le_mul_left _ (Width.bytes_le_eight _))) hspectra

theorem HasRoom.lines_lt [Stored T] {workers lineLength spectrumLength : Nat}
    (h : HasRoom T workers lineLength spectrumLength) :
    max workers 1 * (Bundle.widest * max lineLength 1) < Word.bound :=
  Word.lt_bound_of_reserve (Stored.bytes_pos T) h.lines

theorem HasRoom.spectra_lt [Stored T] {workers lineLength spectrumLength : Nat}
    (h : HasRoom T workers lineLength spectrumLength) :
    max workers 1 * max spectrumLength 1 < Word.bound :=
  Word.lt_bound_of_reserve (Nat.mul_pos Nat.two_pos (Stored.bytes_pos T)) h.spectra

/-- **A bench is allocated** exactly when there is room for it. -/
theorem allocate_eq_ok_iff [Zero T] [Stored T] {workers lineLength spectrumLength : Nat} :
    allocate workers lineLength spectrumLength = .ok b ↔
      HasRoom T workers lineLength spectrumLength ∧
      b = ⟨Array.replicate (max workers 1 * (Bundle.widest * max lineLength 1)) 0,
        Array.replicate (max workers 1 * max spectrumLength 1) 0,
        Bundle.widest * max lineLength 1, max spectrumLength 1⟩ := by
  unfold allocate
  constructor
  · intro h
    obtain ⟨lineRoom, hroom, h⟩ := Checked.bind_eq_ok_iff.1 h
    obtain ⟨lines, hlines, h⟩ := Checked.bind_eq_ok_iff.1 h
    obtain ⟨_, hlines', h⟩ := Checked.bind_eq_ok_iff.1 h
    obtain ⟨entries, hentries, h⟩ := Checked.bind_eq_ok_iff.1 h
    obtain ⟨_, hentries', h⟩ := Checked.bind_eq_ok_iff.1 h
    obtain ⟨-, rfl⟩ := Word.mul_eq_ok_iff.1 hroom
    obtain ⟨-, rfl⟩ := Word.mul_eq_ok_iff.1 hlines
    obtain ⟨-, rfl⟩ := Word.mul_eq_ok_iff.1 hentries
    exact ⟨⟨Word.reserve_eq_ok_iff.1 hlines', Word.reserve_eq_ok_iff.1 hentries'⟩,
      (Except.ok.inj h).symm⟩
  · rintro ⟨hroom, rfl⟩
    -- One region is no more than all regions together.
    have hline : Bundle.widest * max lineLength 1 < Word.bound :=
      lt_of_le_of_lt (Nat.le_mul_of_pos_left _ (by omega)) hroom.lines_lt
    dsimp only
    rw [Word.mul_of_lt hline, Checked.ok_bind, Word.mul_of_lt hroom.lines_lt, Checked.ok_bind,
      Word.reserve_of_lt hroom.lines, Checked.ok_bind, Word.mul_of_lt hroom.spectra_lt,
      Checked.ok_bind, Word.reserve_of_lt hroom.spectra]
    rfl

/-- Where there is room for a bench, there is room for the list of the shares of its
workers. -/
theorem HasRoom.shares [Stored T] {workers lineLength spectrumLength : Nat}
    (h : HasRoom T workers lineLength spectrumLength) :
    Share.bytes * max workers 1 < Word.byteBound := by
  refine lt_of_le_of_lt ?_ h.lines
  have hbytes : 4 ≤ Stored.bytes T := Width.four_le_bytes _
  have hline : 4 ≤ Bundle.widest * max lineLength 1 := by
    unfold Bundle.widest
    omega
  calc Share.bytes * max workers 1
      = 4 * (max workers 1 * 4) := by unfold Share.bytes Word.bytes; omega
    _ ≤ Stored.bytes T * (max workers 1 * (Bundle.widest * max lineLength 1)) :=
        Nat.mul_le_mul hbytes (Nat.mul_le_mul_left _ hline)

/-- **A fresh bench** has a region for each worker, with the room that was asked for. -/
theorem serves_of_allocate [Zero T] [Stored T] {workers lineLength spectrumLength : Nat}
    (h : allocate workers lineLength spectrumLength = .ok b) :
    b.Serves (max workers 1) (Bundle.widest * max lineLength 1) (max spectrumLength 1) ∧
      b.workers = max workers 1 := by
  obtain ⟨-, rfl⟩ := allocate_eq_ok_iff.1 h
  refine ⟨⟨by simp, by simp, le_rfl, le_rfl⟩, ?_⟩
  unfold Bench.workers
  rw [Array.size_replicate]
  exact Nat.mul_div_cancel _ (by omega)

end Bench

theorem Bundle.width_ofColumns_dvd {columns : Nat} (h : columns.isPowerOfTwo) :
    (Bundle.ofColumns columns).width ∣ columns := by
  obtain ⟨e, rfl⟩ := h
  unfold Bundle.ofColumns Bundle.widest
  -- A power of two from four on is a multiple of four.
  by_cases he : 4 ≤ 2 ^ e
  · rw [if_pos he]
    exact Nat.pow_dvd_pow 2 ((Nat.pow_le_pow_iff_right (by omega)).1 (show 2 ^ 2 ≤ 2 ^ e from he))
  · rw [if_neg he]
    by_cases he' : 2 ^ e = 2
    · rw [if_pos he', he']
      rfl
    · rw [if_neg he']
      exact one_dvd _

/-- The row store of data that is addressed holds what its rows have. -/
theorem LawfulLayout.holds_of_address {D R T : Type} [Zero T] [Layout D R] [RowStore R T]
    [RowView R T] [LawfulRowStore R T] [Indexed D T] [LawfulLayout D] {shape : Shape} {data : D}
    {rows : R} (h : Layout.address shape data = .ok rows) :
    RowView.Holds shape (RowView.rest rows) (fun i j k => (RowView.row rows i j).getD k 0) rows := by
  obtain ⟨hsound, hshape⟩ := LawfulLayout.sound_of_address (T := T) h
  have hrows := RowView.Holds.of_sound hsound
  rwa [hshape] at hrows

/-- The row store of data that is addressed holds what the data holds. -/
theorem LawfulLayout.holds_iff {D R T : Type} [Layout D R] [RowStore R T] [RowView R T]
    [Indexed D T] [LawfulLayout D] {shape : Shape} {data : D} {rows : R}
    {g : Nat → Nat → Nat → T} (h : Layout.address shape data = .ok rows) :
    Indexed.Holds shape data g ↔ RowView.Holds shape (RowView.rest rows) g rows := by
  obtain ⟨hsound, hshape⟩ := LawfulLayout.sound_of_address (T := T) h
  constructor
  · exact fun hdata => ⟨hsound, hshape, rfl, fun i j k hijk =>
      (LawfulLayout.element?_eq h hijk).symm.trans (hdata i j k hijk)⟩
  · exact fun hrows i j k hijk => (LawfulLayout.element?_eq h hijk).trans (hrows.element i j k hijk)

namespace VolumeTransform

variable {T W : Type} [Precision W] [Sample T W]

/-! ### Planning -/

/-- The transform that planning makes. -/
def plannedFor (host : Host) (options : SharingOptions) (shape : Shape) (volume : Nat) :
    VolumeTransform T where
  shape := shape
  volume := volume
  inner := LineTransform.shared shape.longest shape.columns
  middle := LineTransform.shared shape.longest shape.rows
  outer := LineTransform.shared shape.longest shape.slices
  options := options
  crew := ⟨options.staffing, host.threads⟩

theorem checkExtents_eq_ok_iff {shape : Shape} {u : Unit} :
    checkExtents shape = .ok u ↔ ∀ n ∈ shape.extents, n.isPowerOfTwo := by
  -- The axis that is reported does not matter for whether the check passes.
  have key : ∀ (extents : List Nat) (axis : Nat),
      (extents.zipIdx axis).forM (fun x =>
        if x.1.isPowerOfTwo then .ok ()
        else (Attempt.refuse (.notPowerOfTwo x.2 x.1) : Attempt Unit)) =
        (.ok u : Attempt Unit) ↔ ∀ n ∈ extents, n.isPowerOfTwo := by
    intro extents
    induction extents with
    | nil => intro axis; simp
    | cons n extents ih =>
      intro axis
      rw [List.zipIdx_cons, List.forall_mem_cons, ← ih (axis + 1)]
      by_cases hn : n.isPowerOfTwo
      · simp [List.forM, hn]
      · simp [List.forM, hn, Attempt.refuse]
  exact key shape.extents 0

theorem grown_extents {shape : Shape} (h : 0 < shape.longest) :
    (CircleTable.grown (shape.extents.foldl max 0) : CircleTable T) =
      CircleTable.complete shape.longest := by
  rw [show shape.extents.foldl max 0 = shape.longest by simp [Shape.extents, Shape.longest],
    CircleTable.grown_of_pos h]

/-- The longest of three powers of two is one of them. -/
theorem longest_mem (shape : Shape) : shape.longest ∈ shape.extents := by
  unfold Shape.longest Shape.extents
  simp only [List.mem_cons, List.not_mem_nil, or_false]
  omega

omit [Precision W] in
/-- Each extent is served by the table of the longest one. -/
theorem served_of_extents {shape : Shape}
    (h : ∀ n ∈ shape.extents, n.isPowerOfTwo ∧ HalfCircle.HasRoom T n) (pass : Pass) :
    LineTransform.Served T shape.longest (pass.lineLength shape) := by
  have hlongest := h _ (longest_mem shape)
  have hmem : pass.lineLength shape ∈ shape.extents := by
    cases pass <;> simp [Pass.lineLength, Shape.extents]
  -- The longest extent is one of the three, so what is known of them is known of it.
  refine ⟨hlongest.1, (h _ hmem).1, ?_, hlongest.2⟩
  unfold Pass.lineLength Shape.longest
  cases pass with
  | inner => exact Nat.le_max_right _ _
  | middle => exact (Nat.le_max_right _ _).trans (Nat.le_max_left _ _)
  | outer => exact (Nat.le_max_left _ _).trans (Nat.le_max_left _ _)

/-- **Planning** succeeds for powers of two, a volume that is a word, tables that there
is room for, and a crew that the host provides. -/
theorem plan_eq_ok_iff {host : Host} {options : SharingOptions} {shape : Shape}
    {v : VolumeTransform T} :
    plan host options shape = .ok v ↔
      (∀ n ∈ shape.extents, n.isPowerOfTwo ∧ HalfCircle.HasRoom T n) ∧
      Crew.CanHire host options.staffing ∧
      ∃ volume, shape.volume = some volume ∧ v = plannedFor host options shape volume := by
  unfold plan
  constructor
  · intro h
    -- The checks in the order in which planning makes them: extents, volume, table, lines, crew.
    obtain ⟨u, hextents, h⟩ := Attempt.bind_eq_ok_iff.1 h
    rw [checkExtents_eq_ok_iff] at hextents
    cases hvolume : shape.volume with
    | none => simp [hvolume, Attempt.refuse] at h
    | some volume =>
      rw [hvolume] at h
      obtain ⟨table, htable, h⟩ := Attempt.bind_eq_ok_iff.1 h
      rw [Attempt.liftM_eq_ok_iff, CircleTable.ofLengths_eq_ok_iff] at htable
      obtain ⟨hrooms, rfl⟩ := htable
      have hserved := served_of_extents hrooms
      -- The table is the complete one of the longest extent, and all three lengths are served.
      rw [grown_extents (Nat.pos_of_isPowerOfTwo (hserved .inner).table_pow),
        show shape.slices = Pass.outer.lineLength shape from rfl, (hserved .outer).onTable_eq,
        show shape.rows = Pass.middle.lineLength shape from rfl, (hserved .middle).onTable_eq,
        show shape.columns = Pass.inner.lineLength shape from rfl,
        (hserved .inner).onTable_eq] at h
      simp only [Attempt.liftM_ok, Attempt.ok_bind] at h
      obtain ⟨crew, hcrew, h⟩ := Attempt.bind_eq_ok_iff.1 h
      obtain ⟨hcan, rfl⟩ := Crew.hire_eq_ok_iff.1 hcrew
      exact ⟨hrooms, hcan, volume, rfl, (Except.ok.inj h).symm⟩
  · rintro ⟨hrooms, hcan, volume, hvolume, rfl⟩
    have hserved := served_of_extents hrooms
    have htable : CircleTable.ofLengths shape.extents =
        .ok (CircleTable.complete shape.longest : CircleTable T) :=
      CircleTable.ofLengths_eq_ok_iff.2 ⟨hrooms, (grown_extents
        (Nat.pos_of_isPowerOfTwo (hserved .inner).table_pow)).symm⟩
    rw [(checkExtents_eq_ok_iff (u := ())).2 fun n hn => (hrooms n hn).1, Attempt.ok_bind, hvolume]
    dsimp only
    rw [htable, Attempt.liftM_ok, Attempt.ok_bind,
      show shape.slices = Pass.outer.lineLength shape from rfl, (hserved .outer).onTable_eq,
      Attempt.liftM_ok, Attempt.ok_bind, show shape.rows = Pass.middle.lineLength shape from rfl,
      (hserved .middle).onTable_eq, Attempt.liftM_ok, Attempt.ok_bind,
      show shape.columns = Pass.inner.lineLength shape from rfl, (hserved .inner).onTable_eq,
      Attempt.liftM_ok, Attempt.ok_bind, Crew.hire_eq_ok_iff.2 ⟨hcan, rfl⟩]
    rfl

/-- What is known of a planned transform. -/
structure Planned (v : VolumeTransform T) : Prop where
  extents : ∀ n ∈ v.shape.extents, n.isPowerOfTwo ∧ HalfCircle.HasRoom T n
  volume_eq : v.shape.volume = some v.volume
  lineTransform_eq : ∀ pass,
    v.lineTransform pass = LineTransform.shared v.shape.longest (pass.lineLength v.shape)

theorem planned_of_plan {host : Host} {options : SharingOptions} {shape : Shape}
    {v : VolumeTransform T} (h : plan host options shape = .ok v) :
    v.Planned ∧ v.shape = shape ∧ v.options = options := by
  obtain ⟨hrooms, -, volume, hvolume, rfl⟩ := plan_eq_ok_iff.1 h
  refine ⟨⟨hrooms, hvolume, fun pass => ?_⟩, rfl, rfl⟩
  cases pass <;> rfl

/-! ### The image of a volume -/

/-- **The image of a volume** under the passes in a list, with the half circle `phase n`
for lines of length `n`. -/
def imageOf (phase : Nat → Nat → Cartesian T) (shape : Shape) (d : Direction) (scaled : Bool)
    (passes : List Pass) (g : Nat → Nat → Nat → T) : Nat → Nat → Nat → T :=
  passes.foldl (fun g pass => pass.image (LineTransform.image (phase (pass.lineLength shape))
    (pass.lineLength shape) d scaled) g) g

/-- When doubling keeps angles, the image of a volume does not depend on the table. -/
theorem imageOf_sharedPhase (hW : Precision.AnglesDouble W) {shape : Shape}
    (h : ∀ n ∈ shape.extents, n.isPowerOfTwo ∧ HalfCircle.HasRoom T n) (d : Direction)
    (scaled : Bool) (passes : List Pass) (g : Nat → Nat → Nat → T) :
    imageOf (LineTransform.sharedPhase shape.longest) shape d scaled passes g =
      imageOf HalfCircle.phasor shape d scaled passes g := by
  unfold imageOf
  simp only [fun pass => LineTransform.sharedPhase_eq (T := T) hW (served_of_extents h pass)]

/-- The job of a pass of a planned transform. -/
def job (v : VolumeTransform T) (d : Direction) (scaled : Bool) (pass : Pass) : PassJob T where
  pass := pass
  transform := v.lineTransform pass
  direction := d
  scaled := scaled
  bundle := .ofColumns v.shape.columns

namespace Planned

variable {v : VolumeTransform T}

theorem served (h : v.Planned) (pass : Pass) :
    LineTransform.Served T v.shape.longest (pass.lineLength v.shape) :=
  served_of_extents h.extents pass

theorem length_eq (h : v.Planned) (pass : Pass) :
    (v.lineTransform pass).length = pass.lineLength v.shape := by
  rw [h.lineTransform_eq]
  rfl

theorem prepare_eq (h : v.Planned) (d : Direction) (scaled : Bool) (pass : Pass) :
    PassJob.prepare pass (v.lineTransform pass) v.shape d scaled = .ok (v.job d scaled pass) := by
  unfold PassJob.prepare
  rw [require_of (h.length_eq pass)]
  rfl

theorem job_planned (h : v.Planned) (d : Direction) (scaled : Bool) (pass : Pass) :
    (v.job d scaled pass).Planned v.shape v.shape.longest :=
  ⟨h.served pass, h.lineTransform_eq pass,
    Bundle.width_ofColumns_dvd (h.extents _ (by simp [Shape.extents])).1⟩

/-- What the job of a pass makes of a line. -/
theorem lineImage_eq (h : v.Planned) (d : Direction) (scaled : Bool) (pass : Pass) :
    (v.job d scaled pass).lineImage v.shape.longest =
      LineTransform.image (LineTransform.sharedPhase v.shape.longest (pass.lineLength v.shape))
        (pass.lineLength v.shape) d scaled := by
  unfold PassJob.lineImage
  rw [(h.job_planned d scaled pass).length_eq]
  rfl

/-- A pass over lines of length one leaves the volume as it is. -/
theorem image_of_length_one (d : Direction) (scaled : Bool) {pass : Pass}
    (h : pass.lineLength v.shape = 1) (phase : Nat → Cartesian T) (g : Nat → Nat → Nat → T) :
    pass.image (LineTransform.image phase (pass.lineLength v.shape) d scaled) g = g := by
  funext i j k
  rw [h]
  cases pass <;> simp [Pass.image]

theorem slots_le (h : v.Planned) (d : Direction) (scaled : Bool) (pass : Pass) :
    (v.job d scaled pass).slots ≤ Bundle.widest * max v.gatheredLength 1 := by
  have hwidth := Bundle.width_le_widest (v.job d scaled pass).bundle
  have hlength := (h.job_planned d scaled pass).length_eq
  unfold PassJob.slots
  -- Only the inner pass takes lines of columns, and it gathers nothing.
  by_cases hpass : (v.job d scaled pass).pass = .inner
  · rw [if_pos hpass]
    exact Nat.zero_le _
  · rw [if_neg hpass]
    refine Nat.mul_le_mul hwidth ?_
    rw [hlength]
    unfold gatheredLength Pass.lineLength
    cases pass with
    | inner => exact absurd rfl hpass
    | middle => exact (Nat.le_max_right _ _).trans (Nat.le_max_left _ _)
    | outer => exact (Nat.le_max_left _ _).trans (Nat.le_max_left _ _)

theorem spectrumLength_le (h : v.Planned) (d : Direction) (scaled : Bool) (pass : Pass) :
    (v.job d scaled pass).transform.spectrumLength ≤ max v.spectrumLength 1 := by
  have hlength := (h.job_planned d scaled pass).length_eq
  have hle := (h.served pass).length_le
  unfold LineTransform.spectrumLength VolumeTransform.spectrumLength
  rw [hlength]
  have hhalf : (v.job d scaled pass).pass.lineLength v.shape / 2 ≤ v.shape.longest / 2 :=
    Nat.div_le_div_right hle
  omega

end Planned

/-! ### Workers and shares -/

theorem one_le_workers (v : VolumeTransform T) : 1 ≤ v.workers := by
  unfold workers
  split <;> omega

theorem passWorkers_le (v : VolumeTransform T) (pass : Pass) :
    max (v.passWorkers pass) 1 ≤ v.workers := by
  have h := v.one_le_workers
  unfold passWorkers
  omega

omit [Precision W] [Sample T W] in
/-- **The shares of a pass** are those of its dealt workers; a single one takes all. -/
theorem shares_eq (v : VolumeTransform T) (pass : Pass) :
    v.shares pass = Share.deal (v.passWorkers pass) := by
  unfold shares
  by_cases h : 1 < v.passWorkers pass
  · rw [if_pos h]
  · rw [if_neg h]
    have hone : max (v.passWorkers pass) 1 = 1 := by omega
    simp only [Share.deal, hone]
    rfl

omit [Precision W] [Sample T W] in
theorem zip_regions {workers : Nat} {b : Bench T} (h : max workers 1 ≤ b.workers) :
    (Share.deal workers).zip b.regions =
      (List.range (max workers 1)).map fun w => (Share.dealt workers w, b.region w) := by
  -- Shares and regions are both listed by worker, and there is a region for each share.
  apply List.ext_getElem
  · simp only [Share.deal_eq, Bench.regions, List.length_zip, List.length_map, List.length_range]
    omega
  · intro m hm hm'
    simp [Share.deal_eq, Bench.regions]

/-! ### Running passes -/

section Runs

variable {R : Type} [RowStore R T] [RowView R T]

/-- The bench has regions for all workers of a call. -/
structure Equips (v : VolumeTransform T) (b : Bench T) : Prop where
  serves : b.Serves v.workers (Bundle.widest * max v.gatheredLength 1) (max v.spectrumLength 1)
  workers_eq : b.workers = v.workers
  shares_room : Share.bytes * v.workers < Word.byteBound

omit [Precision W] [RowStore R T] [RowView R T] in
theorem equips_of_allocate {v : VolumeTransform T} {b : Bench T}
    (h : Bench.allocate v.workers v.gatheredLength v.spectrumLength = .ok b) : v.Equips b := by
  obtain ⟨hserves, hworkers⟩ := Bench.serves_of_allocate h
  have hshares := (Bench.allocate_eq_ok_iff.1 h).1.shares
  rw [Nat.max_eq_left v.one_le_workers] at hserves hworkers hshares
  exact ⟨hserves, hworkers, hshares⟩

omit [Precision W] [RowStore R T] [RowView R T] in
/-- There is room for the shares of every pass. -/
theorem Equips.dealShares_eq {v : VolumeTransform T} {b : Bench T} (h : v.Equips b)
    (pass : Pass) : v.dealShares pass = .ok (v.shares pass) := by
  have hroom : Share.bytes * max (v.passWorkers pass) 1 < Word.byteBound :=
    lt_of_le_of_lt (Nat.mul_le_mul_left _ (v.passWorkers_le pass)) h.shares_room
  unfold dealShares shares
  split
  · unfold Share.dealOut
    rw [Word.reserve_of_lt hroom]
    rfl
  · rfl

omit [RowStore R T] [RowView R T] in
/-- A bench that was cut for the call serves each of its passes, whatever it holds. -/
theorem Equips.serves_pass {v : VolumeTransform T} {b bench : Bench T} (h : v.Equips bench)
    (hv : v.Planned) (hcut : b.SameCut bench) (d : Direction) (scaled : Bool) (pass : Pass) :
    b.Serves (max (v.passWorkers pass) 1) (v.job d scaled pass).slots
      (v.job d scaled pass).transform.spectrumLength :=
  (h.serves.of_sameCut hcut).mono (v.passWorkers_le pass) (hv.slots_le d scaled pass)
    (hv.spectrumLength_le d scaled pass)

omit [Precision W] [RowStore R T] [RowView R T] in
/-- There is a region for each of the workers of a pass. -/
theorem Equips.regions_pass {v : VolumeTransform T} {b bench : Bench T} (h : v.Equips bench)
    (hcut : b.SameCut bench) (pass : Pass) : max (v.passWorkers pass) 1 ≤ b.workers := by
  have hworkers := v.passWorkers_le pass
  unfold Bench.workers
  rw [hcut.size_spectra, hcut.spectrumRoom_eq]
  exact hworkers.trans h.workers_eq.ge

/-- **One pass leaves its image.** -/
def LeavesImage (v : VolumeTransform T) (d : Direction) (scaled : Bool) (bench : Bench T)
    (pass : Pass) (run : EStateM Failure (CallState R T) Unit) : Prop :=
  ∀ (rest : Array T) (g : Nat → Nat → Nat → T) (s : CallState R T),
    RowView.Holds v.shape rest g s.workspace.rows → s.workspace.bench.SameCut bench →
    ∃ s', run s = .ok () s' ∧
      RowView.Holds v.shape rest (pass.image (LineTransform.image
        (LineTransform.sharedPhase v.shape.longest (pass.lineLength v.shape))
        (pass.lineLength v.shape) d scaled) g) s'.workspace.rows ∧
      s'.workspace.bench.SameCut bench

/-- **Passes one after the other** leave the image of all of them. -/
theorem forM_leavesImage {v : VolumeTransform T} {d : Direction} {scaled : Bool} {bench : Bench T}
    {run : Pass → EStateM Failure (CallState R T) Unit} (passes : List Pass)
    (hrun : ∀ pass ∈ passes, LeavesImage v d scaled bench pass (run pass)) {rest : Array T}
    {g : Nat → Nat → Nat → T} {s : CallState R T}
    (hrows : RowView.Holds v.shape rest g s.workspace.rows)
    (hcut : s.workspace.bench.SameCut bench) :
    ∃ s', passes.forM run s = .ok () s' ∧
      RowView.Holds v.shape rest (imageOf (LineTransform.sharedPhase v.shape.longest) v.shape d
        scaled passes g) s'.workspace.rows := by
  -- Induction on the passes: each of them finds the image that those before it have left.
  induction passes generalizing g s with
  | nil => exact ⟨s, rfl, hrows⟩
  | cons pass passes ih =>
    obtain ⟨hpass, hpasses⟩ := List.forall_mem_cons.1 hrun
    obtain ⟨s', hs', hrows', hcut'⟩ := hpass rest g s hrows hcut
    obtain ⟨s'', hs'', hrows''⟩ := ih hpasses hrows' hcut'
    exact ⟨s'', (Workspace.forM_cons_of_ok hs').trans hs'', hrows''⟩

/-- A pass that is skipped, or else done by some action on the workspace. -/
def runPassBy (v : VolumeTransform T) (d : Direction) (scaled : Bool) (pass : Pass)
    (act : List Share → PassJob T → EStateM TransformError (Workspace R T) Unit) :
    EStateM Failure (CallState R T) Unit := do
  let transform := v.lineTransform pass
  if transform.length = 1 then
    CallState.emit (.passSkipped pass)
  else
    let shares ← CallState.attempt (Attempt.ofChecked (v.dealShares pass))
    CallState.emit (.passStarted pass (v.passWorkers pass))
    let job ← CallState.attempt
      (Attempt.ofChecked (PassJob.prepare pass transform v.shape d scaled))
    CallState.onWorkspace (act shares job)

omit [RowStore R T] [RowView R T] in
/-- A pass over lines of length one is skipped. -/
theorem runPassBy_of_eq_one {v : VolumeTransform T} (hv : v.Planned) {pass : Pass}
    (hone : pass.lineLength v.shape = 1) (d : Direction) (scaled : Bool)
    (act : List Share → PassJob T → EStateM TransformError (Workspace R T) Unit)
    (s : CallState R T) :
    v.runPassBy d scaled pass act s = .ok () ⟨s.workspace, s.events ++ [.passSkipped pass]⟩ := by
  unfold runPassBy
  rw [if_pos ((hv.length_eq pass).trans hone)]
  rfl

omit [RowStore R T] [RowView R T] in
/-- Any other pass of an equipped call hands its shares and its job to the action. -/
theorem runPassBy_of_ne_one {v : VolumeTransform T} (hv : v.Planned) {bench : Bench T}
    (hbench : v.Equips bench) {pass : Pass} (hone : pass.lineLength v.shape ≠ 1) (d : Direction)
    (scaled : Bool) (act : List Share → PassJob T → EStateM TransformError (Workspace R T) Unit)
    (s : CallState R T) :
    v.runPassBy d scaled pass act s =
      CallState.onWorkspace (act (v.shares pass) (v.job d scaled pass))
        ⟨s.workspace, s.events ++ [.passStarted pass (v.passWorkers pass)]⟩ := by
  unfold runPassBy
  rw [if_neg (by rw [hv.length_eq]; exact hone), hv.prepare_eq, hbench.dealShares_eq]
  rfl

/-- **A pass leaves its image** when the action for its job does. -/
theorem runPassBy_leavesImage {v : VolumeTransform T} (hv : v.Planned) {d : Direction}
    {scaled : Bool} {bench : Bench T} (hbench : v.Equips bench) {pass : Pass}
    {act : List Share → PassJob T → EStateM TransformError (Workspace R T) Unit}
    (hact : ∀ (rest : Array T) (g : Nat → Nat → Nat → T) (rows : R) (b : Bench T),
      RowView.Holds v.shape rest g rows → b.SameCut bench →
      ∃ st, act (v.shares pass) (v.job d scaled pass) ⟨rows, b⟩ = .ok () st ∧
        RowView.Holds v.shape rest
          (pass.image ((v.job d scaled pass).lineImage v.shape.longest) g) st.rows ∧
        st.bench.SameCut bench) :
    LeavesImage v d scaled bench pass (v.runPassBy d scaled pass act) := by
  intro rest g s hrows hcut
  obtain ⟨⟨rows, b⟩, events⟩ := s
  by_cases hone : pass.lineLength v.shape = 1
  · -- Lines of length one are their own images.
    refine ⟨_, runPassBy_of_eq_one hv hone d scaled act _, ?_, hcut⟩
    rwa [Planned.image_of_length_one d scaled hone]
  · -- Otherwise the action does the job of the pass.
    obtain ⟨st, hst, hrows', hcut'⟩ := hact rest g rows b hrows hcut
    rw [hv.lineImage_eq] at hrows'
    refine ⟨⟨st, events ++ [.passStarted pass (v.passWorkers pass)]⟩, ?_, hrows', hcut'⟩
    rw [runPassBy_of_ne_one hv hbench hone]
    unfold CallState.onWorkspace
    dsimp only
    rw [hst]

variable [LawfulRowStore R T]

omit [RowView R T] [LawfulRowStore R T] in
theorem runPass_eq_runPassBy (v : VolumeTransform T) (d : Direction) (scaled : Bool)
    (pass : Pass) :
    v.runPass (R := R) d scaled pass = v.runPassBy d scaled pass fun shares job w =>
      Roster.run v.crew pass (fun x : Share × Region => job.run x.1 x.2)
        (shares.zip w.bench.regions) w :=
  rfl

/-- **Running the roster of a pass** leaves its image. -/
theorem runPass_leavesImage {v : VolumeTransform T} (hv : v.Planned) {bench : Bench T}
    (hbench : v.Equips bench) (d : Direction) (scaled : Bool) (pass : Pass) :
    LeavesImage (R := R) v d scaled bench pass (v.runPass d scaled pass) := by
  rw [runPass_eq_runPassBy]
  refine runPassBy_leavesImage hv hbench fun rest g rows b hrows hcut => ?_
  have hserves := hbench.serves_pass hv hcut d scaled pass
  have hregions := hbench.regions_pass hcut pass
  obtain ⟨st, hst, hrows', hcut'⟩ :=
    PassJob.roster_run_eq (hv.job_planned d scaled pass) hserves hrows v.crew pass
  refine ⟨st, ?_, hrows', hcut'.trans hcut⟩
  dsimp only
  rw [shares_eq, zip_regions hregions]
  exact hst

/-- **One pass of a call in a given order** of the steps of its workers. -/
def runPassInOrder (v : VolumeTransform T) (order : Pass → List (Nat × Step)) (d : Direction)
    (scaled : Bool) (pass : Pass) : EStateM Failure (CallState R T) Unit :=
  v.runPassBy d scaled pass fun shares job =>
    job.runInterleaved shares.length (order pass)

/-- A schedule of a call: for each pass, an interleaving of the programs of its shares. -/
def IsSchedule (v : VolumeTransform T) (d : Direction) (scaled : Bool)
    (order : Pass → List (Nat × Step)) : Prop :=
  ∀ pass job, PassJob.prepare pass (v.lineTransform pass) v.shape d scaled = .ok job →
    Interleaves ((v.shares pass).map (job.program v.shape)) (order pass)

theorem runPassInOrder_leavesImage {v : VolumeTransform T} (hv : v.Planned) {bench : Bench T}
    (hbench : v.Equips bench) {d : Direction} {scaled : Bool} {order : Pass → List (Nat × Step)}
    (horder : v.IsSchedule d scaled order) (pass : Pass) :
    LeavesImage (R := R) v d scaled bench pass (v.runPassInOrder order d scaled pass) := by
  refine runPassBy_leavesImage hv hbench fun rest g rows b hrows hcut => ?_
  have hserves := hbench.serves_pass hv hcut d scaled pass
  have hinterleaves := horder pass _ (hv.prepare_eq d scaled pass)
  rw [shares_eq] at hinterleaves
  obtain ⟨st, hst, hrows', hcut'⟩ :=
    PassJob.runInterleaved_eq (hv.job_planned d scaled pass) hserves hrows hinterleaves
  refine ⟨st, ?_, hrows', hcut'.trans hcut⟩
  rw [shares_eq, show (Share.deal (v.passWorkers pass)).length = max (v.passWorkers pass) 1 by
    simp [Share.deal]]
  exact hst

end Runs

/-! ### Calls -/

section Calls

variable {D R : Type} [Layout D R] [RowStore R T]

/-- A call with a given way to run its passes. -/
def callBy (v : VolumeTransform T) (d : Direction) (scaled : Bool)
    (run : Pass → EStateM Failure (CallState R T) Unit) (data : D) : Report D :=
  let started := Event.callStarted v.shape d scaled
  match Layout.address v.shape data with
  | .error failure => ⟨.error failure, data, [started]⟩
  | .ok rows =>
      match Bench.allocate v.workers v.gatheredLength v.spectrumLength with
      | .error fault => ⟨.error (.fault fault), Layout.collect rows, [started]⟩
      | .ok bench =>
          let allocated := Event.benchReady bench.workers v.gatheredLength v.spectrumLength
          match Pass.inOrder.forM run ⟨⟨rows, bench⟩, [started, allocated]⟩ with
          | .ok _ s => ⟨.ok (), Layout.collect s.workspace.rows, s.events⟩
          | .error failure s => ⟨.error failure, Layout.collect s.workspace.rows, s.events⟩

theorem call_eq_callBy (v : VolumeTransform T) (d : Direction) (scaled : Bool) (data : D) :
    v.call d scaled data = v.callBy d scaled (v.runPass d scaled) data :=
  rfl

/-- **A call whose passes follow a schedule.** -/
def callInOrder (v : VolumeTransform T) (order : Pass → List (Nat × Step)) (d : Direction)
    (scaled : Bool) (data : D) : Report D :=
  v.callBy d scaled (v.runPassInOrder order d scaled) data

section Reports

variable {v : VolumeTransform T} {d : Direction} {scaled : Bool} {bench : Bench T} {data : D}
  {rows : R} {run : Pass → EStateM Failure (CallState R T) Unit} {s : CallState R T}

omit [Precision W] [RowStore R T] in
/-- The report of a call whose passes succeed. -/
theorem callBy_of_ok (haddress : Layout.address v.shape data = .ok rows)
    (hbench : Bench.allocate v.workers v.gatheredLength v.spectrumLength = .ok bench)
    (hrun : Pass.inOrder.forM run ⟨⟨rows, bench⟩, [Event.callStarted v.shape d scaled,
      Event.benchReady bench.workers v.gatheredLength v.spectrumLength]⟩ = .ok () s) :
    v.callBy d scaled run data = ⟨.ok (), Layout.collect s.workspace.rows, s.events⟩ := by
  unfold callBy
  rw [haddress]
  dsimp only
  rw [hbench]
  dsimp only
  rw [hrun]

omit [Precision W] [RowStore R T] in
/-- The report of a call whose passes fail. -/
theorem callBy_of_error {failure : Failure} (haddress : Layout.address v.shape data = .ok rows)
    (hbench : Bench.allocate v.workers v.gatheredLength v.spectrumLength = .ok bench)
    (hrun : Pass.inOrder.forM run ⟨⟨rows, bench⟩, [Event.callStarted v.shape d scaled,
      Event.benchReady bench.workers v.gatheredLength v.spectrumLength]⟩ = .error failure s) :
    v.callBy d scaled run data = ⟨.error failure, Layout.collect s.workspace.rows, s.events⟩ := by
  unfold callBy
  rw [haddress]
  dsimp only
  rw [hbench]
  dsimp only
  rw [hrun]

end Reports

variable [RowView R T]

/-- **A call whose passes leave their images** succeeds with the image of the volume. -/
theorem callBy_eq {v : VolumeTransform T} {d : Direction} {scaled : Bool} {bench : Bench T}
    (hbench : Bench.allocate v.workers v.gatheredLength v.spectrumLength = .ok bench)
    {run : Pass → EStateM Failure (CallState R T) Unit}
    (hrun : ∀ pass, LeavesImage v d scaled bench pass (run pass)) {data : D} {rows : R}
    (haddress : Layout.address v.shape data = .ok rows) {rest : Array T}
    {g : Nat → Nat → Nat → T} (hrows : RowView.Holds v.shape rest g rows) :
    ∃ rows' : R, (v.callBy d scaled run data).outcome = .ok () ∧
      (v.callBy d scaled run data).data = Layout.collect rows' ∧
      RowView.Holds v.shape rest (imageOf (LineTransform.sharedPhase v.shape.longest) v.shape d
        scaled Pass.inOrder g) rows' := by
  obtain ⟨s, hs, hrows'⟩ := forM_leavesImage Pass.inOrder (fun pass _ => hrun pass)
    (s := ⟨⟨rows, bench⟩, [Event.callStarted v.shape d scaled,
      Event.benchReady bench.workers v.gatheredLength v.spectrumLength]⟩) hrows Bench.SameCut.rfl
  have hcall := callBy_of_ok haddress hbench hs
  exact ⟨s.workspace.rows, by rw [hcall], by rw [hcall], hrows'⟩

variable [LawfulRowStore R T] {v : VolumeTransform T} {bench : Bench T} {data : D} {rows : R}
  {rest : Array T} {g : Nat → Nat → Nat → T}

/-- **A call** of a planned transform succeeds, for every data that is addressed and every
bench that is allocated, and leaves the image of the volume. -/
theorem call_eq (hv : v.Planned)
    (hbench : Bench.allocate v.workers v.gatheredLength v.spectrumLength = .ok bench)
    (haddress : Layout.address v.shape data = .ok rows)
    (hrows : RowView.Holds v.shape rest g rows) (d : Direction) (scaled : Bool) :
    ∃ rows' : R, (v.call d scaled data).outcome = .ok () ∧
      (v.call d scaled data).data = Layout.collect rows' ∧
      RowView.Holds v.shape rest (imageOf (LineTransform.sharedPhase v.shape.longest) v.shape d
        scaled Pass.inOrder g) rows' :=
  callBy_eq hbench (fun pass => runPass_leavesImage hv (equips_of_allocate hbench) d scaled pass)
    haddress hrows

/-- **A call in any order** that is a schedule leaves the image of the volume as well. -/
theorem callInOrder_eq (hv : v.Planned)
    (hbench : Bench.allocate v.workers v.gatheredLength v.spectrumLength = .ok bench)
    {d : Direction} {scaled : Bool} {order : Pass → List (Nat × Step)}
    (horder : v.IsSchedule d scaled order)
    (haddress : Layout.address v.shape data = .ok rows)
    (hrows : RowView.Holds v.shape rest g rows) :
    ∃ rows' : R, (v.callInOrder order d scaled data).outcome = .ok () ∧
      (v.callInOrder order d scaled data).data = Layout.collect rows' ∧
      RowView.Holds v.shape rest (imageOf (LineTransform.sharedPhase v.shape.longest) v.shape d
        scaled Pass.inOrder g) rows' :=
  callBy_eq hbench (fun pass =>
    runPassInOrder_leavesImage hv (equips_of_allocate hbench) horder pass) haddress hrows

/-- **The report of a call**, whether it runs its rosters or follows a schedule. -/
def MayReport (v : VolumeTransform T) (d : Direction) (scaled : Bool) (data : D)
    (report : Report D) : Prop :=
  report = v.call d scaled data ∨
    ∃ order, v.IsSchedule d scaled order ∧ report = v.callInOrder order d scaled data

/-- **Data that is addressed** is transformed, in any schedule. -/
theorem mayReport_ok (hv : v.Planned)
    (hbench : Bench.allocate v.workers v.gatheredLength v.spectrumLength = .ok bench)
    (haddress : Layout.address v.shape data = .ok rows)
    (hrows : RowView.Holds v.shape rest g rows) {d : Direction} {scaled : Bool}
    {report : Report D} (hreport : v.MayReport d scaled data report) :
    report.outcome = .ok () := by
  rcases hreport with rfl | ⟨order, horder, rfl⟩
  · obtain ⟨-, houtcome, -⟩ := call_eq hv hbench haddress hrows d scaled
    exact houtcome
  · obtain ⟨-, houtcome, -⟩ := callInOrder_eq hv hbench horder haddress hrows
    exact houtcome

omit [RowView R T] [LawfulRowStore R T] in
/-- **Data that is not addressed** is left as it is. -/
theorem mayReport_error {failure : Failure}
    (haddress : Layout.address v.shape data = .error failure) {d : Direction} {scaled : Bool}
    {report : Report D} (hreport : v.MayReport d scaled data report) :
    report.outcome = .error failure ∧ report.data = data := by
  have hcall : ∀ run : Pass → EStateM Failure (CallState R T) Unit,
      v.callBy d scaled run data = ⟨.error failure, data, [.callStarted v.shape d scaled]⟩ := by
    intro run
    unfold callBy
    rw [haddress]
  rcases hreport with rfl | ⟨order, -, rfl⟩
  · rw [call_eq_callBy, hcall]
    exact ⟨rfl, rfl⟩
  · unfold callInOrder
    rw [hcall]
    exact ⟨rfl, rfl⟩

end Calls

end VolumeTransform

/-! ### A small call -/

namespace VolumeTransform

section Small

variable {T W : Type} [Precision W] [Sample T W]

/-- Two workers of their own on a volume of `2 × 2 × 4` elements. -/
theorem plan_small : plan (.willing 1) ⟨0, .own 2⟩ ⟨2, 2, 4⟩ =
    .ok (plannedFor (.willing 1) ⟨0, .own 2⟩ ⟨2, 2, 4⟩ 16 : VolumeTransform T) :=
  have hextents : ∀ n ∈ Shape.extents ⟨2, 2, 4⟩, n.isPowerOfTwo ∧ 32 * n < Word.byteBound := by
    decide
  plan_eq_ok_iff.2 ⟨fun n hn => ⟨(hextents n hn).1, .of_lt (hextents n hn).2⟩,
    Crew.canHire_willing (by decide), 16, by decide, rfl⟩

omit [Precision W] in
/-- Their bench. -/
theorem allocate_small : ∃ bench : Bench T, Bench.allocate 2 2 2 = .ok bench :=
  ⟨_, Bench.allocate_eq_ok_iff.2 ⟨.of_lt (by decide) (by decide), rfl⟩⟩

/-- A buffer of the size of the volume. -/
theorem address_small (x : T) :
    Layout.address ⟨2, 2, 4⟩ (⟨Array.replicate 16 x⟩ : FlatVolume T) =
      .ok (⟨⟨2, 2, 4⟩, Array.replicate 16 x⟩ : FlatStore T) :=
  FlatStore.ofBuffer_eq_ok_iff.2 ⟨⟨16, by decide, by simp⟩, rfl⟩

end Small

end VolumeTransform

/-! ### Planes -/

/-- A plane is planned as a volume of one slice. -/
theorem PlaneTransform.plan_eq_ok_iff {T W : Type} [Precision W] [Sample T W]
    {host : Host} {rows columns : Nat} {options : SharingOptions} {p : PlaneTransform T} :
    plan host options rows columns = .ok p ↔
      VolumeTransform.plan host options ⟨1, rows, columns⟩ = .ok p.volume := by
  obtain ⟨volume⟩ := p
  unfold plan
  cases (VolumeTransform.plan host options ⟨1, rows, columns⟩ :
    Attempt (VolumeTransform T)) <;> simp

end CosineTransform
