import Mathlib
import CosineTransform.Proofs.ListedLayouts
import CosineTransform.Proofs.ProbedCalls
import CosineTransform.Sample.Binary

/-!
# Calls of a planned transform have no faults

Rows and regions of the bench are handed out without checks of their own: what keeps a
call within its bounds are relations between sizes that are fixed elsewhere. A pass whose
lines are longer than one is **within bounds** (`PassSafe`) when its transform is the one
for its lines, when its accesses lie in the shape, and when each region of the bench lies in
its buffers and has room for a spectrum and, if lines are gathered, for a bundle of them.

`answers_safely` says that all passes of a planned transform are within bounds, and what
is therefore left for a call to answer: data that is too short or ragged is refused and left
as it is, and everything else is transformed, in any schedule of the workers. In particular
no call ends in a fault, and no worker fails.

The inner pass gathers nothing and transforms rows where they lie, so the regions are not
made for bundles of its lines, and they may be too small for them
(`inner_bundle_exceeds_region`).
-/

namespace CosineTransform

namespace VolumeTransform

variable {T W : Type} [Precision W] [Sample T W]

/-! ### Passes within their bounds -/

/-- **A pass within its bounds.** -/
structure PassSafe (v : VolumeTransform T) (bench : Bench T) (d : Direction) (scaled : Bool)
    (pass : Pass) : Prop where
  /-- The requirements of planning are met on the table that is shared. -/
  onTable_eq : LineTransform.onTable (pass.lineLength v.shape) (v.lineTransform pass).table =
    .ok (v.lineTransform pass)
  /-- The transform is the one for the lines of the pass. -/
  prepare_eq : PassJob.prepare pass (v.lineTransform pass) v.shape d scaled =
    .ok (v.job d scaled pass)
  /-- There is a region for each work item. -/
  items_le : (v.programs d scaled pass).length ≤ bench.regions.length
  /-- Rows and elements are those of the shape. -/
  inside : ∀ program ∈ v.programs d scaled pass, ∀ a ∈ accessesOf program, pass.Makes v.shape a
  /-- Regions lie in the buffers of the bench. -/
  region_le : ∀ region ∈ bench.regions,
    region.lines.start + region.lines.size ≤ bench.lines.size ∧
      region.spectrum.start + region.spectrum.size ≤ bench.spectra.size
  /-- Regions have room for the spectrum of a line. -/
  spectrum_room : ∀ region ∈ bench.regions,
    pass.lineLength v.shape / 2 ≤ region.spectrum.size ∧
      ∃ window, (v.job d scaled pass).spectrumWindow region = .ok window
  /-- Regions have room for a bundle of lines that are gathered. -/
  bundle_room : pass ≠ .inner → ∀ region ∈ bench.regions,
    (v.job d scaled pass).bundle.width * pass.lineLength v.shape ≤ region.lines.size ∧
      ∃ window, (v.job d scaled pass).bundleWindow region = .ok window
  /-- Lines of the length of the pass are transformed, on every spectrum that is long enough. -/
  line_ok : ∀ (line : Array T) (spectrum : Array (Cartesian T)),
    line.size = pass.lineLength v.shape →
    (v.lineTransform pass).spectrumLength ≤ spectrum.size →
    ∃ answer, (v.lineTransform pass).callOn d scaled line spectrum = .ok answer

/-- **Indices and sizes are words.** -/
structure SizesAreWords (v : VolumeTransform T) (bench : Bench T) : Prop where
  volume_lt : v.volume < Word.bound
  offset_lt : ∀ i j k, v.shape.Has i j k → v.shape.offset i j k < v.volume
  rowNumber_lt : ∀ i j, v.shape.HasRow i j → v.shape.rowNumber i j < Word.bound
  lines_lt : bench.lines.size < Word.bound
  spectra_lt : bench.spectra.size < Word.bound

variable {v : VolumeTransform T} {bench : Bench T}

theorem Planned.sizesAreWords (hv : v.Planned)
    (hbench : Bench.allocate v.workers v.gatheredLength v.spectrumLength = .ok bench)
    (hroom : v.shape.HasTableRoom) : v.SizesAreWords bench := by
  obtain ⟨hvolume, hlt⟩ := Shape.volume_eq_some hv.volume_eq
  obtain ⟨hbenchRoom, rfl⟩ := Bench.allocate_eq_ok_iff.1 hbench
  refine ⟨hlt, fun i j k hijk => ?_, fun i j hij => ?_, ?_, ?_⟩
  · rw [hvolume]
    exact Shape.offset_lt hijk
  · exact (Shape.rowNumber_lt hij).trans hroom.count_lt
  · rw [Array.size_replicate]
    exact hbenchRoom.lines_lt
  · rw [Array.size_replicate]
    exact hbenchRoom.spectra_lt

omit [Precision W] in
theorem mem_regions {region : Region} (h : v.Equips bench) :
    region ∈ bench.regions ↔ ∃ w < v.workers, bench.region w = region := by
  unfold Bench.regions
  rw [List.mem_map, h.workers_eq]
  simp only [List.mem_range]

omit [Precision W] [Sample T W] in
theorem mem_programs {d : Direction} {scaled : Bool} {pass : Pass} {program : List Step}
    (h : program ∈ v.programs d scaled pass) :
    ∃ share, (v.job d scaled pass).program v.shape share = program := by
  by_cases hone : pass.lineLength v.shape = 1
  · rw [programs_of_length_one hone] at h
    cases h
  · rw [programs_of_length_ne_one hone] at h
    obtain ⟨share, -, hshare⟩ := List.mem_map.1 h
    exact ⟨share, hshare⟩

/-- There are no more work items than regions. -/
theorem Equips.items_le (h : v.Equips bench) (d : Direction) (scaled : Bool) (pass : Pass) :
    (v.programs d scaled pass).length ≤ bench.regions.length := by
  by_cases hone : pass.lineLength v.shape = 1
  · rw [programs_of_length_one hone]
    exact Nat.zero_le _
  · rw [programs_of_length_ne_one hone, List.length_map, Share.length_deal, Bench.regions,
      List.length_map, List.length_range]
    exact h.regions_pass Bench.SameCut.rfl pass

/-- **The passes of a planned transform** are within their bounds. -/
theorem Planned.passSafe (hv : v.Planned) (hbench : v.Equips bench) (d : Direction)
    (scaled : Bool) (pass : Pass) : v.PassSafe bench d scaled pass := by
  have hjob := hv.job_planned d scaled pass
  have hlength : (v.job d scaled pass).transform.length = pass.lineLength v.shape := hjob.length_eq
  -- The setting of the pass, in which the regions are those of the bench.
  obtain ⟨e, rfl, he⟩ : ∃ e : Setting T, bench = e.bench ∧ (v.job d scaled pass).Suits e :=
    ⟨⟨v.shape, #[], bench, _, _, _, hbench.serves_pass hv Bench.SameCut.rfl d scaled pass⟩, rfl,
      rfl, rfl⟩
  refine ⟨?_, hv.prepare_eq d scaled pass, hbench.items_le d scaled pass, ?_, ?_, ?_, ?_, ?_⟩
  · rw [hv.lineTransform_eq]
    exact (hv.served pass).onTable_eq
  · intro program hprogram a ha
    obtain ⟨share, rfl⟩ := mem_programs hprogram
    exact (hjob.mem_accesses_program.1 ha).1
  · intro region hregion
    obtain ⟨w, hw, rfl⟩ := (mem_regions hbench).1 hregion
    exact ⟨Bench.stretch_le hbench.serves.lines_le hw le_rfl,
      Bench.stretch_le hbench.serves.spectra_le hw le_rfl⟩
  · intro region hregion
    obtain ⟨w, -, rfl⟩ := (mem_regions hbench).1 hregion
    have hroom := e.serves.entries_le
    rw [he.entries_eq, LineTransform.spectrumLength, hlength] at hroom
    exact ⟨(Nat.le_max_left _ _).trans hroom, _, PassJob.spectrumWindow_eq he w⟩
  · intro hpass region hregion
    obtain ⟨w, -, rfl⟩ := (mem_regions hbench).1 hregion
    have hroom := e.serves.slots_le
    rw [he.slots_eq, PassJob.slots_eq hpass, hlength] at hroom
    exact ⟨hroom, _, PassJob.bundleWindow_eq he hpass w⟩
  · intro line spectrum hline hspectrum
    rw [hv.lineTransform_eq] at hspectrum ⊢
    obtain ⟨_, _, hcall, -⟩ := (hv.served pass).exists_callOn d scaled hline hspectrum
    exact ⟨_, hcall⟩

/-! ### Answers -/

/-- **What a buffer is answered.** -/
structure BufferAnswered (shape : Shape) (flat : FlatVolume T) (report : Report (FlatVolume T)) :
    Prop where
  tooShort : flat.elements.size < shape.slices * shape.rows * shape.columns →
    report.outcome = .error (.refused (.bufferTooShort
      (shape.slices * shape.rows * shape.columns) flat.elements.size)) ∧ report.data = flat
  ok : shape.slices * shape.rows * shape.columns ≤ flat.elements.size → report.outcome = .ok ()

/-- **What lists are answered.** The refusal names the first list whose length differs. -/
structure ListsAnswered {D : Type} [Listed D T] (shape : Shape) (data : D) (report : Report D) :
    Prop where
  ragged : ¬ Listed.HasSizes shape data → ∃ c : LengthCheck,
    (Listed.checks shape data).find? (fun c => ¬ c.Passes) = some c ∧
      report.outcome = .error (.refused
        (.ragged c.axis c.place c.expected c.actual)) ∧ report.data = data
  ok : Listed.HasSizes shape data → report.outcome = .ok ()

theorem Planned.bufferAnswered (hv : v.Planned)
    (hbench : Bench.allocate v.workers v.gatheredLength v.spectrumLength = .ok bench)
    {d : Direction} {scaled : Bool} {flat : FlatVolume T} {report : Report (FlatVolume T)}
    (hreport : v.MayReport d scaled flat report) : BufferAnswered v.shape flat report := by
  obtain ⟨hvolume, -⟩ := Shape.volume_eq_some hv.volume_eq
  refine ⟨fun hshort => ?_, fun hlong => ?_⟩
  · have haddress : Layout.address v.shape flat = (Attempt.refuse
        (.bufferTooShort v.volume flat.elements.size) : Attempt (FlatStore T)) := by
      rw [← hvolume] at hshort
      change FlatStore.ofBuffer v.shape flat.elements = _
      unfold FlatStore.ofBuffer
      rw [hv.volume_eq]
      exact if_pos hshort
    rw [← hvolume]
    exact mayReport_error haddress hreport
  · have haddress : Layout.address v.shape flat = .ok (⟨v.shape, flat.elements⟩ : FlatStore T) :=
      FlatStore.ofBuffer_eq_ok_iff.2 ⟨⟨_, hv.volume_eq, by rw [hvolume]; exact hlong⟩, rfl⟩
    exact mayReport_ok hv hbench haddress (LawfulLayout.holds_of_address haddress) hreport

theorem Planned.listsAnswered {D R : Type} [Layout D R] [RowStore R T] [RowView R T]
    [LawfulRowStore R T] [Indexed D T] [LawfulLayout D] [Listed D T] [LawfulListed D]
    (hv : v.Planned)
    (hbench : Bench.allocate v.workers v.gatheredLength v.spectrumLength = .ok bench)
    (hroom : v.shape.HasTableRoom) {d : Direction} {scaled : Bool} {data : D} {report : Report D}
    (hreport : v.MayReport d scaled data report) : ListsAnswered v.shape data report := by
  refine ⟨fun hnot => ?_, fun hsizes => ?_⟩
  · obtain ⟨c, hfind, haddress⟩ := address_of_not_hasSizes (R := R) hroom hnot
    exact ⟨c, hfind, mayReport_error haddress hreport⟩
  · obtain ⟨rows, haddress⟩ := address_of_hasSizes (R := R) hroom hsizes
    exact mayReport_ok hv hbench haddress (LawfulLayout.holds_of_address haddress) hreport

/-- **What a planned transform answers.** Indices and sizes are words, and every pass stays
within its bounds. A buffer is refused when it is shorter than the volume, lists are
refused when one of them has another length than the shape says, and both are then left as
they are. Otherwise the call succeeds, in any schedule of its workers. -/
theorem answers_safely {host : Host} {options : SharingOptions} {shape : Shape}
    (hv : plan host options shape = .ok v)
    (hbench : Bench.allocate v.workers v.gatheredLength v.spectrumLength = .ok bench)
    (hroom : shape.HasTableRoom) (d : Direction) (scaled : Bool) :
    v.SizesAreWords bench ∧ (∀ pass, v.PassSafe bench d scaled pass) ∧
      (∀ (flat : FlatVolume T) (report : Report (FlatVolume T)),
        v.MayReport d scaled flat report → BufferAnswered shape flat report) ∧
      (∀ (nested : NestedVolume T) (report : Report (NestedVolume T)),
        v.MayReport d scaled nested report → ListsAnswered shape nested report) ∧
      ∀ (plane : PlaneVolume T) (report : Report (PlaneVolume T)),
        v.MayReport d scaled plane report → ListsAnswered shape plane report := by
  obtain ⟨hplanned, rfl, -⟩ := planned_of_plan hv
  exact ⟨hplanned.sizesAreWords hbench hroom,
    hplanned.passSafe (equips_of_allocate hbench) d scaled,
    fun flat report hreport => hplanned.bufferAnswered hbench hreport,
    fun nested report hreport => hplanned.listsAnswered hbench hroom hreport,
    fun plane report hreport => hplanned.listsAnswered hbench hroom hreport⟩

/-- A buffer of fifteen doubles for a volume of sixteen, a list of two slices one of which has
three rows, and a buffer that is long enough. -/
theorem answers_safely_small :
    ∃ v : VolumeTransform Float, plan (.willing 1) ⟨0, .own 2⟩ ⟨2, 2, 4⟩ = .ok v ∧
      (v.call .forward true (⟨Array.replicate 15 1⟩ : FlatVolume Float)).outcome =
        .error (.refused (.bufferTooShort 16 15)) ∧
      (v.call .forward true (⟨#[Array.replicate 2 (Array.replicate 4 1),
        Array.replicate 3 (Array.replicate 4 1)]⟩ : NestedVolume Float)).outcome =
        .error (.refused (.ragged 1 (1, 0) 2 3)) ∧
      (v.call .forward true (⟨Array.replicate 16 1⟩ : FlatVolume Float)).outcome = .ok () := by
  obtain ⟨bench, hbench⟩ := allocate_small (T := Float)
  obtain ⟨-, -, hflat, hnested, -⟩ :=
    answers_safely (plan_small (T := Float)) hbench (by decide) .forward true
  have hfirst : (LengthCheck.ofSlices ⟨2, 2, 4⟩ #[Array.replicate 2 (Array.replicate 4 (1 : Float)),
      Array.replicate 3 (Array.replicate 4 1)]).find? (fun c => ¬ c.Passes) =
        some ⟨1, (1, 0), 2, 3⟩ := rfl
  have hnot : ¬ Listed.HasSizes ⟨2, 2, 4⟩ (⟨#[Array.replicate 2 (Array.replicate 4 1),
      Array.replicate 3 (Array.replicate 4 1)]⟩ : NestedVolume Float) := by
    simp [Listed.HasSizes]
  refine ⟨_, plan_small, ((hflat _ _ (Or.inl rfl)).tooShort (by simp)).1.trans (by simp), ?_,
    (hflat _ _ (Or.inl rfl)).ok (by simp)⟩
  obtain ⟨c, hfind, houtcome, -⟩ := (hnested _ _ (Or.inl rfl)).ragged hnot
  obtain rfl := Option.some.inj (hfirst.symm.trans hfind)
  exact houtcome

/-- **Bundles of rows do not fit**: on a volume of one row, the only region has room for four
elements, and a bundle of four lines of the inner pass has sixteen. -/
theorem inner_bundle_exceeds_region :
    ∃ (v : VolumeTransform Float) (bench : Bench Float),
      plan (.willing 1) SharingOptions.serial ⟨1, 1, 4⟩ = .ok v ∧
      Bench.allocate v.workers v.gatheredLength v.spectrumLength = .ok bench ∧
      bench.regions = [bench.region 0] ∧ (bench.region 0).lines.size = 4 ∧
      (v.job .forward true .inner).bundle.width * Pass.inner.lineLength v.shape = 16 ∧
      (v.job .forward true .inner).bundleWindow (bench.region 0) = .error (.unmet .bundleRoom) ∧
      (Fault.unmet .bundleRoom).message =
        "assertion failed: width * len <= self.lines.len()" := by
  refine ⟨plannedFor (.willing 1) SharingOptions.serial ⟨1, 1, 4⟩ 4, _,
    plan_eq_ok_iff.2 ⟨by decide, Crew.canHire_willing (by decide), 4, by decide, rfl⟩,
    Bench.allocate_eq_ok_iff.2 ⟨by decide, rfl⟩, ?_, rfl, rfl, rfl, rfl⟩
  decide

end VolumeTransform

end CosineTransform
