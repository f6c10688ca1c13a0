import Mathlib
import CosineTransform.Proofs.Calls
import CosineTransform.Sample.Binary

/-!
# Every schedule gives the serial result

Workers share one volume without locks, so nothing keeps their steps in any order
other than each worker's own. `schedules_agree` says that nothing has to: every
interleaving of the shares of a pass leaves the rows that a single worker would leave,
bit for bit, and every schedule of a whole call answers what the serial transform of
the same shape answers, whatever the layout of the data.

Both parts rest on the same fact, that any way to run a pass leaves the image of the
pass (`PassJob.runInterleaved_eq`, `PassJob.run_whole_eq`), and that a volume
determines its row store (`RowView.Holds.unique`). What is left to see is that the
serial transform of a planned shape is planned too and works alone: a product of
powers of two is never the largest word, so no volume reaches its threshold.
-/

namespace CosineTransform

namespace VolumeTransform

variable {T W : Type} [Precision W] [Sample T W]

/-! ### The serial transform -/

/-- No volume with extents that are powers of two is the largest word. -/
theorem Planned.volume_lt_last {v : VolumeTransform T} (h : v.Planned) : v.volume < Word.last := by
  obtain ⟨hvolume, hlt⟩ := Shape.volume_eq_some h.volume_eq
  obtain ⟨a, ha⟩ := (h.extents v.shape.slices (by simp [Shape.extents])).1
  obtain ⟨b, hb⟩ := (h.extents v.shape.rows (by simp [Shape.extents])).1
  obtain ⟨c, hc⟩ := (h.extents v.shape.columns (by simp [Shape.extents])).1
  have hpow : v.volume = 2 ^ (a + b + c) := by rw [hvolume, ha, hb, hc, pow_add, pow_add]
  -- A power of two is one or even, and the largest word is neither.
  unfold Word.last
  unfold Word.bound at hlt ⊢
  rcases Nat.eq_zero_or_pos (a + b + c) with hzero | hpos
  · rw [hpow, hzero]
    omega
  · obtain ⟨e, he⟩ := Nat.exists_eq_succ_of_ne_zero (Nat.ne_of_gt hpos)
    rw [he, Nat.succ_eq_add_one, pow_succ] at hpow
    omega

/-- **The serial transform** of a shape that can be planned is planned as well, and has
one worker and no more bench than it needs. -/
theorem exists_serial (serialHost : Host) {host : Host} {options : SharingOptions}
    {shape : Shape} {v : VolumeTransform T} (h : plan host options shape = .ok v) :
    ∃ serial : VolumeTransform T, plan serialHost SharingOptions.serial shape = .ok serial ∧
      serial.workers = 1 := by
  obtain ⟨hextents, -, volume, hvolume, -⟩ := plan_eq_ok_iff.1 h
  have hplan : plan serialHost SharingOptions.serial shape =
      .ok (plannedFor serialHost SharingOptions.serial shape volume : VolumeTransform T) := by
    refine plan_eq_ok_iff.2 ⟨hextents, ⟨?_, ?_⟩, volume, hvolume, rfl⟩
    · simp [Staffing.IsEmpty, SharingOptions.serial]
    · simp [SharingOptions.serial]
  refine ⟨_, hplan, ?_⟩
  -- The serial threshold is the largest word, which no volume reaches.
  have hlast := (planned_of_plan hplan).1.volume_lt_last
  unfold workers
  exact if_neg (Nat.not_le_of_lt hlast)

omit [Precision W] in
/-- The bench of one worker is allocated when that of many is. -/
theorem exists_allocate_one {workers lineLength spectrumLength : Nat} {bench : Bench T}
    (h : Bench.allocate workers lineLength spectrumLength = .ok bench) :
    ∃ bench' : Bench T, Bench.allocate 1 lineLength spectrumLength = .ok bench' := by
  obtain ⟨⟨hlines, hspectra⟩, -⟩ := Bench.allocate_eq_ok_iff.1 h
  -- One region is no more than all regions together.
  have hone : ∀ room, max 1 1 * room ≤ max workers 1 * room := fun room =>
    Nat.mul_le_mul_right room (by omega)
  exact ⟨_, Bench.allocate_eq_ok_iff.2
    ⟨⟨lt_of_le_of_lt (Nat.mul_le_mul_left _ (hone _)) hlines,
      lt_of_le_of_lt (Nat.mul_le_mul_left _ (hone _)) hspectra⟩, rfl⟩⟩

/-! ### Schedules -/

/-- There is a schedule: the shares one after the other. -/
theorem Planned.exists_schedule {v : VolumeTransform T} (hv : v.Planned) (d : Direction)
    (scaled : Bool) : ∃ order, v.IsSchedule d scaled order := by
  refine ⟨fun pass => inTurn (max (v.passWorkers pass) 1) fun w =>
    (v.job d scaled pass).program v.shape (Share.dealt (v.passWorkers pass) w), ?_⟩
  intro pass job hjob
  rw [hv.prepare_eq] at hjob
  cases hjob
  rw [shares_eq, Share.deal_eq, List.map_map]
  exact interleaves_inTurn _ _

section Schedules

variable {D R : Type} [Layout D R] [RowStore R T] [RowView R T] [LawfulRowStore R T] [Indexed D T]
  [LawfulLayout D]

omit [Indexed D T] [Layout D R] [LawfulLayout D] in
/-- **Any interleaving of the shares of a pass** ends in the rows that one worker leaves
who takes the whole pass. -/
theorem Planned.interleaved_eq_whole {v : VolumeTransform T} (hv : v.Planned) (d : Direction)
    (scaled : Bool) (pass : Pass) {workers : Nat} {order : List (Nat × Step)}
    (horder : Interleaves
      ((Share.deal workers).map ((v.job d scaled pass).program v.shape)) order)
    {rows : R} (hrows : RowView.Sound rows) (hshape : RowStore.shape rows = v.shape)
    {bench serialBench : Bench T}
    (hbench : bench.Serves (max workers 1) (v.job d scaled pass).slots
      (v.job d scaled pass).transform.spectrumLength)
    (hserialBench : serialBench.Serves 1 (v.job d scaled pass).slots
      (v.job d scaled pass).transform.spectrumLength) :
    ∃ st st', (v.job d scaled pass).runInterleaved (max workers 1) order ⟨rows, bench⟩ =
        .ok () st ∧
      (v.job d scaled pass).run Share.whole (serialBench.region 0) ⟨rows, serialBench⟩ =
        .ok () st' ∧
      st.rows = st'.rows := by
  have hjob := hv.job_planned d scaled pass
  have hholds := RowView.Holds.of_sound hrows
  rw [hshape] at hholds
  -- Both runs leave the image of the pass, and a volume determines its rows.
  obtain ⟨st, hst, hrows', -⟩ := PassJob.runInterleaved_eq hjob hbench hholds horder
  obtain ⟨st', hst', hrows'', -⟩ := PassJob.run_whole_eq hjob hserialBench hholds
  exact ⟨st, st', hst, hst', hrows'.unique hrows'' fun _ _ _ _ => rfl⟩

/-- **A call whose passes leave their images** answers what a call of the serial
transform answers. -/
theorem Planned.callBy_eq_call {v serial : VolumeTransform T} (hserial : serial.Planned)
    (hshape : serial.shape = v.shape) (hworkers : serial.workers = 1) {bench : Bench T}
    (hbench : Bench.allocate v.workers v.gatheredLength v.spectrumLength = .ok bench)
    {d : Direction} {scaled : Bool} {run : Pass → EStateM Failure (CallState R T) Unit}
    (hrun : ∀ pass, LeavesImage v d scaled bench pass (run pass)) (data : D) :
    (v.callBy d scaled run data).outcome = (serial.call d scaled data).outcome ∧
      (v.callBy d scaled run data).data = (serial.call d scaled data).data := by
  cases haddress : Layout.address v.shape data with
  | error failure =>
    -- Data that is refused is refused before the first pass.
    rw [call_eq_callBy]
    unfold callBy
    rw [hshape, haddress]
    exact ⟨rfl, rfl⟩
  | ok rows =>
    obtain ⟨hsound, hrowsShape⟩ := LawfulLayout.sound_of_address (T := T) haddress
    have hholds := RowView.Holds.of_sound hsound
    rw [hrowsShape] at hholds
    -- Both calls leave the image of the volume that the data holds.
    obtain ⟨serialBench, hserialBench⟩ := exists_allocate_one hbench
    obtain ⟨rows', houtcome, hdata, hrows'⟩ := callBy_eq hbench hrun haddress hholds
    have hserialBench' : Bench.allocate serial.workers serial.gatheredLength
        serial.spectrumLength = .ok serialBench := by
      unfold gatheredLength spectrumLength
      rw [hworkers, hshape]
      exact hserialBench
    have haddress' : Layout.address serial.shape data = .ok rows := by rwa [hshape]
    rw [← hshape] at hholds
    obtain ⟨rows'', houtcome', hdata', hrows''⟩ :=
      call_eq hserial hserialBench' haddress' hholds d scaled
    rw [hshape] at hrows''
    have hrows := hrows'.unique hrows'' fun _ _ _ _ => rfl
    exact ⟨houtcome.trans houtcome'.symm, by rw [hdata, hdata', hrows]⟩

/-- **Schedules do not show.** For every planned transform: every interleaving of the
shares of a pass, among any number of workers with regions of their own, ends in the
rows that one worker leaves who takes the whole pass; and every schedule of a call, the
one that a call follows among them, answers what the serial transform answers. -/
theorem schedules_agree (serialHost : Host) {host : Host} {options : SharingOptions}
    {shape : Shape} {v : VolumeTransform T} (hv : plan host options shape = .ok v) :
    (∀ (d : Direction) (scaled : Bool) (pass : Pass) (job : PassJob T),
      PassJob.prepare pass (v.lineTransform pass) shape d scaled = .ok job →
      ∀ (workers : Nat) (order : List (Nat × Step)), 1 ≤ workers →
      Interleaves ((Share.deal workers).map (job.program shape)) order →
      ∀ rows : R, RowView.Sound rows → RowStore.shape rows = shape →
      ∀ bench serialBench : Bench T,
      bench.Serves workers job.slots job.transform.spectrumLength →
      serialBench.Serves 1 job.slots job.transform.spectrumLength →
      ∃ st st', job.runInterleaved workers order ⟨rows, bench⟩ = .ok () st ∧
        job.run Share.whole (serialBench.region 0) ⟨rows, serialBench⟩ = .ok () st' ∧
        st.rows = st'.rows) ∧
    ∃ serial : VolumeTransform T, plan serialHost SharingOptions.serial shape = .ok serial ∧
      ∀ bench : Bench T, Bench.allocate v.workers v.gatheredLength v.spectrumLength = .ok bench →
      ∀ (d : Direction) (scaled : Bool) (data : D),
      (∀ order : Pass → List (Nat × Step), v.IsSchedule d scaled order →
        (v.callInOrder order d scaled data).outcome = (serial.call d scaled data).outcome ∧
        (v.callInOrder order d scaled data).data = (serial.call d scaled data).data) ∧
      (v.call d scaled data).outcome = (serial.call d scaled data).outcome ∧
      (v.call d scaled data).data = (serial.call d scaled data).data := by
  obtain ⟨hplanned, rfl, -⟩ := planned_of_plan hv
  obtain ⟨serial, hserial, hworkers⟩ := exists_serial serialHost hv
  obtain ⟨hserialPlanned, hserialShape, -⟩ := planned_of_plan hserial
  refine ⟨?_, serial, hserial, ?_⟩
  · -- A pass: the job is determined by its preparation.
    intro d scaled pass job hjob workers order hone horder rows hrows hshape bench serialBench
      hbench hserialBench
    rw [hplanned.prepare_eq] at hjob
    cases hjob
    rw [← Nat.max_eq_left hone] at hbench ⊢
    exact hplanned.interleaved_eq_whole d scaled pass horder hrows hshape hbench hserialBench
  · -- A call: what its passes leave does not depend on their schedule.
    intro bench hbench d scaled data
    have hequips := equips_of_allocate hbench
    refine ⟨fun order horder => ?_, ?_⟩
    · exact Planned.callBy_eq_call hserialPlanned hserialShape hworkers hbench
        (fun pass => runPassInOrder_leavesImage hplanned hequips horder pass) data
    · exact Planned.callBy_eq_call hserialPlanned hserialShape hworkers hbench
        (fun pass => runPass_leavesImage hplanned hequips d scaled pass) data

/-- Two workers of their own on a volume of `2 × 2 × 4` doubles, in a flat buffer with one
element behind the volume. -/
theorem schedules_agree_two_workers :
    ∃ v serial : VolumeTransform Float, plan (.willing 1) ⟨0, .own 2⟩ ⟨2, 2, 4⟩ = .ok v ∧
      v.passWorkers .outer = 2 ∧ plan (.willing 3) SharingOptions.serial ⟨2, 2, 4⟩ = .ok serial ∧
      ∃ order, v.IsSchedule .forward true order ∧
        (v.callInOrder order .forward true (⟨Array.replicate 17 1⟩ : FlatVolume Float)).data =
          (serial.call .forward true ⟨Array.replicate 17 1⟩).data := by
  have hplan : plan (.willing 1) ⟨0, .own 2⟩ ⟨2, 2, 4⟩ =
      .ok (plannedFor (.willing 1) ⟨0, .own 2⟩ ⟨2, 2, 4⟩ 16 : VolumeTransform Float) :=
    plan_eq_ok_iff.2 ⟨by decide, Crew.canHire_willing (by decide), 16, by decide, rfl⟩
  obtain ⟨order, horder⟩ := (planned_of_plan hplan).1.exists_schedule .forward true
  obtain ⟨serial, hserial, hagree⟩ := (schedules_agree (.willing 3) hplan
    (D := FlatVolume Float)).2
  obtain ⟨bench, hbench⟩ : ∃ bench : Bench Float, Bench.allocate 2 2 2 = .ok bench :=
    ⟨_, Bench.allocate_eq_ok_iff.2 ⟨by decide, rfl⟩⟩
  exact ⟨_, serial, hplan, by decide, hserial, order, horder,
    ((hagree _ hbench .forward true ⟨Array.replicate 17 1⟩).1 order horder).2⟩

end Schedules

end VolumeTransform

end CosineTransform
