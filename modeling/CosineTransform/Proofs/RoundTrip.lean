import Mathlib
import CosineTransform.Proofs.ExactVolume

/-!
# Round trips

Over the real numbers, a call followed by a call in the opposite direction multiplies
every element by a gain, which is the product of the gains of the axes: one for an
axis of length one, one for scaled calls, and half of the length otherwise
(`LineTransform.gain`). This is so for lines, volumes and planes, and for both orders
(`round_trip`).

Where the gain is one the data comes back as a whole, with everything that a flat
buffer holds behind the volume.
-/

namespace CosineTransform

open LineTransform (gain)

/-! ### Lines -/

namespace LineTransform

@[simp] theorem gain_scaled (n : ℕ) : gain n true = 1 := by
  simp [gain]

@[simp] theorem gain_one (scaled : Bool) : gain 1 scaled = 1 := by
  simp [gain]

/-- A call over the real numbers, as a matrix. -/
theorem call_eq_applied {n : ℕ} {l : LineTransform ℝ} (hl : plan n = .ok l) (d : Direction)
    (scaled : Bool) (x : ℕ → ℝ) : l.call d scaled ((Array.range n).map x) =
      .ok ((Array.range n).map (applied n (entry n d scaled) x)) := by
  obtain ⟨hpow, hroom, rfl⟩ := plan_eq_ok_iff.1 hl
  have hserved : Served ℝ n n := ⟨hpow, hpow, le_rfl, hroom⟩
  rw [call_eq hserved, map_image_eq hserved]

/-- **A line through both directions.** -/
theorem call_opposite {n : ℕ} {l : LineTransform ℝ} (hl : plan n = .ok l) (d : Direction)
    (scaled : Bool) {line : Array ℝ} (hline : line.size = n) :
    ∃ image, l.call d scaled line = .ok image ∧
      l.call d.opposite scaled image = .ok (line.map (gain n scaled * ·)) := by
  obtain ⟨x, rfl⟩ := Buffer.exists_rule hline 0
  refine ⟨_, call_eq_applied hl d scaled x, ?_⟩
  rw [call_eq_applied hl, Array.map_map]
  exact congrArg Except.ok (Buffer.map_range_congr fun i hi => applied_opposite hi d scaled x)

end LineTransform

/-! ### Volumes and planes -/

section Volumes

variable {D R : Type} [Layout D R] [RowStore R ℝ] [RowView R ℝ] [LawfulRowStore R ℝ]
  [Indexed D ℝ] [LawfulLayout D]

/-- A call, and a call on the data it leaves, multiply the elements of data by `c`. -/
structure Multiplies (shape : Shape) (c : ℝ) (data : D) (first second : Report D) : Prop where
  first_ok : first.outcome = .ok ()
  second_ok : second.outcome = .ok ()
  element : ∀ i j k, shape.Has i j k → ∃ x, Indexed.element? data shape i j k = some x ∧
    Indexed.element? second.data shape i j k = some (c * x)
  data_eq : c = 1 → second.data = data

/-- **A volume through both directions.** -/
theorem VolumeTransform.multiplies_opposite {v : VolumeTransform ℝ} (hv : v.Planned)
    {bench : Bench ℝ}
    (hbench : Bench.allocate v.workers v.gatheredLength v.spectrumLength = .ok bench) {data : D}
    {rows : R} (haddress : Layout.address v.shape data = .ok rows) (d : Direction)
    (scaled : Bool) :
    Multiplies v.shape
      (gain v.shape.slices scaled * gain v.shape.rows scaled * gain v.shape.columns scaled) data
      (v.call d scaled data) (v.call d.opposite scaled (v.call d scaled data).data) := by
  obtain ⟨hsound, hshape⟩ := LawfulLayout.sound_of_address (T := ℝ) haddress
  have hrows := RowView.Holds.of_sound hsound
  rw [hshape] at hrows
  obtain ⟨rows', houtcome, haddress', hrows'⟩ :=
    call_holds_sums hv hbench haddress hrows d scaled
  -- The second call starts from the sums that the first one leaves.
  obtain ⟨rows'', houtcome', haddress'', hrows''⟩ :=
    call_holds_sums hv hbench haddress' hrows' d.opposite scaled
  refine ⟨houtcome, houtcome', fun i j k hijk => ?_, fun hone => ?_⟩
  · refine ⟨_, (LawfulLayout.element?_eq haddress hijk).trans (hrows.element i j k hijk), ?_⟩
    rw [LawfulLayout.element?_eq haddress'' hijk, hrows''.element i j k hijk,
      sums_opposite d scaled _ hijk]
  · -- Both row stores hold the volume that the data holds.
    have hsame : rows'' = rows := hrows''.unique hrows fun i j k hijk => by
      rw [sums_opposite d scaled _ hijk, hone, one_mul]
    rw [← LawfulLayout.collect_of_address (T := ℝ) haddress'', hsame,
      LawfulLayout.collect_of_address (T := ℝ) haddress]

/-- **Round trips** of lines, volumes and planes, forward and back and in the opposite
order. -/
theorem round_trip :
    (∀ {n : ℕ} {l : LineTransform ℝ}, LineTransform.plan n = .ok l →
      ∀ (d : Direction) (scaled : Bool) (line : Array ℝ), line.size = n →
      ∃ image, l.call d scaled line = .ok image ∧
        l.call d.opposite scaled image = .ok (line.map (gain n scaled * ·))) ∧
    (∀ {host : Host} {options : SharingOptions} {shape : Shape} {v : VolumeTransform ℝ},
      VolumeTransform.plan host options shape = .ok v →
      ∀ {bench : Bench ℝ},
      Bench.allocate v.workers v.gatheredLength v.spectrumLength = .ok bench →
      ∀ {data : D} {rows : R}, Layout.address shape data = .ok rows →
      ∀ (d : Direction) (scaled : Bool), Multiplies shape
        (gain shape.slices scaled * gain shape.rows scaled * gain shape.columns scaled) data
        (v.call d scaled data) (v.call d.opposite scaled (v.call d scaled data).data)) ∧
    (∀ {host : Host} {options : SharingOptions} {r c : ℕ} {p : PlaneTransform ℝ},
      PlaneTransform.plan host options r c = .ok p →
      ∀ {bench : Bench ℝ}, Bench.allocate p.volume.workers p.volume.gatheredLength
        p.volume.spectrumLength = .ok bench →
      ∀ {data : D} {rows : R}, Layout.address ⟨1, r, c⟩ data = .ok rows →
      ∀ (d : Direction) (scaled : Bool), Multiplies ⟨1, r, c⟩
        (gain r scaled * gain c scaled) data
        (p.call d scaled data) (p.call d.opposite scaled (p.call d scaled data).data)) := by
  refine ⟨?_, ?_, ?_⟩
  · intro n l hl d scaled line hline
    exact LineTransform.call_opposite hl d scaled hline
  · intro host options shape v hv bench hbench data rows haddress d scaled
    obtain ⟨hplanned, rfl, -⟩ := VolumeTransform.planned_of_plan hv
    exact VolumeTransform.multiplies_opposite hplanned hbench haddress d scaled
  · intro host options r c p hp bench hbench data rows haddress d scaled
    obtain ⟨hplanned, hshape, -⟩ :=
      VolumeTransform.planned_of_plan (PlaneTransform.plan_eq_ok_iff.1 hp)
    rw [← hshape] at haddress ⊢
    have hmultiplies :=
      VolumeTransform.multiplies_opposite hplanned hbench haddress d scaled
    -- The axis of the single slice has no gain.
    have hgain : gain p.volume.shape.slices scaled * gain p.volume.shape.rows scaled *
        gain p.volume.shape.columns scaled = gain r scaled * gain c scaled := by
      rw [hshape, LineTransform.gain_one, one_mul]
    rw [hgain] at hmultiplies
    exact hmultiplies

end Volumes

/-- A line of length four and a volume of `2 × 1 × 4` come back, and a plane of `2 × 4`, which is
not scaled, comes back twice as large. -/
theorem round_trip_small :
    ∃ (l : LineTransform ℝ) (v : VolumeTransform ℝ) (p : PlaneTransform ℝ),
      LineTransform.plan 4 = .ok l ∧
      VolumeTransform.plan (.willing 1) ⟨0, .own 2⟩ ⟨2, 1, 4⟩ = .ok v ∧
      PlaneTransform.plan (.willing 1) ⟨0, .own 2⟩ 2 4 = .ok p ∧
      (∃ image, l.call .inverse true #[3, 1, 4, 1] = .ok image ∧
        l.call .forward true image = .ok #[3, 1, 4, 1]) ∧
      (v.call .inverse true (v.call .forward true
        (⟨Array.replicate 9 1⟩ : FlatVolume ℝ)).data).data = ⟨Array.replicate 9 1⟩ ∧
      Indexed.element? (p.call .forward false (p.call .inverse false
        (⟨Array.replicate 9 1⟩ : FlatVolume ℝ)).data).data ⟨1, 2, 4⟩ 0 1 3 = some 2 := by
  have hline : LineTransform.plan 4 = .ok (LineTransform.shared 4 4 : LineTransform ℝ) :=
    LineTransform.plan_eq_ok_iff.2 ⟨by decide, by decide, rfl⟩
  have hvolume : ∀ shape : Shape, shape.volume = some 8 →
      (∀ n ∈ shape.extents, n.isPowerOfTwo ∧ HalfCircle.HasRoom ℝ n) →
      VolumeTransform.plan (.willing 1) ⟨0, .own 2⟩ shape =
        .ok (VolumeTransform.plannedFor (.willing 1) ⟨0, .own 2⟩ shape 8 : VolumeTransform ℝ) :=
    fun shape hvolume hextents =>
      VolumeTransform.plan_eq_ok_iff.2 ⟨hextents, Crew.canHire_willing (by decide), 8, hvolume, rfl⟩
  have hplan := hvolume ⟨2, 1, 4⟩ (by decide) (by decide)
  have hplane := hvolume ⟨1, 2, 4⟩ (by decide) (by decide)
  obtain ⟨bench, hbench⟩ : ∃ bench : Bench ℝ, Bench.allocate 2 2 2 = .ok bench :=
    ⟨_, Bench.allocate_eq_ok_iff.2 ⟨by decide, rfl⟩⟩
  have haddress : ∀ shape : Shape, shape.volume = some 8 →
      Layout.address shape (⟨Array.replicate 9 1⟩ : FlatVolume ℝ) =
        .ok (⟨shape, Array.replicate 9 1⟩ : FlatStore ℝ) := fun shape hshape =>
    FlatStore.ofBuffer_eq_ok_iff.2 ⟨⟨8, hshape, by simp⟩, rfl⟩
  obtain ⟨hlines, hvolumes, hplanes⟩ := round_trip (D := FlatVolume ℝ)
  obtain ⟨image, himage, hback⟩ := hlines hline .inverse true #[3, 1, 4, 1] rfl
  have hscaled := hvolumes hplan hbench (haddress ⟨2, 1, 4⟩ (by decide)) .forward true
  have hplain := hplanes (p := ⟨_⟩) (PlaneTransform.plan_eq_ok_iff.2 hplane) hbench
    (haddress ⟨1, 2, 4⟩ (by decide)) .inverse false
  refine ⟨_, _, ⟨_⟩, hline, hplan, PlaneTransform.plan_eq_ok_iff.2 hplane,
    ⟨image, himage, ?_⟩, hscaled.data_eq (by simp), ?_⟩
  · refine hback.trans ?_
    simp
  · obtain ⟨x, hx, hfinal⟩ := hplain.element 0 1 3 (by decide)
    have hone : Indexed.element? (⟨Array.replicate 9 1⟩ : FlatVolume ℝ) ⟨1, 2, 4⟩ 0 1 3 =
      some 1 := rfl
    obtain rfl : (1 : ℝ) = x := Option.some.inj (hone.symm.trans hx)
    refine hfinal.trans (congrArg some ?_)
    norm_num [LineTransform.gain]

end CosineTransform
