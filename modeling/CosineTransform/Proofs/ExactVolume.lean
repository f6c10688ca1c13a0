import Mathlib
import CosineTransform.Proofs.Calls
import CosineTransform.Proofs.CosineBasis
import CosineTransform.Proofs.LawfulLayouts

/-!
# The cosine transform of a volume over the real numbers

Over the real numbers a pass multiplies every line of its axis by a matrix, the entries
of which are weighed cosines. Three passes are a sum over the whole volume
(`imageOf_eq_sums`), in which each axis has a cosine and a weight of its own:
`call_eq_cosine_sums` is this closed form, for every layout of the data and every way to
share the work.

A sum over one axis does not interfere with one over another axis (`applied_comm`).
Hence the opposite direction, which sums over the axes in the same order, meets every
axis as if it were alone (`sums_opposite`).
-/

namespace CosineTransform

/-! ### Lines under a matrix -/

namespace LineTransform

/-- A line of length `n`, multiplied by a matrix. -/
noncomputable def applied (n : ℕ) (A : ℕ → ℕ → ℝ) (x : ℕ → ℝ) (i : ℕ) : ℝ :=
  ∑ m ∈ Finset.range n, A i m * x m

/-- **The image of a line** over the real numbers, on every table that serves its length. -/
theorem map_image_eq {N n : ℕ} (h : Served ℝ N n) (d : Direction) (scaled : Bool) (x : ℕ → ℝ) :
    (Array.range n).map (image (sharedPhase N n) n d scaled x) =
      (Array.range n).map (applied n (entry n d scaled) x) := by
  rw [sharedPhase_eq Precision.anglesDouble_real h]
  exact Buffer.map_range_congr fun i hi => image_eq h.length_pow d scaled x hi

theorem applied_const_mul (n : ℕ) (A : ℕ → ℕ → ℝ) (c : ℝ) (x : ℕ → ℝ) (i : ℕ) :
    applied n A (fun m => c * x m) i = c * applied n A x i := by
  unfold applied
  rw [Finset.mul_sum]
  exact Finset.sum_congr rfl fun m _ => mul_left_comm (A i m) c (x m)

/-- **Two axes** do not interfere. -/
theorem applied_comm (n m : ℕ) (A B : ℕ → ℕ → ℝ) (g : ℕ → ℕ → ℝ) (i j : ℕ) :
    applied n A (fun p => applied m B (g p) j) i =
      applied m B (fun q => applied n A (fun p => g p q) i) j := by
  unfold applied
  simp only [Finset.mul_sum]
  -- Both sides are one sum over the pairs of places.
  rw [Finset.sum_comm]
  exact Finset.sum_congr rfl fun q _ => Finset.sum_congr rfl fun p _ =>
    mul_left_comm (A i p) (B j q) (g p q)

/-- **One axis**: the opposite direction multiplies by the gain. -/
theorem applied_opposite {n i : ℕ} (hi : i < n) (d : Direction) (scaled : Bool) (x : ℕ → ℝ) :
    applied n (entry n d.opposite scaled) (applied n (entry n d scaled) x) i =
      gain n scaled * x i := by
  -- The two matrices multiply to a diagonal one (`sum_entry`).
  have hsum : ∀ j ∈ Finset.range n,
      ∑ k ∈ Finset.range n, entry n d.opposite scaled i k * (entry n d scaled k j * x j) =
        if i = j then gain n scaled * x j else 0 := by
    intro j hj
    simp only [← mul_assoc]
    rw [← Finset.sum_mul, sum_entry (by omega) d scaled i hi j (Finset.mem_range.1 hj), ite_mul,
      zero_mul]
  unfold applied
  simp only [Finset.mul_sum]
  rw [Finset.sum_comm, Finset.sum_congr rfl hsum, Finset.sum_ite_eq,
    if_pos (Finset.mem_range.2 hi)]

end LineTransform

/-! ### Volumes under three matrices -/

namespace VolumeTransform

open LineTransform (applied entry gain cosine analysisWeight synthesisWeight)

/-- **The transform of a volume as sums of cosines**, over the columns first and over the
slices last. -/
noncomputable def sums (shape : Shape) (d : Direction) (scaled : Bool) (g : ℕ → ℕ → ℕ → ℝ)
    (i j k : ℕ) : ℝ :=
  applied shape.slices (entry shape.slices d scaled) (fun p =>
    applied shape.rows (entry shape.rows d scaled) (fun q =>
      applied shape.columns (entry shape.columns d scaled) (g p q) k) j) i

/-- The same as one sum over the elements. -/
theorem sums_eq (shape : Shape) (d : Direction) (scaled : Bool) (g : ℕ → ℕ → ℕ → ℝ)
    (i j k : ℕ) : sums shape d scaled g i j k =
      ∑ p ∈ Finset.range shape.slices, ∑ q ∈ Finset.range shape.rows,
        ∑ r ∈ Finset.range shape.columns, entry shape.slices d scaled i p *
          (entry shape.rows d scaled j q * (entry shape.columns d scaled k r * g p q r)) := by
  unfold sums applied
  simp only [Finset.mul_sum]

section Image

variable {shape : Shape} {i j k : ℕ}

/-- **Three passes** over a volume of real numbers are sums of cosines. -/
theorem imageOf_eq_sums (h : ∀ n ∈ shape.extents, n.isPowerOfTwo) (d : Direction) (scaled : Bool)
    (g : ℕ → ℕ → ℕ → ℝ) (hijk : shape.Has i j k) :
    imageOf HalfCircle.phasor shape d scaled Pass.inOrder g i j k =
      sums shape d scaled g i j k := by
  obtain ⟨⟨hi, hj⟩, hk⟩ := hijk
  obtain ⟨hslices, hrows, hcolumns⟩ :
      shape.slices.isPowerOfTwo ∧ shape.rows.isPowerOfTwo ∧ shape.columns.isPowerOfTwo := by
    simpa [Shape.extents] using h
  -- Each pass is a matrix on the axis that runs, whatever the other two indices are.
  have hinner := fun x => LineTransform.image_eq hcolumns d scaled x hk
  have hmiddle := fun x => LineTransform.image_eq hrows d scaled x hj
  have houter := fun x => LineTransform.image_eq hslices d scaled x hi
  unfold imageOf sums applied
  simp only [Pass.inOrder, List.foldl_cons, List.foldl_nil, Pass.image, Pass.lineLength]
  simp only [houter, hmiddle, hinner]

/-- **The opposite direction** multiplies every element by the gains of the three axes. -/
theorem sums_opposite (d : Direction) (scaled : Bool) (g : ℕ → ℕ → ℕ → ℝ)
    (hijk : shape.Has i j k) :
    sums shape d.opposite scaled (sums shape d scaled g) i j k =
      gain shape.slices scaled * gain shape.rows scaled * gain shape.columns scaled *
        g i j k := by
  obtain ⟨⟨hi, hj⟩, hk⟩ := hijk
  unfold sums
  -- The columns are undone inside of the sums over slices and rows.
  have hcolumns : ∀ p q, applied shape.columns (entry shape.columns d.opposite scaled) (fun r =>
      applied shape.slices (entry shape.slices d scaled) (fun p' =>
        applied shape.rows (entry shape.rows d scaled) (fun q' =>
          applied shape.columns (entry shape.columns d scaled) (g p' q') r) q) p) k =
      gain shape.columns scaled * applied shape.slices (entry shape.slices d scaled) (fun p' =>
        applied shape.rows (entry shape.rows d scaled) (fun q' => g p' q' k) q) p := by
    intro p q
    rw [LineTransform.applied_comm]
    simp only [LineTransform.applied_comm shape.columns, LineTransform.applied_opposite hk,
      LineTransform.applied_const_mul]
  -- The rows are undone inside of the sum over slices.
  have hrows : ∀ p, applied shape.rows (entry shape.rows d.opposite scaled) (fun q =>
      applied shape.slices (entry shape.slices d scaled) (fun p' =>
        applied shape.rows (entry shape.rows d scaled) (fun q' => g p' q' k) q) p) j =
      gain shape.rows scaled *
        applied shape.slices (entry shape.slices d scaled) (fun p' => g p' j k) p := by
    intro p
    rw [LineTransform.applied_comm]
    simp only [LineTransform.applied_opposite hj, LineTransform.applied_const_mul]
  simp only [hcolumns, hrows, LineTransform.applied_const_mul, LineTransform.applied_opposite hi]
  ring

end Image

/-! ### Calls -/

section Calls

variable {D R : Type} [Layout D R] [RowStore R ℝ] [RowView R ℝ] [LawfulRowStore R ℝ]
  [Indexed D ℝ] [LawfulLayout D] {v : VolumeTransform ℝ} {bench : Bench ℝ} {data : D} {rows : R}

/-- **A call over the real numbers** succeeds, and leaves data of the same shape that holds
the sums of cosines. -/
theorem call_holds_sums (hv : v.Planned)
    (hbench : Bench.allocate v.workers v.gatheredLength v.spectrumLength = .ok bench)
    (haddress : Layout.address v.shape data = .ok rows) {rest : Array ℝ} {g : ℕ → ℕ → ℕ → ℝ}
    (hrows : RowView.Holds v.shape rest g rows) (d : Direction) (scaled : Bool) :
    ∃ rows' : R, (v.call d scaled data).outcome = .ok () ∧
      Layout.address v.shape (v.call d scaled data).data = .ok rows' ∧
      RowView.Holds v.shape rest (sums v.shape d scaled g) rows' := by
  obtain ⟨rows', houtcome, hdata, hrows'⟩ := call_eq hv hbench haddress hrows d scaled
  -- Real numbers have one half circle for each length, whatever the table.
  rw [imageOf_sharedPhase Precision.anglesDouble_real hv.extents] at hrows'
  refine ⟨rows', houtcome, ?_, hrows'.congr fun i j k hijk => ?_⟩
  · rw [hdata]
    exact LawfulLayout.address_collect haddress hrows'.sound hrows'.shape_eq
  · exact imageOf_eq_sums (fun n hn => (hv.extents n hn).1) d scaled g hijk

/-- **The closed form of a call.** For every planned transform and every data of its shape,
both directions succeed. Forward, element `(a, b, c)` is a sum over all elements with a
cosine for each axis, weighed at the end; inverse, the elements are weighed before they
are summed up. -/
theorem call_eq_cosine_sums {host : Host} {options : SharingOptions} {shape : Shape}
    (hv : plan host options shape = .ok v)
    (hbench : Bench.allocate v.workers v.gatheredLength v.spectrumLength = .ok bench)
    (haddress : Layout.address shape data = .ok rows) {x : ℕ → ℕ → ℕ → ℝ}
    (hx : ∀ i j k, shape.Has i j k → Indexed.element? data shape i j k = some (x i j k))
    (scaled : Bool) :
    ((v.forward scaled data).outcome = .ok () ∧
      ∀ a b c, shape.Has a b c → Indexed.element? (v.forward scaled data).data shape a b c =
        some (analysisWeight shape.slices scaled a * analysisWeight shape.rows scaled b *
          analysisWeight shape.columns scaled c *
          ∑ p ∈ Finset.range shape.slices, ∑ q ∈ Finset.range shape.rows,
            ∑ r ∈ Finset.range shape.columns, x p q r * cosine shape.slices a p *
              cosine shape.rows b q * cosine shape.columns c r)) ∧
    ((v.inverse scaled data).outcome = .ok () ∧
      ∀ p q r, shape.Has p q r → Indexed.element? (v.inverse scaled data).data shape p q r =
        some (∑ a ∈ Finset.range shape.slices, ∑ b ∈ Finset.range shape.rows,
          ∑ c ∈ Finset.range shape.columns, synthesisWeight shape.slices scaled a *
            synthesisWeight shape.rows scaled b * synthesisWeight shape.columns scaled c *
            x a b c * cosine shape.slices a p * cosine shape.rows b q *
              cosine shape.columns c r)) := by
  obtain ⟨hplanned, rfl, -⟩ := planned_of_plan hv
  obtain ⟨hsound, hshape⟩ := LawfulLayout.sound_of_address (T := ℝ) haddress
  -- The data holds the volume, with whatever a flat buffer has behind it as the rest.
  have hrows : RowView.Holds v.shape (RowView.rest rows) x rows :=
    ⟨hsound, hshape, rfl, fun i j k hijk => by
      rw [← LawfulLayout.element?_eq haddress hijk]
      exact hx i j k hijk⟩
  -- What one direction leaves, as one sum over the elements.
  have hcall : ∀ d, (v.call d scaled data).outcome = .ok () ∧
      ∀ i j k, v.shape.Has i j k →
        Indexed.element? (v.call d scaled data).data v.shape i j k =
          some (sums v.shape d scaled x i j k) := by
    intro d
    obtain ⟨rows', houtcome, haddress', hrows'⟩ :=
      call_holds_sums hplanned hbench haddress hrows d scaled
    refine ⟨houtcome, fun i j k hijk => ?_⟩
    rw [LawfulLayout.element?_eq haddress' hijk]
    exact hrows'.element i j k hijk
  refine ⟨⟨(hcall .forward).1, fun a b c habc => ?_⟩, ⟨(hcall .inverse).1, fun p q r hpqr => ?_⟩⟩
  · -- Forward, the three weights are common to all terms.
    refine ((hcall .forward).2 a b c habc).trans (congrArg some ?_)
    rw [sums_eq]
    simp only [Finset.mul_sum]
    refine Finset.sum_congr rfl fun p _ => Finset.sum_congr rfl fun q _ =>
      Finset.sum_congr rfl fun r _ => ?_
    unfold entry
    ring
  · -- Inverse, every term has weights of its own.
    refine ((hcall .inverse).2 p q r hpqr).trans (congrArg some ?_)
    rw [sums_eq]
    refine Finset.sum_congr rfl fun a _ => Finset.sum_congr rfl fun b _ =>
      Finset.sum_congr rfl fun c _ => ?_
    unfold entry
    ring

/-- The constant term of a volume of eight ones, on a flat buffer with one element behind
the volume, and with two workers. -/
theorem call_eq_cosine_sums_ones :
    ∃ v : VolumeTransform ℝ, plan (.willing 1) ⟨0, .own 2⟩ ⟨2, 1, 4⟩ = .ok v ∧
      Indexed.element? (v.forward false (⟨Array.replicate 9 1⟩ : FlatVolume ℝ)).data ⟨2, 1, 4⟩
        0 0 0 = some 8 := by
  have hplan : plan (.willing 1) ⟨0, .own 2⟩ ⟨2, 1, 4⟩ =
      .ok (plannedFor (.willing 1) ⟨0, .own 2⟩ ⟨2, 1, 4⟩ 8 : VolumeTransform ℝ) :=
    plan_eq_ok_iff.2 ⟨by decide, Crew.canHire_willing (by decide), 8, by decide, rfl⟩
  obtain ⟨bench, hbench⟩ : ∃ bench : Bench ℝ, Bench.allocate 2 2 2 = .ok bench :=
    ⟨_, Bench.allocate_eq_ok_iff.2 ⟨by decide, rfl⟩⟩
  have haddress : Layout.address ⟨2, 1, 4⟩ (⟨Array.replicate 9 1⟩ : FlatVolume ℝ) =
      .ok (⟨⟨2, 1, 4⟩, Array.replicate 9 1⟩ : FlatStore ℝ) :=
    FlatStore.ofBuffer_eq_ok_iff.2 ⟨⟨8, by decide, by simp⟩, rfl⟩
  have hx : ∀ i j k, Shape.Has ⟨2, 1, 4⟩ i j k →
      Indexed.element? (⟨Array.replicate 9 1⟩ : FlatVolume ℝ) ⟨2, 1, 4⟩ i j k = some 1 := by
    intro i j k hijk
    have hlt : Shape.offset ⟨2, 1, 4⟩ i j k < 8 := Shape.offset_lt hijk
    exact Array.getElem?_replicate.trans (if_pos (by omega))
  have hconstant := (call_eq_cosine_sums hplan hbench haddress hx false).1.2 0 0 0 (by decide)
  refine ⟨_, hplan, hconstant.trans ?_⟩
  norm_num [analysisWeight, cosine]

end Calls

end VolumeTransform

end CosineTransform
