import Mathlib
import CosineTransform.Proofs.RoundTrip

/-!
# Scaled transforms are isometries

The inner product of two lines, or of two volumes, is the sum of the products of their
elements. Scaled transforms keep it in both directions, and the two directions are adjoint
to each other: the product of `x` forward with `y` is the product of `x` with `y` inverse
(`scaled_isometry`). In particular both directions keep the sum of squares.

Both facts rest on one matrix. With the orthonormal weights, place `m` counts in
coefficient `k` as much as coefficient `k` counts in place `m`, so that the matrix of one
direction is the transpose of the other (`LineTransform.entry_opposite`), on a line and,
element by element, on a volume (`VolumeTransform.cellEntry_opposite`). A matrix moves from
one side of a product to the other as its transpose (`sum_mul_transpose`), and there it
meets the direction that it undoes (`IsometricPair.of_adjoint`).
-/

namespace CosineTransform

/-! ### Isometries -/

/-- **Two directions that keep a product** and are adjoint to each other. With `x` and `y` the
same, a product that is kept is a sum of squares that is kept. -/
structure IsometricPair {V : Type} (product : V → V → ℝ) (forward inverse : V → V) : Prop where
  forward_product : ∀ x y, product (forward x) (forward y) = product x y
  inverse_product : ∀ x y, product (inverse x) (inverse y) = product x y
  adjoint : ∀ x y, product (forward x) y = product x (inverse y)

/-- **Adjoint directions that undo each other** keep the product. -/
theorem IsometricPair.of_adjoint {V : Type} {product : V → V → ℝ} (image : Direction → V → V)
    (hadjoint : ∀ d x y, product (image d x) y = product x (image d.opposite y))
    (hundo : ∀ d x y, product x (image d.opposite (image d y)) = product x y) :
    IsometricPair product (image .forward) (image .inverse) := by
  have hproduct : ∀ d x y, product (image d x) (image d y) = product x y := by
    intro d x y
    calc product (image d x) (image d y)
        = product x (image d.opposite (image d y)) := hadjoint d x (image d y)
      _ = product x y := hundo d x y
  exact ⟨hproduct .forward, hproduct .inverse, hadjoint .forward⟩

/-- **A matrix in a product** moves to the other side as its transpose. -/
theorem sum_mul_transpose {ι : Type} {s : Finset ι} {A B : ι → ι → ℝ}
    (h : ∀ i ∈ s, ∀ j ∈ s, B j i = A i j) (x y : ι → ℝ) :
    ∑ i ∈ s, (∑ j ∈ s, A i j * x j) * y i = ∑ j ∈ s, x j * ∑ i ∈ s, B j i * y i := by
  calc ∑ i ∈ s, (∑ j ∈ s, A i j * x j) * y i
      = ∑ i ∈ s, ∑ j ∈ s, A i j * x j * y i := by simp only [Finset.sum_mul]
    _ = ∑ j ∈ s, ∑ i ∈ s, A i j * x j * y i := Finset.sum_comm
    _ = ∑ j ∈ s, ∑ i ∈ s, x j * (B j i * y i) := by
        refine Finset.sum_congr rfl fun j hj => Finset.sum_congr rfl fun i hi => ?_
        rw [h i hi j hj]
        ring
    _ = ∑ j ∈ s, x j * ∑ i ∈ s, B j i * y i := by simp only [Finset.mul_sum]

/-! ### Lines -/

namespace LineTransform

/-- The inner product of two lines of length `n`. -/
noncomputable def product (n : ℕ) (x y : ℕ → ℝ) : ℝ :=
  ∑ i ∈ Finset.range n, x i * y i

theorem product_congr {n : ℕ} (x : ℕ → ℝ) {y y' : ℕ → ℝ} (h : ∀ i < n, y i = y' i) :
    product n x y = product n x y' :=
  Finset.sum_congr rfl fun i hi => by rw [h i (Finset.mem_range.1 hi)]

/-- The orthonormal weight is the one of both directions, on a line of length one as well. -/
theorem synthesisWeight_scaled {n k : ℕ} (hk : k < n) :
    synthesisWeight n true k = analysisWeight n true k := by
  unfold synthesisWeight analysisWeight
  by_cases hn : n = 1
  · subst hn
    obtain rfl : k = 0 := by omega
    simp [normalWeight]
  · rw [if_neg hn, if_pos rfl, if_pos rfl]

/-- **The matrix of the opposite direction** is the transpose. -/
theorem entry_opposite {n i m : ℕ} (hi : i < n) (hm : m < n) (d : Direction) :
    entry n d.opposite true i m = entry n d true m i := by
  cases d with
  | forward =>
    simp only [Direction.opposite, entry]
    rw [synthesisWeight_scaled hm]
  | inverse =>
    simp only [Direction.opposite, entry]
    rw [synthesisWeight_scaled hi]

/-- **A direction of a line** moves to the other side of a product as the opposite one. -/
theorem product_applied (n : ℕ) (d : Direction) (x y : ℕ → ℝ) :
    product n (applied n (entry n d true) x) y =
      product n x (applied n (entry n d.opposite true) y) :=
  sum_mul_transpose (fun _ hi _ hj =>
    entry_opposite (Finset.mem_range.1 hj) (Finset.mem_range.1 hi) d) x y

/-- The scaled matrices of a line are isometries. -/
theorem isometricPair_applied (n : ℕ) :
    IsometricPair (product n) (applied n (entry n .forward true))
      (applied n (entry n .inverse true)) := by
  refine IsometricPair.of_adjoint (fun d => applied n (entry n d true)) (product_applied n)
    fun d x y => product_congr x fun i hi => ?_
  rw [applied_opposite hi, gain_scaled, one_mul]

end LineTransform

/-! ### Volumes -/

namespace VolumeTransform

open LineTransform (applied entry gain_scaled)

/-- The inner product of two volumes. -/
noncomputable def product (shape : Shape) (x y : ℕ → ℕ → ℕ → ℝ) : ℝ :=
  ∑ i ∈ Finset.range shape.slices, ∑ j ∈ Finset.range shape.rows,
    ∑ k ∈ Finset.range shape.columns, x i j k * y i j k

/-- The elements of a shape. -/
def cells (shape : Shape) : Finset (ℕ × ℕ × ℕ) :=
  Finset.range shape.slices ×ˢ Finset.range shape.rows ×ˢ Finset.range shape.columns

theorem mem_cells {shape : Shape} {e : ℕ × ℕ × ℕ} :
    e ∈ cells shape ↔ shape.Has e.1 e.2.1 e.2.2 := by
  unfold cells Shape.Has Shape.HasRow
  simp only [Finset.mem_product, Finset.mem_range, and_assoc]

/-- A sum over the axes is a sum over the elements. -/
theorem sum_cells (shape : Shape) (f : ℕ → ℕ → ℕ → ℝ) :
    ∑ i ∈ Finset.range shape.slices, ∑ j ∈ Finset.range shape.rows,
        ∑ k ∈ Finset.range shape.columns, f i j k =
      ∑ e ∈ cells shape, f e.1 e.2.1 e.2.2 := by
  unfold cells
  rw [Finset.sum_product]
  simp only [Finset.sum_product]

theorem product_eq_cells (shape : Shape) (x y : ℕ → ℕ → ℕ → ℝ) : product shape x y =
    ∑ e ∈ cells shape, x e.1 e.2.1 e.2.2 * y e.1 e.2.1 e.2.2 :=
  sum_cells shape fun i j k => x i j k * y i j k

/-- How much element `e'` of a volume counts in element `e` of its transform. -/
noncomputable def cellEntry (shape : Shape) (d : Direction) (scaled : Bool)
    (e e' : ℕ × ℕ × ℕ) : ℝ :=
  entry shape.slices d scaled e.1 e'.1 * entry shape.rows d scaled e.2.1 e'.2.1 *
    entry shape.columns d scaled e.2.2 e'.2.2

/-- Sums of cosines, as one matrix on the elements. -/
theorem sums_eq_cells (shape : Shape) (d : Direction) (scaled : Bool) (g : ℕ → ℕ → ℕ → ℝ)
    (i j k : ℕ) : sums shape d scaled g i j k =
      ∑ e' ∈ cells shape, cellEntry shape d scaled (i, j, k) e' * g e'.1 e'.2.1 e'.2.2 := by
  rw [sums_eq, sum_cells]
  refine Finset.sum_congr rfl fun e' _ => ?_
  unfold cellEntry
  ring

/-- **The matrix of the opposite direction** is the transpose on every axis. -/
theorem cellEntry_opposite {shape : Shape} {e e' : ℕ × ℕ × ℕ} (he : e ∈ cells shape)
    (he' : e' ∈ cells shape) (d : Direction) :
    cellEntry shape d.opposite true e e' = cellEntry shape d true e' e := by
  obtain ⟨⟨hi, hj⟩, hk⟩ := mem_cells.1 he
  obtain ⟨⟨hi', hj'⟩, hk'⟩ := mem_cells.1 he'
  unfold cellEntry
  rw [LineTransform.entry_opposite hi hi', LineTransform.entry_opposite hj hj',
    LineTransform.entry_opposite hk hk']

/-- **A direction of a volume** moves to the other side of a product as the opposite one. -/
theorem product_sums (shape : Shape) (d : Direction) (x y : ℕ → ℕ → ℕ → ℝ) :
    product shape (sums shape d true x) y = product shape x (sums shape d.opposite true y) := by
  rw [product_eq_cells, product_eq_cells]
  simp only [sums_eq_cells]
  exact sum_mul_transpose (fun e he e' he' => cellEntry_opposite he' he d)
    (fun e => x e.1 e.2.1 e.2.2) fun e => y e.1 e.2.1 e.2.2

/-- The scaled sums of a volume are isometries. -/
theorem isometricPair_sums (shape : Shape) :
    IsometricPair (product shape) (sums shape .forward true) (sums shape .inverse true) := by
  refine IsometricPair.of_adjoint (fun d => sums shape d true) (product_sums shape)
    fun d x y => ?_
  rw [product_eq_cells, product_eq_cells]
  refine Finset.sum_congr rfl fun e he => ?_
  -- Scaled calls have no gain on any axis.
  rw [sums_opposite d true y (mem_cells.1 he), gain_scaled, gain_scaled, gain_scaled]
  ring

end VolumeTransform

/-! ### Calls -/

section Calls

variable {D R : Type} [Layout D R] [RowStore R ℝ] [RowView R ℝ] [LawfulRowStore R ℝ]
  [Indexed D ℝ] [LawfulLayout D]

/-- **Calls on data of a shape compute an image**: data that holds `x` is transformed to data
that holds the image of `x` in the direction of the call. -/
def Computes (shape : Shape) (call : Direction → D → Report D)
    (image : Direction → (ℕ → ℕ → ℕ → ℝ) → ℕ → ℕ → ℕ → ℝ) : Prop :=
  ∀ (d : Direction) {data : D} {rows : R}, Layout.address shape data = .ok rows →
    ∀ {x : ℕ → ℕ → ℕ → ℝ}, Indexed.Holds shape data x →
      (call d data).outcome = .ok () ∧ Indexed.Holds shape (call d data).data (image d x)

/-- A planned volume computes the sums of cosines. -/
theorem VolumeTransform.computes_sums {v : VolumeTransform ℝ} (hv : v.Planned) {bench : Bench ℝ}
    (hbench : Bench.allocate v.workers v.gatheredLength v.spectrumLength = .ok bench)
    (scaled : Bool) :
    Computes v.shape (fun d => v.call d scaled : Direction → D → Report D)
      fun d => sums v.shape d scaled := by
  intro d data rows haddress x hx
  obtain ⟨rows', houtcome, haddress', hrows'⟩ :=
    call_holds_sums hv hbench haddress ((LawfulLayout.holds_iff haddress).1 hx) d scaled
  refine ⟨houtcome, fun i j k hijk => ?_⟩
  rw [LawfulLayout.element?_eq haddress' hijk]
  exact hrows'.element i j k hijk

/-- **Scaled transforms are isometries** of lines, volumes and planes, and their two
directions are adjoint to each other. -/
theorem scaled_isometry :
    (∀ {n : ℕ} {l : LineTransform ℝ}, LineTransform.plan n = .ok l →
      ∃ image : Direction → (ℕ → ℝ) → ℕ → ℝ,
        (∀ d x, l.call d true ((Array.range n).map x) =
          .ok ((Array.range n).map (image d x))) ∧
        IsometricPair (LineTransform.product n) (image .forward) (image .inverse)) ∧
    (∀ {host : Host} {options : SharingOptions} {shape : Shape} {v : VolumeTransform ℝ},
      VolumeTransform.plan host options shape = .ok v →
      ∀ {bench : Bench ℝ},
      Bench.allocate v.workers v.gatheredLength v.spectrumLength = .ok bench →
      ∃ image : Direction → (ℕ → ℕ → ℕ → ℝ) → ℕ → ℕ → ℕ → ℝ,
        Computes shape (fun d => v.call d true : Direction → D → Report D) image ∧
        IsometricPair (VolumeTransform.product shape) (image .forward) (image .inverse)) ∧
    (∀ {host : Host} {options : SharingOptions} {r c : ℕ} {p : PlaneTransform ℝ},
      PlaneTransform.plan host options r c = .ok p →
      ∀ {bench : Bench ℝ}, Bench.allocate p.volume.workers p.volume.gatheredLength
        p.volume.spectrumLength = .ok bench →
      ∃ image : Direction → (ℕ → ℕ → ℕ → ℝ) → ℕ → ℕ → ℕ → ℝ,
        Computes ⟨1, r, c⟩ (fun d => p.call d true : Direction → D → Report D) image ∧
        IsometricPair (VolumeTransform.product ⟨1, r, c⟩) (image .forward)
          (image .inverse)) := by
  refine ⟨?_, ?_, ?_⟩
  · intro n l hl
    exact ⟨fun d => LineTransform.applied n (LineTransform.entry n d true),
      fun d x => LineTransform.call_eq_applied hl d true x,
      LineTransform.isometricPair_applied n⟩
  · intro host options shape v hv bench hbench
    obtain ⟨hplanned, rfl, -⟩ := VolumeTransform.planned_of_plan hv
    exact ⟨fun d => VolumeTransform.sums v.shape d true,
      VolumeTransform.computes_sums hplanned hbench true,
      VolumeTransform.isometricPair_sums v.shape⟩
  · intro host options r c p hp bench hbench
    obtain ⟨hplanned, hshape, -⟩ :=
      VolumeTransform.planned_of_plan (PlaneTransform.plan_eq_ok_iff.1 hp)
    rw [← hshape]
    exact ⟨fun d => VolumeTransform.sums p.volume.shape d true,
      VolumeTransform.computes_sums hplanned hbench true,
      VolumeTransform.isometricPair_sums p.volume.shape⟩

end Calls

/-- A line of length four keeps the sum of its squares, and so does a volume of sixteen ones.
On a plane of `2 × 4` ones the two directions are adjoint. -/
theorem scaled_isometry_small :
    ∃ (l : LineTransform ℝ) (v : VolumeTransform ℝ) (p : PlaneTransform ℝ),
      LineTransform.plan 4 = .ok l ∧
      VolumeTransform.plan (.willing 1) ⟨0, .own 2⟩ ⟨2, 2, 4⟩ = .ok v ∧
      PlaneTransform.plan (.willing 1) ⟨0, .own 2⟩ 2 4 = .ok p ∧
      (∃ y : ℕ → ℝ,
        l.call .forward true ((Array.range 4).map fun m : ℕ => (m : ℝ)) =
          .ok ((Array.range 4).map y) ∧
        LineTransform.product 4 y y = 14) ∧
      (∃ y : ℕ → ℕ → ℕ → ℝ,
        Indexed.Holds ⟨2, 2, 4⟩
          (v.call .forward true (⟨Array.replicate 16 1⟩ : FlatVolume ℝ)).data y ∧
        VolumeTransform.product ⟨2, 2, 4⟩ y y = 16) ∧
      ∃ y z : ℕ → ℕ → ℕ → ℝ,
        Indexed.Holds ⟨1, 2, 4⟩
          (p.call .forward true (⟨Array.replicate 16 1⟩ : FlatVolume ℝ)).data y ∧
        Indexed.Holds ⟨1, 2, 4⟩
          (p.call .inverse true (⟨Array.replicate 16 1⟩ : FlatVolume ℝ)).data z ∧
        VolumeTransform.product ⟨1, 2, 4⟩ y (fun _ _ _ => 1) =
          VolumeTransform.product ⟨1, 2, 4⟩ (fun _ _ _ => 1) z := by
  have hline : LineTransform.plan 4 = .ok (LineTransform.shared 4 4 : LineTransform ℝ) :=
    LineTransform.plan_eq_ok_iff.2 ⟨by decide, by decide, rfl⟩
  have hplane : PlaneTransform.plan (.willing 1) ⟨0, .own 2⟩ 2 4 =
      .ok (⟨VolumeTransform.plannedFor (.willing 1) ⟨0, .own 2⟩ ⟨1, 2, 4⟩ 8⟩ : PlaneTransform ℝ) :=
    PlaneTransform.plan_eq_ok_iff.2
      (VolumeTransform.plan_eq_ok_iff.2 ⟨by decide, Crew.canHire_willing (by decide), 8, by decide, rfl⟩)
  obtain ⟨bench, hbench⟩ := VolumeTransform.allocate_small (T := ℝ)
  have haddress : Layout.address ⟨1, 2, 4⟩ (⟨Array.replicate 16 1⟩ : FlatVolume ℝ) =
      .ok (⟨⟨1, 2, 4⟩, Array.replicate 16 1⟩ : FlatStore ℝ) :=
    FlatStore.ofBuffer_eq_ok_iff.2 ⟨⟨8, by decide, by simp⟩, rfl⟩
  have hones : ∀ shape : Shape, shape.slices * shape.rows * shape.columns ≤ 16 →
      Indexed.Holds shape (⟨Array.replicate 16 1⟩ : FlatVolume ℝ) fun _ _ _ => 1 :=
    fun shape hshape i j k hijk =>
      Array.getElem?_replicate.trans (if_pos ((Shape.offset_lt hijk).trans_le hshape))
  obtain ⟨hlines, hvolumes, hplanes⟩ := scaled_isometry (D := FlatVolume ℝ)
  obtain ⟨_, hl, hlisometric⟩ := hlines hline
  obtain ⟨_, hv, hvisometric⟩ := hvolumes VolumeTransform.plan_small hbench
  obtain ⟨_, hp, hpisometric⟩ := hplanes hplane hbench
  have hones' := hones ⟨1, 2, 4⟩ (by decide)
  refine ⟨_, _, _, hline, VolumeTransform.plan_small, hplane, ⟨_, hl .forward _, ?_⟩,
    ⟨_, (hv .forward (VolumeTransform.address_small 1) (hones _ (by decide))).2, ?_⟩,
    ⟨_, _, (hp .forward haddress hones').2, (hp .inverse haddress hones').2,
      hpisometric.adjoint _ _⟩⟩
  · refine (hlisometric.forward_product _ _).trans ?_
    norm_num [LineTransform.product, Finset.sum_range_succ]
  · refine (hvisometric.forward_product _ _).trans ?_
    norm_num [VolumeTransform.product]

end CosineTransform
