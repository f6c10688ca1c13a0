import Mathlib
import CosineTransform.Proofs.ExactCircle

/-!
# A half circle from one octant

The half circle of length `n` has `2 * n` phasors, and sine and cosine are evaluated at `n / 2 + 1`
angles only. Over the real numbers this is enough (`HalfCircle.table_eq_circle`): entry `j` is the
point of the unit circle at the angle `π j / (2 n)`, for every `j`.

* **No index leaves the octant.** An entry of the second octant reads the first one backwards,
  and one of the second quadrant reads the first quadrant again from its start. Both indices are
  differences, and neither is ever taken the wrong way round (`entry_octant`).
* **Nothing else is evaluated.** Any two functions may take the place of cosine and sine as long
  as they have the same values at the angles of the first octant: the table is the same
  (`table_evaluating`).

The only thing that can be missing is room for the table, and that is settled before anything is
evaluated (`table_of_not_hasRoom`).
-/

namespace CosineTransform

/-- The working precision with other functions in the place of cosine and sine. -/
@[reducible] def Precision.evaluating {W : Type} [Precision W] (cos sin : W → W) : Precision W :=
  { ‹Precision W› with cos := cos, sin := sin }

theorem Precision.angle_eq {n : ℕ} (hn : 0 < n) (j : ℕ) :
    (Precision.angle n j : ℝ) = Real.pi * j / (2 * n) := by
  rw [angle_real]
  field_simp

namespace HalfCircle

section Evaluations

variable {T W : Type} [Precision W] [Sample T W] {n : ℕ} {cos sin : W → W}

/-- The octant consists of the values at its angles. -/
theorem octant_evaluating
    (h : ∀ j ≤ n / 2, cos (Precision.angle n j) = Precision.cos (Precision.angle n j) ∧
      sin (Precision.angle n j) = Precision.sin (Precision.angle n j)) :
    @octant W (Precision.evaluating cos sin) n = octant n := by
  refine Buffer.map_range_congr fun j hj => ?_
  obtain ⟨hcos, hsin⟩ := h j (by omega)
  exact congrArg₂ Cartesian.mk hcos hsin

/-- **Only the octant is evaluated**: functions that agree at its angles lead to the same table. -/
theorem table_evaluating
    (h : ∀ j ≤ n / 2, cos (Precision.angle n j) = Precision.cos (Precision.angle n j) ∧
      sin (Precision.angle n j) = Precision.sin (Precision.angle n j)) :
    @table T W (Precision.evaluating cos sin) _ n = table n := by
  unfold table
  rw [octant_evaluating h]
  rfl

/-- Without room for its table a half circle is not begun. -/
theorem table_of_not_hasRoom (h : ¬ HasRoom T n) :
    (table n : Checked (Array (Cartesian T))) = .error .capacityOverflow := by
  unfold table
  by_cases hoctant : 2 * Precision.bytes * (n / 2 + 1) < Word.byteBound
  · -- A length whose octant fits is short enough for the count of its steps to be a word.
    have hsteps : 2 * n < Word.bound := by
      unfold Precision.bytes Word.byteBound at hoctant
      unfold Word.bound
      omega
    have hroom : ¬ 2 * Stored.bytes T * (2 * n) < Word.byteBound := fun h' => h ⟨hoctant, h'⟩
    rw [Word.reserve_of_lt hoctant, Checked.ok_bind, Word.mul_of_lt hsteps]
    dsimp only
    rw [Checked.ok_bind, Word.reserve_of_not_lt hroom, Checked.error_bind]
  · rw [Word.reserve_of_not_lt hoctant, Checked.error_bind]

end Evaluations

variable {n : ℕ}

/-- **A phasor over the real numbers** has the cosine and the sine of its angle. -/
theorem phasor_eq_point (hn : 0 < n) {j : ℕ} (hj : j < 2 * n) :
    (phasor n j : Cartesian ℝ) =
      ⟨Real.cos (Real.pi * j / (2 * n)), Real.sin (Real.pi * j / (2 * n))⟩ := by
  have hpoint := phasor_eq hn hj.le
  have hre : (phasor n j : Cartesian ℝ).re = Real.cos (Real.pi * j / (2 * n)) := by
    rw [← cis_re, ← hpoint, Cartesian.toComplex_re]
  have him : (phasor n j : Cartesian ℝ).im = Real.sin (Real.pi * j / (2 * n)) := by
    rw [← cis_im, ← hpoint, Cartesian.toComplex_im]
  rw [← hre, ← him]

/-- **The table of a half circle is the half circle**, of every length that is not zero. It reads
an octant of `n / 2 + 1` values, always in its range, and depends on no other value of cosine and
sine. -/
theorem table_eq_circle (hn : 0 < n) :
    (octant n : Array (Cartesian ℝ)).size = n / 2 + 1 ∧
    (∀ j < 2 * n, entry (octant n) n j = .ok (⟨Real.cos (Real.pi * j / (2 * n)),
      Real.sin (Real.pi * j / (2 * n))⟩ : Cartesian ℝ)) ∧
    (HasRoom ℝ n → ∃ phasors : Array (Cartesian ℝ), table n = .ok phasors ∧
      phasors.size = 2 * n ∧
      (∀ j < 2 * n, phasors[j]? =
        some ⟨Real.cos (Real.pi * j / (2 * n)), Real.sin (Real.pi * j / (2 * n))⟩) ∧
      ∀ cos sin : ℝ → ℝ,
        (∀ j ≤ n / 2, cos (Real.pi * j / (2 * n)) = Real.cos (Real.pi * j / (2 * n)) ∧
          sin (Real.pi * j / (2 * n)) = Real.sin (Real.pi * j / (2 * n))) →
        @table ℝ ℝ (Precision.evaluating cos sin) _ n = .ok phasors) ∧
    (¬ HasRoom ℝ n →
      (table n : Checked (Array (Cartesian ℝ))) = .error .capacityOverflow) := by
  refine ⟨by simp [octant], fun j hj => ?_, fun hroom => ?_, table_of_not_hasRoom⟩
  · -- Narrowing changes nothing here, so the entry is the phasor.
    rw [entry_octant hj, ← phasor_eq_point hn hj]
    rfl
  · have htable : table n = .ok ((Array.range (2 * n)).map (phasor n : ℕ → Cartesian ℝ)) :=
      table_eq hroom
    refine ⟨_, htable, by simp, fun j hj => ?_, fun cos sin h => ?_⟩
    · rw [Buffer.getElem?_map_range _ hj, phasor_eq_point hn hj]
    · rw [← htable]
      refine table_evaluating fun j hj => ?_
      rw [Precision.angle_eq hn]
      exact h j hj

/-- The half circle in four steps: the last entry is the second one, turned by a quarter. -/
theorem table_eq_circle_two :
    ∃ phasors : Array (Cartesian ℝ), table 2 = .ok phasors ∧ phasors.size = 4 ∧
      phasors[1]? = some ⟨√2 / 2, √2 / 2⟩ ∧ phasors[3]? = some ⟨-(√2 / 2), √2 / 2⟩ := by
  obtain ⟨-, -, hcircle, -⟩ := table_eq_circle (n := 2) (by decide)
  obtain ⟨phasors, htable, hsize, hpoint, -⟩ := hcircle (by decide)
  have hone : Real.pi * (1 : ℕ) / (2 * (2 : ℕ)) = Real.pi / 4 := by
    push_cast
    ring
  have hthree : Real.pi * (3 : ℕ) / (2 * (2 : ℕ)) = Real.pi - Real.pi / 4 := by
    push_cast
    ring
  refine ⟨phasors, htable, hsize, ?_, ?_⟩
  · rw [hpoint 1 (by decide), hone, Real.cos_pi_div_four, Real.sin_pi_div_four]
  · rw [hpoint 3 (by decide), hthree, Real.cos_pi_sub, Real.sin_pi_sub, Real.cos_pi_div_four,
      Real.sin_pi_div_four]

end HalfCircle

end CosineTransform
