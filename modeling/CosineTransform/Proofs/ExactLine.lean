import Mathlib
import CosineTransform.Proofs.ExactCircle
import CosineTransform.Proofs.LineImage

/-!
# The cosine transform of a line over the real numbers

With exact numbers the transform of a line is a sum of cosines. Write
`cosine n k m = cos (π (2 m + 1) k / (2 n))`. Forward, coefficient `k` is the sum of
`x m * cosine n k m` over all places `m`, weighed (`analysis_eq`); inverse, place `m` is
the sum of `x k * cosine n k m` over all coefficients `k`, each of them weighed
(`synthesis_eq`). Both are collected in `image_eq`, for lines of length one as well.

Both proofs compute in the folded line, where entry `p` turns at `π k (4 p + 1) / (2 n)`:
folding puts place `m` where this angle has the cosine of `π (2 m + 1) k / (2 n)`
(`cosine_place`), and two coefficients `k` and `n - k` are the real and the imaginary
part of one complex value, since the angles of `n - k` are those of `k` taken from a
quarter turn (`cis_opposite`).
-/

open Complex (I)

namespace CosineTransform

namespace LineTransform

/-! ### Numbers -/

@[simp] theorem half_real : (Sample.half : ℝ) = 1 / 2 := by
  change ((1 : ℕ) : ℝ) / ((2 : ℕ) : ℝ) = 1 / 2
  norm_num

@[simp] theorem two_real : (Sample.two : ℝ) = 2 := by
  change ((2 : ℕ) : ℝ) = 2
  norm_num

theorem constantWeight_real (n : ℕ) : (Sample.constantWeight n : ℝ) = √(1 / n) := by
  change √(((1 : ℕ) : ℝ) / (n : ℝ)) = _
  rw [Nat.cast_one]

theorem waveWeight_real (n : ℕ) : (Sample.waveWeight n : ℝ) = √(2 / n) := by
  change √(((2 : ℕ) : ℝ) / (n : ℝ)) = _
  rw [Nat.cast_ofNat]

theorem half_two_pow_succ (e : ℕ) : 2 ^ (e + 1) / 2 = 2 ^ e := by
  rw [pow_succ, Nat.mul_div_cancel _ (by omega)]

theorem foldedAngle_zero (n k : ℕ) : foldedAngle n k 0 = Real.pi * k / (2 * n) := by
  simp [foldedAngle]

/-- The half circle turns by the angle of entry zero. -/
theorem phasor_rotation {n k : ℕ} (hn : 0 < n) (hk : k ≤ 2 * n) :
    (HalfCircle.phasor n k : Cartesian ℝ).toComplex = cis (foldedAngle n k 0) := by
  rw [HalfCircle.phasor_eq hn hk, foldedAngle_zero]

/-- Four steps of the half circle are one `n`-th of a whole turn. -/
theorem phasor_step {n k : ℕ} (hn : 0 < n) (hk : 4 * k ≤ 2 * n) :
    (HalfCircle.phasor n (4 * k) : Cartesian ℝ).toComplex = cis (2 * Real.pi * k / n) := by
  rw [HalfCircle.phasor_eq hn hk]
  congr 1
  push_cast
  field_simp
  ring

/-- **Folding keeps cosines.** -/
theorem cosine_place {n p : ℕ} (hn : n % 2 = 0) (hp : p < n) (k : ℕ) :
    cosine n k (Folding.place n p) = Real.cos (foldedAngle n k p) := by
  have hpos : (n : ℝ) ≠ 0 := by
    have : 0 < n := by omega
    positivity
  unfold cosine foldedAngle Folding.place
  by_cases hpn : p < n / 2
  · rw [if_pos hpn]
    congr 1
    push_cast
    ring
  · -- The two angles add up to a whole number of turns.
    have hplace : ((2 * (n - p) - 1 : ℕ) : ℝ) = 2 * (n - p) - 1 := by
      rw [Nat.cast_sub (by omega)]
      push_cast
      rw [Nat.cast_sub hp.le]
    have hangle : Real.pi * (2 * (2 * (n - p) - 1) + 1) * k / (2 * n) =
        k * (2 * Real.pi) - Real.pi * k * (4 * p + 1) / (2 * n) := by
      field_simp
      ring
    rw [if_neg hpn, hplace, hangle, Real.cos_nat_mul_two_pi_sub]

/-- A sum over the places of a line, in the order of the folded line. -/
theorem sum_place {n : ℕ} (hn : n % 2 = 0) (g : ℕ → ℝ) :
    ∑ p ∈ Finset.range n, g (Folding.place n p) = ∑ m ∈ Finset.range n, g m := by
  refine Finset.sum_nbij' (Folding.place n) (Folding.position n) ?_ ?_ ?_ ?_ fun _ _ => rfl
  · exact fun p hp => Finset.mem_range.2 (Folding.place_lt hn (Finset.mem_range.1 hp))
  · exact fun m hm => Finset.mem_range.2 (Folding.position_lt (Finset.mem_range.1 hm))
  · intro p hp
    have hp' := Finset.mem_range.1 hp
    exact ((Folding.place_eq_iff hn hp' (Folding.place_lt hn hp')).1 rfl).symm
  · intro m hm
    have hm' := Finset.mem_range.1 hm
    exact (Folding.place_eq_iff hn (Folding.position_lt hm') hm').2 rfl

/-- **Opposite coefficients**: the angles of `n - k` are those of `k` taken from a quarter
turn. -/
theorem cis_opposite {n k : ℕ} (hn : 0 < n) (hk : k ≤ n) (p : ℕ) :
    cis (foldedAngle n (n - k) p) = I * cis (-foldedAngle n k p) := by
  have hpos : (n : ℝ) ≠ 0 := by positivity
  have hangle : foldedAngle n (n - k) p =
      p * (2 * Real.pi) + (Real.pi / 2 + -foldedAngle n k p) := by
    unfold foldedAngle
    rw [Nat.cast_sub hk]
    field_simp
    ring
  rw [hangle, cis_add, cis_nat_mul_two_pi, one_mul, cis_add, cis_pi_div_two]

/-! ### Roots of a packed line -/

/-- The power of a root depends on the exponent up to whole turns. -/
theorem unitRoot_pow_mod (d : Direction) (e t k : ℕ) :
    Fourier.unitRoot d e ^ (t * (k % 2 ^ e)) = Fourier.unitRoot d e ^ (t * k) := by
  conv_rhs => rw [← Nat.div_add_mod k (2 ^ e), Nat.mul_add, pow_add, Nat.mul_left_comm, pow_mul,
    Fourier.unitRoot_pow, one_pow, one_mul]

theorem unitRoot_mul_conj (d : Direction) (e : ℕ) :
    Fourier.unitRoot d e * (starRingEnd ℂ) (Fourier.unitRoot d e) = 1 := by
  unfold Fourier.unitRoot
  rw [conj_cis, ← cis_add, add_neg_cancel, cis_zero]

/-- The conjugate of an opposite power. -/
theorem conj_unitRoot_pow_sub (d : Direction) {e k : ℕ} (hk : k ≤ 2 ^ e) (t : ℕ) :
    (starRingEnd ℂ) (Fourier.unitRoot d e ^ (t * (2 ^ e - k))) =
      Fourier.unitRoot d e ^ (t * k) := by
  have hone : Fourier.unitRoot d e ^ (t * k) * Fourier.unitRoot d e ^ (t * (2 ^ e - k)) = 1 := by
    rw [← pow_add, ← Nat.mul_add, Nat.add_sub_cancel' hk, Nat.mul_comm, pow_mul,
      Fourier.unitRoot_pow, one_pow]
  have hconj : Fourier.unitRoot d e ^ (t * (2 ^ e - k)) *
      (starRingEnd ℂ) (Fourier.unitRoot d e ^ (t * (2 ^ e - k))) = 1 := by
    rw [map_pow, ← mul_pow, unitRoot_mul_conj, one_pow]
  calc (starRingEnd ℂ) (Fourier.unitRoot d e ^ (t * (2 ^ e - k)))
      = Fourier.unitRoot d e ^ (t * k) * (Fourier.unitRoot d e ^ (t * (2 ^ e - k)) *
          (starRingEnd ℂ) (Fourier.unitRoot d e ^ (t * (2 ^ e - k)))) := by
        rw [← mul_assoc, hone, one_mul]
    _ = Fourier.unitRoot d e ^ (t * k) := by rw [hconj, mul_one]

/-- The roots of a packed line, which has half the length of the line. -/
theorem root_pow (d : Direction) {e i j : ℕ} (hi : i < e) (hj : j < 2 ^ i) :
    (Fourier.root d (HalfCircle.phasor (2 ^ (e + 1))) (2 ^ (e + 1)) (2 ^ i) j :
      Cartesian ℝ).toComplex = Fourier.unitRoot d (i + 1) ^ j := by
  refine Fourier.root_eq d (Nat.two_pow_pos _) ?_ hj
  rw [show 2 * 2 ^ i = 2 ^ (i + 1) by ring, show 4 * 2 ^ (e + 1) = 2 ^ (e + 3) by ring]
  exact Nat.pow_dvd_pow 2 (by omega)

/-- Powers of the root of half the length, as angles of the whole length. -/
theorem unitRoot_pow_mul (d : Direction) (e t k : ℕ) : Fourier.unitRoot d e ^ (t * k) =
    cis (d.sign * (2 * Real.pi * k * (2 * t : ℕ) / (2 ^ (e + 1) : ℕ))) := by
  rw [Fourier.unitRoot, cis_pow]
  congr 1
  push_cast
  rw [pow_succ]
  field_simp

theorem unitRoot_forward_pow (e t k : ℕ) : Fourier.unitRoot .forward e ^ (t * k) =
    cis (-(2 * Real.pi * k * (2 * t : ℕ) / (2 ^ (e + 1) : ℕ))) := by
  rw [unitRoot_pow_mul, Direction.sign, neg_one_mul]

theorem unitRoot_inverse_pow (e t k : ℕ) : Fourier.unitRoot .inverse e ^ (t * k) =
    cis (2 * Real.pi * k * (2 * t : ℕ) / (2 ^ (e + 1) : ℕ)) := by
  rw [unitRoot_pow_mul, Direction.sign, one_mul]

/-! ### Analysis -/

section Analysis

variable {e : ℕ} {x : ℕ → ℝ}

/-- The waves of the packed line of a length `2 ^ (e + 1)`. -/
theorem packedWaves_eq (x : ℕ → ℝ) {m : ℕ} (hm : m < 2 ^ e) :
    (packedWaves (HalfCircle.phasor (2 ^ (e + 1))) (2 ^ (e + 1)) x m).toComplex =
      ∑ t ∈ Finset.range (2 ^ e), ((x (Folding.place (2 ^ (e + 1)) (2 * t)) : ℂ) +
        x (Folding.place (2 ^ (e + 1)) (2 * t + 1)) * I) *
          Fourier.unitRoot .forward e ^ (t * m) := by
  unfold packedWaves
  rw [half_two_pow_succ, Nat.log2_two_pow,
    Fourier.waves_eq .forward (fun i hi j hj => root_pow .forward hi hj) _ m hm]
  refine Finset.sum_congr rfl fun t _ => ?_
  congr 1
  apply Complex.ext <;> simp [Folding.folded]

/-- Entry `k` of the transform of the even entries of the folded line. -/
noncomputable def evenBin (e : ℕ) (x : ℕ → ℝ) (k : ℕ) : ℂ :=
  ∑ t ∈ Finset.range (2 ^ e), (x (Folding.place (2 ^ (e + 1)) (2 * t)) : ℂ) *
    Fourier.unitRoot .forward e ^ (t * k)

/-- Entry `k` of the transform of the odd entries of the folded line. -/
noncomputable def oddBin (e : ℕ) (x : ℕ → ℝ) (k : ℕ) : ℂ :=
  ∑ t ∈ Finset.range (2 ^ e), (x (Folding.place (2 ^ (e + 1)) (2 * t + 1)) : ℂ) *
    Fourier.unitRoot .forward e ^ (t * k)

/-- The packed line carries the even entries in its real and the odd entries in its
imaginary parts. -/
theorem packedWaves_mod (x : ℕ → ℝ) (k : ℕ) :
    (packedWaves (HalfCircle.phasor (2 ^ (e + 1))) (2 ^ (e + 1)) x (k % 2 ^ e)).toComplex =
      evenBin e x k + oddBin e x k * I := by
  rw [packedWaves_eq x (Nat.mod_lt _ (Nat.two_pow_pos e)), evenBin, oddBin, Finset.sum_mul,
    ← Finset.sum_add_distrib]
  refine Finset.sum_congr rfl fun t _ => ?_
  rw [unitRoot_pow_mod]
  ring

/-- Both transforms are of real entries, so conjugation takes opposite entries into one
another. -/
theorem conj_packedWaves_mod (x : ℕ → ℝ) {k : ℕ} (hk : k ≤ 2 ^ e) :
    (starRingEnd ℂ) (packedWaves (HalfCircle.phasor (2 ^ (e + 1))) (2 ^ (e + 1)) x
        ((2 ^ e - k) % 2 ^ e)).toComplex = evenBin e x k - oddBin e x k * I := by
  rw [packedWaves_eq x (Nat.mod_lt _ (Nat.two_pow_pos e)), map_sum, evenBin, oddBin,
    Finset.sum_mul, ← Finset.sum_sub_distrib]
  refine Finset.sum_congr rfl fun t _ => ?_
  rw [unitRoot_pow_mod, map_mul, conj_unitRoot_pow_sub .forward hk]
  simp only [map_add, map_mul, Complex.conj_ofReal, Complex.conj_I]
  ring

/-- **The bins together**, turned back, sum up the folded line. -/
theorem turned_bins_eq (x : ℕ → ℝ) (k : ℕ) :
    cis (-foldedAngle (2 ^ (e + 1)) k 0) *
        (evenBin e x k + cis (-(2 * Real.pi * k / (2 ^ (e + 1) : ℕ))) * oddBin e x k) =
      ∑ p ∈ Finset.range (2 ^ (e + 1)), (x (Folding.place (2 ^ (e + 1)) p) : ℂ) *
        cis (-foldedAngle (2 ^ (e + 1)) k p) := by
  have hpos : ((2 ^ (e + 1) : ℕ) : ℝ) ≠ 0 := by positivity
  -- Entry `p` is `p` steps of the joint circle away from entry zero.
  have hangle : ∀ p : ℕ, -foldedAngle (2 ^ (e + 1)) k p = -foldedAngle (2 ^ (e + 1)) k 0 +
      -(2 * Real.pi * k * p / (2 ^ (e + 1) : ℕ)) := by
    intro p
    rw [foldedAngle_zero]
    unfold foldedAngle
    field_simp
    ring
  rw [show 2 ^ (e + 1) = 2 * 2 ^ e by ring, Fourier.sum_range_two_mul,
    show 2 * 2 ^ e = 2 ^ (e + 1) by ring, mul_add, evenBin, oddBin, Finset.mul_sum,
    Finset.mul_sum, Finset.mul_sum]
  congr 1
  · refine Finset.sum_congr rfl fun t _ => ?_
    rw [hangle (2 * t), cis_add, unitRoot_forward_pow]
    ring
  · -- Odd entries are one step further than the even ones that the root knows of.
    have hstep : ∀ t : ℕ, -(2 * Real.pi * k * (2 * t + 1 : ℕ) / (2 ^ (e + 1) : ℕ)) =
        -(2 * Real.pi * k / (2 ^ (e + 1) : ℕ)) +
          -(2 * Real.pi * k * (2 * t : ℕ) / (2 ^ (e + 1) : ℕ)) := by
      intro t
      push_cast
      field_simp
      ring
    refine Finset.sum_congr rfl fun t _ => ?_
    rw [hangle (2 * t + 1), hstep, cis_add, cis_add, unitRoot_forward_pow]
    ring

/-- **A bin of the folded line**, turned back. -/
theorem splitRule_eq (x : ℕ → ℝ) {k : ℕ} (hk : k ≤ 2 ^ e) :
    (splitRule (HalfCircle.phasor (2 ^ (e + 1))) (2 ^ (e + 1))
        (packedWaves (HalfCircle.phasor (2 ^ (e + 1))) (2 ^ (e + 1)) x) k).toComplex =
      ∑ p ∈ Finset.range (2 ^ (e + 1)), (x (Folding.place (2 ^ (e + 1)) p) : ℂ) *
        cis (-foldedAngle (2 ^ (e + 1)) k p) := by
  -- Sum and difference of opposite entries are the two transforms.
  have heven : ((evenBin e x k + oddBin e x k * I) + (evenBin e x k - oddBin e x k * I)) *
      ((1 / 2 : ℝ) : ℂ) = evenBin e x k := by
    push_cast
    ring
  have hodd : -I * ((evenBin e x k + oddBin e x k * I) - (evenBin e x k - oddBin e x k * I)) *
      ((1 / 2 : ℝ) : ℂ) = oddBin e x k := by
    push_cast
    linear_combination (-oddBin e x k) * Complex.I_sq
  have hlt : k ≤ 2 * 2 ^ (e + 1) := by
    rw [pow_succ]
    omega
  rw [← turned_bins_eq]
  unfold splitRule
  simp only [half_two_pow_succ]
  rw [Cartesian.toComplex_mul, Cartesian.toComplex_conj, phasor_rotation (Nat.two_pow_pos _) hlt,
    conj_cis]
  congr 1
  by_cases hke : k = 2 ^ e
  · -- In the middle the step of the joint circle is half a turn.
    have hstep : cis (-(2 * Real.pi * k / (2 ^ (e + 1) : ℕ))) = -1 := by
      rw [hke, ← cis_neg_pi]
      congr 1
      push_cast
      rw [pow_succ]
      field_simp
    rw [if_pos hke, hstep]
    simp only [Cartesian.toComplex_sub, Cartesian.toComplex_add, Cartesian.toComplex_scale,
      Cartesian.toComplex_turnBack, Cartesian.toComplex_conj, packedWaves_mod x k,
      conj_packedWaves_mod x hk, half_real]
    rw [heven, hodd]
    ring
  · -- Everywhere else it is read off the half circle.
    have hstep := phasor_step (Nat.two_pow_pos (e + 1)) (k := k) (by
      rw [pow_succ]
      omega)
    rw [if_neg hke]
    simp only [Cartesian.toComplex_sub, Cartesian.toComplex_add, Cartesian.toComplex_mul,
      Cartesian.toComplex_scale, Cartesian.toComplex_turnBack, Cartesian.toComplex_conj,
      packedWaves_mod x k, conj_packedWaves_mod x hk, half_real, hstep, conj_cis]
    rw [heven, hodd]

/-- **Analysis** sums up cosines. -/
theorem coefficientRule_eq (x : ℕ → ℝ) {k : ℕ} (hk : k < 2 ^ (e + 1)) :
    coefficientRule (HalfCircle.phasor (2 ^ (e + 1))) (2 ^ (e + 1))
        (packedWaves (HalfCircle.phasor (2 ^ (e + 1))) (2 ^ (e + 1)) x) k =
      ∑ m ∈ Finset.range (2 ^ (e + 1)), x m * cosine (2 ^ (e + 1)) k m := by
  have heven : 2 ^ (e + 1) % 2 = 0 := by rw [pow_succ, Nat.mul_mod_left]
  -- The sum in the order of the folded line.
  have hsum : ∑ m ∈ Finset.range (2 ^ (e + 1)), x m * cosine (2 ^ (e + 1)) k m =
      ∑ p ∈ Finset.range (2 ^ (e + 1)), x (Folding.place (2 ^ (e + 1)) p) *
        Real.cos (foldedAngle (2 ^ (e + 1)) k p) := by
    rw [← sum_place heven]
    refine Finset.sum_congr rfl fun p hp => ?_
    rw [cosine_place heven (Finset.mem_range.1 hp)]
  unfold coefficientRule
  rw [half_two_pow_succ, hsum]
  by_cases hke : k ≤ 2 ^ e
  · -- Coefficients of the first half are the real parts of their bins.
    rw [if_pos hke, ← Cartesian.toComplex_re, splitRule_eq x hke, Complex.re_sum]
    refine Finset.sum_congr rfl fun p _ => ?_
    rw [Complex.re_ofReal_mul, cis_re, Real.cos_neg]
  · -- Those of the second half are imaginary parts of the bins of their partners.
    rw [if_neg hke, ← Cartesian.toComplex_im, splitRule_eq x (by rw [pow_succ] at hk; omega),
      Complex.im_sum, ← Finset.sum_neg_distrib]
    refine Finset.sum_congr rfl fun p _ => ?_
    have hopposite := congrArg Complex.im (cis_opposite (Nat.two_pow_pos (e + 1)) hk.le p)
    rw [cis_im, Complex.I_mul_im, cis_re, Real.cos_neg] at hopposite
    rw [Complex.im_ofReal_mul, cis_im, Real.sin_neg, hopposite]
    ring

end Analysis

/-! ### Synthesis -/

section Synthesis

variable {n e : ℕ}

/-- Coefficients `k` and `n - k` as one complex value, turned. -/
noncomputable def joined (n : ℕ) (x : ℕ → ℝ) (k : ℕ) : ℂ :=
  if k = 0 then x 0 else cis (foldedAngle n k 0) * (x k - x (n - k) * I)

theorem joinRule_eq (hn : 0 < n) (x : ℕ → ℝ) {k : ℕ} (hk : k ≤ n) :
    (joinRule (HalfCircle.phasor n) n x k).toComplex = joined n x k := by
  unfold joinRule joined
  rw [Cartesian.toComplex_mul, phasor_rotation hn (by omega)]
  by_cases hk0 : k = 0
  · -- The constant term has no partner and is not turned.
    subst hk0
    have hone : cis (foldedAngle n 0 0) = 1 := by simp [foldedAngle]
    rw [if_pos rfl, if_pos rfl, hone, one_mul]
    rfl
  · rw [if_neg hk0, if_neg hk0]
    congr 1
    apply Complex.ext <;> simp

/-- The joined values of opposite coefficients are conjugate. -/
theorem conj_joined (hn : 0 < n) (x : ℕ → ℝ) {k : ℕ} (hk0 : 0 < k) (hk : k < n) :
    (starRingEnd ℂ) (joined n x (n - k)) = joined n x k := by
  unfold joined
  rw [if_neg (by omega), if_neg (by omega), cis_opposite hn hk.le 0, Nat.sub_sub_self hk.le]
  simp only [map_mul, map_sub, Complex.conj_ofReal, Complex.conj_I, conj_cis, neg_neg]
  linear_combination (-(cis (foldedAngle n k 0) * x k)) * Complex.I_sq

/-- A joined value, turned to an entry of the folded line. -/
theorem joined_mul_cis (hn : 0 < n) (x : ℕ → ℝ) {k : ℕ} (hk0 : 0 < k) (p : ℕ) :
    joined n x k * cis (2 * Real.pi * k * p / n) =
      x k * cis (foldedAngle n k p) + -(x (n - k) * I * cis (foldedAngle n k p)) := by
  have hpos : (n : ℝ) ≠ 0 := by positivity
  have hangle : foldedAngle n k p = foldedAngle n k 0 + 2 * Real.pi * k * p / n := by
    rw [foldedAngle_zero]
    unfold foldedAngle
    field_simp
    ring
  unfold joined
  rw [if_neg (by omega), hangle, cis_add]
  ring

/-- The partners of all coefficients are these coefficients, turned in the opposite
sense. -/
theorem sum_partners (hn : 0 < n) (x : ℕ → ℝ) (p : ℕ) :
    ∑ k ∈ Finset.Ico 1 n, -(x (n - k) * I * cis (foldedAngle n k p)) =
      ∑ k ∈ Finset.Ico 1 n, x k * cis (-foldedAngle n k p) := by
  have hreflect := Finset.sum_Ico_reflect
    (fun k => -((x k : ℂ) * I * cis (foldedAngle n (n - k) p))) 1 (m := n) (n := n) (by omega)
  rw [show n + 1 - n = 1 by omega, show n + 1 - 1 = n by omega] at hreflect
  calc ∑ k ∈ Finset.Ico 1 n, -(x (n - k) * I * cis (foldedAngle n k p))
      = ∑ k ∈ Finset.Ico 1 n, -(x (n - k) * I * cis (foldedAngle n (n - (n - k)) p)) := by
        refine Finset.sum_congr rfl fun k hk => ?_
        rw [Nat.sub_sub_self (Finset.mem_Ico.1 hk).2.le]
    _ = ∑ k ∈ Finset.Ico 1 n, -(x k * I * cis (foldedAngle n (n - k) p)) := hreflect
    _ = ∑ k ∈ Finset.Ico 1 n, x k * cis (-foldedAngle n k p) := by
        refine Finset.sum_congr rfl fun k hk => ?_
        rw [cis_opposite hn (Finset.mem_Ico.1 hk).2.le]
        linear_combination (-(x k * cis (-foldedAngle n k p))) * Complex.I_sq

/-- Every coefficient of a line, joined with its opposite, turned to an entry of the folded
line: half of the sum is a sum of cosines. -/
theorem sum_joined (hn : 0 < n) (x : ℕ → ℝ) (p : ℕ) :
    1 / 2 * ∑ k ∈ Finset.range n, joined n x k * cis (2 * Real.pi * k * p / n) =
      ((∑ k ∈ Finset.range n, plainWeight k * x k * Real.cos (foldedAngle n k p) : ℝ) : ℂ) := by
  have hfirst : joined n x 0 * cis (2 * Real.pi * (0 : ℕ) * p / n) = x 0 := by
    simp [joined]
  -- Without the constant term, every coefficient is met once in each sense.
  have hwaves : ∑ k ∈ Finset.Ico 1 n, joined n x k * cis (2 * Real.pi * k * p / n) =
      2 * ∑ k ∈ Finset.Ico 1 n, ((x k * Real.cos (foldedAngle n k p) : ℝ) : ℂ) := by
    calc ∑ k ∈ Finset.Ico 1 n, joined n x k * cis (2 * Real.pi * k * p / n)
        = ∑ k ∈ Finset.Ico 1 n, (x k * cis (foldedAngle n k p) +
            -(x (n - k) * I * cis (foldedAngle n k p))) :=
          Finset.sum_congr rfl fun k hk => joined_mul_cis hn x (Finset.mem_Ico.1 hk).1 p
      _ = ∑ k ∈ Finset.Ico 1 n,
            (x k * cis (foldedAngle n k p) + x k * cis (-foldedAngle n k p)) := by
          rw [Finset.sum_add_distrib, sum_partners hn, ← Finset.sum_add_distrib]
      _ = 2 * ∑ k ∈ Finset.Ico 1 n, ((x k * Real.cos (foldedAngle n k p) : ℝ) : ℂ) := by
          rw [Finset.mul_sum]
          refine Finset.sum_congr rfl fun k _ => ?_
          rw [← mul_add, cis_add_cis_neg]
          push_cast
          ring
  have hangle0 : foldedAngle n 0 p = 0 := by simp [foldedAngle]
  have hweight : ∀ k ∈ Finset.Ico 1 n, plainWeight k * x k * Real.cos (foldedAngle n k p) =
      x k * Real.cos (foldedAngle n k p) := by
    intro k hk
    have hk1 := (Finset.mem_Ico.1 hk).1
    rw [plainWeight, if_neg (by omega), one_mul]
  rw [Finset.sum_range_eq_add_Ico _ hn, Finset.sum_range_eq_add_Ico _ hn, hfirst, hwaves,
    Finset.sum_congr rfl hweight, hangle0, plainWeight, if_pos rfl, Real.cos_zero]
  push_cast
  ring

/-- The packed spectrum, in terms of the joined coefficients. -/
theorem packRule_eq (x : ℕ → ℝ) {k : ℕ} (hk : k < 2 ^ e) :
    (packRule (HalfCircle.phasor (2 ^ (e + 1))) (2 ^ (e + 1)) x k).toComplex =
      1 / 2 * (joined (2 ^ (e + 1)) x k + joined (2 ^ (e + 1)) x (2 ^ e + k)) +
        I * (1 / 2 * ((joined (2 ^ (e + 1)) x k - joined (2 ^ (e + 1)) x (2 ^ e + k)) *
          cis (2 * Real.pi * k / (2 ^ (e + 1) : ℕ)))) := by
  have hpos := Nat.two_pow_pos e
  have htwo : 2 ^ (e + 1) = 2 * 2 ^ e := by ring
  -- The partner of `2 ^ e - k` is `2 ^ e + k`.
  have hopposite := conj_joined (n := 2 ^ (e + 1)) (Nat.two_pow_pos _) x (k := 2 ^ e + k)
    (by omega) (by omega)
  rw [show 2 ^ (e + 1) - (2 ^ e + k) = 2 ^ e - k by omega] at hopposite
  have hstep := phasor_step (Nat.two_pow_pos (e + 1)) (k := k) (by omega)
  unfold packRule
  simp only [half_two_pow_succ, Cartesian.toComplex_add, Cartesian.toComplex_sub,
    Cartesian.toComplex_mul, Cartesian.toComplex_scale, Cartesian.toComplex_turn,
    Cartesian.toComplex_conj, half_real, hstep,
    joinRule_eq (Nat.two_pow_pos (e + 1)) x (show k ≤ 2 ^ (e + 1) by omega),
    joinRule_eq (Nat.two_pow_pos (e + 1)) x (show 2 ^ e - k ≤ 2 ^ (e + 1) by omega), hopposite]
  push_cast
  ring

/-- The joined values in two halves, turned to an entry of the folded line. Half a turn of
the joint circle is a whole number of turns at even entries and half a turn more at odd
ones. -/
theorem sum_joined_halves (x : ℕ → ℝ) (p : ℕ) :
    ∑ k ∈ Finset.range (2 ^ (e + 1)),
        joined (2 ^ (e + 1)) x k * cis (2 * Real.pi * k * p / (2 ^ (e + 1) : ℕ)) =
      ∑ k ∈ Finset.range (2 ^ e), (joined (2 ^ (e + 1)) x k + cis (p * Real.pi) *
        joined (2 ^ (e + 1)) x (2 ^ e + k)) * cis (2 * Real.pi * k * p / (2 ^ (e + 1) : ℕ)) := by
  have hne : (2 : ℝ) ^ e ≠ 0 := by positivity
  rw [show (2 : ℕ) ^ (e + 1) = 2 ^ e + 2 ^ e by ring, Finset.sum_range_add,
    ← Finset.sum_add_distrib]
  refine Finset.sum_congr rfl fun k _ => ?_
  have hangle : 2 * Real.pi * (2 ^ e + k : ℕ) * p / (2 ^ e + 2 ^ e : ℕ) =
      p * Real.pi + 2 * Real.pi * k * p / (2 ^ e + 2 ^ e : ℕ) := by
    push_cast
    field_simp
    ring
  rw [hangle, cis_add]
  ring

/-- **Synthesis** turns the packed spectrum into the packed line: entries `2 * m` and
`2 * m + 1` of the folded line, each of them a sum of cosines. -/
theorem waves_packRule (x : ℕ → ℝ) {m : ℕ} (hm : m < 2 ^ e) :
    (Fourier.waves (Fourier.root .inverse (HalfCircle.phasor (2 ^ (e + 1))) (2 ^ (e + 1))) e
        (packRule (HalfCircle.phasor (2 ^ (e + 1))) (2 ^ (e + 1)) x) m).toComplex =
      ((∑ k ∈ Finset.range (2 ^ (e + 1)),
          plainWeight k * x k * Real.cos (foldedAngle (2 ^ (e + 1)) k (2 * m)) : ℝ) : ℂ) +
        I * ((∑ k ∈ Finset.range (2 ^ (e + 1)),
          plainWeight k * x k * Real.cos (foldedAngle (2 ^ (e + 1)) k (2 * m + 1)) : ℝ) : ℂ) := by
  -- One more entry is one more step of the joint circle.
  have hnext : ∀ k : ℕ, cis (2 * Real.pi * k * (2 * m + 1 : ℕ) / (2 ^ (e + 1) : ℕ)) =
      cis (2 * Real.pi * k * (2 * m : ℕ) / (2 ^ (e + 1) : ℕ)) *
        cis (2 * Real.pi * k / (2 ^ (e + 1) : ℕ)) := by
    intro k
    rw [← cis_add]
    congr 1
    push_cast
    field_simp
  rw [Fourier.waves_eq .inverse (fun i hi j hj => root_pow .inverse hi hj) _ m hm,
    ← sum_joined (Nat.two_pow_pos _) x, ← sum_joined (Nat.two_pow_pos _) x, sum_joined_halves,
    sum_joined_halves, cis_even_mul_pi, cis_odd_mul_pi, Finset.mul_sum, Finset.mul_sum,
    Finset.mul_sum, ← Finset.sum_add_distrib]
  refine Finset.sum_congr rfl fun k hk => ?_
  rw [packRule_eq x (Finset.mem_range.1 hk), Nat.mul_comm k m, unitRoot_inverse_pow, hnext]
  ring

/-- Entry `p` of the folded line that synthesis unpacks. -/
theorem unfolded_waves_packRule (x : ℕ → ℝ) {i : ℕ} (hi : i < 2 ^ (e + 1)) :
    Folding.unfolded (2 ^ (e + 1))
        (Fourier.waves (Fourier.root .inverse (HalfCircle.phasor (2 ^ (e + 1))) (2 ^ (e + 1))) e
          (packRule (HalfCircle.phasor (2 ^ (e + 1))) (2 ^ (e + 1)) x)) i =
      ∑ k ∈ Finset.range (2 ^ (e + 1)), plainWeight k * x k * cosine (2 ^ (e + 1)) k i := by
  have heven : 2 ^ (e + 1) % 2 = 0 := by rw [pow_succ, Nat.mul_mod_left]
  obtain ⟨p, hp⟩ : ∃ p, p = Folding.position (2 ^ (e + 1)) i := ⟨_, rfl⟩
  have hlt : p < 2 ^ (e + 1) := hp ▸ Folding.position_lt hi
  obtain rfl : Folding.place (2 ^ (e + 1)) p = i := (Folding.place_eq_iff heven hlt hi).2 hp
  have hwaves := waves_packRule (e := e) x (m := p / 2) (by rw [pow_succ] at hlt; omega)
  have hsum : ∑ k ∈ Finset.range (2 ^ (e + 1)),
        plainWeight k * x k * cosine (2 ^ (e + 1)) k (Folding.place (2 ^ (e + 1)) p) =
      ∑ k ∈ Finset.range (2 ^ (e + 1)),
        plainWeight k * x k * Real.cos (foldedAngle (2 ^ (e + 1)) k p) :=
    Finset.sum_congr rfl fun k _ => by rw [cosine_place heven hlt]
  unfold Folding.unfolded
  rw [← hp, hsum]
  -- Even entries are real parts and odd entries are imaginary parts.
  by_cases hodd : p % 2 = 0
  · rw [if_pos hodd, ← Cartesian.toComplex_re, hwaves, Complex.add_re, Complex.ofReal_re,
      Complex.re_mul_ofReal, Complex.I_re, zero_mul, add_zero, show 2 * (p / 2) = p by omega]
  · rw [if_neg hodd, ← Cartesian.toComplex_im, hwaves, Complex.add_im, Complex.ofReal_im,
      Complex.im_mul_ofReal, Complex.I_im, one_mul, zero_add, show 2 * (p / 2) + 1 = p by omega]

end Synthesis

/-! ### The transform of a line -/

section Image

variable {n : ℕ}

/-- The weight of a coefficient after analysis. -/
noncomputable def analysisWeight (n : ℕ) (scaled : Bool) (k : ℕ) : ℝ :=
  if scaled then normalWeight n k else 1

/-- The weight of a coefficient in synthesis. A line of length one is left alone. -/
noncomputable def synthesisWeight (n : ℕ) (scaled : Bool) (k : ℕ) : ℝ :=
  if n = 1 then 1 else if scaled then normalWeight n k else plainWeight k

theorem analysis_eq (hpow : n.isPowerOfTwo) (hn : n ≠ 1) (scaled : Bool) (x : ℕ → ℝ) {k : ℕ}
    (hk : k < n) : analysis (HalfCircle.phasor n) n scaled x k =
      analysisWeight n scaled k * ∑ m ∈ Finset.range n, x m * cosine n k m := by
  obtain ⟨e, rfl⟩ := hpow
  cases e with
  | zero => exact absurd rfl hn
  | succ e =>
    unfold analysis analysisWeight
    cases scaled with
    | false => simp [coefficientRule_eq x hk]
    | true =>
      simp only [if_true, weighed, normalWeight, coefficientRule_eq x hk, constantWeight_real,
        waveWeight_real]
      by_cases hk0 : k = 0
      · rw [if_pos hk0, if_pos hk0, mul_comm]
      · rw [if_neg hk0, if_neg hk0, mul_comm]

/-- The weights of synthesis: doubling the constant term takes back the half that an
unscaled synthesis gives to it. -/
theorem plainWeight_mul_unscaledRule (hn : n ≠ 1) (scaled : Bool) (x : ℕ → ℝ) (k : ℕ) :
    plainWeight k * unscaledRule n scaled x k = synthesisWeight n scaled k * x k := by
  unfold unscaledRule synthesisWeight
  rw [if_neg hn]
  cases scaled with
  | false => rfl
  | true =>
    simp only [if_true, weighed, normalWeight, plainWeight, constantWeight_real,
      waveWeight_real, two_real]
    by_cases hk0 : k = 0
    · rw [if_pos hk0, if_pos hk0, if_pos hk0]
      ring
    · rw [if_neg hk0, if_neg hk0, if_neg hk0]
      ring

theorem synthesis_eq (hpow : n.isPowerOfTwo) (hn : n ≠ 1) (scaled : Bool) (x : ℕ → ℝ) {i : ℕ}
    (hi : i < n) : synthesis (HalfCircle.phasor n) n scaled x i =
      ∑ k ∈ Finset.range n, synthesisWeight n scaled k * x k * cosine n k i := by
  obtain ⟨e, rfl⟩ := hpow
  cases e with
  | zero => exact absurd rfl hn
  | succ e =>
    unfold synthesis packedLine
    rw [half_two_pow_succ, Nat.log2_two_pow, unfolded_waves_packRule _ hi]
    exact Finset.sum_congr rfl fun k _ => by rw [plainWeight_mul_unscaledRule hn]

/-- How much place `m` of a line counts in place `i` of its transform. -/
noncomputable def entry (n : ℕ) (d : Direction) (scaled : Bool) (i m : ℕ) : ℝ :=
  match d with
  | .forward => analysisWeight n scaled i * cosine n i m
  | .inverse => synthesisWeight n scaled m * cosine n m i

/-- **The transform of a line** over the real numbers, of any length that is a power of
two. -/
theorem image_eq (hpow : n.isPowerOfTwo) (d : Direction) (scaled : Bool) (x : ℕ → ℝ) {i : ℕ}
    (hi : i < n) : image (HalfCircle.phasor n) n d scaled x i =
      ∑ m ∈ Finset.range n, entry n d scaled i m * x m := by
  unfold image
  by_cases hn : n = 1
  · subst hn
    obtain rfl : i = 0 := by omega
    rw [if_pos rfl, Finset.sum_range_one]
    cases d <;> cases scaled <;>
      simp [entry, analysisWeight, synthesisWeight, normalWeight, cosine]
  · rw [if_neg hn]
    cases d with
    | forward =>
      dsimp only
      rw [analysis_eq hpow hn scaled x hi, Finset.mul_sum]
      refine Finset.sum_congr rfl fun m _ => ?_
      unfold entry
      ring
    | inverse =>
      dsimp only
      rw [synthesis_eq hpow hn scaled x hi]
      refine Finset.sum_congr rfl fun k _ => ?_
      unfold entry
      ring

end Image

end LineTransform

end CosineTransform
