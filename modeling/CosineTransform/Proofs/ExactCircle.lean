import Mathlib
import CosineTransform.Proofs.Waves

/-!
# The circle over the real numbers

The program is written over operations without laws. Here they are read as those of
the real numbers, with exact sine, cosine and square root, and coordinates are read as
complex numbers (`Cartesian.toComplex`).

Under this reading a half circle holds the points of the unit circle (`phasor_eq`),
although sine and cosine are evaluated in the first octant only, and the waves of a
rule are its discrete Fourier transform (`waves_eq`). Doubling keeps angles, so
everything that rests on `Precision.AnglesDouble` is true of real numbers.
-/

open Complex (I)

namespace CosineTransform

/-! ### Cosines and weights -/

namespace LineTransform

/-- Cosine `k` of a line of length `n`, at place `m`. -/
noncomputable def cosine (n k m : ℕ) : ℝ :=
  Real.cos (Real.pi * (2 * m + 1) * k / (2 * n))

/-- The angle of entry `p` of a folded line of length `n`, for coefficient `k`. -/
noncomputable def foldedAngle (n k p : ℕ) : ℝ :=
  Real.pi * k * (4 * p + 1) / (2 * n)

/-- The weight of coefficient `k` in an orthonormal transform of length `n`. -/
noncomputable def normalWeight (n k : ℕ) : ℝ :=
  if k = 0 then √(1 / n) else √(2 / n)

/-- The weight of a coefficient in a sum of cosines that is not scaled. -/
noncomputable def plainWeight (k : ℕ) : ℝ :=
  if k = 0 then 1 / 2 else 1

/-- What a line is multiplied by when both directions are applied to it. -/
noncomputable def gain (n : ℕ) (scaled : Bool) : ℝ :=
  if scaled ∨ n = 1 then 1 else n / 2

end LineTransform

/-! ### The operations of the real numbers -/

noncomputable instance : Precision ℝ where
  ofNat n := n
  quarterTurn := Real.pi / 2
  cos := Real.cos
  sin := Real.sin
  sqrt := Real.sqrt

/-- Real numbers take no bytes. Where they stand for samples, they are as wide as the narrower
ones. -/
noncomputable instance : Sample ℝ ℝ where
  width := .single
  narrow x := x

theorem Precision.angle_real (n j : ℕ) : (Precision.angle n j : ℝ) = Real.pi / 2 / n * j :=
  rfl

/-- **Doubling keeps angles** of real numbers. -/
theorem Precision.anglesDouble_real : Precision.AnglesDouble ℝ := by
  intro n j _ _ _
  rw [angle_real, angle_real]
  push_cast
  by_cases hn : (n : ℝ) = 0
  · rw [hn]
    simp
  · field_simp

/-! ### Coordinates as complex numbers -/

namespace Cartesian

/-- The complex number with given coordinates. -/
def toComplex (z : Cartesian ℝ) : ℂ :=
  ⟨z.re, z.im⟩

@[simp] theorem toComplex_re (z : Cartesian ℝ) : z.toComplex.re = z.re := rfl

@[simp] theorem toComplex_im (z : Cartesian ℝ) : z.toComplex.im = z.im := rfl

@[simp] theorem toComplex_add (z w : Cartesian ℝ) :
    (z + w).toComplex = z.toComplex + w.toComplex := rfl

@[simp] theorem toComplex_sub (z w : Cartesian ℝ) :
    (z - w).toComplex = z.toComplex - w.toComplex := by
  apply Complex.ext <;> simp

@[simp] theorem toComplex_mul (z w : Cartesian ℝ) :
    (z * w).toComplex = z.toComplex * w.toComplex := by
  apply Complex.ext <;> simp

@[simp] theorem toComplex_conj (z : Cartesian ℝ) :
    z.conj.toComplex = (starRingEnd ℂ) z.toComplex := rfl

@[simp] theorem toComplex_scale (z : Cartesian ℝ) (t : ℝ) :
    (z.scale t).toComplex = z.toComplex * t := by
  apply Complex.ext <;> simp [scale]

@[simp] theorem toComplex_turn (z : Cartesian ℝ) : z.turn.toComplex = I * z.toComplex := by
  apply Complex.ext <;> simp [turn]

@[simp] theorem toComplex_turnBack (z : Cartesian ℝ) :
    z.turnBack.toComplex = -I * z.toComplex := by
  apply Complex.ext <;> simp [turnBack]

end Cartesian

/-! ### The unit circle -/

/-- The point of the unit circle at an angle. -/
noncomputable def cis (θ : ℝ) : ℂ :=
  Complex.exp (θ * I)

@[simp] theorem cis_re (θ : ℝ) : (cis θ).re = Real.cos θ :=
  Complex.exp_ofReal_mul_I_re θ

@[simp] theorem cis_im (θ : ℝ) : (cis θ).im = Real.sin θ :=
  Complex.exp_ofReal_mul_I_im θ

@[simp] theorem cis_zero : cis 0 = 1 := by
  simp [cis]

theorem cis_add (θ θ' : ℝ) : cis (θ + θ') = cis θ * cis θ' := by
  unfold cis
  rw [← Complex.exp_add]
  push_cast
  ring_nf

theorem cis_pow (θ : ℝ) (m : ℕ) : cis θ ^ m = cis (m * θ) := by
  unfold cis
  rw [← Complex.exp_nat_mul]
  push_cast
  ring_nf

@[simp] theorem conj_cis (θ : ℝ) : (starRingEnd ℂ) (cis θ) = cis (-θ) := by
  apply Complex.ext <;> simp

@[simp] theorem cis_pi : cis Real.pi = -1 := by
  apply Complex.ext <;> simp

@[simp] theorem cis_neg_pi : cis (-Real.pi) = -1 := by
  apply Complex.ext <;> simp

@[simp] theorem cis_pi_div_two : cis (Real.pi / 2) = I := by
  apply Complex.ext <;> simp

theorem cis_add_cis_neg (θ : ℝ) : cis θ + cis (-θ) = ((2 * Real.cos θ : ℝ) : ℂ) := by
  apply Complex.ext
  · rw [Complex.add_re, cis_re, cis_re, Real.cos_neg, Complex.ofReal_re]
    ring
  · rw [Complex.add_im, cis_im, cis_im, Real.sin_neg, Complex.ofReal_im, add_neg_cancel]

theorem cis_nat_mul_two_pi (m : ℕ) : cis (m * (2 * Real.pi)) = 1 := by
  apply Complex.ext
  · rw [cis_re, Real.cos_nat_mul_two_pi, Complex.one_re]
  · rw [cis_im, Complex.one_im, ← Real.sin_nat_mul_pi (2 * m)]
    push_cast
    ring_nf

theorem cis_even_mul_pi (m : ℕ) : cis ((2 * m : ℕ) * Real.pi) = 1 := by
  rw [← cis_nat_mul_two_pi m]
  congr 1
  push_cast
  ring

theorem cis_odd_mul_pi (m : ℕ) : cis ((2 * m + 1 : ℕ) * Real.pi) = -1 := by
  rw [Nat.cast_succ, add_mul, one_mul, cis_add, cis_even_mul_pi, cis_pi, one_mul]

namespace HalfCircle

variable {n : ℕ}

theorem evaluated_eq (hn : 0 < n) (m : ℕ) :
    (evaluated n m : Cartesian ℝ).toComplex = cis (Real.pi * m / (2 * n)) := by
  have hangle : Real.pi / 2 / n * m = Real.pi * m / (2 * n) := by field_simp
  apply Complex.ext
  · rw [cis_re, ← hangle]
    rfl
  · rw [cis_im, ← hangle]
    rfl

/-- The second octant is the first one reflected at the diagonal. -/
theorem reflected_eq (hn : 0 < n) {m : ℕ} (hm : m ≤ n) :
    (reflected n m : Cartesian ℝ).toComplex = cis (Real.pi * m / (2 * n)) := by
  unfold reflected
  by_cases hmn : m ≤ n / 2
  · rw [if_pos hmn, evaluated_eq hn]
  · have hangle : Real.pi * (n - m : ℕ) / (2 * n) = Real.pi / 2 - Real.pi * m / (2 * n) := by
      rw [Nat.cast_sub hm]
      field_simp
    have hoctant := evaluated_eq hn (n - m)
    rw [hangle] at hoctant
    rw [if_neg hmn]
    -- Sine and cosine change places.
    apply Complex.ext
    · have him := congrArg Complex.im hoctant
      rw [cis_im, Real.sin_pi_div_two_sub] at him
      rw [cis_re, ← him]
      rfl
    · have hre := congrArg Complex.re hoctant
      rw [cis_re, Real.cos_pi_div_two_sub] at hre
      rw [cis_im, ← hre]
      rfl

/-- **The half circle holds the points of the unit circle.** -/
theorem phasor_eq {j : ℕ} (hn : 0 < n) (hj : j ≤ 2 * n) :
    (phasor n j : Cartesian ℝ).toComplex = cis (Real.pi * j / (2 * n)) := by
  change (turned n j : Cartesian ℝ).toComplex = _
  unfold turned
  by_cases hjn : j ≤ n
  · rw [if_pos hjn, reflected_eq hn hjn]
  · -- The second quadrant is the first one turned by a quarter.
    have hangle : Real.pi * j / (2 * n) =
        Real.pi / 2 + Real.pi * (j - n : ℕ) / (2 * n) := by
      rw [Nat.cast_sub (by omega)]
      field_simp
      ring
    rw [if_neg hjn, Cartesian.toComplex_turn, reflected_eq hn (by omega), hangle, cis_add,
      cis_pi_div_two]

end HalfCircle

/-! ### The discrete Fourier transform -/

namespace Direction

/-- The sense in which a direction turns. -/
noncomputable def sign : Direction → ℝ
  | forward => -1
  | inverse => 1

end Direction

namespace Fourier

/-- The number whose powers turn by one `2 ^ e`-th of a whole turn. -/
noncomputable def unitRoot (d : Direction) (e : ℕ) : ℂ :=
  cis (d.sign * (2 * Real.pi / 2 ^ e))

theorem unitRoot_zero (d : Direction) : unitRoot d 0 = 1 := by
  unfold unitRoot
  apply Complex.ext <;> cases d <;> simp [Direction.sign]

theorem unitRoot_one (d : Direction) : unitRoot d 1 = -1 := by
  unfold unitRoot
  cases d <;> simp [Direction.sign]

theorem unitRoot_succ_sq (d : Direction) (e : ℕ) : unitRoot d (e + 1) ^ 2 = unitRoot d e := by
  unfold unitRoot
  rw [cis_pow, pow_succ]
  congr 1
  push_cast
  field_simp

theorem unitRoot_pow (d : Direction) (e : ℕ) : unitRoot d e ^ 2 ^ e = 1 := by
  induction e with
  | zero => rw [unitRoot_zero, one_pow]
  | succ e ih => rw [pow_succ, Nat.mul_comm, pow_mul, unitRoot_succ_sq, ih]

theorem unitRoot_pow_half (d : Direction) (e : ℕ) : unitRoot d (e + 1) ^ 2 ^ e = -1 := by
  induction e with
  | zero => rw [pow_zero, pow_one, unitRoot_one]
  | succ e ih => rw [pow_succ, Nat.mul_comm, pow_mul, unitRoot_succ_sq, ih]

/-- The roots that a direction reads off the half circle. -/
theorem root_eq (d : Direction) {n e j : ℕ} (hn : 0 < n) (he : 2 * 2 ^ e ∣ 4 * n)
    (hj : j < 2 ^ e) :
    (root d (HalfCircle.phasor n) n (2 ^ e) j : Cartesian ℝ).toComplex =
      unitRoot d (e + 1) ^ j := by
  -- `step` steps of the table are one step of the root.
  obtain ⟨step, hstep⟩ := he
  have hquotient : 4 * n / (2 * 2 ^ e) = step := by
    rw [hstep]
    exact Nat.mul_div_cancel_left step (by positivity)
  have hle : j * step ≤ 2 * n := by
    have hmul := Nat.mul_le_mul_right step hj.le
    rw [Nat.mul_assoc] at hstep
    omega
  have hn' : (n : ℝ) ≠ 0 := by positivity
  have hstep' : (4 * n : ℝ) = 2 * 2 ^ e * step := by exact_mod_cast hstep
  have hangle : Real.pi * (j * step : ℕ) / (2 * n) = j * (2 * Real.pi / 2 ^ (e + 1)) := by
    push_cast
    rw [pow_succ]
    field_simp
    linear_combination (-(j : ℝ) / 2) * hstep'
  have hphasor := HalfCircle.phasor_eq hn hle
  rw [hangle] at hphasor
  unfold root unitRoot twiddle
  rw [hquotient, cis_pow]
  -- The forward roots are the conjugates of the phasors.
  cases d with
  | forward =>
    rw [Cartesian.toComplex_conj, hphasor, conj_cis]
    simp [Direction.sign]
  | inverse =>
    rw [hphasor]
    simp [Direction.sign]

/-- A sum over twice as many indices, the even ones first. -/
theorem sum_range_two_mul (m : ℕ) (f : ℕ → ℂ) :
    ∑ t ∈ Finset.range (2 * m), f t =
      ∑ t ∈ Finset.range m, f (2 * t) + ∑ t ∈ Finset.range m, f (2 * t + 1) := by
  induction m with
  | zero => simp
  | succ m ih =>
    rw [Nat.mul_succ, Finset.sum_range_succ, Finset.sum_range_succ, ih, Finset.sum_range_succ,
      Finset.sum_range_succ]
    ring

/-- **The waves of a rule** are its discrete Fourier transform. -/
theorem waves_eq (d : Direction) {root : ℕ → ℕ → Cartesian ℝ} {e : ℕ}
    (hroot : ∀ i < e, ∀ j < 2 ^ i, (root (2 ^ i) j).toComplex = unitRoot d (i + 1) ^ j)
    (f : ℕ → Cartesian ℝ) : ∀ k < 2 ^ e, (waves root e f k).toComplex =
      ∑ t ∈ Finset.range (2 ^ e), (f t).toComplex * unitRoot d e ^ (t * k) := by
  induction e generalizing f with
  | zero =>
    intro k hk
    obtain rfl : k = 0 := by omega
    simp [waves]
  | succ e ih =>
    intro k hk
    rw [pow_succ] at hk
    have hroot' : ∀ i < e, ∀ j < 2 ^ i, (root (2 ^ i) j).toComplex = unitRoot d (i + 1) ^ j :=
      fun i hi => hroot i (by omega)
    -- The even and the odd rule have half as many entries.
    have heven := ih hroot' fun i => f (2 * i)
    have hodd := ih hroot' fun i => f (2 * i + 1)
    -- Even and odd terms of the sum, with the roots of half as many entries.
    have hsplit : ∀ m : ℕ, ∑ t ∈ Finset.range (2 ^ (e + 1)),
        (f t).toComplex * unitRoot d (e + 1) ^ (t * m) =
      ∑ t ∈ Finset.range (2 ^ e), (f (2 * t)).toComplex * unitRoot d e ^ (t * m) +
        (∑ t ∈ Finset.range (2 ^ e), (f (2 * t + 1)).toComplex * unitRoot d e ^ (t * m)) *
          unitRoot d (e + 1) ^ m := by
      intro m
      rw [pow_succ, Nat.mul_comm, sum_range_two_mul, Finset.sum_mul]
      congr 1
      · refine Finset.sum_congr rfl fun t _ => ?_
        rw [show 2 * t * m = 2 * (t * m) by ring, pow_mul, unitRoot_succ_sq]
      · refine Finset.sum_congr rfl fun t _ => ?_
        rw [show (2 * t + 1) * m = 2 * (t * m) + m by ring, pow_add, pow_mul, unitRoot_succ_sq,
          mul_assoc]
    unfold waves
    by_cases hke : k < 2 ^ e
    · rw [if_pos hke, Cartesian.toComplex_add, Cartesian.toComplex_mul, heven k hke, hodd k hke,
        hroot e (by omega) k hke, hsplit]
    · -- In the second half the shorter transforms repeat, and the root changes its sign.
      obtain ⟨m, rfl⟩ := Nat.exists_eq_add_of_le (Nat.le_of_not_lt hke)
      have hm : m < 2 ^ e := by omega
      have hperiod : ∀ t : ℕ, unitRoot d e ^ (t * (2 ^ e + m)) = unitRoot d e ^ (t * m) :=
        fun t => by
          rw [Nat.mul_add, pow_add, Nat.mul_comm t (2 ^ e), pow_mul, unitRoot_pow, one_pow,
            one_mul]
      rw [if_neg hke, Nat.add_sub_cancel_left, Cartesian.toComplex_sub, Cartesian.toComplex_mul,
        heven m hm, hodd m hm, hroot e (by omega) m hm, hsplit, pow_add, unitRoot_pow_half]
      simp only [hperiod]
      ring

end Fourier

end CosineTransform
