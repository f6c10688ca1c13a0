import Mathlib
import CosineTransform.Proofs.ExactLine

/-!
# The cosine basis

The two directions of a line undo each other up to a gain (`sum_entry`). The cosines of
a line, with half a weight for the constant one, are orthogonal
(`sum_plainWeight_cosine`): a product of two of them is half of a cosine of the
difference of their angles and half of one of the sum, and a sum of cosines whose angles
are equal steps of a whole number of half turns is one or zero (`sum_cos_steps`).

This settles synthesis after analysis. The opposite order is a fact about square
matrices: an inverse on one side is an inverse on the other one as well
(`sum_mul_comm_of_inverse`).
-/

namespace CosineTransform

namespace Direction

/-- The other direction. -/
def opposite : Direction → Direction
  | forward => inverse
  | inverse => forward

end Direction

namespace LineTransform

/-! ### Sums of cosines -/

/-- **Cosines of equal steps** over `r` half turns. -/
theorem sum_cos_steps {n r : ℕ} (hr : 0 < r) (hrn : r < 2 * n) :
    ∑ k ∈ Finset.range n, Real.cos (Real.pi * r / n * k) = (1 - (-1) ^ r) / 2 := by
  have hn : (0 : ℝ) < n := by
    have : 0 < n := by omega
    exact_mod_cast this
  have hr' : (0 : ℝ) < r := by exact_mod_cast hr
  have hrn' : (r : ℝ) < 2 * n := by exact_mod_cast hrn
  obtain ⟨θ, hθ⟩ : ∃ θ, θ = Real.pi * r / n / 2 := ⟨_, rfl⟩
  -- Half a step is less than half a turn.
  have hsin : Real.sin θ ≠ 0 := by
    refine (Real.sin_pos_of_pos_of_lt_pi ?_ ?_).ne'
    · rw [hθ]
      positivity
    · rw [hθ, div_div, div_lt_iff₀ (by positivity)]
      exact mul_lt_mul_of_pos_left (by linarith) Real.pi_pos
  have hhalf : (n : ℝ) * (Real.pi * r / n) / 2 = Real.pi * r / 2 := by field_simp
  have hlast : ((n : ℝ) - 1) * (Real.pi * r / n) / 2 + 0 = Real.pi * r / 2 - θ := by
    rw [hθ]
    field_simp
    ring
  -- The sum times the sine of half a step is a product of a sine and a cosine.
  have hsum := Real.sin_mul_sum_cos n (Real.pi * r / n) 0
  simp only [add_zero] at hsum hlast
  rw [hhalf, hlast, ← hθ, Real.cos_sub] at hsum
  -- `r` half turns end where sine is zero.
  have hdouble : 2 * Real.sin (Real.pi * r / 2) * Real.cos (Real.pi * r / 2) = 0 := by
    rw [← Real.sin_two_mul, mul_div_cancel₀ _ (two_ne_zero' ℝ), mul_comm, Real.sin_nat_mul_pi]
  have hsquare : Real.sin (Real.pi * r / 2) ^ 2 = (1 - (-1) ^ r) / 2 := by
    rw [Real.sin_sq_eq_half_sub, mul_div_cancel₀ _ (two_ne_zero' ℝ), mul_comm,
      Real.cos_nat_mul_pi]
    ring
  apply mul_left_cancel₀ hsin
  rw [hsum, ← hsquare]
  linear_combination (Real.cos θ / 2) * hdouble

/-- The same with half a weight for the first cosine. -/
theorem sum_plainWeight_cos {n r : ℕ} (hr : 0 < r) (hrn : r < 2 * n) :
    ∑ k ∈ Finset.range n, plainWeight k * Real.cos (Real.pi * r / n * k) = -(-1) ^ r / 2 := by
  have hn : 0 < n := by omega
  have hsteps := sum_cos_steps hr hrn
  rw [Finset.sum_range_eq_add_Ico _ hn] at hsteps ⊢
  -- The first cosine is one and loses half of it; all others keep their weight.
  have hrest : ∑ k ∈ Finset.Ico 1 n, plainWeight k * Real.cos (Real.pi * r / n * k) =
      ∑ k ∈ Finset.Ico 1 n, Real.cos (Real.pi * r / n * k) := by
    refine Finset.sum_congr rfl fun k hk => ?_
    have hk1 := (Finset.mem_Ico.1 hk).1
    rw [plainWeight, if_neg (by omega), one_mul]
  have hfirst : Real.cos (Real.pi * r / n * (0 : ℕ)) = 1 := by simp
  rw [hfirst] at hsteps ⊢
  rw [hrest, plainWeight, if_pos rfl]
  linarith

/-- A sum of weights: half of the first and all others. -/
theorem sum_plainWeight {n : ℕ} (hn : 0 < n) :
    ∑ k ∈ Finset.range n, plainWeight k = n - 1 / 2 := by
  rw [Finset.sum_range_eq_add_Ico _ hn]
  have hrest : ∑ k ∈ Finset.Ico 1 n, plainWeight k = ∑ _k ∈ Finset.Ico 1 n, (1 : ℝ) := by
    refine Finset.sum_congr rfl fun k hk => ?_
    have hk1 := (Finset.mem_Ico.1 hk).1
    rw [plainWeight, if_neg (by omega)]
  rw [hrest, plainWeight, if_pos rfl, Finset.sum_const, Nat.card_Ico, nsmul_eq_mul, mul_one,
    Nat.cast_sub hn, Nat.cast_one]
  ring

/-- Two cosines of one coefficient, as cosines of the difference and of the sum. -/
theorem cosine_mul_cosine {n i j : ℕ} (hij : j ≤ i) (k : ℕ) :
    cosine n k i * cosine n k j = 1 / 2 * (Real.cos (Real.pi * (i - j : ℕ) / n * k) +
      Real.cos (Real.pi * (i + j + 1 : ℕ) / n * k)) := by
  have hdifference : Real.pi * (i - j : ℕ) / n * k =
      Real.pi * (2 * i + 1) * k / (2 * n) - Real.pi * (2 * j + 1) * k / (2 * n) := by
    rw [Nat.cast_sub hij]
    ring
  have hsum : Real.pi * (i + j + 1 : ℕ) / n * k =
      Real.pi * (2 * i + 1) * k / (2 * n) + Real.pi * (2 * j + 1) * k / (2 * n) := by
    push_cast
    ring
  -- The sum and the difference formula, added.
  rw [hdifference, hsum, Real.cos_sub, Real.cos_add]
  unfold cosine
  ring

/-- **The cosines are orthogonal**, at any two places of the line. -/
theorem sum_plainWeight_cosine {n i j : ℕ} (hi : i < n) (hj : j < n) :
    ∑ k ∈ Finset.range n, plainWeight k * (cosine n k i * cosine n k j) =
      if i = j then (n : ℝ) / 2 else 0 := by
  wlog hij : j ≤ i generalizing i j with hswap
  · have hsymm := hswap hj hi (by omega)
    simp only [mul_comm (cosine n _ j)] at hsymm
    rw [hsymm]
    simp only [eq_comm]
  -- Without loss of generality `j ≤ i`, so that the difference is a natural number.
  have hsplit : ∑ k ∈ Finset.range n, plainWeight k * (cosine n k i * cosine n k j) =
      1 / 2 * (∑ k ∈ Finset.range n, plainWeight k * Real.cos (Real.pi * (i - j : ℕ) / n * k) +
        ∑ k ∈ Finset.range n, plainWeight k * Real.cos (Real.pi * (i + j + 1 : ℕ) / n * k)) := by
    rw [← Finset.sum_add_distrib, Finset.mul_sum]
    refine Finset.sum_congr rfl fun k _ => ?_
    rw [cosine_mul_cosine hij]
    ring
  rw [hsplit, sum_plainWeight_cos (r := i + j + 1) (by omega) (by omega)]
  by_cases heq : i = j
  · subst heq
    -- The difference is zero, so the first sum is that of the weights.
    have hodd : (-1 : ℝ) ^ (i + i + 1) = -1 := Odd.neg_one_pow ⟨i, by ring⟩
    simp only [Nat.sub_self, Nat.cast_zero, mul_zero, zero_div, zero_mul, Real.cos_zero, mul_one,
      if_true]
    rw [sum_plainWeight (by omega), hodd]
    ring
  · -- The difference and the sum have opposite parity.
    have hparity : (-1 : ℝ) ^ (i + j + 1) = -(-1) ^ (i - j) := by
      rw [show i + j + 1 = (i - j) + (2 * j + 1) by omega, pow_add,
        Odd.neg_one_pow (n := 2 * j + 1) ⟨j, rfl⟩]
      ring
    rw [sum_plainWeight_cos (by omega) (by omega), hparity, if_neg heq]
    ring

/-! ### Both orders -/

/-- **An inverse on one side** is one on the other side as well. -/
theorem sum_mul_comm_of_inverse {n : ℕ} {A B : ℕ → ℕ → ℝ} {c : ℝ} (hc : c ≠ 0)
    (h : ∀ i < n, ∀ j < n, ∑ k ∈ Finset.range n, A i k * B k j = if i = j then c else 0) :
    ∀ i < n, ∀ j < n, ∑ k ∈ Finset.range n, B i k * A k j = if i = j then c else 0 := by
  obtain ⟨M, hM⟩ : ∃ M : Matrix (Fin n) (Fin n) ℝ,
    M = Matrix.of fun i j : Fin n => c⁻¹ * A i j := ⟨_, rfl⟩
  obtain ⟨P, hP⟩ : ∃ P : Matrix (Fin n) (Fin n) ℝ, P = Matrix.of fun i j : Fin n => B i j :=
    ⟨_, rfl⟩
  -- Divided by `c`, the first matrix is a left inverse of the second one.
  have hone : M * P = 1 := by
    ext i j
    have hij := h i i.2 j j.2
    rw [Matrix.mul_apply, Matrix.one_apply, hM, hP]
    simp only [Matrix.of_apply, mul_assoc]
    rw [← Finset.mul_sum, Fin.sum_univ_eq_sum_range (fun k => A i k * B k j), hij]
    by_cases heq : i = j
    · rw [if_pos heq, if_pos (by rw [heq]), inv_mul_cancel₀ hc]
    · rw [if_neg heq, if_neg fun h => heq (Fin.ext h), mul_zero]
  intro i hi j hj
  have hinverse : P * M = 1 := mul_eq_one_comm.1 hone
  have hone' := congrFun (congrFun hinverse ⟨i, hi⟩) ⟨j, hj⟩
  rw [Matrix.mul_apply, Matrix.one_apply, hM, hP] at hone'
  simp only [Matrix.of_apply, Fin.mk.injEq] at hone'
  rw [Fin.sum_univ_eq_sum_range (fun k => B i k * (c⁻¹ * A k j))] at hone'
  have hscaled : ∑ k ∈ Finset.range n, B i k * A k j =
      c * ∑ k ∈ Finset.range n, B i k * (c⁻¹ * A k j) := by
    rw [Finset.mul_sum]
    refine Finset.sum_congr rfl fun k _ => ?_
    field_simp
  rw [hscaled, hone', mul_ite, mul_one, mul_zero]

theorem gain_ne_zero {n : ℕ} (hn : 0 < n) (scaled : Bool) : gain n scaled ≠ 0 := by
  unfold gain
  split
  · exact one_ne_zero
  · positivity

/-- The weights of both directions together are those that make cosines orthogonal. -/
theorem synthesisWeight_mul_analysisWeight {n : ℕ} (hn : 0 < n) (scaled : Bool) {k : ℕ}
    (hk : k < n) : synthesisWeight n scaled k * analysisWeight n scaled k =
      gain n scaled * (2 / n) * plainWeight k := by
  have hpos : (n : ℝ) ≠ 0 := by positivity
  unfold synthesisWeight analysisWeight gain
  by_cases hn1 : n = 1
  · subst hn1
    obtain rfl : k = 0 := by omega
    cases scaled <;> simp [normalWeight, plainWeight]
  · rw [if_neg hn1]
    cases scaled with
    | false =>
      simp only [Bool.false_eq_true, hn1, or_self, if_false, mul_one]
      field_simp
    | true =>
      simp only [if_true, true_or, normalWeight, plainWeight]
      -- A scaled call has the root of the weight in either direction.
      by_cases hk0 : k = 0
      · rw [if_pos hk0, if_pos hk0, Real.mul_self_sqrt (by positivity)]
        field_simp
      · rw [if_neg hk0, if_neg hk0, Real.mul_self_sqrt (by positivity)]
        ring

/-- **Both directions** one after the other multiply every place by the gain. -/
theorem sum_entry {n : ℕ} (hn : 0 < n) (d : Direction) (scaled : Bool) :
    ∀ i < n, ∀ j < n, ∑ k ∈ Finset.range n,
      entry n d.opposite scaled i k * entry n d scaled k j =
        if i = j then gain n scaled else 0 := by
  -- Synthesis after analysis is orthogonality; the other order follows from it.
  have hforward : ∀ i < n, ∀ j < n, ∑ k ∈ Finset.range n,
      entry n .inverse scaled i k * entry n .forward scaled k j =
        if i = j then gain n scaled else 0 := by
    intro i hi j hj
    have hpos : (n : ℝ) ≠ 0 := by positivity
    have hweights : ∑ k ∈ Finset.range n,
        entry n .inverse scaled i k * entry n .forward scaled k j =
      gain n scaled * (2 / n) *
        ∑ k ∈ Finset.range n, plainWeight k * (cosine n k i * cosine n k j) := by
      rw [Finset.mul_sum]
      refine Finset.sum_congr rfl fun k hk => ?_
      rw [← mul_assoc, ← synthesisWeight_mul_analysisWeight hn scaled (Finset.mem_range.1 hk)]
      unfold entry
      ring
    rw [hweights, sum_plainWeight_cosine hi hj]
    by_cases hij : i = j
    · rw [if_pos hij, if_pos hij]
      field_simp
    · rw [if_neg hij, if_neg hij, mul_zero]
  cases d with
  | forward => exact hforward
  | inverse => exact sum_mul_comm_of_inverse (gain_ne_zero hn scaled) hforward

end LineTransform

end CosineTransform
