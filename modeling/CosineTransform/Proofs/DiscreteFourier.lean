import Mathlib
import CosineTransform.Proofs.ExactCircle
import CosineTransform.Proofs.GrowingTables

/-!
# The discrete Fourier transform on shared tables

Over the real numbers the transform of a buffer `xs` of `n` complex entries is its discrete
Fourier transform: entry `k` is the sum of `xs t * exp (∓ 2 π i t k / n)` over all `t`, with the
minus sign forward and the plus sign inverse, and no sum is divided by `n` (`transform_eq_sums`).

That the program computes waves is known for every table that covers twice the length
(`transform_eq`), and waves are sums over powers of one root (`waves_eq`), provided that each
round reads its own root off the table. The table may have been built for a longer length: a
round that joins two transforms of `half` entries reads it in steps of `4 N / (2 half)`, and
such a step is one `2 half`-th of a whole turn whatever `N` is (`roots_of_complete`).
-/

open Complex (I)

namespace CosineTransform

namespace Fourier

/-- **The roots of every round**, read off a table that covers twice the length. -/
theorem roots_of_complete {N e : ℕ} (hN : N.isPowerOfTwo) (hle : 2 * 2 ^ e ≤ N) (d : Direction) :
    ∀ i < e, ∀ j < 2 ^ i, (root d (HalfCircle.phasor N) N (2 ^ i) j : Cartesian ℝ).toComplex =
      unitRoot d (i + 1) ^ j := by
  intro i hi j hj
  exact root_eq d (Nat.pos_of_isPowerOfTwo hN) (two_mul_two_pow_dvd hN hle hi) hj

/-- Powers of a root are points of the unit circle. -/
theorem unitRoot_pow_eq_exp (d : Direction) (e m : ℕ) :
    unitRoot d e ^ m = Complex.exp (d.sign * (2 * Real.pi * I * m / (2 ^ e : ℕ))) := by
  rw [unitRoot, cis_pow, cis]
  congr 1
  push_cast
  ring

/-- The waves of a rule, on a table that covers twice the length. -/
theorem waves_complete {N e : ℕ} (hN : N.isPowerOfTwo) (hle : 2 * 2 ^ e ≤ N) (d : Direction)
    (f : ℕ → Cartesian ℝ) {k : ℕ} (hk : k < 2 ^ e) :
    (waves (root d (HalfCircle.phasor N) N) e f k).toComplex = ∑ t ∈ Finset.range (2 ^ e),
      (f t).toComplex * Complex.exp (d.sign * (2 * Real.pi * I * t * k / (2 ^ e : ℕ))) := by
  rw [waves_eq d (roots_of_complete hN hle d) f k hk]
  refine Finset.sum_congr rfl fun t _ => ?_
  rw [unitRoot_pow_eq_exp, Nat.cast_mul, ← mul_assoc (2 * Real.pi * I : ℂ)]

/-- **The transform of a buffer** is a sum for each entry, in either direction. -/
theorem transform_eq_signed {lengths : List ℕ} {table : CircleTable ℝ} {xs : Array (Cartesian ℝ)}
    (htable : CircleTable.ofLengths lengths = .ok table) (hpow : xs.size.isPowerOfTwo)
    (hserves : table.Serves (2 * xs.size)) (d : Direction) :
    ∃ ys, transform table d xs = .ok ys ∧ ys.size = xs.size ∧
      ∀ (k : ℕ) (hk : k < ys.size), ys[k].toComplex = ∑ t : Fin xs.size,
        xs[t].toComplex * Complex.exp (d.sign * (2 * Real.pi * I * t * k / xs.size)) := by
  obtain ⟨e, he⟩ := hpow
  have hpos : 0 < 2 * xs.size := by rw [he]; positivity
  obtain ⟨N, hN, hroom, hle, rfl⟩ := CircleTable.complete_of_serves htable hpos hserves
  rw [he] at hle
  -- The program computes the waves of the rule that the buffer holds.
  let f : ℕ → Cartesian ℝ := fun t => xs.getD t 0
  have hxs : xs = (Array.range (2 ^ e)).map f := by
    rw [← he]
    exact Buffer.eq_map_range_getD xs 0
  have htransform := transform_eq hN hroom (.inr hle) d f
  rw [← hxs] at htransform
  refine ⟨_, htransform, by simp [he], fun k hk => ?_⟩
  rw [Array.size_map, Array.size_range] at hk
  rw [Array.getElem_map, Array.getElem_range]
  calc (waves (root d (HalfCircle.phasor N) N) e f k).toComplex
      = ∑ t ∈ Finset.range xs.size, (f t).toComplex *
          Complex.exp (d.sign * (2 * Real.pi * I * t * k / xs.size)) := by
        rw [waves_complete hN hle d f hk, he]
    _ = ∑ t : Fin xs.size, (f t).toComplex *
          Complex.exp (d.sign * (2 * Real.pi * I * t * k / xs.size)) := Finset.sum_range _
    _ = ∑ t : Fin xs.size, xs[t].toComplex *
          Complex.exp (d.sign * (2 * Real.pi * I * t * k / xs.size)) := by
        simp [f]

/-- **The transform is the discrete Fourier transform**, of every buffer of a power-of-two size
and on every table that serves twice this size. Forward turns clockwise, inverse the other way
round, and neither is divided by the size. -/
theorem transform_eq_sums {lengths : List ℕ} {table : CircleTable ℝ} {xs : Array (Cartesian ℝ)}
    (htable : CircleTable.ofLengths lengths = .ok table) (hpow : xs.size.isPowerOfTwo)
    (hserves : table.Serves (2 * xs.size)) :
    (∃ ys, transform table .forward xs = .ok ys ∧ ys.size = xs.size ∧
      ∀ (k : ℕ) (hk : k < ys.size), ys[k].toComplex = ∑ t : Fin xs.size,
        xs[t].toComplex * Complex.exp (-(2 * Real.pi * I * t * k / xs.size))) ∧
    (∃ ys, transform table .inverse xs = .ok ys ∧ ys.size = xs.size ∧
      ∀ (k : ℕ) (hk : k < ys.size), ys[k].toComplex = ∑ t : Fin xs.size,
        xs[t].toComplex * Complex.exp (2 * Real.pi * I * t * k / xs.size)) := by
  constructor
  · obtain ⟨ys, hys, hsize, hsum⟩ := transform_eq_signed htable hpow hserves .forward
    refine ⟨ys, hys, hsize, fun k hk => ?_⟩
    rw [hsum k hk]
    simp only [Direction.sign, Complex.ofReal_neg, Complex.ofReal_one, neg_one_mul]
  · obtain ⟨ys, hys, hsize, hsum⟩ := transform_eq_signed htable hpow hserves .inverse
    refine ⟨ys, hys, hsize, fun k hk => ?_⟩
    rw [hsum k hk]
    simp only [Direction.sign, Complex.ofReal_one, one_mul]

/-- The sum and the difference of two entries, on a table for lines of eight, which is longer
than needed. -/
theorem transform_eq_sums_two :
    ∃ table : CircleTable ℝ, CircleTable.ofLengths [8] = .ok table ∧
      ∃ ys, transform table .forward #[⟨1, 0⟩, ⟨0, 2⟩] = .ok ys ∧
        (ys[0]?.map Cartesian.toComplex) = some (1 + 2 * I) ∧
        (ys[1]?.map Cartesian.toComplex) = some (1 - 2 * I) := by
  have htable : CircleTable.ofLengths [8] = .ok (CircleTable.complete 8 : CircleTable ℝ) :=
    CircleTable.ofLengths_singleton (by decide) (by decide)
  have hserves : (CircleTable.complete 8 : CircleTable ℝ).Serves
      (2 * (#[⟨1, 0⟩, ⟨0, 2⟩] : Array (Cartesian ℝ)).size) :=
    CircleTable.serves_complete.2 (by simp)
  obtain ⟨⟨ys, hys, hsize, hsum⟩, -⟩ := transform_eq_sums htable ⟨1, rfl⟩ hserves
  have hsize' : ys.size = 2 := hsize
  have hentry (k : ℕ) (hk : k < ys.size) : ys[k].toComplex =
      1 + 2 * I * Complex.exp (-(2 * Real.pi * I * 1 * k / 2)) := by
    have hone : (⟨1, 0⟩ : Cartesian ℝ).toComplex = 1 := by apply Complex.ext <;> simp
    have htwo : (⟨0, 2⟩ : Cartesian ℝ).toComplex = 2 * I := by apply Complex.ext <;> simp
    refine ((hsum k hk).trans (Fin.sum_univ_two _)).trans ?_
    simp [hone, htwo]
  -- Half a turn takes the second entry to its opposite.
  have hturn : Complex.exp (-(2 * Real.pi * I * 1 * (1 : ℕ) / 2)) = -1 := by
    rw [show (2 * Real.pi * I * 1 * (1 : ℕ) / 2 : ℂ) = Real.pi * I by push_cast; ring,
      Complex.exp_neg, Complex.exp_pi_mul_I]
    norm_num
  refine ⟨_, htable, ys, hys, ?_, ?_⟩
  · rw [Array.getElem?_eq_getElem (by omega), Option.map_some, hentry]
    simp
  · rw [Array.getElem?_eq_getElem (by omega), Option.map_some, hentry, hturn]
    ring_nf

end Fourier

end CosineTransform
