import Mathlib
import CosineTransform.Proofs.ExactVolume
import CosineTransform.Proofs.GrowingTables

/-!
# The cosine transform of a line on shared tables

Over the real numbers a line transform is a matrix of cosines, on whatever table it is
planned and on whatever spectrum it works: the table may be built for a longer line, and the
spectrum may be longer than needed and hold anything (`LineTransform.callOn_eq_applied`).

* `LineTransform.callOn_forward`: forward, coefficient `k` of a line `x` of length `n` is the
  sum of `x m * cos (π (2 m + 1) k / (2 n))` over its places, scaled or not;
* `LineTransform.callOn_inverse`: inverse, place `m` is the sum of the same cosines over the
  coefficients. The constant coefficient stands outside of the sum, with a weight of its own,
  half of that of the others where nothing is scaled.

A length that a table serves is served as planning needs it
(`LineTransform.served_of_ofLengths`). Over the real numbers the half circle of a length is the
same in every table, and what is left is the closed form of the rule
(`LineTransform.image_eq`).
-/

namespace CosineTransform

namespace LineTransform

/-- **A call over the real numbers** on a shared table is a matrix, on every spectrum that is
long enough. -/
theorem callOn_eq_applied {N n : ℕ} (h : Served ℝ N n) (d : Direction) (scaled : Bool)
    (x : ℕ → ℝ) {spectrum : Array (Cartesian ℝ)} (hs : max (n / 2) 1 ≤ spectrum.size) :
    ∃ worked, (shared N n).callOn d scaled ((Array.range n).map x) spectrum =
      .ok ((Array.range n).map (applied n (entry n d scaled) x), worked) := by
  rw [← map_image_eq h]
  exact ⟨_, callOn_eq h d scaled x hs⟩

/-- Analysis as a sum of cosines with one weight. -/
theorem applied_forward (n : ℕ) (scaled : Bool) (x : ℕ → ℝ) (k : ℕ) :
    applied n (entry n .forward scaled) x k = analysisWeight n scaled k *
      ∑ m ∈ Finset.range n, x m * Real.cos (Real.pi * (2 * m + 1) * k / (2 * n)) := by
  calc applied n (entry n .forward scaled) x k
      = ∑ m ∈ Finset.range n, analysisWeight n scaled k * cosine n k m * x m := rfl
    _ = ∑ m ∈ Finset.range n, analysisWeight n scaled k * (x m * cosine n k m) :=
        Finset.sum_congr rfl fun m _ => by ring
    _ = analysisWeight n scaled k * ∑ m ∈ Finset.range n, x m * cosine n k m :=
        (Finset.mul_sum _ _ _).symm

/-- **The forward kernel** of every length that a table serves: the coefficients are sums of
cosines, and when they are scaled the constant one has the weight `√(1 / n)` and all others
have the weight `√(2 / n)`. -/
theorem callOn_forward {lengths : List ℕ} {table : CircleTable ℝ} {n : ℕ}
    (htable : CircleTable.ofLengths lengths = .ok table) (hpow : n.isPowerOfTwo)
    (hserves : table.Serves n) :
    ∃ l : LineTransform ℝ, onTable n table = .ok l ∧
      ∀ (x : ℕ → ℝ) (spectrum : Array (Cartesian ℝ)), max (n / 2) 1 ≤ spectrum.size →
        (∃ worked, l.callOn .forward false ((Array.range n).map x) spectrum =
          .ok ((Array.range n).map fun k : ℕ =>
            ∑ m ∈ Finset.range n, x m * Real.cos (Real.pi * (2 * m + 1) * k / (2 * n)),
            worked)) ∧
        ∃ worked, l.callOn .forward true ((Array.range n).map x) spectrum =
          .ok ((Array.range n).map fun k : ℕ => (if k = 0 then √(1 / n) else √(2 / n)) *
            ∑ m ∈ Finset.range n, x m * Real.cos (Real.pi * (2 * m + 1) * k / (2 * n)),
            worked) := by
  obtain ⟨N, hserved, rfl⟩ := served_of_ofLengths htable hpow hserves
  refine ⟨shared N n, hserved.onTable_eq, fun x spectrum hs => ⟨?_, ?_⟩⟩
  · obtain ⟨worked, hcall⟩ := callOn_eq_applied hserved .forward false x hs
    refine ⟨worked, hcall.trans ?_⟩
    simp only [funext (applied_forward n false x), analysisWeight, Bool.false_eq_true, if_false,
      one_mul]
  · obtain ⟨worked, hcall⟩ := callOn_eq_applied hserved .forward true x hs
    refine ⟨worked, hcall.trans ?_⟩
    simp only [funext (applied_forward n true x), analysisWeight, normalWeight, if_true]

/-- The constant coefficient of two ones, on a table for lines of eight and on a spectrum that
is longer than needed and not empty. -/
theorem callOn_forward_ones :
    ∃ (table : CircleTable ℝ) (l : LineTransform ℝ),
      CircleTable.ofLengths [8] = .ok table ∧ onTable 2 table = .ok l ∧
      ∃ image worked, l.callOn .forward false ((Array.range 2).map fun _ => 1)
          (Array.replicate 3 ⟨5, 7⟩) = .ok (image, worked) ∧ image[0]? = some 2 := by
  have htable : CircleTable.ofLengths [8] = .ok (CircleTable.complete 8 : CircleTable ℝ) :=
    (CircleTable.ofLengths_longest_iff (by decide) rfl).2 ⟨by decide, rfl⟩
  have hserves : (CircleTable.complete 8 : CircleTable ℝ).Serves 2 := by
    change 2 ≤ 8
    decide
  obtain ⟨l, hl, hcalls⟩ := callOn_forward htable (by decide) hserves
  obtain ⟨⟨worked, hcall⟩, -⟩ := hcalls (fun _ => 1) (Array.replicate 3 ⟨5, 7⟩) (by decide)
  refine ⟨_, l, htable, hl, _, worked, hcall, ?_⟩
  rw [Buffer.getElem?_map_range _ (by decide)]
  norm_num

/-- Synthesis as a constant and a sum of cosines, when all coefficients but the constant one
have the same weight. -/
theorem applied_inverse {n : ℕ} (hn : 0 < n) {scaled : Bool} {c w : ℝ}
    (hc : synthesisWeight n scaled 0 = c) (hw : ∀ k ≠ 0, synthesisWeight n scaled k = w)
    (X : ℕ → ℝ) (m : ℕ) :
    applied n (entry n .inverse scaled) X m = c * X 0 +
      w * ∑ k ∈ Finset.Ico 1 n, X k * Real.cos (Real.pi * (2 * m + 1) * k / (2 * n)) := by
  -- Cosine zero is one at every place.
  have hzero : cosine n 0 m = 1 := by simp [cosine]
  calc applied n (entry n .inverse scaled) X m
      = ∑ k ∈ Finset.Ico 0 n, synthesisWeight n scaled k * cosine n k m * X k := by
        rw [← Finset.range_eq_Ico]
        rfl
    _ = synthesisWeight n scaled 0 * cosine n 0 m * X 0 +
          ∑ k ∈ Finset.Ico 1 n, synthesisWeight n scaled k * cosine n k m * X k :=
        Finset.sum_eq_sum_Ico_succ_bot hn _
    _ = c * X 0 + ∑ k ∈ Finset.Ico 1 n, w * (X k * cosine n k m) := by
        rw [hc, hzero, mul_one]
        congr 1
        refine Finset.sum_congr rfl fun k hk => ?_
        have hk0 : k ≠ 0 := Nat.one_le_iff_ne_zero.1 (Finset.mem_Ico.1 hk).1
        rw [hw k hk0]
        ring
    _ = c * X 0 + w * ∑ k ∈ Finset.Ico 1 n, X k * cosine n k m := by rw [Finset.mul_sum]

/-- **The inverse kernel** of every length of two or more that a table serves: each place is a
sum of cosines over the coefficients. The constant coefficient counts by half, and when the
line is scaled it has the weight `√(1 / n)` and all others have the weight `√(2 / n)`. -/
theorem callOn_inverse {lengths : List ℕ} {table : CircleTable ℝ} {n : ℕ}
    (htable : CircleTable.ofLengths lengths = .ok table) (hpow : n.isPowerOfTwo) (htwo : 2 ≤ n)
    (hserves : table.Serves n) :
    ∃ l : LineTransform ℝ, onTable n table = .ok l ∧
      ∀ (X : ℕ → ℝ) (spectrum : Array (Cartesian ℝ)), max (n / 2) 1 ≤ spectrum.size →
        (∃ worked, l.callOn .inverse false ((Array.range n).map X) spectrum =
          .ok ((Array.range n).map fun m : ℕ => X 0 / 2 +
            ∑ k ∈ Finset.Ico 1 n, X k * Real.cos (Real.pi * (2 * m + 1) * k / (2 * n)),
            worked)) ∧
        ∃ worked, l.callOn .inverse true ((Array.range n).map X) spectrum =
          .ok ((Array.range n).map fun m : ℕ => √(1 / n) * X 0 + √(2 / n) *
            ∑ k ∈ Finset.Ico 1 n, X k * Real.cos (Real.pi * (2 * m + 1) * k / (2 * n)),
            worked) := by
  have hone : n ≠ 1 := by omega
  have hpos : 0 < n := by omega
  obtain ⟨N, hserved, rfl⟩ := served_of_ofLengths htable hpow hserves
  refine ⟨shared N n, hserved.onTable_eq, fun X spectrum hs => ⟨?_, ?_⟩⟩
  · -- Nothing is scaled: the constant coefficient counts by half, every other one in full.
    have hconstant : synthesisWeight n false 0 = 1 / 2 := by
      simp [synthesisWeight, plainWeight, hone]
    have hwave : ∀ k ≠ 0, synthesisWeight n false k = 1 := fun k hk => by
      simp [synthesisWeight, plainWeight, hk]
    obtain ⟨worked, hcall⟩ := callOn_eq_applied hserved .inverse false X hs
    refine ⟨worked, hcall.trans ?_⟩
    simp only [funext (applied_inverse hpos hconstant hwave X), one_mul, one_div_mul_eq_div]
  · -- Scaled, the weights are those that make the cosines orthonormal.
    have hconstant : synthesisWeight n true 0 = √(1 / n) := by
      simp [synthesisWeight, normalWeight, hone]
    have hwave : ∀ k ≠ 0, synthesisWeight n true k = √(2 / n) := fun k hk => by
      simp [synthesisWeight, normalWeight, hk, hone]
    obtain ⟨worked, hcall⟩ := callOn_eq_applied hserved .inverse true X hs
    refine ⟨worked, hcall.trans ?_⟩
    simp only [funext (applied_inverse hpos hconstant hwave X)]

/-- The constant coefficient two alone gives a line of ones, on a table for lines of eight and
on a spectrum that is longer than needed and not empty. -/
theorem callOn_inverse_constant :
    ∃ (table : CircleTable ℝ) (l : LineTransform ℝ),
      CircleTable.ofLengths [8] = .ok table ∧ onTable 2 table = .ok l ∧
      ∃ image worked, l.callOn .inverse false
          ((Array.range 2).map fun k => if k = 0 then 2 else 0) (Array.replicate 3 ⟨5, 7⟩) =
            .ok (image, worked) ∧ image[0]? = some 1 ∧ image[1]? = some 1 := by
  have htable : CircleTable.ofLengths [8] = .ok (CircleTable.complete 8 : CircleTable ℝ) :=
    CircleTable.ofLengths_singleton (by decide) (by decide)
  have hserves : (CircleTable.complete 8 : CircleTable ℝ).Serves 2 :=
    CircleTable.serves_complete.2 (by decide)
  obtain ⟨l, hl, hcalls⟩ := callOn_inverse htable (by decide) le_rfl hserves
  obtain ⟨⟨worked, hcall⟩, -⟩ := hcalls (fun k => if k = 0 then 2 else 0)
    (Array.replicate 3 ⟨5, 7⟩) (by decide)
  refine ⟨_, l, htable, hl, _, worked, hcall, ?_, ?_⟩
  · rw [Buffer.getElem?_map_range _ (by decide)]
    simp
  · rw [Buffer.getElem?_map_range _ (by decide)]
    simp

end LineTransform

end CosineTransform
