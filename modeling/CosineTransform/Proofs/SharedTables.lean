import Mathlib
import CosineTransform.Proofs.ExactCircle
import CosineTransform.Proofs.GrowingTables

/-!
# Larger tables change nothing

A length is served by its own table and by every longer one. Whatever is read or computed for the
length comes out the same, bit for bit, whichever of them is used
(`LineTransform.tables_interchangeable`): the phasors of its half circle, the reversals of indices
into its spectrum, the Fourier transforms of buffers no longer than the spectrum, and the
transforms of its lines in either direction, scaled or not.

The argument is not a comparison of two tables. Each of them is compared with the own table of the
length, from which the table is left out altogether: a Fourier transform is the waves of its rule
with the roots of the half circle (`Served.transform_of_le`), a call is the image of the line under
the half circle (`callOn_eq`), and the half circle of a length is the same in all tables when
doubling keeps angles (`sharedPhase_eq`). Sines, cosines and narrowing may be any functions.
-/

namespace CosineTransform

namespace Fourier

variable {T W : Type} [Sample T W]

/-- A buffer whose size is no power of two is not transformed: it is returned when it is empty,
and otherwise it does not meet the requirement, whatever the table is. -/
theorem transform_of_not_isPowerOfTwo (t : CircleTable T) (d : Direction)
    {xs : Array (Cartesian T)} (hpow : ¬ xs.size.isPowerOfTwo) :
    transform t d xs = if xs.size ≤ 1 then .ok xs else .error (.unmet .lengthPowerOfTwo) := by
  unfold transform
  refine if_congr Iff.rfl rfl ?_
  rw [require, if_neg hpow]
  rfl

end Fourier

namespace LineTransform

variable {T W : Type} [Precision W] [Sample T W] {N n : ℕ}

namespace Served

/-- The half circle of a length, read in any table, is its own. -/
theorem phasor_eq_own (hW : Precision.AnglesDouble W) (h : Served T N n) {j : ℕ} (hj : j < 2 * n) :
    (CircleTable.complete N : CircleTable T).phasor (j * (N / n)) =
      .ok (HalfCircle.phasor n j) := by
  rw [h.phasor_stride hj, sharedPhase_eq hW h]

/-- Every power of two up to half the length is the size of a buffer that is transformed. -/
theorem exists_transform (h : Served T N n) (d : Direction) {xs : Array (Cartesian T)}
    (hxs : xs.size ≤ n / 2) (hpow : xs.size.isPowerOfTwo) :
    ∃ ys, Fourier.transform (CircleTable.complete N) d xs = .ok ys := by
  obtain ⟨e, he⟩ := hpow
  obtain ⟨f, rfl⟩ := Buffer.exists_rule he 0
  exact ⟨_, h.transform_of_le (by omega) d f⟩

/-- **The Fourier transform** of a buffer of at most half the length is the one on the own table
of the length. -/
theorem transform_eq_own (hW : Precision.AnglesDouble W) (h : Served T N n) (d : Direction)
    {xs : Array (Cartesian T)} (hxs : xs.size ≤ n / 2) :
    Fourier.transform (CircleTable.complete N) d xs =
      Fourier.transform (CircleTable.complete n) d xs := by
  by_cases hpow : xs.size.isPowerOfTwo
  · obtain ⟨e, he⟩ := hpow
    obtain ⟨f, rfl⟩ := Buffer.exists_rule he 0
    have hle : 2 * 2 ^ e ≤ n := by omega
    -- The same waves, with the roots of the same half circle.
    rw [h.transform_of_le hle, h.own.transform_of_le hle, sharedPhase_eq hW h,
      sharedPhase_eq hW h.own]
  · rw [Fourier.transform_of_not_isPowerOfTwo _ d hpow,
      Fourier.transform_of_not_isPowerOfTwo _ d hpow]

/-- **A call** for a line of the length is the one on the own table of the length. -/
theorem callOn_eq_own (hW : Precision.AnglesDouble W) (h : Served T N n) (d : Direction)
    (scaled : Bool) {line : Array T} (hline : line.size = n) {spectrum : Array (Cartesian T)}
    (hs : max (n / 2) 1 ≤ spectrum.size) :
    (shared N n).callOn d scaled line spectrum = (shared n n).callOn d scaled line spectrum := by
  obtain ⟨x, rfl⟩ := Buffer.exists_rule hline 0
  rw [callOn_eq h d scaled x hs, callOn_eq h.own d scaled x hs, sharedPhase_eq hW h,
    sharedPhase_eq hW h.own]

end Served

/-- **Tables are interchangeable** for every length that both of them serve: phasors, reversals,
Fourier transforms and line transforms are the same on both. -/
theorem tables_interchangeable (hW : Precision.AnglesDouble W) {lengths lengths' : List ℕ}
    {table table' : CircleTable T} (htable : CircleTable.ofLengths lengths = .ok table)
    (htable' : CircleTable.ofLengths lengths' = .ok table') (hpow : n.isPowerOfTwo)
    (hserves : table.Serves n) (hserves' : table'.Serves n) :
    (∀ j < 2 * n, ∃ p, table.phasor (j * (table.coverage / n)) = .ok p ∧
      table'.phasor (j * (table'.coverage / n)) = .ok p) ∧
    (∀ b, 2 ^ b ≤ max 1 (n / 2) → ∀ i < 2 ^ b,
      ∃ r, table.reverse i b = .ok r ∧ table'.reverse i b = .ok r) ∧
    (∀ (d : Direction) (xs : Array (Cartesian T)), xs.size ≤ n / 2 →
      Fourier.transform table d xs = Fourier.transform table' d xs ∧
        (xs.size.isPowerOfTwo → ∃ ys, Fourier.transform table d xs = .ok ys)) ∧
    ∃ l l' : LineTransform T, onTable n table = .ok l ∧ onTable n table' = .ok l' ∧
      ∀ (d : Direction) (scaled : Bool) (line : Array T) (spectrum : Array (Cartesian T)),
        line.size = n → max (n / 2) 1 ≤ spectrum.size →
          ∃ answer, l.callOn d scaled line spectrum = .ok answer ∧
            l'.callOn d scaled line spectrum = .ok answer := by
  obtain ⟨N, h, rfl⟩ := served_of_ofLengths htable hpow hserves
  obtain ⟨N', h', rfl⟩ := served_of_ofLengths htable' hpow hserves'
  refine ⟨fun j hj => ⟨_, h.phasor_eq_own hW hj, h'.phasor_eq_own hW hj⟩,
    fun b hb i hi => ⟨_, h.reverse_eq hb hi, h'.reverse_eq hb hi⟩,
    fun d xs hxs => ⟨?_, h.exists_transform d hxs⟩,
    shared N n, shared N' n, h.onTable_eq, h'.onTable_eq, fun d scaled line spectrum hline hs => ?_⟩
  · rw [h.transform_eq_own hW d hxs, h'.transform_eq_own hW d hxs]
  · obtain ⟨x, rfl⟩ := Buffer.exists_rule hline 0
    have hown := callOn_eq h.own d scaled x hs
    exact ⟨_, (h.callOn_eq_own hW d scaled hline hs).trans hown,
      (h'.callOn_eq_own hW d scaled hline hs).trans hown⟩

/-- Lines of four on their own table and on one that was extended for sixteen: phasor three is
phasor twelve of the longer table, and both transform a line to the same coefficients. -/
theorem tables_interchangeable_four :
    ∃ (table table' : CircleTable ℝ) (l l' : LineTransform ℝ),
      CircleTable.ofLengths [4] = .ok table ∧ CircleTable.ofLengths [2, 16] = .ok table' ∧
      onTable 4 table = .ok l ∧ onTable 4 table' = .ok l' ∧
      (∃ p, table.phasor 3 = .ok p ∧ table'.phasor 12 = .ok p) ∧
      ∃ answer, l.callOn .forward true #[1, 2, 3, 4] #[0, 0] = .ok answer ∧
        l'.callOn .forward true #[1, 2, 3, 4] #[0, 0] = .ok answer := by
  have htable : CircleTable.ofLengths [4] = .ok (CircleTable.complete 4 : CircleTable ℝ) :=
    CircleTable.ofLengths_singleton (by decide) (by decide)
  have htable' : CircleTable.ofLengths [2, 16] = .ok (CircleTable.complete 16 : CircleTable ℝ) :=
    (CircleTable.ofLengths_longest_iff (by decide) rfl).2 ⟨by decide, rfl⟩
  obtain ⟨hphasors, -, -, l, l', hl, hl', hcalls⟩ :=
    tables_interchangeable Precision.anglesDouble_real htable htable' (n := 4) (by decide)
      (CircleTable.serves_complete.2 (by decide)) (CircleTable.serves_complete.2 (by decide))
  exact ⟨_, _, l, l', htable, htable', hl, hl', hphasors 3 (by decide),
    hcalls .forward true #[1, 2, 3, 4] #[0, 0] rfl (by decide)⟩

end LineTransform

end CosineTransform
