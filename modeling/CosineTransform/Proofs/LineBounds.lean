import Mathlib
import CosineTransform.Proofs.GrowingTables
import CosineTransform.Sample.Binary

/-!
# Line transforms stay in their buffers

An index that leaves its buffer, a word that wraps and a requirement that is not met are faults,
and a fault ends the call that meets it. A line transform on a table that serves its length meets
none, whatever the line and the spectrum hold (`LineTransform.answers_in_bounds`): every call on a
line of the length and a spectrum of half the length has an answer, of the same sizes. What a caller
can do wrong is to pass a line of another length, and that is refused (`LineTransform.Answers`).

Where the bounds come from is told by `LineTransform.InBounds`. The table has `2 * N` phasors, and
`2 * n` strides of `N / n` steps make the whole of it, so a bin `k` may ask for the phasors at `k`
and `4 * k` strides as long as these counts are below `2 * n`; the last bin that asks for the second
one is the one before the middle. A round of the Fourier transform that joins two transforms of
`half` entries cuts the whole turn of `4 * N` steps into `2 * half` parts and needs fewer than half
of them. A table has the digits of its longest spectrum, so those of a shorter one are not missing.
-/

namespace CosineTransform

namespace LineTransform

variable {T W : Type}

/-- **The bounds of a line transform**: the indices it uses lie in their buffers, and the words it
computes with do not wrap. -/
structure InBounds [Sample T W] (l : LineTransform T) : Prop where
  /-- The table has all phasors of its half circle. -/
  size_phasors : l.table.phasors.size = 2 * l.table.coverage
  /-- The table has a reversal for each index into its longest spectrum. -/
  size_reversals : l.table.reversals.size = max 1 (l.table.coverage / 2)
  /-- A whole turn is a word, and so is every index into the table. -/
  wholeTurn_eq : l.table.wholeTurn = .ok (4 * l.table.coverage)
  wholeTurn_lt : 4 * l.table.coverage < Word.bound
  /-- The phasor that turns a bin. -/
  rotation_lt : ∀ k ≤ l.length / 2, k * l.rotationStride < l.table.phasors.size
  /-- The phasor that splits a bin before the middle. -/
  split_lt : ∀ k < l.length / 2, k * l.splitStride < l.table.phasors.size
  /-- A bin joins two entries of the spectrum and holds two coefficients. -/
  bin_lt : l.length ≠ 1 → ∀ k ≤ l.length / 2, k % (l.length / 2) < l.length / 2 ∧
    (l.length / 2 - k) % (l.length / 2) < l.length / 2 ∧ k < l.length ∧
    (k ≠ 0 → l.length - k < l.length)
  /-- The phasors of a round that joins transforms of `half` entries. -/
  twiddle_lt : ∀ half, ∀ j < half,
    j * (4 * l.table.coverage / (2 * half)) < l.table.phasors.size
  /-- The digits of an index into a spectrum, and where it is exchanged to. -/
  reversal_lt : ∀ b, 2 ^ b ≤ max 1 (l.length / 2) → b ≤ l.table.digits ∧ l.table.digits - b < 64 ∧
    ∀ i < 2 ^ b, i < l.table.reversals.size ∧ ∃ r < 2 ^ b, l.table.reverse i b = .ok r
  /-- The places of a folded line. -/
  source_lt : l.length ≠ 1 → ∀ p < l.length, ∃ place < l.length,
    Folding.source p l.length = .ok place
  /-- Doubling the span of a round ends at the whole spectrum, and once more is still a word. -/
  span_eq : l.length ≠ 1 → 2 ^ (l.length / 2).log2 = l.length / 2 ∧ 2 * (l.length / 2) < Word.bound
  /-- Buffers of up to half the coverage are transformed. -/
  transform_ok : ∀ (d : Direction) (xs : Array (Cartesian T)), xs.size.isPowerOfTwo →
    2 * xs.size ≤ l.table.coverage →
    ∃ ys, Fourier.transform l.table d xs = .ok ys ∧ ys.size = xs.size

variable [Precision W] [Sample T W] {N n : ℕ}

/-- The phasors of the table that a transform shares. -/
theorem Served.size_phasors (h : Served T N n) :
    (shared N n : LineTransform T).table.phasors.size = 2 * N :=
  (CircleTable.builtFor_complete h.table_pow).size_phasors

/-- **A transform on a complete table** is within its bounds. -/
theorem Served.inBounds (h : Served T N n) : (shared N n : LineTransform T).InBounds where
  size_phasors := h.size_phasors
  size_reversals := (CircleTable.builtFor_complete h.table_pow).size_reversals
  wholeTurn_eq := by
    have hb := h.lt_bound
    exact Word.mul_of_lt (show 4 * N < Word.bound by omega)
  wholeTurn_lt := by
    have hb := h.lt_bound
    show 4 * N < Word.bound
    omega
  rotation_lt k hk := by
    have hpos := h.pos
    rw [h.size_phasors]
    exact h.mul_stride_lt (lt_of_le_of_lt hk (show n / 2 < 2 * n by omega))
  split_lt k hk := by
    -- The stride of the split is four strides of the rotation.
    have hk' : k < n / 2 := hk
    have hcomm : k * (4 * (N / n)) = 4 * k * (N / n) := by ring
    show k * (4 * (N / n)) < _
    rw [h.size_phasors, hcomm]
    exact h.mul_stride_lt (by omega)
  bin_lt hn k hk := by
    have hn' : n ≠ 1 := hn
    have hk' : k ≤ n / 2 := hk
    have hpos := h.pos
    have heven := even_of_isPowerOfTwo h.length_pow hn'
    show k % (n / 2) < n / 2 ∧ (n / 2 - k) % (n / 2) < n / 2 ∧ k < n ∧ (k ≠ 0 → n - k < n)
    exact ⟨Nat.mod_lt _ (by omega), Nat.mod_lt _ (by omega), by omega, by omega⟩
  twiddle_lt half j hj := by
    rw [h.size_phasors]
    exact Fourier.mul_step_lt (Nat.pos_of_isPowerOfTwo h.table_pow) hj
  reversal_lt b hb := by
    have hdigits : b ≤ CircleTable.depth N := CircleTable.le_depth h.table_pow h.length_le hb
    have hdepth : CircleTable.depth N < 64 := CircleTable.depth_lt h.room
    refine ⟨hdigits, lt_of_le_of_lt (Nat.sub_le _ _) hdepth, fun i hi => ⟨?_, ?_⟩⟩
    · show i < (DigitReversal.table (CircleTable.depth N)).size
      rw [DigitReversal.size_table]
      exact hi.trans_le (Nat.pow_le_pow_right (by omega) hdigits)
    · exact ⟨_, DigitReversal.reversal_lt hi, h.reverse_eq hb hi⟩
  source_lt hn p hp := by
    have hb := h.lt_bound
    have hle := h.length_le
    have heven := even_of_isPowerOfTwo h.length_pow hn
    exact ⟨_, Folding.place_lt heven hp, Folding.source_eq heven (show n < Word.bound by omega) hp⟩
  span_eq hn := by
    have hb := h.lt_bound
    have hle := h.length_le
    show 2 ^ (n / 2).log2 = n / 2 ∧ 2 * (n / 2) < Word.bound
    exact ⟨(half_eq h.length_pow hn).symm, by omega⟩
  transform_ok d xs hpow hle := by
    obtain ⟨e, he⟩ := hpow
    obtain ⟨f, rfl⟩ := Buffer.exists_rule he 0
    rw [he] at hle
    exact ⟨_, Fourier.transform_eq h.table_pow h.room (.inr hle) d f, by simp⟩

/-! ### Answers -/

/-- A call on a spectrum of its own has an answer for every line of the length. -/
theorem Served.exists_call (h : Served T N n) (d : Direction) (scaled : Bool) {line : Array T}
    (hline : line.size = n) :
    ∃ line', (shared N n).call d scaled line = .ok line' ∧ line'.size = n := by
  obtain ⟨x, rfl⟩ := Buffer.exists_rule hline 0
  exact ⟨_, call_eq h d scaled x, by simp⟩

/-- **Only lines of another length are refused**, and a line that is refused is not worked on. -/
theorem call_of_size_ne (l : LineTransform T) (d : Direction) (scaled : Bool) {line : Array T}
    (hline : line.size ≠ l.length) :
    l.call d scaled line = .error (.refused (.lineLengthDiffers l.length line.size)) := by
  unfold call
  rw [if_neg hline]
  rfl

/-- The line that a caller holds after a call: the answer, or the line as it was when there is
none. -/
def lineAfter (l : LineTransform T) (d : Direction) (scaled : Bool) (line : Array T) : Array T :=
  (l.call d scaled line).toOption.getD line

/-- **The answers of a line transform** to calls with a line and a spectrum of any content. -/
structure Answers (l : LineTransform T) : Prop where
  /-- A call on a given spectrum, which may be longer than needed. -/
  callOn_ok : ∀ (d : Direction) (scaled : Bool) (line : Array T) (spectrum : Array (Cartesian T)),
    line.size = l.length → l.spectrumLength ≤ spectrum.size →
      ∃ line' worked, l.callOn d scaled line spectrum = .ok (line', worked) ∧
        line'.size = l.length ∧ worked.size = spectrum.size
  /-- A call on a spectrum of its own. -/
  call_ok : ∀ (d : Direction) (scaled : Bool) (line : Array T), line.size = l.length →
    l.call d scaled line = .ok (l.lineAfter d scaled line) ∧
      (l.lineAfter d scaled line).size = l.length
  /-- Lines of another length are refused, and only those. -/
  refused_iff : ∀ (d : Direction) (scaled : Bool) (line : Array T),
    l.call d scaled line = .error (.refused (.lineLengthDiffers l.length line.size)) ↔
      line.size ≠ l.length
  /-- A line that is refused stays as it is. -/
  lineAfter_refused : ∀ (d : Direction) (scaled : Bool) (line : Array T),
    line.size ≠ l.length → l.lineAfter d scaled line = line

/-- **A transform on a complete table** answers every call. -/
theorem Served.answers (h : Served T N n) : (shared N n : LineTransform T).Answers where
  callOn_ok d scaled _ _ hline hs := h.exists_callOn d scaled hline hs
  call_ok d scaled line hline := by
    obtain ⟨line', hcall, hsize⟩ := h.exists_call d scaled hline
    have hafter : (shared N n).lineAfter d scaled line = line' := by
      rw [lineAfter, hcall]
      rfl
    rw [hafter]
    exact ⟨hcall, hsize⟩
  refused_iff d scaled line := by
    refine ⟨fun hrefused hline => ?_, (shared N n).call_of_size_ne d scaled⟩
    obtain ⟨line', hcall, -⟩ := h.exists_call d scaled hline
    rw [hcall] at hrefused
    cases hrefused
  lineAfter_refused d scaled line hline := by
    rw [lineAfter, (shared N n).call_of_size_ne d scaled hline]
    rfl

/-- **What a line transform answers**: planned on any table that serves its length, or on a table
of its own, it is within its bounds, answers every line of its length, and refuses all others. -/
theorem answers_in_bounds {lengths : List ℕ} {table : CircleTable T}
    (htable : CircleTable.ofLengths lengths = .ok table) (hpow : n.isPowerOfTwo)
    (hserves : table.Serves n) :
    (∃ l : LineTransform T, onTable n table = .ok l ∧ l.length = n ∧ l.table = table ∧
      l.InBounds ∧ l.Answers) ∧
    ∃ l : LineTransform T, plan n = .ok l ∧ l.length = n ∧ l.InBounds ∧ l.Answers := by
  obtain ⟨N, h, rfl⟩ := served_of_ofLengths htable hpow hserves
  have hplan : plan n = .ok (shared n n : LineTransform T) :=
    plan_eq_ok_iff.2 ⟨hpow, h.own.room, rfl⟩
  exact ⟨⟨shared N n, h.onTable_eq, rfl, rfl, h.inBounds, h.answers⟩,
    shared n n, hplan, rfl, h.own.inBounds, h.own.answers⟩

/-- Lines of four on a table for lines of eight, and on a table of their own: three entries are
refused, four are answered. -/
theorem answers_in_bounds_four :
    ∃ (table : CircleTable Float) (l own : LineTransform Float),
      CircleTable.ofLengths [8] = .ok table ∧ onTable 4 table = .ok l ∧
      (∃ line' worked, l.callOn .inverse true #[1, 2, 3, 4] #[0, 0] = .ok (line', worked) ∧
        line'.size = 4 ∧ worked.size = 2) ∧
      plan 4 = .ok own ∧
      own.call .forward true #[1, 2, 3] = .error (.refused (.lineLengthDiffers 4 3)) ∧
      own.lineAfter .forward true #[1, 2, 3] = #[1, 2, 3] ∧
      (own.lineAfter .forward true #[1, 2, 3, 4]).size = 4 := by
  have htable : CircleTable.ofLengths [8] = .ok (CircleTable.complete 8 : CircleTable Float) :=
    CircleTable.ofLengths_singleton (by decide) (by decide)
  obtain ⟨⟨l, hl, hlength, -, -, hanswers⟩, own, hown, hlength', -, hanswers'⟩ :=
    answers_in_bounds htable (n := 4) (by decide) (CircleTable.serves_complete.2 (by decide))
  have hspectrum : l.spectrumLength ≤ 2 := by
    rw [spectrumLength, hlength]
    decide
  obtain ⟨line', worked, hcall, hsize, hworked⟩ :=
    hanswers.callOn_ok .inverse true #[1, 2, 3, 4] #[0, 0] hlength.symm hspectrum
  have hshort : (#[1, 2, 3] : Array Float).size ≠ own.length := by
    rw [hlength']
    decide
  have hrefused := (hanswers'.refused_iff .forward true _).2 hshort
  rw [hlength'] at hrefused
  exact ⟨_, l, own, htable, hl, ⟨line', worked, hcall, hsize.trans hlength, hworked⟩, hown, hrefused,
    hanswers'.lineAfter_refused .forward true _ hshort,
    (hanswers'.call_ok .forward true #[1, 2, 3, 4] hlength'.symm).2.trans hlength'⟩

end LineTransform

end CosineTransform
