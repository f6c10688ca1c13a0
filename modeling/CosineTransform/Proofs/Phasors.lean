import Mathlib
import CosineTransform.Circle.Table
import CosineTransform.Proofs.Reversal

/-!
# What the shared tables hold

`HalfCircle.phasor n j` is the phasor at angle `j · (π / 2) / n` as the table
computes it: from the first octant, by reflection at the diagonal and by a
quarter turn. `HalfCircle.table_eq` says that the table of length `n` lists
these phasors, and that it exists exactly when there is room for it (`HalfCircle.HasRoom`).

`CircleTable.complete n` is the whole shared table for a power of two `n`. It is
the only table that planning ever builds: `ofLengths_eq_ok_iff` says that a list of
lengths leads to the complete table of the longest one.

A shorter half circle is the longer one read in larger steps. In floating point
this rests on one property of the working precision, `Precision.AnglesDouble`:
twice the step of a circle cut twice as finely is the same angle. Both products
round a number and its double, so binary formats have the property. From it,
`phasor_mul` reads a half circle of length `n` in any table that serves `n`.
-/

namespace CosineTransform

/-- **Doubling keeps angles**: step `2 * j` of a quarter turn cut into `2 * n`
steps is the angle at step `j` of `n`, for every length `n` of a table. -/
def Precision.AnglesDouble (W : Type) [Precision W] : Prop :=
  ∀ n j : Nat, n.isPowerOfTwo → 2 * n < Word.bound → j ≤ n →
    (Precision.angle (2 * n) (2 * j) : W) = Precision.angle n j

namespace HalfCircle

/-! ### Room for a half circle -/

section Room

variable {T : Type} [Stored T]

/-- **There is room** for the half circle of length `n`: for its octant in the working
precision, and for its steps, which are samples. -/
def HasRoom (T : Type) [Stored T] (n : Nat) : Prop :=
  2 * Precision.bytes * (n / 2 + 1) < Word.byteBound ∧
    2 * Stored.bytes T * (2 * n) < Word.byteBound

instance (T : Type) [Stored T] (n : Nat) : Decidable (HasRoom T n) :=
  inferInstanceAs (Decidable (_ ∧ _))

theorem HasRoom.lt_bound {n : Nat} (h : HasRoom T n) : 16 * n < Word.bound := by
  have hsteps : 2 * 4 * (2 * n) ≤ 2 * Stored.bytes T * (2 * n) :=
    Nat.mul_le_mul_right _ (Nat.mul_le_mul_left _ (Width.four_le_bytes _))
  have hroom := h.2
  unfold Word.byteBound at hroom
  unfold Word.bound
  omega

theorem HasRoom.mono {m n : Nat} (h : HasRoom T n) (hm : m ≤ n) : HasRoom T m :=
  ⟨lt_of_le_of_lt (Nat.mul_le_mul_left _ (by omega)) h.1,
    lt_of_le_of_lt (Nat.mul_le_mul_left _ (by omega)) h.2⟩

/-- A half circle fits whatever its samples are, if it fits with the widest ones. -/
theorem HasRoom.of_lt {n : Nat} (h : 32 * n < Word.byteBound) : HasRoom T n := by
  have hsteps : 2 * Stored.bytes T * (2 * n) ≤ 2 * 8 * (2 * n) :=
    Nat.mul_le_mul_right _ (Nat.mul_le_mul_left _ (Width.bytes_le_eight _))
  unfold HasRoom Precision.bytes
  unfold Word.byteBound at h ⊢
  omega

/-- Where a half circle fits, the reversals of its length fit as well. -/
theorem HasRoom.reversals {n : Nat} (h : HasRoom T n) :
    Word.bytes * max (n / 2) 1 < Word.byteBound :=
  lt_of_le_of_lt (Nat.mul_le_mul (by decide) (by omega)) h.1

end Room

variable {T W : Type} [Precision W] [Sample T W]

/-! ### The phasors of a half circle -/

/-- The phasor at step `j` of `n`, with sine and cosine evaluated. -/
def evaluated (n j : Nat) : Cartesian W :=
  ⟨Precision.cos (Precision.angle n j), Precision.sin (Precision.angle n j)⟩

/-- The phasor at step `j` of `n` for the first quadrant. -/
def reflected (n j : Nat) : Cartesian W :=
  if j ≤ n / 2 then evaluated n j else (evaluated n (n - j)).reflect

/-- The phasor at step `j` of `n` for both quadrants. -/
def turned (n j : Nat) : Cartesian W :=
  if j ≤ n then reflected n j else (reflected n (j - n)).turn

/-- **The phasor at step `j` of `n`**, as a sample. -/
def phasor (n j : Nat) : Cartesian T :=
  (turned n j).map (Sample.narrow : W → T)

theorem read_octant {n j : Nat} (h : j ≤ n / 2) :
    Buffer.read (octant n : Array (Cartesian W)) j = .ok (evaluated n j) := by
  have hsize : j < (octant n : Array (Cartesian W)).size := by
    simp only [octant, Array.size_map, Array.size_range]
    omega
  rw [Buffer.read_of_lt hsize]
  simp [octant, evaluated]

theorem quadrant_octant {n j : Nat} (h : j ≤ n) :
    quadrant (octant n) n j = .ok (reflected n j : Cartesian W) := by
  unfold quadrant reflected
  -- Past the diagonal the octant is read backwards.
  by_cases hj : j ≤ n / 2
  · rw [if_pos hj, if_pos hj, read_octant hj]
  · rw [if_neg hj, if_neg hj, Word.sub_of_le h, Checked.ok_bind, read_octant (by omega)]
    rfl

theorem entry_octant {n j : Nat} (h : j < 2 * n) :
    entry (octant n) n j = .ok (turned n j : Cartesian W) := by
  unfold entry turned
  -- Past a quarter turn the quadrant is read again from its start.
  by_cases hj : j ≤ n
  · rw [if_pos hj, if_pos hj, quadrant_octant hj]
  · rw [if_neg hj, if_neg hj, Word.sub_of_le (by omega), Checked.ok_bind,
      quadrant_octant (by omega)]
    rfl

/-- **The table of a half circle** lists its phasors. -/
theorem table_eq {n : Nat} (h : HasRoom T n) :
    table n = .ok ((Array.range (2 * n)).map (phasor n : Nat → Cartesian T)) := by
  have hb := h.lt_bound
  unfold table
  rw [Word.reserve_of_lt h.1, Checked.ok_bind]
  dsimp only
  rw [Word.mul_of_lt (by omega), Checked.ok_bind, Word.reserve_of_lt h.2, Checked.ok_bind]
  apply Buffer.tabulate_of_ok
  intro j hj
  rw [entry_octant hj]
  rfl

theorem hasRoom_of_table_eq_ok {n : Nat} {xs : Array (Cartesian T)} (h : table n = .ok xs) :
    HasRoom T n := by
  unfold table at h
  obtain ⟨_, hoctant, h⟩ := Checked.bind_eq_ok_iff.1 h
  obtain ⟨steps, hsteps, h⟩ := Checked.bind_eq_ok_iff.1 h
  obtain ⟨_, hroom, -⟩ := Checked.bind_eq_ok_iff.1 h
  obtain ⟨-, rfl⟩ := Word.mul_eq_ok_iff.1 hsteps
  exact ⟨Word.reserve_eq_ok_iff.1 hoctant, Word.reserve_eq_ok_iff.1 hroom⟩

/-! ### Half circles in larger steps -/

theorem evaluated_double (hW : Precision.AnglesDouble W) {n j : Nat} (hn : n.isPowerOfTwo)
    (hb : 2 * n < Word.bound) (hj : j ≤ n) :
    (evaluated (2 * n) (2 * j) : Cartesian W) = evaluated n j := by
  unfold evaluated
  rw [hW n j hn hb hj]

theorem reflected_double (hW : Precision.AnglesDouble W) {n : Nat} (hn : n.isPowerOfTwo)
    (hb : 2 * n < Word.bound) (j : Nat) :
    (reflected (2 * n) (2 * j) : Cartesian W) = reflected n j := by
  unfold reflected
  -- Both circles reflect at the same angle.
  by_cases hj : j ≤ n / 2
  · rw [if_pos hj, if_pos (by omega), evaluated_double hW hn hb (by omega)]
  · rw [if_neg hj, if_neg (by omega), ← Nat.mul_sub, evaluated_double hW hn hb (by omega)]

theorem turned_double (hW : Precision.AnglesDouble W) {n : Nat} (hn : n.isPowerOfTwo)
    (hb : 2 * n < Word.bound) (j : Nat) :
    (turned (2 * n) (2 * j) : Cartesian W) = turned n j := by
  unfold turned
  -- Both circles turn at the same angle.
  by_cases hj : j ≤ n
  · rw [if_pos hj, if_pos (by omega), reflected_double hW hn hb]
  · rw [if_neg hj, if_neg (by omega), ← Nat.mul_sub, reflected_double hW hn hb]

/-- **A shorter half circle** is a longer one read in larger steps. -/
theorem phasor_mul (hW : Precision.AnglesDouble W) {n : Nat} (hn : n.isPowerOfTwo) (e : Nat)
    (hb : n * 2 ^ e < Word.bound) (j : Nat) :
    (phasor (n * 2 ^ e) (j * 2 ^ e) : Cartesian T) = phasor n j := by
  induction e with
  | zero => rw [pow_zero, Nat.mul_one, Nat.mul_one]
  | succ e ih =>
    have hpow : (n * 2 ^ e).isPowerOfTwo := by
      obtain ⟨k, rfl⟩ := hn
      exact ⟨k + e, (pow_add 2 k e).symm⟩
    -- One more doubling is a step of the table `n * 2 ^ e`, which is a power of two as well.
    have hn' : n * 2 ^ (e + 1) = 2 * (n * 2 ^ e) := by rw [pow_succ]; ring
    have hj' : j * 2 ^ (e + 1) = 2 * (j * 2 ^ e) := by rw [pow_succ]; ring
    rw [hn'] at hb
    rw [← ih (by omega), hn', hj', phasor, turned_double hW hpow hb, phasor]

end HalfCircle

namespace CircleTable

variable {T W : Type} [Precision W] [Sample T W]

/-! ### The complete table of a length -/

/-- Count of the binary digits of an index into the longest Fourier transform
that a line of length `n` needs. -/
def depth (n : Nat) : Nat :=
  (max (n / 2) 1).log2

theorem depth_two_pow (e : Nat) : depth (2 ^ e) = e - 1 := by
  cases e with
  | zero => rfl
  | succ e =>
    unfold depth
    rw [pow_succ, Nat.mul_div_cancel _ (by omega), Nat.max_eq_left Nat.one_le_two_pow,
      Nat.log2_two_pow, Nat.add_sub_cancel]

/-- The digits of a power of two count the whole of its longest Fourier transform. -/
theorem two_pow_depth {n : Nat} (h : n.isPowerOfTwo) : 2 ^ depth n = max (n / 2) 1 := by
  obtain ⟨e, rfl⟩ := h
  rw [depth_two_pow]
  cases e with
  | zero => rfl
  | succ e =>
    rw [pow_succ, Nat.mul_div_cancel _ (by omega), Nat.max_eq_left Nat.one_le_two_pow,
      Nat.add_sub_cancel]

/-- **The complete table** of length `n`. -/
def complete (n : Nat) : CircleTable T where
  coverage := n
  phasors := (Array.range (2 * n)).map (HalfCircle.phasor n)
  reversals := DigitReversal.table (depth n)
  digits := depth n

/-- The table after growing to length `n` from nothing. -/
def grown (n : Nat) : CircleTable T :=
  if n = 0 then empty else complete n

theorem grown_of_pos {n : Nat} (h : 0 < n) : (grown n : CircleTable T) = complete n :=
  if_neg (Nat.ne_of_gt h)

@[simp] theorem coverage_grown (n : Nat) : (grown n : CircleTable T).coverage = n := by
  unfold grown
  split
  · next h => exact h.symm
  · rfl

/-- **A table of a power of two** is complete, and there is one when there is room for its
half circle. -/
theorem ofLength_eq_ok_iff {n : Nat} (hn : n.isPowerOfTwo) {t : CircleTable T} :
    ofLength n = .ok t ↔ HalfCircle.HasRoom T n ∧ t = complete n := by
  have hreversals (hroom : HalfCircle.HasRoom T n) :
      DigitReversal.ofSize (max (n / 2) 1) = .ok (DigitReversal.table (depth n)) := by
    have hroom' := hroom.reversals
    rw [← two_pow_depth hn] at hroom' ⊢
    exact DigitReversal.ofSize_two_pow_eq_ok_iff.2 ⟨hroom', rfl⟩
  unfold ofLength
  constructor
  · intro h
    obtain ⟨xs, hxs, h⟩ := Checked.bind_eq_ok_iff.1 h
    have hroom := HalfCircle.hasRoom_of_table_eq_ok hxs
    rw [HalfCircle.table_eq hroom] at hxs
    cases hxs
    rw [hreversals hroom] at h
    exact ⟨hroom, (Except.ok.inj h).symm⟩
  · rintro ⟨hroom, rfl⟩
    dsimp only
    rw [HalfCircle.table_eq hroom, Checked.ok_bind, hreversals hroom]
    rfl

/-- **Growing by one length.** -/
theorem extend_grown_eq_ok_iff {m n : Nat} {r : Bool × CircleTable T} :
    (grown m).extend n = .ok r ↔
      n.isPowerOfTwo ∧ (m < n → HalfCircle.HasRoom T n) ∧ r = (decide (m < n), grown (max m n)) := by
  have hserves : (grown m : CircleTable T).Serves n ↔ n ≤ m := by
    rw [Serves, coverage_grown]
  unfold extend
  by_cases hn : n.isPowerOfTwo
  · rw [require_of hn, Checked.ok_bind]
    -- A length that is served leaves the table alone; a longer one builds it anew.
    by_cases hmn : m < n
    · rw [if_neg (by rw [hserves]; omega), Nat.max_eq_right hmn.le, grown_of_pos (by omega)]
      constructor
      · intro h
        obtain ⟨t, ht, h⟩ := Checked.bind_eq_ok_iff.1 h
        obtain ⟨hroom, rfl⟩ := (ofLength_eq_ok_iff hn).1 ht
        exact ⟨hn, fun _ => hroom, by simpa [hmn] using (Except.ok.inj h).symm⟩
      · rintro ⟨-, hroom, rfl⟩
        rw [(ofLength_eq_ok_iff hn).2 ⟨hroom hmn, rfl⟩]
        simp [hmn]
    · rw [if_pos (by rw [hserves]; omega), Nat.max_eq_left (by omega)]
      simp [hn, hmn, eq_comm]
  · simp [require, hn, bind, Except.bind]

/-- **Growing by a list of lengths** ends in the table of the longest one. -/
theorem foldlM_extend_grown_eq_ok_iff {lengths : List Nat} {m : Nat} {t : CircleTable T} :
    lengths.foldlM (fun t n => do return (← t.extend n).2) (grown m) = Except.ok t ↔
      (∀ n ∈ lengths, n.isPowerOfTwo ∧ (m < n → HalfCircle.HasRoom T n)) ∧
        t = grown (lengths.foldl max m) := by
  induction lengths generalizing m with
  | nil => simp [eq_comm]
  | cons n lengths ih =>
    rw [List.foldlM_cons, List.foldl_cons, List.forall_mem_cons, Checked.bind_eq_ok_iff]
    constructor
    · rintro ⟨t', ht', h⟩
      obtain ⟨r, hr, hrt⟩ := Checked.bind_eq_ok_iff.1 ht'
      obtain ⟨hn, hroom, rfl⟩ := extend_grown_eq_ok_iff.1 hr
      cases hrt
      obtain ⟨hall, rfl⟩ := ih.1 h
      refine ⟨⟨⟨hn, hroom⟩, fun k hk => ⟨(hall k hk).1, fun hmk => ?_⟩⟩, rfl⟩
      -- A length between the old and the new coverage has room because the new one has.
      by_cases hkn : max m n < k
      · exact (hall k hk).2 hkn
      · exact (hroom (by omega)).mono (by omega)
    · rintro ⟨⟨⟨hn, hroom⟩, hall⟩, rfl⟩
      refine ⟨grown (max m n), ?_, ih.2 ⟨fun k hk => ⟨(hall k hk).1, fun h => ?_⟩, rfl⟩⟩
      · rw [extend_grown_eq_ok_iff.2 ⟨hn, hroom, rfl⟩]
        rfl
      · exact (hall k hk).2 (by omega)

/-- **The shared table of a list of lengths** is the table of the longest one. -/
theorem ofLengths_eq_ok_iff {lengths : List Nat} {t : CircleTable T} :
    ofLengths lengths = .ok t ↔
      (∀ n ∈ lengths, n.isPowerOfTwo ∧ HalfCircle.HasRoom T n) ∧
        t = grown (lengths.foldl max 0) := by
  -- The fold starts at the empty table, which is the one grown to length zero.
  rw [show ofLengths lengths = lengths.foldlM (fun t n => do return (← t.extend n).2)
    (grown 0 : CircleTable T) from rfl, foldlM_extend_grown_eq_ok_iff]
  refine and_congr_left fun _ => forall₂_congr fun n _ => ?_
  exact ⟨fun h => ⟨h.1, h.2 (Nat.pos_of_isPowerOfTwo h.1)⟩, fun h => ⟨h.1, fun _ => h.2⟩⟩

end CircleTable

end CosineTransform
