import Mathlib
import CosineTransform.Fourier
import CosineTransform.Proofs.Phasors
import CosineTransform.Proofs.Spans

/-!
# What the Fourier transform computes

`Fourier.waves root d f` is the textbook transform of the rule `f` on `2 ^ d`
indices: the rules at even and at odd indices are transformed on their own, and
one round of butterflies with the given roots combines them. The program works in
place instead, on a buffer that is reordered once. `transform_eq` says that the
two agree, for every power of two that the table serves, with the phasors of the
table as roots; in particular no step of the program faults.

The proof has two parts. `reorder_eq` is the law of exchanges along an involution
(`Buffer.foldlM_swap_eq`). `butterflies_eq` is an induction on the digits: a buffer
reordered by the reversal of `d + 1` digits consists of the even and the odd
entries, each reordered by the reversal of `d`. The loop of the program goes through
the same rounds span by span (`spans_eq_ok_iff`).
-/

namespace CosineTransform

/-! ### Reading a complete table -/

namespace CircleTable

variable {T W : Type} [Precision W] [Sample T W]

omit [Precision W] in
/-- A table that there is room for reverses fewer digits than a word has. -/
theorem depth_lt {n : Nat} (h : HalfCircle.HasRoom T n) : depth n < 64 := by
  have hb := h.lt_bound
  unfold depth
  rw [Nat.log2_lt (by omega)]
  unfold Word.bound at hb
  omega

theorem phasor_complete {n j : Nat} (h : j < 2 * n) :
    (complete n : CircleTable T).phasor j = .ok (HalfCircle.phasor n j) :=
  Buffer.read_map_range (HalfCircle.phasor n) h

theorem reverse_complete {n d i : Nat} (hd : d ≤ depth n) (hroom : HalfCircle.HasRoom T n)
    (hi : i < 2 ^ d) :
    (complete n : CircleTable T).reverse i d = .ok (DigitReversal.reversal d i) := by
  -- The table is for all its digits; fewer are the reversal without the lowest ones.
  have hid : i < 2 ^ depth n := lt_of_lt_of_le hi (Nat.pow_le_pow_right (by omega) hd)
  have hn := depth_lt hroom
  unfold reverse complete
  dsimp only
  rw [DigitReversal.table_eq, Buffer.read_map_range _ hid, Checked.ok_bind, Word.sub_of_le hd,
    Checked.ok_bind, Word.shiftRight_of_lt (by omega), DigitReversal.reversal_shiftRight hd hi]

end CircleTable

namespace Fourier

variable {T W : Type} [Precision W] [Sample T W]

/-! ### The transform of a rule -/

/-- **The waves of a rule** on `2 ^ d` indices, with `root half j` as the `j`-th
root for combining two transforms of `half` entries. -/
def waves (root : Nat → Nat → Cartesian T) : Nat → (Nat → Cartesian T) → Nat → Cartesian T
  | 0, f => f
  | d + 1, f => fun k =>
      let evens := waves root d fun i => f (2 * i)
      let odds := waves root d fun i => f (2 * i + 1)
      if k < 2 ^ d then evens k + odds k * root (2 ^ d) k
      else evens (k - 2 ^ d) - odds (k - 2 ^ d) * root (2 ^ d) (k - 2 ^ d)

/-- The roots that a direction reads off a half circle in `2 * n` steps. -/
def root (d : Direction) (phase : Nat → Cartesian T) (n half j : Nat) : Cartesian T :=
  twiddle d (phase (j * (4 * n / (2 * half))))

omit [Precision W] in
theorem waves_congr {root root' : Nat → Nat → Cartesian T} {d : Nat}
    {f g : Nat → Cartesian T} (hroot : ∀ e < d, ∀ j, root (2 ^ e) j = root' (2 ^ e) j)
    (h : ∀ i < 2 ^ d, f i = g i) : ∀ k < 2 ^ d, waves root d f k = waves root' d g k := by
  induction d generalizing f g with
  | zero => exact h
  | succ d ih =>
    intro k hk
    rw [pow_succ] at h hk
    have hroot' : ∀ e < d, ∀ j, root (2 ^ e) j = root' (2 ^ e) j := fun e he => hroot e (by omega)
    -- The even and the odd rule agree below half of the indices.
    have heven := ih (f := fun i => f (2 * i)) (g := fun i => g (2 * i)) hroot'
      fun i hi => h (2 * i) (by omega)
    have hodd := ih (f := fun i => f (2 * i + 1)) (g := fun i => g (2 * i + 1)) hroot'
      fun i hi => h (2 * i + 1) (by omega)
    simp only [waves]
    by_cases hkd : k < 2 ^ d
    · rw [if_pos hkd, if_pos hkd, heven k hkd, hodd k hkd, hroot d (by omega)]
    · rw [if_neg hkd, if_neg hkd, heven _ (by omega), hodd _ (by omega), hroot d (by omega)]

/-- **The rounds of a transform** whose length the table covers twice cut the whole turn of the
table into equal steps. -/
theorem two_mul_two_pow_dvd {n e i : Nat} (hn : n.isPowerOfTwo) (hle : 2 * 2 ^ e ≤ n)
    (hi : i < e) : 2 * 2 ^ i ∣ 4 * n := by
  obtain ⟨E, rfl⟩ := hn
  -- Both lengths are powers of two, so the shorter one divides the longer one.
  have heE : e + 1 ≤ E := by
    rw [← pow_succ'] at hle
    exact (Nat.pow_le_pow_iff_right Nat.one_lt_two).1 hle
  calc 2 * 2 ^ i = 2 ^ (i + 1) := (pow_succ' 2 i).symm
    _ ∣ 2 ^ E := Nat.pow_dvd_pow 2 (by omega)
    _ ∣ 4 * 2 ^ E := Dvd.intro_left 4 rfl

/-! ### Reordering -/

/-- **Reordering** puts at each index the entry at the reversed index. -/
theorem reorder_eq {n d : Nat} (hd : d ≤ CircleTable.depth n) (hroom : HalfCircle.HasRoom T n)
    (f : Nat → Cartesian T) :
    reorder (CircleTable.complete n) d ((Array.range (2 ^ d)).map f) =
      .ok ((Array.range (2 ^ d)).map fun i => f (DigitReversal.reversal d i)) := by
  unfold reorder
  rw [Array.size_map, Array.size_range]
  refine Buffer.foldlM_swap_eq f (fun i hi => DigitReversal.reversal_lt hi)
    (fun i hi => DigitReversal.reversal_reversal hi) fun i hi ys => ?_
  rw [CircleTable.reverse_complete hd hroom hi, Checked.ok_bind]
  rfl

/-! ### Butterflies -/

theorem mul_step_lt {n half j : Nat} (hn : 0 < n) (hj : j < half) :
    j * (4 * n / (2 * half)) < 2 * n := by
  have hstep : 2 * half * (4 * n / (2 * half)) ≤ 4 * n := Nat.mul_div_le _ _
  obtain hzero | hpos := Nat.eq_zero_or_pos (4 * n / (2 * half))
  · rw [hzero]
    omega
  · have hlt : j * (4 * n / (2 * half)) < half * (4 * n / (2 * half)) :=
      Nat.mul_lt_mul_of_pos_right hj hpos
    rw [Nat.mul_assoc] at hstep
    omega

theorem combine_eq {n half : Nat} (hn : 0 < n) (hroom : HalfCircle.HasRoom T n)
    (hhalf : 2 * half < Word.bound) (dir : Direction) (e o : Nat → Cartesian T) :
    combine (CircleTable.complete n) dir half ((Array.range half).map e)
        ((Array.range half).map o) =
      .ok ((Array.range (half + half)).map fun k =>
        if k < half then e k + o k * root dir (HalfCircle.phasor n) n half k
        else e (k - half) - o (k - half) * root dir (HalfCircle.phasor n) n half (k - half)) := by
  have hb := hroom.lt_bound
  -- The three loops of a round: the odd entries turned, then sums and differences.
  have hturned : Buffer.tabulate half (fun j => do
        let w ← (CircleTable.complete n : CircleTable T).phasor
          (← Word.mul j (4 * n / (2 * half)))
        return (← Buffer.read ((Array.range half).map o) j) * twiddle dir w) =
      .ok ((Array.range half).map fun j =>
        o j * root dir (HalfCircle.phasor n) n half j) := by
    refine Buffer.tabulate_of_ok fun j hj => ?_
    have hlt := mul_step_lt hn hj
    rw [Word.mul_of_lt (by omega), Checked.ok_bind, CircleTable.phasor_complete hlt,
      Checked.ok_bind, Buffer.read_map_range o hj]
    rfl
  let turned : Nat → Cartesian T := fun j => o j * root dir (HalfCircle.phasor n) n half j
  have hsums := Buffer.tabulate_read_read (n := half) (· + ·) e turned
  have hdifferences := Buffer.tabulate_read_read (n := half) (· - ·) e turned
  unfold combine CircleTable.wholeTurn
  rw [show (CircleTable.complete n : CircleTable T).coverage = n from rfl,
    Word.mul_of_lt (by omega), Checked.ok_bind, Word.mul_of_lt hhalf, Checked.ok_bind]
  dsimp only
  rw [hturned, Checked.ok_bind, hsums, Checked.ok_bind, hdifferences, Checked.ok_bind,
    Buffer.map_range_append, Checked.pure_eq_ok]

/-- The first half of a reordered buffer holds the even entries, reordered. -/
theorem extract_reversal_evens {α : Type} (d : Nat) (f : Nat → α) :
    ((Array.range (2 ^ d + 2 ^ d)).map fun i =>
        f (DigitReversal.reversal (d + 1) i)).extract 0 (2 ^ d) =
      (Array.range (2 ^ d)).map fun i => f (2 * DigitReversal.reversal d i) := by
  rw [Buffer.extract_map_range _ (Nat.le_add_right _ _), Nat.sub_zero]
  refine Buffer.map_range_congr fun i hi => ?_
  rw [Nat.zero_add, DigitReversal.reversal_succ_of_lt hi]

/-- The second half of a reordered buffer holds the odd entries, reordered. -/
theorem extract_reversal_odds {α : Type} (d : Nat) (f : Nat → α) :
    ((Array.range (2 ^ d + 2 ^ d)).map fun i =>
        f (DigitReversal.reversal (d + 1) i)).extract (2 ^ d) (2 ^ d + 2 ^ d) =
      (Array.range (2 ^ d)).map fun i => f (2 * DigitReversal.reversal d i + 1) := by
  rw [Buffer.extract_map_range _ le_rfl, Nat.add_sub_cancel]
  refine Buffer.map_range_congr fun i _ => ?_
  rw [DigitReversal.reversal_succ_add]

/-- **The butterflies** turn a reordered rule into its waves. -/
theorem butterflies_eq {n : Nat} (hn : 0 < n) (hroom : HalfCircle.HasRoom T n) (dir : Direction)
    {d : Nat} (hd : 2 ^ d < Word.bound) (f : Nat → Cartesian T) :
    butterflies (CircleTable.complete n) dir d
        ((Array.range (2 ^ d)).map fun i => f (DigitReversal.reversal d i)) =
      .ok ((Array.range (2 ^ d)).map (waves (root dir (HalfCircle.phasor n) n) d f)) := by
  induction d generalizing f with
  | zero =>
    unfold butterflies
    exact congrArg Except.ok (Buffer.map_range_congr fun i hi => by
      obtain rfl : i = 0 := by simpa using hi
      rfl)
  | succ d ih =>
    have hpow : 2 ^ (d + 1) = 2 ^ d + 2 ^ d := by rw [pow_succ]; ring
    have hpos := Nat.two_pow_pos d
    -- The two halves are the even and the odd entries, to which the induction applies.
    rw [hpow] at hd ⊢
    unfold butterflies
    dsimp only
    rw [Array.size_map, Array.size_range, show (2 ^ d + 2 ^ d) / 2 = 2 ^ d by omega,
      extract_reversal_evens,
      ih (by omega) fun i => f (2 * i), Checked.ok_bind, extract_reversal_odds,
      ih (by omega) fun i => f (2 * i + 1), Checked.ok_bind,
      combine_eq hn hroom (by omega)]
    rfl

/-- **The Fourier transform** of a buffer that a table serves is the waves of its
rule. -/
theorem transform_eq {n d : Nat} (hn : n.isPowerOfTwo) (hroom : HalfCircle.HasRoom T n)
    (hd : 2 ^ d = 1 ∨ 2 * 2 ^ d ≤ n) (dir : Direction) (f : Nat → Cartesian T) :
    transform (CircleTable.complete n) dir ((Array.range (2 ^ d)).map f) =
      .ok ((Array.range (2 ^ d)).map (waves (root dir (HalfCircle.phasor n) n) d f)) := by
  obtain ⟨e, rfl⟩ := hn
  have hb := hroom.lt_bound
  unfold transform
  rw [Array.size_map, Array.size_range]
  by_cases hone : 2 ^ d ≤ 1
  · obtain rfl : d = 0 := by
      by_contra hne
      have := Nat.one_lt_two_pow hne
      omega
    rw [if_pos hone]
    rfl
  · have hle : 2 * 2 ^ d ≤ 2 ^ e := by omega
    -- Twice the size fits the table, so the table has all digits of an index.
    have hde : d + 1 ≤ e := by
      rw [← pow_succ'] at hle
      exact (Nat.pow_le_pow_iff_right (by omega)).1 hle
    have hserves : (CircleTable.complete (2 ^ e) : CircleTable T).Serves (2 * 2 ^ d) := hle
    rw [if_neg hone, require_of ⟨d, rfl⟩, Checked.ok_bind, Word.mul_of_lt (by omega),
      Checked.ok_bind, require_of hserves, Checked.ok_bind,
      Nat.log2_two_pow, reorder_eq (by rw [CircleTable.depth_two_pow]; omega) hroom,
      Checked.ok_bind, spans_eq_ok_iff (by simp)]
    exact butterflies_eq (Nat.two_pow_pos e) hroom dir (by omega) f

end Fourier

end CosineTransform
