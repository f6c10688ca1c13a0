import Mathlib
import CosineTransform.Line.Transform
import CosineTransform.Proofs.FoldedLine
import CosineTransform.Proofs.Waves

/-!
# What the transform of a line computes

`LineTransform.image phase n d scaled x` is the transform of the rule `x` on `n`
places, as a function of the half circle `phase` in `2 * n` steps and of nothing
else: no table, no spectrum, no bounds. `callOn_eq` says that a call computes it,
for every complete table that serves the length, on every spectrum that is long
enough. So a call never faults on such a table; what a spectrum held before does
not show in the line, and a call changes no more than half the length of it.

The half circle of a transform is the one its table was built for, read in steps of
`N / n` (`sharedPhase`). When doubling keeps angles it does not depend on the table
(`sharedPhase_eq`): the transform of a line is then the same on all tables, in
particular on the one that is built for the length alone (`plan_eq_ok_iff`).
-/

namespace CosineTransform

namespace LineTransform

variable {T W : Type} [Precision W] [Sample T W]

/-! ### Lengths -/

theorem even_of_isPowerOfTwo {n : Nat} (h : n.isPowerOfTwo) (hn : n ≠ 1) : n % 2 = 0 := by
  obtain ⟨e, rfl⟩ := h
  cases e with
  | zero => exact absurd rfl hn
  | succ e => rw [pow_succ, Nat.mul_mod_left]

/-- Half of a length that is not one is a power of two, with a known logarithm. -/
theorem half_eq {n : Nat} (h : n.isPowerOfTwo) (hn : n ≠ 1) : n / 2 = 2 ^ (n / 2).log2 := by
  obtain ⟨e, rfl⟩ := h
  cases e with
  | zero => exact absurd rfl hn
  | succ e => rw [pow_succ, Nat.mul_div_cancel _ (by omega), Nat.log2_two_pow]

/-! ### The transform of a rule -/

/-- Entry `k` of the transform of a folded line, turned back, from the transform `z`
of the packed line. -/
def splitRule (phase : Nat → Cartesian T) (n : Nat) (z : Nat → Cartesian T) (k : Nat) :
    Cartesian T :=
  let h := n / 2
  let opposite := (z ((h - k) % h)).conj
  let even := (z (k % h) + opposite).scale Sample.half
  let odd := (z (k % h) - opposite).turnBack.scale Sample.half
  (phase k).conj * (if k = h then even - odd else even + (phase (4 * k)).conj * odd)

/-- Coefficient `k` of a line before it is weighed, from the transform of the packed
line. -/
def coefficientRule (phase : Nat → Cartesian T) (n : Nat) (z : Nat → Cartesian T) (k : Nat) : T :=
  if k ≤ n / 2 then (splitRule phase n z k).re else -(splitRule phase n z (n - k)).im

/-- A rule with its value at zero changed by one function and all others multiplied
by the weight of the waves. -/
def weighed (n : Nat) (first : T → T) (x : Nat → T) (i : Nat) : T :=
  if i = 0 then first (x i) else x i * Sample.waveWeight n

/-- The waves of the packed line that analysis works on. -/
def packedWaves (phase : Nat → Cartesian T) (n : Nat) (x : Nat → T) : Nat → Cartesian T :=
  Fourier.waves (Fourier.root .forward phase n) (n / 2).log2 (Folding.folded n x)

/-- **The coefficients of a rule.** -/
def analysis (phase : Nat → Cartesian T) (n : Nat) (scaled : Bool) (x : Nat → T) : Nat → T :=
  let coefficients := coefficientRule phase n (packedWaves phase n x)
  if scaled then weighed n (· * Sample.constantWeight n) coefficients else coefficients

/-- Coefficients `k` and `n - k` as one complex value, turned. -/
def joinRule (phase : Nat → Cartesian T) (n : Nat) (x : Nat → T) (k : Nat) : Cartesian T :=
  phase k * ⟨x k, if k = 0 then 0 else -(x (n - k))⟩

/-- Entry `k` of the packed spectrum of a line with coefficients `x`. -/
def packRule (phase : Nat → Cartesian T) (n : Nat) (x : Nat → T) (k : Nat) : Cartesian T :=
  let v := joinRule phase n x k
  let opposite := (joinRule phase n x (n / 2 - k)).conj
  (v + opposite).scale Sample.half + (((v - opposite) * phase (4 * k)).scale Sample.half).turn

/-- The coefficients that synthesis starts from. -/
def unscaledRule (n : Nat) (scaled : Bool) (x : Nat → T) : Nat → T :=
  if scaled then weighed n (fun y => y * Sample.constantWeight n * Sample.two) x else x

/-- The waves of the packed spectrum that synthesis unpacks. -/
def packedLine (phase : Nat → Cartesian T) (n : Nat) (scaled : Bool) (x : Nat → T) :
    Nat → Cartesian T :=
  Fourier.waves (Fourier.root .inverse phase n) (n / 2).log2
    (packRule phase n (unscaledRule n scaled x))

/-- **The line of coefficients that follow a rule.** -/
def synthesis (phase : Nat → Cartesian T) (n : Nat) (scaled : Bool) (x : Nat → T) : Nat → T :=
  Folding.unfolded n (packedLine phase n scaled x)

/-- **The transform of a rule** on `n` places. -/
def image (phase : Nat → Cartesian T) (n : Nat) (d : Direction) (scaled : Bool) (x : Nat → T) :
    Nat → T :=
  if n = 1 then x
  else
    match d with
    | .forward => analysis phase n scaled x
    | .inverse => synthesis phase n scaled x

@[simp] theorem image_one (phase : Nat → Cartesian T) (d : Direction) (scaled : Bool)
    (x : Nat → T) : image phase 1 d scaled x = x := by
  unfold image
  rw [if_pos rfl]

/-! ### Rules that agree -/

section Congruence

variable {phase : Nat → Cartesian T} {n : Nat} {x y : Nat → T}

theorem splitRule_congr {z z' : Nat → Cartesian T} (hn : 2 ≤ n)
    (h : ∀ m < n / 2, z m = z' m) (k : Nat) :
    splitRule phase n z k = splitRule phase n z' k := by
  have hk := h (k % (n / 2)) (Nat.mod_lt _ (by omega))
  have hopposite := h ((n / 2 - k) % (n / 2)) (Nat.mod_lt _ (by omega))
  simp only [splitRule, hk, hopposite]

theorem analysis_congr (hpow : n.isPowerOfTwo) (hn : n ≠ 1) (scaled : Bool)
    (h : ∀ i < n, x i = y i) (k : Nat) :
    analysis phase n scaled x k = analysis phase n scaled y k := by
  have heven := even_of_isPowerOfTwo hpow hn
  have hpos := Nat.pos_of_isPowerOfTwo hpow
  -- Packing reads places of the line only, and the waves read packed entries only.
  have hwaves : ∀ m < n / 2, packedWaves phase n x m = packedWaves phase n y m := by
    have hfolded := Folding.folded_congr heven h
    rw [half_eq hpow hn] at hfolded ⊢
    exact Fourier.waves_congr (fun _ _ _ => rfl) hfolded
  have hcoefficients : coefficientRule phase n (packedWaves phase n x) k =
      coefficientRule phase n (packedWaves phase n y) k := by
    unfold coefficientRule
    rw [splitRule_congr (by omega) hwaves, splitRule_congr (by omega) hwaves]
  unfold analysis weighed
  cases scaled <;> simp [hcoefficients]

theorem unscaledRule_congr (scaled : Bool) (h : ∀ i < n, x i = y i) :
    ∀ i < n, unscaledRule n scaled x i = unscaledRule n scaled y i := by
  intro i hi
  unfold unscaledRule weighed
  cases scaled <;> simp [h i hi]

omit [Precision W] in
theorem joinRule_congr (h : ∀ i < n, x i = y i) :
    ∀ k < n, joinRule phase n x k = joinRule phase n y k := by
  intro k hk
  unfold joinRule
  rw [h k hk]
  by_cases hk0 : k = 0
  · rw [if_pos hk0, if_pos hk0]
  · rw [if_neg hk0, if_neg hk0, h (n - k) (by omega)]

theorem synthesis_congr (hpow : n.isPowerOfTwo) (hn : n ≠ 1) (scaled : Bool)
    (h : ∀ i < n, x i = y i) :
    ∀ i < n, synthesis phase n scaled x i = synthesis phase n scaled y i := by
  have heven := even_of_isPowerOfTwo hpow hn
  have hpos := Nat.pos_of_isPowerOfTwo hpow
  have hjoin : ∀ k < n, joinRule phase n (unscaledRule n scaled x) k =
      joinRule phase n (unscaledRule n scaled y) k := joinRule_congr (unscaledRule_congr scaled h)
  -- A bin joins two values of the line, and an entry of the packed spectrum joins two bins.
  have hpack : ∀ k < n / 2, packRule phase n (unscaledRule n scaled x) k =
      packRule phase n (unscaledRule n scaled y) k := by
    intro k hk
    unfold packRule
    rw [hjoin k (by omega), hjoin (n / 2 - k) (by omega)]
  have hwaves : ∀ m < n / 2, packedLine phase n scaled x m = packedLine phase n scaled y m := by
    rw [half_eq hpow hn] at hpack ⊢
    exact Fourier.waves_congr (fun _ _ _ => rfl) hpack
  exact Folding.unfolded_congr heven hwaves

/-- **The image of a rule** depends on the places of the line only. -/
theorem image_congr (hpow : n.isPowerOfTwo) (d : Direction) (scaled : Bool)
    (h : ∀ i < n, x i = y i) :
    ∀ i < n, image phase n d scaled x i = image phase n d scaled y i := by
  intro i hi
  unfold image
  by_cases hn : n = 1
  · rw [if_pos hn, if_pos hn, h i hi]
  · rw [if_neg hn, if_neg hn]
    cases d with
    | forward => exact analysis_congr hpow hn scaled h i
    | inverse => exact synthesis_congr hpow hn scaled h i hi

end Congruence

/-! ### The transform of a line on a shared table -/

/-- A table of length `N` that there is room for, and a power of two `n` that it
serves. -/
structure Served (T : Type) [Stored T] (N n : Nat) : Prop where
  table_pow : N.isPowerOfTwo
  length_pow : n.isPowerOfTwo
  length_le : n ≤ N
  room : HalfCircle.HasRoom T N

section Lengths

variable {S : Type} [Stored S] {N n : Nat}

namespace Served

theorem pos (h : Served S N n) : 0 < n :=
  Nat.pos_of_isPowerOfTwo h.length_pow

/-- A length that is served by some table is served by its own. -/
theorem own (h : Served S N n) : Served S n n :=
  ⟨h.length_pow, h.length_pow, le_rfl, h.room.mono h.length_le⟩

theorem dvd (h : Served S N n) : n ∣ N := by
  obtain ⟨E, rfl⟩ := h.table_pow
  obtain ⟨e, rfl⟩ := h.length_pow
  exact Nat.pow_dvd_pow 2 ((Nat.pow_le_pow_iff_right (by omega)).1 h.length_le)

theorem mul_stride (h : Served S N n) : n * (N / n) = N :=
  Nat.mul_div_cancel' h.dvd

theorem lt_bound (h : Served S N n) : 16 * N < Word.bound :=
  h.room.lt_bound

/-- Where the table fits, the spectrum of a line fits as well. -/
theorem spectrum_room (h : Served S N n) :
    2 * Stored.bytes S * max (n / 2) 1 < Word.byteBound := by
  have hle := h.length_le
  have hpos := h.pos
  exact lt_of_le_of_lt (Nat.mul_le_mul_left _ (by omega)) h.room.2

theorem mul_stride_lt (h : Served S N n) {j : Nat} (hj : j < 2 * n) : j * (N / n) < 2 * N := by
  -- `2 * n` steps of `N / n` make the whole table.
  have hpos : 0 < N / n := Nat.div_pos h.length_le h.pos
  have hlt : j * (N / n) < 2 * n * (N / n) := Nat.mul_lt_mul_of_pos_right hj hpos
  rwa [Nat.mul_assoc, h.mul_stride] at hlt

theorem mul_stride_le (h : Served S N n) {j : Nat} (hj : j ≤ 2 * n) : j * (N / n) ≤ 2 * N := by
  have hle : j * (N / n) ≤ 2 * n * (N / n) := Nat.mul_le_mul_right _ hj
  rwa [Nat.mul_assoc, h.mul_stride] at hle

end Served

end Lengths

/-- The half circle in `2 * n` steps, read in a table of length `N`. -/
def sharedPhase (N n : Nat) (j : Nat) : Cartesian T :=
  HalfCircle.phasor N (j * (N / n))

/-- The transform of length `n` on the complete table of length `N`. -/
def shared (N n : Nat) : LineTransform T where
  length := n
  table := CircleTable.complete N
  rotationStride := N / n
  splitStride := 4 * (N / n)
  constantWeight := Sample.constantWeight n
  waveWeight := Sample.waveWeight n

namespace Served

variable {N n : Nat}

theorem onTable_eq (h : Served T N n) :
    onTable n (CircleTable.complete N : CircleTable T) = .ok (shared N n) := by
  have hb := h.lt_bound
  have hstride : N / n ≤ N := Nat.div_le_self N n
  have hserves : (CircleTable.complete N : CircleTable T).Serves n := h.length_le
  unfold onTable
  rw [require_of ⟨h.length_pow, hserves⟩, Checked.ok_bind]
  dsimp only
  rw [show (CircleTable.complete N : CircleTable T).coverage = N from rfl,
    Word.mul_of_lt (by omega)]
  rfl

/-- A step of the half circle of a length, read in the table. -/
theorem phasor_stride (h : Served T N n) {j : Nat} (hj : j < 2 * n) :
    (CircleTable.complete N : CircleTable T).phasor (j * (N / n)) = .ok (sharedPhase N n j) :=
  CircleTable.phasor_complete (h.mul_stride_lt hj)

/-- The roots of the table are the roots of the shorter half circle. -/
theorem root_eq (h : Served T N n) (d : Direction) {e : Nat} (he : 2 * 2 ^ e ∣ 4 * n) (j : Nat) :
    Fourier.root d (HalfCircle.phasor N : Nat → Cartesian T) N (2 ^ e) j =
      Fourier.root d (sharedPhase N n) n (2 ^ e) j := by
  -- A step of the roots of the table is `N / n` steps of the roots of the length.
  have hstep : 4 * N / (2 * 2 ^ e) = 4 * n / (2 * 2 ^ e) * (N / n) := by
    conv_lhs => rw [← h.mul_stride, ← Nat.mul_assoc, Nat.mul_div_right_comm he]
  unfold Fourier.root sharedPhase
  rw [hstep, Nat.mul_assoc]

/-- **The Fourier transform of a buffer** of at most half the length, with the half circle of the
length. -/
theorem transform_of_le (h : Served T N n) {e : Nat} (he : 2 * 2 ^ e ≤ n) (d : Direction)
    (f : Nat → Cartesian T) :
    Fourier.transform (CircleTable.complete N) d ((Array.range (2 ^ e)).map f) =
      .ok ((Array.range (2 ^ e)).map
        (Fourier.waves (Fourier.root d (sharedPhase N n) n) e f)) := by
  rw [Fourier.transform_eq h.table_pow h.room (Or.inr (he.trans h.length_le)) d f]
  -- The table has the roots of `N`; below the length they are those of `n`.
  refine congrArg Except.ok (Buffer.map_range_congr fun k hk => ?_)
  exact Fourier.waves_congr
    (fun i hi j => h.root_eq d (Fourier.two_mul_two_pow_dvd h.length_pow he hi) j)
    (fun _ _ => rfl) k hk

/-- **The Fourier transform of a packed line**, with the half circle of its length. -/
theorem transform_eq (h : Served T N n) (hn : n ≠ 1) (d : Direction) (f : Nat → Cartesian T) :
    Fourier.transform (CircleTable.complete N) d ((Array.range (n / 2)).map f) =
      .ok ((Array.range (n / 2)).map
        (Fourier.waves (Fourier.root d (sharedPhase N n) n) (n / 2).log2 f)) := by
  have hhalf := half_eq h.length_pow hn
  have htransform := h.transform_of_le (e := (n / 2).log2) (by rw [← hhalf]; omega) d f
  rwa [← hhalf] at htransform

end Served

theorem weigh_shared (N n : Nat) (first : T → T) (x : Nat → T) :
    (shared N n : LineTransform T).weigh first ((Array.range n).map x) =
      (Array.range n).map (weighed n first x) := by
  refine Buffer.eq_map_range (by simp [weigh]) fun i hi => ?_
  unfold weigh weighed
  rw [Array.getElem?_mapIdx, Buffer.getElem?_map_range x hi]
  rfl

/-! ### Analysis -/

section Calls

variable {N n : Nat}

theorem foldedBin_eq (h : Served T N n) (hn : n ≠ 1) (z : Nat → Cartesian T) {k : Nat}
    (hk : k ≤ n / 2) :
    (shared N n).foldedBin ((Array.range (n / 2)).map z) k =
      .ok (splitRule (sharedPhase N n) n z k) := by
  have hb := h.lt_bound
  have heven := even_of_isPowerOfTwo h.length_pow hn
  have hpos := h.pos
  have hrotation := h.mul_stride_le (j := k) (by omega)
  unfold foldedBin splitRule
  -- The last bin has no second phasor; the others read one at `4 * k` as well.
  by_cases hkh : k = n / 2
  · subst hkh
    simp only [shared, if_true]
    rw [Buffer.read_map_range z (Nat.mod_lt _ (by omega)), Checked.ok_bind,
      Word.sub_of_le hk, Checked.ok_bind, Buffer.read_map_range z (Nat.mod_lt _ (by omega)),
      Checked.ok_bind, Checked.pure_eq_ok, Checked.ok_bind, Word.mul_of_lt (by omega),
      Checked.ok_bind, h.phasor_stride (by omega)]
    rfl
  · have hsplit := h.mul_stride_le (j := 4 * k) (by omega)
    have hcomm : k * (4 * (N / n)) = 4 * k * (N / n) := by ring
    simp only [shared, hkh, if_false]
    rw [Buffer.read_map_range z (Nat.mod_lt _ (by omega)), Checked.ok_bind, Word.sub_of_le hk,
      Checked.ok_bind, Buffer.read_map_range z (Nat.mod_lt _ (by omega)), Checked.ok_bind,
      Word.mul_of_lt (by omega), Checked.ok_bind, hcomm, h.phasor_stride (by omega),
      Checked.ok_bind, Checked.pure_eq_ok, Checked.ok_bind, Word.mul_of_lt (by omega),
      Checked.ok_bind, h.phasor_stride (by omega)]
    rfl

omit [Precision W] in
/-- The coefficients that are read off the bins of a spectrum. -/
theorem coefficients_eq (hn : n % 2 = 0) (bins : Nat → Cartesian T) :
    Buffer.tabulate n (fun k => do
        if k ≤ n / 2 then
          return (← Buffer.read ((Array.range (n / 2 + 1)).map bins) k).re
        else
          return -(← Buffer.read ((Array.range (n / 2 + 1)).map bins) (← Word.sub n k)).im) =
      .ok ((Array.range n).map fun k => if k ≤ n / 2 then (bins k).re else -(bins (n - k)).im) := by
  refine Buffer.tabulate_of_ok fun k hk => ?_
  -- Coefficient `k` is the real part of bin `k`, or the imaginary part of bin `n - k`.
  by_cases hkh : k ≤ n / 2
  · rw [if_pos hkh, if_pos hkh, Buffer.read_map_range bins (by omega)]
    rfl
  · rw [if_neg hkh, if_neg hkh, Word.sub_of_le hk.le, Checked.ok_bind,
      Buffer.read_map_range bins (by omega)]
    rfl

theorem analyse_eq (h : Served T N n) (hn : n ≠ 1) (scaled : Bool) (x : Nat → T)
    {spectrum : Array (Cartesian T)} (hs : n / 2 ≤ spectrum.size) :
    (shared N n).analyse scaled ((Array.range n).map x) spectrum =
      .ok ((Array.range n).map (analysis (sharedPhase N n) n scaled x),
        Buffer.overlay spectrum 0
          ((List.range (n / 2)).map (packedWaves (sharedPhase N n) n x))) := by
  have hb := h.lt_bound
  have hle := h.length_le
  have heven := even_of_isPowerOfTwo h.length_pow hn
  unfold analyse
  rw [show (shared N n : LineTransform T).length = n from rfl,
    show (shared N n : LineTransform T).table = CircleTable.complete N from rfl]
  dsimp only
  -- Pack, transform, split: each loop takes a rule to a rule, and none of them faults.
  rw [Folding.pack_eq heven (by omega) x hs, Checked.ok_bind,
    Buffer.extract_overlay_map_range _ hs, h.transform_eq hn, Checked.ok_bind,
    Buffer.tabulate_of_ok fun k hk => foldedBin_eq h hn _ (by omega), Checked.ok_bind,
    coefficients_eq heven, Checked.ok_bind, Checked.pure_eq_ok, Buffer.toList_map_range,
    Buffer.overlay_overlay _ _ (by simp)]
  cases scaled with
  | false => rfl
  | true =>
    rw [if_pos rfl, weigh_shared]
    rfl

/-! ### Synthesis -/

theorem coefficientBin_eq (h : Served T N n) (x : Nat → T) {k : Nat} (hk : k ≤ n / 2)
    (hkn : k < n) :
    (shared N n).coefficientBin ((Array.range n).map x) k =
      .ok (joinRule (sharedPhase N n) n x k) := by
  have hb := h.lt_bound
  have hrotation := h.mul_stride_le (j := k) (by omega)
  unfold coefficientBin joinRule
  -- The bin at zero has no partner on the line.
  by_cases hk0 : k = 0
  · subst hk0
    simp only [shared, if_true]
    rw [Checked.pure_eq_ok, Checked.ok_bind, Word.mul_of_lt (by omega), Checked.ok_bind,
      h.phasor_stride (by omega), Checked.ok_bind, Buffer.read_map_range x hkn]
    rfl
  · simp only [shared, hk0, if_false]
    rw [Word.sub_of_le (by omega), Checked.ok_bind, Buffer.read_map_range x (by omega),
      Checked.ok_bind, Checked.pure_eq_ok, Checked.ok_bind, Word.mul_of_lt (by omega),
      Checked.ok_bind, h.phasor_stride (by omega), Checked.ok_bind, Buffer.read_map_range x hkn]
    rfl

theorem packedBin_eq (h : Served T N n) (hn : n ≠ 1) (x : Nat → T) {k : Nat} (hk : k < n / 2) :
    (shared N n).packedBin ((Array.range n).map x) k =
      .ok (packRule (sharedPhase N n) n x k) := by
  have hb := h.lt_bound
  have heven := even_of_isPowerOfTwo h.length_pow hn
  have hsplit := h.mul_stride_le (j := 4 * k) (by omega)
  have hcomm : k * (4 * (N / n)) = 4 * k * (N / n) := by ring
  unfold packedBin packRule
  rw [coefficientBin_eq h x (by omega) (by omega), Checked.ok_bind,
    show (shared N n : LineTransform T).length = n from rfl, Word.sub_of_le (by omega),
    Checked.ok_bind, coefficientBin_eq h x (by omega) (by omega), Checked.ok_bind]
  simp only [shared]
  rw [Word.mul_of_lt (by omega), Checked.ok_bind, hcomm, h.phasor_stride (by omega)]
  rfl

theorem synthesise_eq (h : Served T N n) (hn : n ≠ 1) (scaled : Bool) (x : Nat → T)
    {spectrum : Array (Cartesian T)} (hs : n / 2 ≤ spectrum.size) :
    (shared N n).synthesise scaled ((Array.range n).map x) spectrum =
      .ok ((Array.range n).map (synthesis (sharedPhase N n) n scaled x),
        Buffer.overlay spectrum 0
          ((List.range (n / 2)).map (packedLine (sharedPhase N n) n scaled x))) := by
  have hb := h.lt_bound
  have hle := h.length_le
  have heven := even_of_isPowerOfTwo h.length_pow hn
  have hweighted : (if scaled = true then
        (shared N n).weigh (fun x => x * Sample.constantWeight n * Sample.two)
          ((Array.range n).map x)
      else (Array.range n).map x) = (Array.range n).map (unscaledRule n scaled x) := by
    cases scaled with
    | false => rfl
    | true => rw [if_pos rfl, weigh_shared]; rfl
  unfold synthesise
  rw [show (shared N n : LineTransform T).length = n from rfl,
    show (shared N n : LineTransform T).table = CircleTable.complete N from rfl,
    show (shared N n : LineTransform T).constantWeight = Sample.constantWeight n from rfl]
  dsimp only
  -- Weigh, join, transform, unpack, each by its own law.
  rw [hweighted, Buffer.fill_of_ok hs fun k hk => packedBin_eq h hn _ hk, Checked.ok_bind,
    Buffer.extract_overlay_map_range _ hs, h.transform_eq hn, Checked.ok_bind,
    Folding.unpack_eq heven (by omega) le_rfl _ (by simp), Checked.ok_bind, Checked.pure_eq_ok,
    Buffer.toList_map_range, Buffer.overlay_overlay _ _ (by simp)]
  rfl

/-! ### Calls -/

/-- What a call leaves on the start of its spectrum. -/
def workedOn (phase : Nat → Cartesian T) (n : Nat) (d : Direction) (scaled : Bool)
    (x : Nat → T) : List (Cartesian T) :=
  if n = 1 then []
  else
    match d with
    | .forward => (List.range (n / 2)).map (packedWaves phase n x)
    | .inverse => (List.range (n / 2)).map (packedLine phase n scaled x)

/-- **A call** on a table that serves the length computes the image of the line, on
any spectrum that is long enough. -/
theorem callOn_eq (h : Served T N n) (d : Direction) (scaled : Bool) (x : Nat → T)
    {spectrum : Array (Cartesian T)} (hs : max (n / 2) 1 ≤ spectrum.size) :
    (shared N n).callOn d scaled ((Array.range n).map x) spectrum =
      .ok ((Array.range n).map (image (sharedPhase N n) n d scaled x),
        Buffer.overlay spectrum 0 (workedOn (sharedPhase N n) n d scaled x)) := by
  have hspectrum : (shared N n : LineTransform T).spectrumLength ≤ spectrum.size := hs
  have hline : ((Array.range n).map x).size = (shared N n : LineTransform T).length := by
    simp [shared]
  unfold callOn image workedOn
  rw [require_of hline, Checked.ok_bind, require_of hspectrum, Checked.ok_bind,
    show (shared N n : LineTransform T).length = n from rfl]
  -- A line of one place is returned as it is, and its spectrum with it.
  by_cases hn : n = 1
  · rw [if_pos hn, if_pos hn, if_pos hn]
    rfl
  · rw [if_neg hn, if_neg hn, if_neg hn]
    cases d with
    | forward => exact analyse_eq h hn scaled x (by omega)
    | inverse => exact synthesise_eq h hn scaled x (by omega)

/-- A call on a line of the length has an answer, of the sizes of what it was called on. -/
theorem Served.exists_callOn (h : Served T N n) (d : Direction) (scaled : Bool) {line : Array T}
    (hline : line.size = n) {spectrum : Array (Cartesian T)}
    (hs : max (n / 2) 1 ≤ spectrum.size) :
    ∃ line' worked, (shared N n).callOn d scaled line spectrum = .ok (line', worked) ∧
      line'.size = n ∧ worked.size = spectrum.size := by
  obtain ⟨x, rfl⟩ := Buffer.exists_rule hline 0
  exact ⟨_, _, callOn_eq h d scaled x hs, by simp, Buffer.size_overlay _ _ _⟩

theorem call_eq (h : Served T N n) (d : Direction) (scaled : Bool) (x : Nat → T) :
    (shared N n).call d scaled ((Array.range n).map x) =
      .ok ((Array.range n).map (image (sharedPhase N n) n d scaled x)) := by
  have hline : ((Array.range n).map x).size = (shared N n : LineTransform T).length := by
    simp [shared]
  have hspectrum : max (n / 2) 1 ≤ (Array.replicate (shared N n : LineTransform T).spectrumLength
      (0 : Cartesian T)).size := by
    simp [spectrumLength, shared]
  have hroom : 2 * Stored.bytes T * (shared N n : LineTransform T).spectrumLength <
      Word.byteBound := h.spectrum_room
  unfold call
  rw [if_pos hline, Word.reserve_of_lt hroom, Attempt.liftM_ok, Attempt.ok_bind,
    callOn_eq h d scaled x hspectrum]
  rfl

end Calls

/-! ### Independence of the table -/

/-- When doubling keeps angles, the half circle of a length does not depend on the
table in which it is read. -/
theorem sharedPhase_eq (hW : Precision.AnglesDouble W) {N n : Nat} (h : Served T N n) :
    (sharedPhase N n : Nat → Cartesian T) = HalfCircle.phasor n := by
  have hb := h.lt_bound
  obtain ⟨E, hE⟩ := h.table_pow
  obtain ⟨e, he⟩ := h.length_pow
  have hle : e ≤ E := by
    have hNn := h.length_le
    rw [hE, he] at hNn
    exact (Nat.pow_le_pow_iff_right (by omega)).1 hNn
  have hstride : N / n = 2 ^ (E - e) := by rw [hE, he, Nat.pow_div hle (by omega)]
  have hN : n * 2 ^ (E - e) = N := by rw [← hstride, h.mul_stride]
  -- `N / n` is a power of two, so the table is the shorter circle cut more finely.
  funext j
  rw [sharedPhase, hstride]
  conv_lhs => rw [← hN]
  exact HalfCircle.phasor_mul hW h.length_pow (E - e) (by rw [hN]; omega) j

/-! ### Planning -/

/-- **A planned transform** is the one on the complete table of its own length. -/
theorem plan_eq_ok_iff {n : Nat} {l : LineTransform T} :
    plan n = .ok l ↔ n.isPowerOfTwo ∧ HalfCircle.HasRoom T n ∧ l = shared n n := by
  unfold plan
  by_cases hn : n.isPowerOfTwo
  · rw [if_pos hn]
    by_cases hroom : HalfCircle.HasRoom T n
    · have hserved : Served T n n := ⟨hn, hn, le_rfl, hroom⟩
      -- There is room, so growing by this one length ends in the complete table.
      have htable : CircleTable.ofLengths [n] = .ok (CircleTable.complete n : CircleTable T) := by
        rw [CircleTable.ofLengths_eq_ok_iff]
        exact ⟨by simp [hn, hroom], by
          simp [CircleTable.grown_of_pos (Nat.pos_of_isPowerOfTwo hn)]⟩
      rw [htable, Attempt.liftM_ok, Attempt.ok_bind, hserved.onTable_eq, Attempt.liftM_ok]
      simp [hn, hroom, eq_comm]
    · cases htable : (CircleTable.ofLengths [n] : Checked (CircleTable T)) with
      | ok t => exact absurd ((CircleTable.ofLengths_eq_ok_iff.1 htable).1 n (by simp)).2 hroom
      | error f => simp [hroom]
  · rw [if_neg hn]
    simp [hn, Attempt.refuse]

end LineTransform

end CosineTransform
