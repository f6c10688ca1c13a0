import Mathlib
import CosineTransform.Fourier
import CosineTransform.Proofs.Rules

/-!
# Rounds of butterflies, span by span

The Fourier transform goes through its rounds in a loop: it doubles the span, and a round combines
the halves of all blocks of one span in place (`Fourier.spans`). The recursion from the top down
does the two halves of the buffer on their own and then combines them (`Fourier.butterflies`). The
loop goes round by round and the recursion half by half, so the same blocks are combined in another
order; `spans_eq_ok_iff` says that this leads to the same buffer, whatever the tables hold.

* **The last round** of a loop comes after a loop up to half of the length (`spans_last`).
* **Two buffers side by side** are kept apart by every span that divides the first one
  (`round_append`, `spans_append_eq_ok_iff`).
* **A block of its own** is combined as it is (`round_block`).
-/

namespace CosineTransform

namespace Buffer

variable {α : Type} {xs ys : Array α}

/-- A stretch of the first of two buffers. -/
theorem extract_append_of_le {i j : ℕ} (h : j ≤ xs.size) :
    (xs ++ ys).extract i j = xs.extract i j := by
  rw [Array.extract_append, Nat.sub_eq_zero_of_le h, Array.extract_zero, Array.append_empty]

/-- A stretch of the second of two buffers. -/
theorem extract_append_add (i j : ℕ) :
    (xs ++ ys).extract (xs.size + i) (xs.size + j) = ys.extract i j := by
  rw [Array.extract_append, Nat.add_sub_cancel_left, Nat.add_sub_cancel_left,
    Array.extract_empty_of_size_le_start (Nat.le_add_right _ _), Array.empty_append]

/-- Two buffers of one size are the halves of the two of them. -/
theorem extract_halves {half : ℕ} (hxs : xs.size = half) (hys : ys.size = half) :
    (xs ++ ys).extract 0 half = xs ∧ (xs ++ ys).extract half (half + half) = ys := by
  constructor
  · rw [extract_append_of_le hxs.ge, ← hxs, Array.extract_size]
  · have hsecond : (xs ++ ys).extract (xs.size + 0) (xs.size + ys.size) = ys.extract 0 ys.size :=
      extract_append_add 0 ys.size
    rwa [Nat.add_zero, Array.extract_size, hxs, hys] at hsecond

/-- What is laid over the first of two buffers leaves the second one alone. -/
theorem overlay_append_of_le {start : ℕ} {zs : List α} (h : start + zs.length ≤ xs.size) :
    overlay (xs ++ ys) start zs = overlay xs start zs ++ ys := by
  apply Array.ext_getElem?
  intro i
  rw [getElem?_overlay, Array.size_append, Array.getElem?_append, Array.getElem?_append,
    size_overlay, getElem?_overlay]
  by_cases hi : i < xs.size
  · rw [if_pos hi, if_pos hi]
    exact if_congr (by omega) rfl rfl
  · rw [if_neg hi, if_neg hi, if_neg (by omega)]

/-- What is laid over the second of two buffers leaves the first one alone. -/
theorem overlay_append_add (start : ℕ) (zs : List α) :
    overlay (xs ++ ys) (xs.size + start) zs = xs ++ overlay ys start zs := by
  apply Array.ext_getElem?
  intro i
  rw [getElem?_overlay, Array.size_append, Array.getElem?_append, Array.getElem?_append,
    getElem?_overlay]
  by_cases hi : i < xs.size
  · rw [if_pos hi, if_pos hi, if_neg (by omega)]
  · rw [if_neg hi, if_neg hi, Nat.sub_add_eq]
    exact if_congr (by omega) rfl rfl

end Buffer

namespace Fourier

variable {T W : Type} [Sample T W] {t : CircleTable T} {d : Direction}

/-! ### Sizes -/

theorem size_combine {half : ℕ} {evens odds ys : Array (Cartesian T)}
    (h : combine t d half evens odds = .ok ys) : ys.size = half + half := by
  obtain ⟨_, -, h⟩ := Checked.bind_eq_ok_iff.1 h
  obtain ⟨_, -, h⟩ := Checked.bind_eq_ok_iff.1 h
  obtain ⟨_, -, h⟩ := Checked.bind_eq_ok_iff.1 h
  obtain ⟨sums, hsums, h⟩ := Checked.bind_eq_ok_iff.1 h
  obtain ⟨differences, hdifferences, h⟩ := Checked.bind_eq_ok_iff.1 h
  cases h
  rw [Array.size_append, Buffer.size_tabulate hsums, Buffer.size_tabulate hdifferences]

theorem size_combineBlock {span b : ℕ} {xs ys : Array (Cartesian T)}
    (h : combineBlock t d span xs b = .ok ys) : ys.size = xs.size := by
  obtain ⟨block, -, h⟩ := Checked.bind_eq_ok_iff.1 h
  cases h
  exact Buffer.size_overlay _ _ _

theorem size_round {span : ℕ} {xs ys : Array (Cartesian T)} (h : round t d span xs = .ok ys) :
    ys.size = xs.size :=
  Buffer.size_foldlM (fun _ _ _ => size_combineBlock) h

/-- **The loop keeps the size** of its buffer. -/
theorem size_spans {len span : ℕ} {xs ys : Array (Cartesian T)}
    (h : spans t d len span xs = .ok ys) : ys.size = xs.size := by
  induction span, xs using spans.induct len with
  | case1 span xs hspan ih =>
    rw [spans, dif_pos hspan] at h
    obtain ⟨zs, hzs, h⟩ := Checked.bind_eq_ok_iff.1 h
    exact (ih zs h).trans (size_round hzs)
  | case2 span xs hspan =>
    rw [spans, dif_neg hspan] at h
    cases h
    rfl

/-! ### Spans that are powers of two -/

theorem spans_done {e : ℕ} {xs : Array (Cartesian T)} :
    spans t d (2 ^ e) (2 ^ (e + 1)) xs = .ok xs := by
  have hlt : 2 ^ e < 2 ^ (e + 1) := Nat.pow_lt_pow_right Nat.one_lt_two (Nat.lt_succ_self e)
  rw [spans, dif_neg fun h => absurd h.2 (Nat.not_le.2 hlt), Checked.pure_eq_ok]

theorem spans_succ {e k : ℕ} {xs : Array (Cartesian T)} :
    spans t d (2 ^ (e + (k + 1))) (2 ^ (e + 1)) xs =
      round t d (2 ^ e + 2 ^ e) xs >>= spans t d (2 ^ (e + 1 + k)) (2 ^ (e + 1 + 1)) := by
  have hle : 2 ^ (e + 1) ≤ 2 ^ (e + (k + 1)) := Nat.pow_le_pow_right Nat.two_pos (by omega)
  rw [spans, dif_pos ⟨Nat.two_pow_pos _, hle⟩, show e + (k + 1) = e + 1 + k by omega,
    ← pow_succ', pow_succ' 2 e, Nat.two_mul]

/-- **The last round** comes after a loop up to half of the length. -/
theorem spans_last (t : CircleTable T) (d : Direction) (e k : ℕ) (xs : Array (Cartesian T)) :
    spans t d (2 ^ (e + (k + 1))) (2 ^ (e + 1)) xs =
      spans t d (2 ^ (e + k)) (2 ^ (e + 1)) xs >>= round t d (2 ^ (e + k) + 2 ^ (e + k)) := by
  induction k generalizing e xs with
  | zero =>
    rw [spans_succ, Nat.add_zero, spans_done, Checked.ok_bind]
    exact (bind_congr fun zs => spans_done).trans (bind_pure _)
  | succ k ih =>
    rw [spans_succ, spans_succ, bind_assoc]
    refine bind_congr fun zs => ?_
    rw [ih, show e + (k + 1) = e + 1 + k by omega]

/-! ### Two buffers side by side -/

section Append

variable {half : ℕ} {xs ys : Array (Cartesian T)}

theorem combineBlock_eq (t : CircleTable T) (d : Direction) (half : ℕ) (xs : Array (Cartesian T))
    {b start : ℕ} (hb : b * (half + half) = start) :
    combineBlock t d (half + half) xs b =
      (fun block => Buffer.overlay xs start block.toList) <$>
        combine t d half (xs.extract start (start + half))
          (xs.extract (start + half) (start + half + half)) := by
  unfold combineBlock
  rw [hb, show (half + half) / 2 = half by omega]
  dsimp only
  rw [← Nat.add_assoc]
  rfl

theorem combineBlock_append_of_le {b : ℕ} (hb : (b + 1) * (half + half) ≤ xs.size) :
    combineBlock t d (half + half) (xs ++ ys) b =
      (· ++ ys) <$> combineBlock t d (half + half) xs b := by
  rw [Nat.succ_mul] at hb
  rw [combineBlock_eq t d half _ rfl, combineBlock_eq t d half _ rfl,
    Buffer.extract_append_of_le (by omega), Buffer.extract_append_of_le (by omega)]
  cases hblock : combine t d half _ _ with
  | error fault => rfl
  | ok block =>
    have hlength : block.toList.length = half + half := size_combine hblock
    exact congrArg Except.ok (Buffer.overlay_append_of_le (by omega))

theorem combineBlock_append_add {a : ℕ} (ha : xs.size = a * (half + half)) (b : ℕ) :
    combineBlock t d (half + half) (xs ++ ys) (a + b) =
      (xs ++ ·) <$> combineBlock t d (half + half) ys b := by
  have hstart : (a + b) * (half + half) = xs.size + b * (half + half) := by
    rw [Nat.add_mul, ha]
  rw [combineBlock_eq t d half _ hstart, combineBlock_eq t d half _ rfl, Nat.add_assoc,
    Nat.add_assoc, Buffer.extract_append_add, Buffer.extract_append_add]
  cases combine t d half _ _ with
  | error fault => rfl
  | ok block => exact congrArg Except.ok (Buffer.overlay_append_add _ _)

/-- Blocks of the first of two buffers. -/
theorem foldlM_combineBlock_append_of_le {blocks : List ℕ}
    (hblocks : ∀ b ∈ blocks, (b + 1) * (half + half) ≤ xs.size) :
    blocks.foldlM (combineBlock t d (half + half)) (xs ++ ys) =
      (· ++ ys) <$> blocks.foldlM (combineBlock t d (half + half)) xs := by
  induction blocks generalizing xs with
  | nil => rfl
  | cons b blocks ih =>
    rw [List.forall_mem_cons] at hblocks
    rw [List.foldlM_cons, List.foldlM_cons, combineBlock_append_of_le hblocks.1]
    cases hb : combineBlock t d (half + half) xs b with
    | error fault => rfl
    | ok zs =>
      rw [Checked.ok_map, Checked.ok_bind, Checked.ok_bind]
      exact ih fun b' hb' => (hblocks.2 b' hb').trans_eq (size_combineBlock hb).symm

/-- Blocks of the second of two buffers. -/
theorem foldlM_combineBlock_append_add {a : ℕ} (ha : xs.size = a * (half + half))
    (blocks : List ℕ) :
    (blocks.map (a + ·)).foldlM (combineBlock t d (half + half)) (xs ++ ys) =
      (xs ++ ·) <$> blocks.foldlM (combineBlock t d (half + half)) ys := by
  induction blocks generalizing ys with
  | nil => rfl
  | cons b blocks ih =>
    rw [List.map_cons, List.foldlM_cons, List.foldlM_cons, combineBlock_append_add ha]
    cases combineBlock t d (half + half) ys b with
    | error fault => rfl
    | ok zs => exact ih

/-- **A round on two buffers** side by side is a round on the first one and then a round on the
second one. -/
theorem round_append (hhalf : 0 < half) (hdvd : half + half ∣ xs.size) :
    round t d (half + half) (xs ++ ys) = do
      let xs ← round t d (half + half) xs
      let ys ← round t d (half + half) ys
      return xs ++ ys := by
  obtain ⟨a, ha⟩ := hdvd
  rw [Nat.mul_comm] at ha
  have hsize : (xs ++ ys).size / (half + half) = a + ys.size / (half + half) := by
    rw [Array.size_append, ha, Nat.add_comm, Nat.add_mul_div_right _ _ (by omega), Nat.add_comm]
  have hblocks : ∀ b ∈ List.range a, (b + 1) * (half + half) ≤ xs.size := fun b hb => by
    rw [ha]
    exact Nat.mul_le_mul_right _ (List.mem_range.1 hb)
  unfold round
  rw [hsize, List.range_add, List.foldlM_append, foldlM_combineBlock_append_of_le hblocks, ha,
    Nat.mul_div_cancel _ (by omega)]
  cases hzs : (List.range a).foldlM (combineBlock t d (half + half)) xs with
  | error fault => rfl
  | ok zs =>
    have hsize' : zs.size = a * (half + half) :=
      (Buffer.size_foldlM (fun _ _ _ => size_combineBlock) hzs).trans ha
    rw [Checked.ok_map, Checked.ok_bind, foldlM_combineBlock_append_add hsize']
    rfl

/-- **The loop on two buffers** side by side is the loop on each of them, as long as no span is
longer than a divisor of the first one. -/
theorem spans_append_eq_ok_iff (t : CircleTable T) (d : Direction) (e k : ℕ)
    {zs : Array (Cartesian T)} (hdvd : 2 ^ (e + k) ∣ xs.size) :
    spans t d (2 ^ (e + k)) (2 ^ (e + 1)) (xs ++ ys) = .ok zs ↔
      ∃ xs' ys', spans t d (2 ^ (e + k)) (2 ^ (e + 1)) xs = .ok xs' ∧
        spans t d (2 ^ (e + k)) (2 ^ (e + 1)) ys = .ok ys' ∧ xs' ++ ys' = zs := by
  induction k generalizing e xs ys with
  | zero => simp [spans_done]
  | succ k ih =>
    have hhalf : 2 ^ e + 2 ^ e ∣ xs.size := by
      rw [← Nat.two_mul, ← pow_succ']
      exact (Nat.pow_dvd_pow 2 (by omega)).trans hdvd
    rw [show e + (k + 1) = e + 1 + k by omega] at hdvd
    rw [spans_succ, spans_succ, spans_succ, round_append (Nat.two_pow_pos e) hhalf]
    cases hus : round t d (2 ^ e + 2 ^ e) xs with
    | error fault => simp
    | ok us =>
      cases hvs : round t d (2 ^ e + 2 ^ e) ys with
      | error fault => simp
      | ok vs =>
        -- The round has kept the sizes, so the rest of the loop keeps the two apart.
        simp only [Checked.ok_bind, Checked.pure_eq_ok]
        exact ih (e + 1) (by rwa [size_round hus])

end Append

/-! ### The recursion from the top down -/

/-- **A block of its own**: two halves side by side are combined. -/
theorem round_block {half : ℕ} (hhalf : 0 < half) {evens odds : Array (Cartesian T)}
    (hevens : evens.size = half) (hodds : odds.size = half) :
    round t d (half + half) (evens ++ odds) = combine t d half evens odds := by
  have hone : (half + half) / (half + half) = 1 := Nat.div_self (by omega)
  obtain ⟨hfirst, hsecond⟩ := Buffer.extract_halves hevens hodds
  unfold round
  rw [Array.size_append, hevens, hodds, hone, List.range_one, List.foldlM_cons,
    combineBlock_eq t d half _ (Nat.zero_mul _), Nat.zero_add, hfirst, hsecond]
  cases hblock : combine t d half evens odds with
  | error fault => rfl
  | ok block =>
    -- The block that was combined is laid over all of the buffer.
    have hsize : block.size = (evens ++ odds).size := by
      rw [size_combine hblock, Array.size_append, hevens, hodds]
    have hall := Buffer.extract_overlay hsize le_rfl
    rw [← Buffer.size_overlay (evens ++ odds) 0 block.toList, Array.extract_size] at hall
    exact congrArg Except.ok hall

theorem butterflies_append {half digits : ℕ} {evens odds : Array (Cartesian T)}
    (hevens : evens.size = half) (hodds : odds.size = half) :
    butterflies t d (digits + 1) (evens ++ odds) = (do
      let evens ← butterflies t d digits evens
      let odds ← butterflies t d digits odds
      combine t d half evens odds) := by
  obtain ⟨hfirst, hsecond⟩ := Buffer.extract_halves hevens hodds
  rw [butterflies, Array.size_append, hevens, hodds, show (half + half) / 2 = half by omega,
    hfirst, hsecond]

/-- **The loop over the spans** makes of a buffer what the recursion from the top down makes of
it. -/
theorem spans_eq_ok_iff {digits : ℕ} {xs ys : Array (Cartesian T)} (hxs : xs.size = 2 ^ digits) :
    spans t d (2 ^ digits) 2 xs = .ok ys ↔ butterflies t d digits xs = .ok ys := by
  induction digits generalizing xs ys with
  | zero =>
    rw [butterflies]
    exact iff_of_eq (congrArg (· = .ok ys) (spans_done (e := 0)))
  | succ digits ih =>
    obtain ⟨evens, odds, hevens, hodds, rfl⟩ : ∃ evens odds : Array (Cartesian T),
        evens.size = 2 ^ digits ∧ odds.size = 2 ^ digits ∧ evens ++ odds = xs := by
      rw [pow_succ] at hxs
      exact ⟨xs.extract 0 (2 ^ digits), xs.extract (2 ^ digits) xs.size, by simp; omega,
        by simp; omega, by simp⟩
    -- The loop does the two halves side by side, and then the last round.
    have hlast := spans_last t d 0 digits (evens ++ odds)
    have happend : ∀ zs, spans t d (2 ^ digits) 2 (evens ++ odds) = .ok zs ↔
        ∃ evens' odds', spans t d (2 ^ digits) 2 evens = .ok evens' ∧
          spans t d (2 ^ digits) 2 odds = .ok odds' ∧ evens' ++ odds' = zs := by
      intro zs
      have hdvd : 2 ^ (0 + digits) ∣ evens.size := by rw [hevens, Nat.zero_add]
      have hiff : spans t d (2 ^ (0 + digits)) (2 ^ (0 + 1)) (evens ++ odds) = .ok zs ↔ _ :=
        spans_append_eq_ok_iff t d 0 digits hdvd
      rwa [Nat.zero_add, Nat.zero_add, pow_one] at hiff
    simp only [Nat.zero_add, pow_one] at hlast
    rw [hlast, butterflies_append hevens hodds, Checked.bind_eq_ok_iff]
    constructor
    · rintro ⟨zs, hzs, hround⟩
      obtain ⟨evens', odds', hevens', hodds', rfl⟩ := (happend zs).1 hzs
      rw [round_block (Nat.two_pow_pos digits) ((size_spans hevens').trans hevens)
        ((size_spans hodds').trans hodds)] at hround
      rw [(ih hevens).1 hevens', (ih hodds).1 hodds']
      exact hround
    · intro h
      obtain ⟨evens', hevens', h⟩ := Checked.bind_eq_ok_iff.1 h
      obtain ⟨odds', hodds', h⟩ := Checked.bind_eq_ok_iff.1 h
      rw [← ih hevens] at hevens'
      rw [← ih hodds] at hodds'
      refine ⟨evens' ++ odds', (happend _).2 ⟨_, _, hevens', hodds', rfl⟩, ?_⟩
      rwa [round_block (Nat.two_pow_pos digits) ((size_spans hevens').trans hevens)
        ((size_spans hodds').trans hodds)]

end Fourier

end CosineTransform
