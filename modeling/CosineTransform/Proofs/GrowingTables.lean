import Mathlib
import CosineTransform.Proofs.LineImage
import CosineTransform.Sample.Binary

/-!
# Tables depend on the longest length only

A shared table is asked to serve one length after the other, in any order and as often as
one likes. After each call it is the table that a single call for the longest length so far
builds from nothing (`tables_follow_longest`): its four parts belong to this length
(`CircleTable.BuiltFor`), it serves exactly the lengths up to it, and it was built anew only
if the call asked for more than all calls before.

The run of calls is `CircleTable.ofLengths`, and the invariant that carries it is
`CircleTable.grown`: a table that has grown to the longest length is complete for it
(`ofLengths_longest_iff`). What remains is that a complete table has the sizes that are
told (`CircleTable.builtFor_complete`) and that the longest length of a list depends neither
on its order nor on the others.

So whatever calls were made, a table that serves a length is the complete table of some longer
one (`CircleTable.complete_of_serves`), and the transform that is planned on it for this length
is the one whose calls are known (`LineTransform.served_of_onTable`).
-/

namespace CosineTransform

namespace CircleTable

variable {T : Type}

/-- **A table built for length `N`** in all of its parts. -/
structure BuiltFor (N : Nat) (t : CircleTable T) : Prop where
  coverage_eq : t.coverage = N
  size_phasors : t.phasors.size = 2 * N
  size_reversals : t.reversals.size = max 1 (N / 2)
  digits_eq : t.digits = (max 1 (N / 2)).log2
  serves_iff : ∀ m, t.Serves m ↔ m ≤ N

/-- A table reverses as many digits as an index into the spectrum of a shorter line has. -/
theorem le_depth {N n b : Nat} (hN : N.isPowerOfTwo) (hle : n ≤ N) (hb : 2 ^ b ≤ max 1 (n / 2)) :
    b ≤ depth N := by
  have hhalf : n / 2 ≤ N / 2 := Nat.div_le_div_right hle
  have hpow : 2 ^ b ≤ 2 ^ depth N := by
    rw [two_pow_depth hN]
    omega
  exact (Nat.pow_le_pow_iff_right Nat.one_lt_two).1 hpow

variable {W : Type} [Precision W] [Sample T W]

/-- **The complete table** is built for its length. -/
theorem builtFor_complete {N : Nat} (h : N.isPowerOfTwo) :
    (complete N : CircleTable T).BuiltFor N where
  coverage_eq := rfl
  size_phasors := by simp [complete]
  size_reversals := by
    change (DigitReversal.table (depth N)).size = _
    rw [DigitReversal.size_table, two_pow_depth h, Nat.max_comm]
  digits_eq := by
    change depth N = _
    rw [Nat.max_comm]
    rfl
  serves_iff _ := Iff.rfl

/-- **Calls for powers of two** all return when there is room for the longest length, and they
leave its complete table. -/
theorem ofLengths_longest_iff {lengths : List Nat} {N : Nat}
    (hpow : ∀ n ∈ lengths, n.isPowerOfTwo) (hN : lengths.max? = some N) {t : CircleTable T} :
    ofLengths lengths = .ok t ↔ HalfCircle.HasRoom T N ∧ t = complete N := by
  obtain ⟨hmem, hle⟩ := List.max?_eq_some_iff.1 hN
  have hpos : 0 < N := Nat.pos_of_isPowerOfTwo (hpow N hmem)
  rw [ofLengths_eq_ok_iff, List.foldl_max, hN, Option.getD_some, Nat.max_eq_right hpos.le,
    grown_of_pos hpos]
  -- Where the longest table fits, the shorter ones do.
  exact and_congr_left' ⟨fun h => (h N hmem).2,
    fun h n hn => ⟨hpow n hn, h.mono (hle n hn)⟩⟩

/-- A single call leaves the complete table of its length. -/
theorem ofLengths_singleton {n : Nat} (hpow : n.isPowerOfTwo) (hroom : HalfCircle.HasRoom T n) :
    ofLengths [n] = .ok (complete n : CircleTable T) :=
  (ofLengths_longest_iff (by simpa using hpow) rfl).2 ⟨hroom, rfl⟩

theorem serves_complete {n m : Nat} :
    (complete n : CircleTable T).Serves m ↔ m ≤ n :=
  Iff.rfl

/-- **A table after some calls** is the complete one of their longest length. -/
theorem complete_of_ne_nil {lengths : List Nat} {table : CircleTable T}
    (htable : ofLengths lengths = .ok table) (hne : lengths ≠ []) :
    ∃ N, N.isPowerOfTwo ∧ HalfCircle.HasRoom T N ∧ table = complete N := by
  have hlengths := (ofLengths_eq_ok_iff.1 htable).1
  obtain ⟨N, hN⟩ := Option.ne_none_iff_exists'.1 (mt List.max?_eq_none_iff.1 hne)
  obtain ⟨hroom, rfl⟩ := (ofLengths_longest_iff (fun m hm => (hlengths m hm).1) hN).1 htable
  exact ⟨N, (hlengths N (List.max?_eq_some_iff.1 hN).1).1, hroom, rfl⟩

/-- **A table that serves a length** has been built for the longest length of all calls. -/
theorem complete_of_serves {lengths : List Nat} {table : CircleTable T} {n : Nat}
    (htable : ofLengths lengths = .ok table) (hn : 0 < n) (hserves : table.Serves n) :
    ∃ N, N.isPowerOfTwo ∧ HalfCircle.HasRoom T N ∧ n ≤ N ∧ table = complete N := by
  have hne : lengths ≠ [] := by
    -- Without any call the table is empty and serves no length.
    rintro rfl
    obtain rfl : empty = table := Except.ok.inj htable
    exact absurd hn (Nat.not_lt.2 hserves)
  obtain ⟨N, hN, hroom, rfl⟩ := complete_of_ne_nil htable hne
  exact ⟨N, hN, hroom, hserves, rfl⟩

/-- A single call builds the complete table from nothing. -/
theorem extend_empty {N : Nat} (h : N.isPowerOfTwo) (hroom : HalfCircle.HasRoom T N) :
    (empty : CircleTable T).extend N = .ok (true, complete N) := by
  have hpos : 0 < N := Nat.pos_of_isPowerOfTwo h
  have hgrown := extend_grown_eq_ok_iff (T := T) (m := 0) (n := N)
    (r := (decide (0 < N), grown (max 0 N)))
  rw [decide_eq_true hpos, Nat.zero_max, grown_of_pos hpos] at hgrown
  exact hgrown.2 ⟨h, fun _ => hroom, rfl⟩

/-- The longest of some lengths is below a bound when each of them is. -/
theorem foldl_max_lt_iff {lengths : List Nat} {m n : Nat} :
    lengths.foldl max m < n ↔ m < n ∧ ∀ k ∈ lengths, k < n := by
  induction lengths generalizing m with
  | nil => simp
  | cons k lengths ih => rw [List.foldl_cons, ih, List.forall_mem_cons, max_lt_iff, and_assoc]

/-- **One more call** builds the table anew only when it asks for more than all calls before. -/
theorem extend_ofLengths {earlier : List Nat} {n N : Nat}
    (hpow : ∀ m ∈ earlier ++ [n], m.isPowerOfTwo) (hN : (earlier ++ [n]).max? = some N)
    (hroom : HalfCircle.HasRoom T N) :
    ∃ before : CircleTable T, ofLengths earlier = .ok before ∧
      before.extend n = .ok (decide (∀ m ∈ earlier, m < n), complete N) ∧
      (¬ (∀ m ∈ earlier, m < n) → complete N = before) := by
  obtain ⟨-, hle⟩ := List.max?_eq_some_iff.1 hN
  have hn : n.isPowerOfTwo := hpow n (by simp)
  have hpos : 0 < n := Nat.pos_of_isPowerOfTwo hn
  have hbefore : ofLengths earlier = .ok (grown (earlier.foldl max 0) : CircleTable T) :=
    ofLengths_eq_ok_iff.2 ⟨fun m hm => ⟨hpow m (List.mem_append_left _ hm),
      hroom.mono (hle m (List.mem_append_left _ hm))⟩, rfl⟩
  -- The table before has grown to the longest length before, so only a longer one is built.
  have hgrew : earlier.foldl max 0 < n ↔ ∀ m ∈ earlier, m < n := by
    rw [foldl_max_lt_iff]
    exact and_iff_right hpos
  have hlongest : max (earlier.foldl max 0) n = N := by
    have hfold := List.foldl_max (l := earlier ++ [n]) (a := 0)
    rw [hN, List.foldl_append, Option.getD_some, Nat.zero_max] at hfold
    exact hfold
  have hgrown : (grown N : CircleTable T) = complete N :=
    grown_of_pos (hpos.trans_le (hle n (by simp)))
  refine ⟨_, hbefore, ?_, fun hnot => ?_⟩
  · rw [extend_grown_eq_ok_iff, hlongest, hgrown]
    exact ⟨hn, fun _ => hroom.mono (hle n (by simp)), by simp only [hgrew]⟩
  · rw [← hgrew, Nat.not_lt] at hnot
    rw [← hgrown, ← hlongest, Nat.max_eq_left hnot]

/-- **Tables follow the longest length**, however the calls are ordered. -/
theorem tables_follow_longest :
    (∀ {earlier : List Nat} {n N : Nat}, (∀ m ∈ earlier ++ [n], m.isPowerOfTwo) →
      (earlier ++ [n]).max? = some N →
      ((∃ t : CircleTable T, ofLengths (earlier ++ [n]) = .ok t) ↔ HalfCircle.HasRoom T N) ∧
      (HalfCircle.HasRoom T N → ∃ (before after : CircleTable T) (grew : Bool),
        ofLengths earlier = .ok before ∧ before.extend n = .ok (grew, after) ∧
        ofLengths (earlier ++ [n]) = .ok after ∧
        empty.extend N = .ok (true, after) ∧ after.BuiltFor N ∧
        (grew = true ↔ ∀ m ∈ earlier, m < n) ∧ (grew = false → after = before))) ∧
    (∀ {lengths lengths' : List Nat} {t : CircleTable T}, lengths.Perm lengths' →
      (ofLengths lengths = .ok t ↔ ofLengths lengths' = .ok t)) ∧
    (∀ {lengths : List Nat} {N : Nat} {t : CircleTable T}, (∀ n ∈ lengths, n.isPowerOfTwo) →
      lengths.max? = some N → (ofLengths lengths = .ok t ↔ ofLengths [N] = .ok t)) := by
  refine ⟨fun {earlier n N} hpow hN => ⟨?_, fun hroom => ?_⟩, ?_, ?_⟩
  · simp [ofLengths_longest_iff hpow hN]
  · have hNpow : N.isPowerOfTwo := hpow N (List.max?_eq_some_iff.1 hN).1
    obtain ⟨before, hbefore, hextend, hkept⟩ := extend_ofLengths (T := T) hpow hN hroom
    exact ⟨before, complete N, _, hbefore, hextend,
      (ofLengths_longest_iff hpow hN).2 ⟨hroom, rfl⟩, extend_empty hNpow hroom,
      builtFor_complete hNpow, decide_eq_true_iff,
      fun hgrew => hkept (of_decide_eq_false hgrew)⟩
  · intro lengths lengths' t hperm
    rw [ofLengths_eq_ok_iff, ofLengths_eq_ok_iff, hperm.foldl_op_eq]
    simp only [hperm.mem_iff]
  · intro lengths N t hpow hN
    have hNpow : N.isPowerOfTwo := hpow N (List.max?_eq_some_iff.1 hN).1
    exact (ofLengths_longest_iff hpow hN).trans
      (ofLengths_longest_iff (by simpa using hNpow) rfl).symm

/-- After calls for four and for two, a call for eight builds a table of sixteen phasors anew.
Calls in another order leave the same table. -/
theorem tables_follow_longest_small :
    ∃ before after : CircleTable Float, ofLengths [4, 2] = .ok before ∧
      before.extend 8 = .ok (true, after) ∧ after.phasors.size = 16 ∧
      after.reversals.size = 4 ∧ after.digits = 2 ∧ ofLengths [8, 2, 4] = .ok after ∧
      ofLengths [8] = .ok after := by
  have hpow : ∀ m ∈ [4, 2] ++ [8], m.isPowerOfTwo := by decide
  obtain ⟨hcalls, hperm, hsingle⟩ := tables_follow_longest (T := Float)
  obtain ⟨before, after, grew, hbefore, hextend, hafter, -, hbuilt, hgrew, -⟩ :=
    (hcalls hpow rfl).2 (by decide)
  obtain rfl : grew = true := hgrew.2 (by decide)
  exact ⟨before, after, hbefore, hextend, hbuilt.size_phasors, hbuilt.size_reversals,
    hbuilt.digits_eq.trans (by decide), (hperm (by decide)).1 hafter,
    (hsingle hpow rfl).1 hafter⟩

end CircleTable

namespace LineTransform

variable {T W : Type} [Precision W] [Sample T W] {lengths : List Nat} {table : CircleTable T}
  {n : Nat} {l : LineTransform T}

/-- **Indices into the spectrum of a length** are reversed by every table that serves it. -/
theorem Served.reverse_eq {N b i : Nat} (h : Served T N n) (hb : 2 ^ b ≤ max 1 (n / 2))
    (hi : i < 2 ^ b) :
    (CircleTable.complete N : CircleTable T).reverse i b = .ok (DigitReversal.reversal b i) :=
  CircleTable.reverse_complete (CircleTable.le_depth h.table_pow h.length_le hb) h.room hi

/-- **A length that a table serves**, and the table as the complete one of its coverage. -/
theorem served_of_ofLengths (htable : CircleTable.ofLengths lengths = .ok table)
    (hpow : n.isPowerOfTwo) (hserves : table.Serves n) :
    ∃ N, Served T N n ∧ table = CircleTable.complete N := by
  obtain ⟨N, hN, hroom, hle, rfl⟩ :=
    CircleTable.complete_of_serves htable (Nat.pos_of_isPowerOfTwo hpow) hserves
  exact ⟨N, ⟨hN, hpow, hle, hroom⟩, rfl⟩

/-- **A transform that was planned** on a shared table. -/
theorem served_of_onTable (htable : CircleTable.ofLengths lengths = .ok table)
    (hl : onTable n table = .ok l) : ∃ N, Served T N n ∧ l = shared N n := by
  -- Planning requires what makes the length served.
  obtain ⟨_, hrequired, -⟩ := Checked.bind_eq_ok_iff.1 hl
  obtain ⟨hpow, hserves⟩ := require_eq_ok_iff.1 hrequired
  obtain ⟨N, hserved, rfl⟩ := served_of_ofLengths htable hpow hserves
  exact ⟨N, hserved, Except.ok.inj (hl.symm.trans hserved.onTable_eq)⟩

end LineTransform

end CosineTransform
