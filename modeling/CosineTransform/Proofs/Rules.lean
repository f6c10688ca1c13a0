import Mathlib
import CosineTransform.Buffer

/-!
# Buffers that follow a rule

A buffer of known contents is written `(Array.range n).map f`: entry `i` is `f i`.
The lemmas here keep this form through cutting, joining and overlaying, so that a
computation on buffers turns into a computation on rules.

A loop that writes entry `place p` in step `p` ends with a buffer that follows a
rule as well, as soon as every index is the place of some step and of no other
(`foldlM_write_eq`).
-/

namespace CosineTransform

namespace Buffer

variable {α : Type}

/-- A buffer follows a rule when each of its entries does. -/
theorem eq_map_range {xs : Array α} {n : Nat} {f : Nat → α} (hn : xs.size = n)
    (h : ∀ i < n, xs[i]? = some (f i)) : xs = (Array.range n).map f := by
  apply Array.ext_getElem?
  intro i
  by_cases hi : i < n
  · rw [h i hi, Array.getElem?_map, Array.getElem?_range, if_pos hi, Option.map_some]
  · rw [Array.getElem?_eq_none (by omega), Array.getElem?_eq_none (by simp; omega)]

/-- Every buffer follows a rule. -/
theorem eq_map_range_getD (xs : Array α) (x : α) :
    xs = (Array.range xs.size).map fun i => xs.getD i x := by
  refine eq_map_range rfl fun i hi => ?_
  rw [Array.getD_eq_getD_getElem?, Array.getElem?_eq_getElem hi, Option.getD_some]

/-- A buffer of known size follows a rule on that many indices. -/
theorem exists_rule {xs : Array α} {n : Nat} (hn : xs.size = n) (x : α) :
    ∃ f : Nat → α, xs = (Array.range n).map f := by
  subst hn
  exact ⟨_, eq_map_range_getD xs x⟩

/-- A buffer that has an entry follows a rule. -/
theorem exists_rule_of_pos {xs : Array α} {n : Nat} (hn : xs.size = n) (hpos : 0 < n) :
    ∃ f : Nat → α, xs = (Array.range n).map f := by
  subst hn
  exact exists_rule rfl xs[0]

theorem getElem?_map_range {n i : Nat} (f : Nat → α) (h : i < n) :
    ((Array.range n).map f)[i]? = some (f i) := by
  rw [Array.getElem?_map, Array.getElem?_range, if_pos h, Option.map_some]

theorem map_range_congr {n : Nat} {f g : Nat → α} (h : ∀ i < n, f i = g i) :
    (Array.range n).map f = (Array.range n).map g :=
  eq_map_range (by simp) fun i hi => by rw [getElem?_map_range f hi, h i hi]

@[simp] theorem read_map_range {n i : Nat} (f : Nat → α) (h : i < n) :
    read ((Array.range n).map f) i = .ok (f i) := by
  rw [read_of_lt (by simpa using h)]
  simp

theorem extract_map_range {n a b : Nat} (f : Nat → α) (h : b ≤ n) :
    ((Array.range n).map f).extract a b = (Array.range (b - a)).map fun i => f (a + i) := by
  refine eq_map_range (by simp; omega) fun i hi => ?_
  rw [Array.getElem?_extract, if_pos (by simp; omega), getElem?_map_range f (by omega)]

theorem map_range_append (m n : Nat) (f g : Nat → α) :
    (Array.range m).map f ++ (Array.range n).map g =
      (Array.range (m + n)).map fun i => if i < m then f i else g (i - m) := by
  refine eq_map_range (by simp) fun i hi => ?_
  by_cases him : i < m
  · rw [Array.getElem?_append_left (by simpa using him), getElem?_map_range f him, if_pos him]
  · rw [Array.getElem?_append_right (by simp; omega), Array.size_map, Array.size_range,
      getElem?_map_range g (by omega), if_neg him]

/-- Combining two buffers entry by entry combines their rules. -/
theorem tabulate_read_read {β γ : Type} {n : Nat} (op : α → β → γ) (f : Nat → α) (g : Nat → β) :
    tabulate n (fun j => do
        return op (← read ((Array.range n).map f) j) (← read ((Array.range n).map g) j)) =
      .ok ((Array.range n).map fun j => op (f j) (g j)) := by
  refine tabulate_of_ok fun j hj => ?_
  rw [read_map_range f hj, Checked.ok_bind, read_map_range g hj]
  rfl

theorem toList_map_range (n : Nat) (f : Nat → α) :
    ((Array.range n).map f).toList = (List.range n).map f := by
  simp

/-! ### Overlaying -/

/-- Laying as many entries over the same stretch forgets those laid before. -/
theorem overlay_overlay (xs : Array α) (start : Nat) {ys zs : List α}
    (h : ys.length = zs.length) : overlay (overlay xs start ys) start zs = overlay xs start zs := by
  apply Array.ext_getElem?
  intro i
  rw [getElem?_overlay, getElem?_overlay xs, getElem?_overlay xs, size_overlay]
  -- The two covered stretches are the same.
  by_cases hi : start ≤ i ∧ i < start + zs.length ∧ i < xs.size
  · rw [if_pos hi, if_pos hi]
  · rw [if_neg hi, if_neg hi, if_neg (by rwa [h])]

/-- The covered start of an overlaid buffer holds what was laid over it. -/
theorem extract_overlay {xs ys : Array α} {n : Nat} (hys : ys.size = n) (hn : n ≤ xs.size) :
    (overlay xs 0 ys.toList).extract 0 n = ys := by
  apply Array.ext_getElem?
  intro i
  rw [Array.getElem?_extract, size_overlay, getElem?_overlay, Array.length_toList,
    Array.getElem?_toList]
  by_cases hi : i < n
  · rw [if_pos (by omega), if_pos (by omega), Nat.zero_add, Nat.sub_zero]
  · rw [if_neg (by omega), Array.getElem?_eq_none (by omega)]

theorem extract_overlay_map_range {xs : Array α} {n : Nat} (f : Nat → α) (h : n ≤ xs.size) :
    (overlay xs 0 ((List.range n).map f)).extract 0 n = (Array.range n).map f := by
  rw [← toList_map_range]
  exact extract_overlay (by simp) h

theorem size_swap {xs ys : Array α} {i j : Nat} (h : swap xs i j = .ok ys) :
    ys.size = xs.size := by
  unfold swap at h
  by_cases hi : i < xs.size
  · by_cases hj : j < xs.size
    · rw [dif_pos hi, dif_pos hj] at h
      cases h
      exact Array.size_swap
    · rw [dif_pos hi, dif_neg hj] at h
      cases h
  · rw [dif_neg hi] at h
    cases h

/-- A loop keeps the size of a buffer when each of its steps does. -/
theorem size_foldlM {ι : Type} {step : Array α → ι → Checked (Array α)} {indices : List ι}
    {xs ys : Array α} (hstep : ∀ zs i zs', step zs i = .ok zs' → zs'.size = zs.size)
    (h : indices.foldlM step xs = .ok ys) : ys.size = xs.size := by
  induction indices generalizing xs with
  | nil =>
    cases h
    rfl
  | cons i indices ih =>
    rw [List.foldlM_cons] at h
    obtain ⟨zs, hzs, h⟩ := Checked.bind_eq_ok_iff.1 h
    exact (ih h).trans (hstep xs i zs hzs)

/-! ### Buffers with the same rest -/

theorem size_eq_of_extract_eq {xs ys : Array α} {n : Nat} (hxs : n ≤ xs.size) (hys : n ≤ ys.size)
    (h : xs.extract n xs.size = ys.extract n ys.size) : xs.size = ys.size := by
  have hlength := congrArg Array.size h
  simp only [Array.size_extract] at hlength
  omega

/-- Buffers with the same rest agree on every index of it. -/
theorem getElem?_eq_of_extract_eq {xs ys : Array α} {n m : Nat} (hsize : xs.size = ys.size)
    (h : xs.extract n xs.size = ys.extract n ys.size) (hm : n ≤ m) : xs[m]? = ys[m]? := by
  obtain ⟨t, rfl⟩ := Nat.exists_eq_add_of_le hm
  have ht := congrArg (·[t]?) h
  simp only [Array.getElem?_extract] at ht
  by_cases hlt : n + t < xs.size
  · rwa [if_pos (by omega), if_pos (by omega)] at ht
  · rw [Array.getElem?_eq_none (by omega), Array.getElem?_eq_none (by omega)]

/-! ### Loops that write every entry once -/

/-- **A loop that writes every entry once.** Step `p` writes entry `place p`, and
`step i` is the one step that writes entry `i`. -/
theorem foldlM_write_eq {n : Nat} {place step : Nat → Nat} {g : Nat → α}
    {body : Array α → Nat → Checked (Array α)} {xs : Array α} (hn : xs.size = n)
    (hbody : ∀ p < n, ∀ ys, body ys p = write ys (place p) (g p)) (hlt : ∀ p < n, place p < n)
    (hstep : ∀ i < n, step i < n) (hinv : ∀ p < n, ∀ i < n, place p = i ↔ p = step i) :
    (List.range n).foldlM body xs = .ok ((Array.range n).map fun i => g (step i)) := by
  -- After `m` steps exactly the entries of these steps are written.
  have key : ∀ m ≤ n, ∃ ys : Array α, ys.size = n ∧
      (∀ i < n, ys[i]? = if step i < m then some (g (step i)) else xs[i]?) ∧
      (List.range m).foldlM body xs = .ok ys := by
    intro m
    induction m with
    | zero => exact fun _ => ⟨xs, hn, fun i _ => by simp, rfl⟩
    | succ m ih =>
      intro hm
      obtain ⟨ys, hsize, hys, hrun⟩ := ih (by omega)
      have hp : place m < ys.size := by rw [hsize]; exact hlt m hm
      refine ⟨ys.set (place m) (g m) hp, by rw [Array.size_set, hsize], fun i hi => ?_, ?_⟩
      · rw [Array.getElem?_set hp]
        -- Only step `step i` writes index `i`, so nothing is written twice.
        by_cases hpi : place m = i
        · have hmi := (hinv m hm i hi).1 hpi
          rw [if_pos hpi, if_pos (by omega), hmi]
        · have hmi : m ≠ step i := fun h => hpi ((hinv m hm i hi).2 h)
          rw [if_neg hpi, hys i hi]
          by_cases hlt' : step i < m
          · rw [if_pos hlt', if_pos (by omega)]
          · rw [if_neg hlt', if_neg (by omega)]
      · rw [List.range_succ, List.foldlM_append, hrun, Checked.ok_bind, List.foldlM_cons,
          hbody m hm, write_of_lt hp]
        rfl
  obtain ⟨ys, hsize, hys, hrun⟩ := key n le_rfl
  rw [hrun]
  congr 1
  refine eq_map_range hsize fun i hi => ?_
  rw [hys i hi, if_pos (hstep i hi)]

/-- **A loop that exchanges along an involution** applies it to all indices. Each
pair is exchanged once, in the step of its smaller index. -/
theorem foldlM_swap_eq {n : Nat} {partner : Nat → Nat}
    {body : Array α → Nat → Checked (Array α)} (f : Nat → α) (hlt : ∀ i < n, partner i < n)
    (hinv : ∀ i < n, partner (partner i) = i)
    (hbody : ∀ i < n, ∀ ys,
      body ys i = if i < partner i then swap ys i (partner i) else .ok ys) :
    (List.range n).foldlM body ((Array.range n).map f) =
      .ok ((Array.range n).map fun i => f (partner i)) := by
  -- After `m` steps an index is settled when it or its partner lies below `m`.
  have key : ∀ m ≤ n, (List.range m).foldlM body ((Array.range n).map f) =
      .ok ((Array.range n).map fun i => if i < m ∨ partner i < m then f (partner i) else f i) := by
    intro m
    induction m with
    | zero => intro _; simp
    | succ m ih =>
      intro hm
      have hp := hlt m hm
      have hpp := hinv m hm
      rw [List.range_succ, List.foldlM_append, ih (by omega), Checked.ok_bind]
      simp only [List.foldlM_cons, List.foldlM_nil, bind_pure]
      rw [hbody m hm]
      by_cases hlt' : m < partner m
      · -- The partner is not settled before, so this step settles both.
        rw [if_pos hlt', swap_of_lt (by simpa using hm) (by simpa using hp)]
        congr 1
        refine eq_map_range (by simp) fun i hi => ?_
        rw [Array.getElem?_swap]
        simp only [Array.getElem_map, Array.getElem_range, hpp]
        by_cases hpi : partner m = i
        · subst hpi
          rw [if_pos rfl, hpp, if_neg (by omega), if_pos (Or.inr (by omega))]
        · rw [if_neg hpi]
          by_cases hmi : m = i
          · subst hmi
            rw [if_pos rfl, if_neg (by omega), if_pos (Or.inl (by omega))]
          · have hne : partner i ≠ m := fun h => hpi (by rw [← h, hinv i hi])
            rw [if_neg hmi, getElem?_map_range _ hi]
            exact congrArg some (if_congr (by omega) rfl rfl)
      · -- The pair was exchanged in the step of the partner, or the index is its own partner.
        rw [if_neg hlt']
        refine congrArg Except.ok (map_range_congr fun i hi => ?_)
        by_cases hmi : i = m
        · subst hmi
          rw [if_pos (Or.inl (Nat.lt_succ_self i))]
          by_cases hpi : partner i < i
          · rw [if_pos (Or.inr hpi)]
          · rw [if_neg (by omega), show partner i = i by omega]
        · by_cases hpi : partner i = m
          · have hii : partner m = i := by rw [← hpi, hinv i hi]
            rw [if_pos (Or.inl (by omega)), if_pos (Or.inl (by omega))]
          · exact if_congr (by omega) rfl rfl
  rw [key n le_rfl]
  exact congrArg Except.ok (map_range_congr fun i hi => if_pos (Or.inl hi))

end Buffer

end CosineTransform
