import Mathlib
import CosineTransform.Work.Step

/-!
# The steps of a pass without addresses

A `Tableau` is what the steps of a pass act on when addresses, bounds and faults are
left out: the elements of the volume, and for each worker the slots in which it
gathers a bundle. `Tableau.step` is the effect of a step of worker `w`, where `f`
transforms a line of length `n`.

`Pass.image f p g` is the volume `g` with every line of the pass `p` transformed by
`f`. The main statement is `volume_program`: a worker who takes the steps of its
share replaces exactly the lines whose outer index the share visits by their images,
and leaves all other elements alone. It is put together from the inside.

* A bundle is gathered, transformed and scattered (`volume_bundleSteps`). What makes
  this right is that a slot is filled from one element only, and an element is
  overwritten from one slot only.
* The bundles of an outer index lie in disjoint columns (`volume_bundles`).
* The lines of different outer indices have no element in common
  (`volume_outerSteps`, `volume_program`).
-/

namespace CosineTransform

/-! ### The image of a pass -/

namespace Pass

variable {T : Type}

/-- **The image of a volume under a pass**: every line of its axis is transformed. -/
def image (f : (Nat → T) → Nat → T) (p : Pass) (g : Nat → Nat → Nat → T) (i j k : Nat) : T :=
  match p with
  | inner => f (g i j) k
  | middle => f (fun t => g i t k) j
  | outer => f (fun t => g t j k) i

/-- The outer index of the lines that run through row `(i, j)`. -/
def outerIndex (p : Pass) (i j : Nat) : Nat :=
  match p with
  | inner => i
  | middle => i
  | outer => j

/-- A transform of lines that looks at the first `n` places only. -/
def LooksAt (f : (Nat → T) → Nat → T) (n : Nat) : Prop :=
  ∀ x y : Nat → T, (∀ i < n, x i = y i) → ∀ i < n, f x i = f y i

/-- The image of an element depends on its line only. -/
theorem image_congr {f : (Nat → T) → Nat → T} {p : Pass} {shape : Shape}
    (hf : LooksAt f (p.lineLength shape)) {g g' : Nat → Nat → Nat → T} {i j k : Nat}
    (hi : i < shape.slices) (hj : j < shape.rows) (hk : k < shape.columns)
    (h : ∀ i' < shape.slices, ∀ j' < shape.rows, ∀ k' < shape.columns,
      p.outerIndex i' j' = p.outerIndex i j → g i' j' k' = g' i' j' k') :
    p.image f g i j k = p.image f g' i j k := by
  cases p with
  | inner => exact hf _ _ (fun t ht => h i hi j hj t ht rfl) k hk
  | middle => exact hf _ _ (fun t ht => h i hi t ht k hk rfl) j hj
  | outer => exact hf _ _ (fun t ht => h t ht j hj k hk rfl) i hi

end Pass

/-- The elements of a volume and the slots of each worker. -/
structure Tableau (T : Type) where
  volume : Nat → Nat → Nat → T
  slots : Nat → Nat → T

namespace Tableau

variable {T : Type}

/-- **The effect of a step** of worker `w`. -/
def step (f : (Nat → T) → Nat → T) (n w : Nat) (s : Tableau T) : Step → Tableau T
  | .row i j =>
      { s with volume := fun i' j' =>
          if i' = i ∧ j' = j then f (s.volume i j) else s.volume i' j' }
  | .load i j k slot =>
      { s with slots := fun w' m =>
          if w' = w ∧ m = slot then s.volume i j k else s.slots w' m }
  | .line c =>
      let gathered := fun t => s.slots w (c * n + t)
      { s with slots := fun w' m =>
          if w' = w ∧ c * n ≤ m ∧ m < c * n + n then f gathered (m - c * n)
          else s.slots w' m }
  | .store i j k slot =>
      { s with volume := fun i' j' k' =>
          if i' = i ∧ j' = j ∧ k' = k then s.slots w slot else s.volume i' j' k' }

/-- The effect of a list of steps, each of them tagged with its worker. -/
def run (f : (Nat → T) → Nat → T) (n : Nat) (s : Tableau T) (order : List (Nat × Step)) :
    Tableau T :=
  order.foldl (fun s x => s.step f n x.1 x.2) s

/-- The effect of the program of one worker. -/
def solo (f : (Nat → T) → Nat → T) (n w : Nat) (s : Tableau T) (program : List Step) :
    Tableau T :=
  program.foldl (fun s x => s.step f n w x) s

variable {f : (Nat → T) → Nat → T} {n w : Nat} {s : Tableau T}

/-- A program whose steps are all tagged with one worker. -/
theorem run_map (program : List Step) :
    s.run f n (program.map fun x => (w, x)) = s.solo f n w program :=
  List.foldl_map

theorem solo_append (program program' : List Step) :
    s.solo f n w (program ++ program') = (s.solo f n w program).solo f n w program' :=
  List.foldl_append

/-! ### Gathering, transforming, scattering -/

/-- A list of cells in which the slot of a cell determines its element. -/
def SlotsTellCells (cells : List (Nat × Nat × Nat × Nat)) : Prop :=
  ∀ a ∈ cells, ∀ b ∈ cells, a.2.2.2 = b.2.2.2 → a = b

/-- A list of cells in which the element of a cell determines its slot. -/
def ElementsTellCells (cells : List (Nat × Nat × Nat × Nat)) : Prop :=
  ∀ a ∈ cells, ∀ b ∈ cells, a.1 = b.1 → a.2.1 = b.2.1 → a.2.2.1 = b.2.2.1 → a = b

/-- The loads of a list of cells. -/
def loads (cells : List (Nat × Nat × Nat × Nat)) : List Step :=
  cells.map fun (i, j, k, slot) => .load i j k slot

/-- The stores of a list of cells. -/
def stores (cells : List (Nat × Nat × Nat × Nat)) : List Step :=
  cells.map fun (i, j, k, slot) => .store i j k slot

theorem mem_of_mem_concat {α : Type} {cells : List α} {cell a : α} (h : a ∈ cells ++ [cell])
    (hne : a ≠ cell) : a ∈ cells := by
  rcases List.mem_append.1 h with h | h
  · exact h
  · exact absurd (List.mem_singleton.1 h) hne

theorem volume_loads (cells : List (Nat × Nat × Nat × Nat)) :
    (s.solo f n w (loads cells)).volume = s.volume := by
  induction cells using List.reverseRecOn with
  | nil => rfl
  | append_singleton cells cell ih =>
    rw [loads, List.map_append, solo_append]
    exact ih

/-- **Gathering** fills the slot of each cell with its element. -/
theorem slots_loads {cells : List (Nat × Nat × Nat × Nat)} (h : SlotsTellCells cells)
    {i j k slot : Nat} (hcell : (i, j, k, slot) ∈ cells) :
    (s.solo f n w (loads cells)).slots w slot = s.volume i j k := by
  -- The last load decides about its own slot, so the cells are taken from the end.
  induction cells using List.reverseRecOn with
  | nil => exact absurd hcell (List.not_mem_nil)
  | append_singleton cells cell ih =>
    have hvolume := volume_loads (f := f) (n := n) (w := w) (s := s) cells
    obtain ⟨i', j', k', slot'⟩ := cell
    rw [loads, List.map_append, solo_append, ← loads]
    change (if w = w ∧ slot = slot' then (s.solo f n w (loads cells)).volume i' j' k'
      else (s.solo f n w (loads cells)).slots w slot) = _
    by_cases hslot : slot = slot'
    · -- The last load fills the slot, and no other cell has this slot.
      have heq := h _ hcell (i', j', k', slot') (by simp) hslot
      simp only [Prod.mk.injEq] at heq
      obtain ⟨rfl, rfl, rfl, -⟩ := heq
      rw [if_pos ⟨rfl, hslot⟩, hvolume]
    · -- The last load fills another slot.
      have hmem := mem_of_mem_concat hcell fun heq => hslot (congrArg (·.2.2.2) heq)
      rw [if_neg fun hand => hslot hand.2]
      exact ih (fun a ha b hb => h a (by simp [ha]) b (by simp [hb])) hmem

/-- Slot `c * n + t` lies in line `c` of a bundle and in no other line. -/
theorem mem_line_iff {c c' t : Nat} (ht : t < n) :
    (c' * n ≤ c * n + t ∧ c * n + t < c' * n + n) ↔ c' = c := by
  constructor
  · rintro ⟨hle, hlt⟩
    by_contra hne
    -- Lines of different numbers are at least one length apart.
    rcases Nat.lt_or_gt_of_ne hne with hcc | hcc
    · have := Nat.mul_le_mul_right n (Nat.succ_le_of_lt hcc)
      rw [Nat.succ_mul] at this
      omega
    · have := Nat.mul_le_mul_right n (Nat.succ_le_of_lt hcc)
      rw [Nat.succ_mul] at this
      omega
  · rintro rfl
    omega

theorem volume_lines (width : Nat) :
    (s.solo f n w ((List.range width).map .line)).volume = s.volume := by
  induction width with
  | zero => rfl
  | succ width ih =>
    rw [List.range_succ, List.map_append, solo_append]
    exact ih

/-- **Transforming** replaces each gathered line by its image. -/
theorem slots_lines (hf : Pass.LooksAt f n) {width c t : Nat} (ht : t < n) :
    (s.solo f n w ((List.range width).map .line)).slots w (c * n + t) =
      if c < width then f (fun t => s.slots w (c * n + t)) t else s.slots w (c * n + t) := by
  induction width generalizing t with
  | zero => rfl
  | succ width ih =>
    rw [List.range_succ, List.map_append, solo_append]
    change (if w = w ∧ width * n ≤ c * n + t ∧ c * n + t < width * n + n then _ else _) = _
    by_cases hc : width = c
    · -- Line `c` is transformed last, and the lines before it have left it as it was.
      subst hc
      have hgathered : ∀ t < n, (s.solo f n w ((List.range width).map .line)).slots w
          (width * n + t) = s.slots w (width * n + t) := fun t ht => by
        rw [ih ht, if_neg (by omega)]
      rw [if_pos ⟨rfl, by omega, by omega⟩, if_pos (by omega), Nat.add_sub_cancel_left]
      exact hf _ _ hgathered t ht
    · -- The last line is not line `c`.
      rw [if_neg fun hand => hc ((mem_line_iff ht).1 hand.2), ih ht]
      exact if_congr (by omega) rfl rfl

theorem slots_stores (cells : List (Nat × Nat × Nat × Nat)) :
    (s.solo f n w (stores cells)).slots = s.slots := by
  induction cells using List.reverseRecOn with
  | nil => rfl
  | append_singleton cells cell ih =>
    rw [stores, List.map_append, solo_append]
    exact ih

/-- **Scattering** overwrites the element of each cell by its slot. -/
theorem volume_stores_of_mem {cells : List (Nat × Nat × Nat × Nat)} (h : ElementsTellCells cells)
    {i j k slot : Nat} (hcell : (i, j, k, slot) ∈ cells) :
    (s.solo f n w (stores cells)).volume i j k = s.slots w slot := by
  induction cells using List.reverseRecOn with
  | nil => exact absurd hcell (List.not_mem_nil)
  | append_singleton cells cell ih =>
    have hslots := slots_stores (f := f) (n := n) (w := w) (s := s) cells
    obtain ⟨i', j', k', slot'⟩ := cell
    rw [stores, List.map_append, solo_append, ← stores]
    change (if i = i' ∧ j = j' ∧ k = k' then (s.solo f n w (stores cells)).slots w slot'
      else (s.solo f n w (stores cells)).volume i j k) = _
    by_cases hijk : i = i' ∧ j = j' ∧ k = k'
    · -- The last store goes to the element, and no other cell has this element.
      have heq := h _ hcell (i', j', k', slot') (by simp) hijk.1 hijk.2.1 hijk.2.2
      simp only [Prod.mk.injEq] at heq
      rw [if_pos hijk, hslots, heq.2.2.2]
    · -- The last store goes to another element.
      have hmem := mem_of_mem_concat hcell fun heq => hijk
        ⟨congrArg (·.1) heq, congrArg (·.2.1) heq, congrArg (·.2.2.1) heq⟩
      rw [if_neg hijk]
      exact ih (fun a ha b hb => h a (by simp [ha]) b (by simp [hb])) hmem

theorem volume_stores_of_not_mem {cells : List (Nat × Nat × Nat × Nat)} {i j k : Nat}
    (h : ∀ slot, (i, j, k, slot) ∉ cells) :
    (s.solo f n w (stores cells)).volume i j k = s.volume i j k := by
  induction cells using List.reverseRecOn with
  | nil => rfl
  | append_singleton cells cell ih =>
    obtain ⟨i', j', k', slot'⟩ := cell
    rw [stores, List.map_append, solo_append, ← stores]
    change (if i = i' ∧ j = j' ∧ k = k' then (s.solo f n w (stores cells)).slots w slot'
      else (s.solo f n w (stores cells)).volume i j k) = _
    rw [if_neg, ih fun slot hslot => h slot (by simp [hslot])]
    rintro ⟨rfl, rfl, rfl⟩
    exact h slot' (by simp)

/-! ### Bundles -/

section Bundles

variable {job : PassJob T} {row : Nat → Nat × Nat} {k : Nat}

theorem mem_cells {i j k' slot : Nat} :
    (i, j, k', slot) ∈ job.cells row k ↔ ∃ t < job.transform.length, ∃ c < job.bundle.width,
      row t = (i, j) ∧ k' = k + c ∧ slot = c * job.transform.length + t := by
  unfold PassJob.cells
  simp only [List.mem_flatMap, List.mem_map, List.mem_range, Prod.mk.injEq]
  constructor
  · rintro ⟨t, ht, c, hc, rfl, rfl, rfl, rfl⟩
    exact ⟨t, ht, c, hc, rfl, rfl, rfl⟩
  · rintro ⟨t, ht, c, hc, hrow, rfl, rfl⟩
    exact ⟨t, ht, c, hc, by rw [hrow], by rw [hrow], rfl, rfl⟩

theorem slotsTellCells_cells : SlotsTellCells (job.cells row k) := by
  rintro ⟨i, j, k', slot⟩ ha ⟨i', j', k'', slot'⟩ hb hslot
  obtain ⟨t, ht, c, -, hrow, rfl, rfl⟩ := mem_cells.1 ha
  obtain ⟨t', ht', c', -, hrow', rfl, rfl⟩ := mem_cells.1 hb
  dsimp only at hslot
  -- A slot tells the line of the bundle, and then the place in the line.
  have hc : c = c' := (mem_line_iff ht').1 (by omega)
  subst hc
  have htt : t = t' := by omega
  subst htt
  rw [hrow] at hrow'
  cases hrow'
  rfl

theorem elementsTellCells_cells
    (hrow : ∀ t < job.transform.length, ∀ t' < job.transform.length, row t = row t' → t = t') :
    ElementsTellCells (job.cells row k) := by
  rintro ⟨i, j, k', slot⟩ ha ⟨i', j', k'', slot'⟩ hb hi hj hk
  obtain ⟨t, ht, c, -, hrowt, rfl, rfl⟩ := mem_cells.1 ha
  obtain ⟨t', ht', c', -, hrowt', rfl, rfl⟩ := mem_cells.1 hb
  dsimp only at hi hj hk
  subst hi hj
  -- An element tells the place in the line by its row, and the line by its column.
  obtain rfl := hrow t ht t' ht' (hrowt.trans hrowt'.symm)
  obtain rfl : c = c' := by omega
  rfl

/-- **A bundle** replaces each of its lines by its image. -/
theorem volume_bundleSteps (hf : Pass.LooksAt f job.transform.length)
    (hrow : ∀ t < job.transform.length, ∀ t' < job.transform.length, row t = row t' → t = t')
    {t c : Nat} (ht : t < job.transform.length) (hc : c < job.bundle.width) :
    (s.solo f job.transform.length w (job.bundleSteps row k)).volume (row t).1 (row t).2 (k + c) =
      f (fun t => s.volume (row t).1 (row t).2 (k + c)) t := by
  have hcell : ∀ t < job.transform.length, ((row t).1, (row t).2, k + c,
      c * job.transform.length + t) ∈ job.cells row k := fun t ht =>
    mem_cells.2 ⟨t, ht, c, hc, rfl, rfl, rfl⟩
  -- What is stored is the image of what was gathered.
  unfold PassJob.bundleSteps
  rw [solo_append, solo_append]
  refine (volume_stores_of_mem (elementsTellCells_cells hrow) (hcell t ht)).trans ?_
  rw [slots_lines hf ht, if_pos hc]
  exact hf _ _ (fun t ht => slots_loads slotsTellCells_cells (hcell t ht)) t ht

/-- A bundle leaves all elements outside its rows and its columns alone. -/
theorem volume_bundleSteps_of_not_mem {i j k' : Nat}
    (h : (∀ t < job.transform.length, row t ≠ (i, j)) ∨ k' < k ∨ k + job.bundle.width ≤ k') :
    (s.solo f job.transform.length w (job.bundleSteps row k)).volume i j k' = s.volume i j k' := by
  unfold PassJob.bundleSteps
  rw [solo_append, solo_append]
  refine (volume_stores_of_not_mem fun slot hslot => ?_).trans ?_
  · -- No store goes to the element.
    obtain ⟨t, ht, c, hc, hrow, rfl, -⟩ := mem_cells.1 hslot
    rcases h with h | h
    · exact h t ht hrow
    · omega
  · -- Loads and transforms leave the volume alone.
    rw [volume_lines]
    exact congrFun (congrFun (congrFun (volume_loads (job.cells row k)) i) j) k'

/-- A column belongs to the bundle that starts at the multiple of the width below it. -/
theorem mem_columns_iff {width k k' : Nat} (hw : 0 < width) (hk : width ∣ k) :
    (k ≤ k' ∧ k' < k + width) ↔ k' / width * width = k := by
  obtain ⟨m, rfl⟩ := hk
  have hdiv := Nat.div_add_mod k' width
  have hmod := Nat.mod_lt k' hw
  constructor
  · rintro ⟨hle, hlt⟩
    have hm : k' / width = m :=
      Nat.div_eq_of_lt_le (by rw [Nat.mul_comm]; exact hle)
        (by rw [Nat.succ_mul, Nat.mul_comm]; omega)
    rw [hm, Nat.mul_comm]
  · intro heq
    rw [Nat.mul_comm] at heq
    omega

/-- **Bundles in disjoint columns** each replace their lines. -/
theorem volume_bundles (row : Nat → Nat × Nat) (hf : Pass.LooksAt f job.transform.length)
    (hrow : ∀ t < job.transform.length, ∀ t' < job.transform.length, row t = row t' → t = t')
    {starts : List Nat} (hstarts : ∀ k ∈ starts, job.bundle.width ∣ k) (hnodup : starts.Nodup)
    {t : Nat} (ht : t < job.transform.length) (k' : Nat) :
    (s.solo f job.transform.length w (starts.flatMap (job.bundleSteps row))).volume
        (row t).1 (row t).2 k' =
      if k' / job.bundle.width * job.bundle.width ∈ starts then
        f (fun t => s.volume (row t).1 (row t).2 k') t
      else s.volume (row t).1 (row t).2 k' := by
  have hw := job.bundle.width_pos
  -- Induction on the bundles: each of them finds its own columns as they were.
  induction starts generalizing s t with
  | nil => rfl
  | cons k starts ih =>
    obtain ⟨hk, hstarts⟩ := List.forall_mem_cons.1 hstarts
    obtain ⟨hnot, hnodup⟩ := List.nodup_cons.1 hnodup
    rw [List.flatMap_cons, solo_append, ih hstarts hnodup ht]
    by_cases hkk : k' / job.bundle.width * job.bundle.width = k
    · -- The column belongs to the first bundle, so to none of the others.
      obtain ⟨hle, hlt⟩ := (mem_columns_iff hw hk).2 hkk
      obtain ⟨c, rfl⟩ := Nat.exists_eq_add_of_le hle
      rw [if_neg (by rwa [hkk]), if_pos (by rw [hkk]; exact List.mem_cons_self),
        volume_bundleSteps hf hrow ht (by omega)]
    · -- The first bundle leaves the column alone.
      have hmiss : ∀ t, (s.solo f job.transform.length w (job.bundleSteps row k)).volume
          (row t).1 (row t).2 k' = s.volume (row t).1 (row t).2 k' := fun t =>
        volume_bundleSteps_of_not_mem (Or.inr (by
          by_contra hin
          exact hkk ((mem_columns_iff hw hk).1 (by omega))))
      simp only [hmiss, List.mem_cons, hkk, false_or]

/-- Bundles leave all elements outside their rows alone. -/
theorem volume_bundles_of_not_mem {starts : List Nat} {i j k' : Nat}
    (h : ∀ t < job.transform.length, row t ≠ (i, j)) :
    (s.solo f job.transform.length w (starts.flatMap (job.bundleSteps row))).volume i j k' =
      s.volume i j k' := by
  induction starts generalizing s with
  | nil => rfl
  | cons k starts ih =>
    rw [List.flatMap_cons, solo_append, ih, volume_bundleSteps_of_not_mem (Or.inl h)]

end Bundles

/-! ### Programs -/

section Programs

variable {job : PassJob T} {shape : Shape}

theorem mem_bundleStarts (k' : Nat) (hk : k' < shape.columns) :
    k' / job.bundle.width * job.bundle.width ∈ job.bundleStarts shape := by
  have hle := Nat.div_mul_le_self k' job.bundle.width
  exact Share.mem_visits.2 ⟨by omega, k' / job.bundle.width, by simp [Nat.mul_comm]⟩

theorem dvd_of_mem_bundleStarts {k : Nat} (h : k ∈ job.bundleStarts shape) :
    job.bundle.width ∣ k := by
  obtain ⟨-, m, hm⟩ := Share.mem_visits.1 h
  exact ⟨m, by simpa using hm⟩

/-- The rows of a slice, transformed where they lie. -/
theorem volume_rows (o count i j : Nat) :
    (s.solo f n w ((List.range count).map fun j => .row o j)).volume i j =
      if i = o ∧ j < count then f (s.volume i j) else s.volume i j := by
  induction count with
  | zero => rw [if_neg (by omega)]; rfl
  | succ count ih =>
    rw [List.range_succ, List.map_append, solo_append]
    change (if i = o ∧ j = count then f ((s.solo f n w _).volume o count)
      else (s.solo f n w _).volume i j) = _
    -- Row `count` is done last; it is the row in question, or it is not.
    by_cases hij : i = o ∧ j = count
    · obtain ⟨rfl, rfl⟩ := hij
      rw [if_pos ⟨rfl, rfl⟩, ih, if_neg (by omega), if_pos ⟨rfl, by omega⟩]
    · rw [if_neg hij, ih]
      exact if_congr (by omega) rfl rfl

/-- **The steps of one outer index** replace its lines by their images. -/
theorem volume_outerSteps (hlength : job.transform.length = job.pass.lineLength shape)
    (hf : Pass.LooksAt f job.transform.length) (o : Nat) {i j k : Nat} (h : i < shape.slices)
    (h' : j < shape.rows) (hk : k < shape.columns) :
    (s.solo f job.transform.length w (job.outerSteps shape o)).volume i j k =
      if job.pass.outerIndex i j = o then job.pass.image f s.volume i j k
      else s.volume i j k := by
  have hstarts : ∀ k ∈ job.bundleStarts shape, job.bundle.width ∣ k :=
    fun k => dvd_of_mem_bundleStarts
  have hnodup : (job.bundleStarts shape).Nodup := Share.nodup_visits _ _
  have hmem : k / job.bundle.width * job.bundle.width ∈ job.bundleStarts shape :=
    mem_bundleStarts k hk
  unfold PassJob.outerSteps Pass.outerIndex Pass.image
  cases hpass : job.pass with
  | inner =>
    dsimp only
    -- The rows of one slice, where they lie.
    rw [volume_rows]
    by_cases hi : i = o
    · rw [if_pos ⟨hi, h'⟩, if_pos hi]
    · rw [if_neg fun hand => hi hand.1, if_neg hi]
  | middle =>
    rw [hpass] at hlength
    dsimp only
    by_cases hi : i = o
    · subst hi
      -- Lines run through the rows of the slice, one bundle of columns after the other.
      have hbundles := volume_bundles (s := s) (w := w) (fun j => (i, j)) hf
        (fun t _ t' _ htt => (Prod.mk.inj htt).2) hstarts hnodup (t := j)
        (by rw [hlength]; exact h') k
      rw [if_pos rfl, hbundles, if_pos hmem]
    · rw [if_neg hi]
      exact volume_bundles_of_not_mem fun t _ htt => hi (Prod.mk.inj htt).1.symm
  | outer =>
    rw [hpass] at hlength
    dsimp only
    by_cases hj : j = o
    · subst hj
      have hbundles := volume_bundles (s := s) (w := w) (fun i => (i, j)) hf
        (fun t _ t' _ htt => (Prod.mk.inj htt).1) hstarts hnodup (t := i)
        (by rw [hlength]; exact h) k
      rw [if_pos rfl, hbundles, if_pos hmem]
    · rw [if_neg hj]
      exact volume_bundles_of_not_mem fun t _ htt => hj (Prod.mk.inj htt).2.symm

/-- **The program of a share** replaces the lines that the share visits by their
images, and leaves all other elements alone. -/
theorem volume_program (hlength : job.transform.length = job.pass.lineLength shape)
    (hf : Pass.LooksAt f job.transform.length) (share : Share) {i j k : Nat}
    (hi : i < shape.slices) (hj : j < shape.rows) (hk : k < shape.columns) :
    (s.solo f job.transform.length w (job.program shape share)).volume i j k =
      if job.pass.outerIndex i j ∈ share.visits (job.pass.outerCount shape) then
        job.pass.image f s.volume i j k
      else s.volume i j k := by
  -- Different outer indices have no line in common, so the order of the indices is of no account.
  have key : ∀ (indices : List Nat) (s : Tableau T), indices.Nodup → ∀ {i j k : Nat},
      i < shape.slices → j < shape.rows → k < shape.columns →
      (s.solo f job.transform.length w (indices.flatMap (job.outerSteps shape))).volume i j k =
        if job.pass.outerIndex i j ∈ indices then job.pass.image f s.volume i j k
        else s.volume i j k := by
    intro indices
    induction indices with
    | nil => intro s _ i j k _ _ _; rfl
    | cons o indices ih =>
      intro s hnodup i j k hi hj hk
      obtain ⟨hnot, hnodup⟩ := List.nodup_cons.1 hnodup
      rw [List.flatMap_cons, solo_append, ih _ hnodup hi hj hk]
      by_cases ho : job.pass.outerIndex i j = o
      · rw [if_neg (by rwa [ho]), if_pos (by rw [ho]; exact List.mem_cons_self),
          volume_outerSteps hlength hf o hi hj hk, if_pos ho]
      · -- The first index leaves the whole line of the element alone.
        have hline : job.pass.image f
            (s.solo f job.transform.length w (job.outerSteps shape o)).volume i j k =
              job.pass.image f s.volume i j k := by
          refine Pass.image_congr (hlength ▸ hf) hi hj hk fun i' hi' j' hj' k' hk' heq => ?_
          rw [volume_outerSteps hlength hf o hi' hj' hk', if_neg (by rwa [heq])]
        rw [hline, volume_outerSteps hlength hf o hi hj hk, if_neg ho]
        simp only [List.mem_cons, ho, false_or]
  exact key _ s (Share.nodup_visits _ _) hi hj hk

end Programs

end Tableau

end CosineTransform
