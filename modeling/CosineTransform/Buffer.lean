import CosineTransform.Word.Arithmetic

/-!
# Buffers

Reading and writing a buffer at an index, with a fault where the index leaves
it, and the ways in which the library produces whole buffers: a new one entry by
entry from a rule (`Buffer.tabulate`), an old one with its first entries written
by a rule (`Buffer.fill`), with two entries exchanged (`Buffer.swap`), or with a
list laid over a stretch of it (`Buffer.overlay`). What filling leaves is said in
terms of overlaying (`fill_of_ok`), and what overlaying leaves entry by entry
(`getElem?_overlay`).

A `Window` is a stretch of a larger buffer that is addressed from zero.
-/

namespace CosineTransform

namespace Buffer

variable {α β : Type}

/-- The entry at an index. -/
@[inline] def read (xs : Array α) (i : Nat) : Checked α :=
  if h : i < xs.size then .ok xs[i] else .error (.outOfRange i xs.size)

/-- The buffer with another entry at an index. -/
@[inline] def write (xs : Array α) (i : Nat) (x : α) : Checked (Array α) :=
  if h : i < xs.size then .ok (xs.set i x h) else .error (.outOfRange i xs.size)

/-- The buffer with two entries exchanged. -/
@[inline] def swap (xs : Array α) (i j : Nat) : Checked (Array α) :=
  if hi : i < xs.size then
    if hj : j < xs.size then .ok (xs.swap i j hi hj) else .error (.outOfRange j xs.size)
  else .error (.outOfRange i xs.size)

/-- The buffer of `n` entries whose entry `i` is computed by `f i`, in order;
the first fault ends it. -/
@[inline] def tabulate (n : Nat) (f : Nat → Checked α) : Checked (Array α) :=
  (List.range n).foldlM (fun xs i => do return xs.push (← f i)) (Array.emptyWithCapacity n)

/-- The buffer with its first `n` entries written in order, entry `i` with what
`f i` computes; the first fault ends it. -/
@[inline] def fill (n : Nat) (f : Nat → Checked α) (xs : Array α) : Checked (Array α) :=
  (List.range n).foldlM (fun xs i => do write xs i (← f i)) xs

/-- The buffer with the given entries written one after the other from `start`
on; what would lie past the end is dropped. -/
def overlay (xs : Array α) (start : Nat) : List α → Array α
  | [] => xs
  | y :: ys => overlay (xs.setIfInBounds start y) (start + 1) ys

@[simp] theorem read_of_lt {xs : Array α} {i : Nat} (h : i < xs.size) :
    read xs i = .ok xs[i] := by
  simp [read, h]

@[simp] theorem write_of_lt {xs : Array α} {i : Nat} {x : α} (h : i < xs.size) :
    write xs i x = .ok (xs.set i x h) := by
  simp [write, h]

@[simp] theorem swap_of_lt {xs : Array α} {i j : Nat} (hi : i < xs.size) (hj : j < xs.size) :
    swap xs i j = .ok (xs.swap i j hi hj) := by
  simp [swap, hi, hj]

@[simp] theorem tabulate_zero (f : Nat → Checked α) : tabulate 0 f = .ok #[] := rfl

/-- Tabulating one entry more. -/
theorem tabulate_succ (n : Nat) (f : Nat → Checked α) :
    tabulate (n + 1) f = do
      let ys ← tabulate n f
      return ys.push (← f n) := by
  unfold tabulate
  rw [List.range_succ, List.foldlM_append]
  simp only [List.foldlM_cons, List.foldlM_nil, bind_pure]
  rfl

/-- Filling one entry more. -/
theorem fill_succ (n : Nat) (f : Nat → Checked α) (xs : Array α) :
    fill (n + 1) f xs = (do
      let ys ← fill n f xs
      write ys n (← f n)) := by
  unfold fill
  rw [List.range_succ, List.foldlM_append]
  simp only [List.foldlM_cons, List.foldlM_nil, bind_pure]

/-- When every entry has a value, the tabulated buffer holds these values. -/
theorem tabulate_of_ok {n : Nat} {f : Nat → Checked α} {g : Nat → α}
    (h : ∀ i < n, f i = .ok (g i)) : tabulate n f = .ok ((Array.range n).map g) := by
  induction n with
  | zero => simp
  | succ n ih =>
    rw [tabulate_succ, ih fun i hi => h i (Nat.lt_succ_of_lt hi), h n (Nat.lt_succ_self n)]
    simp [Array.range_succ]

/-- A tabulated buffer has as many entries as asked for. -/
theorem size_tabulate {n : Nat} {f : Nat → Checked α} {ys : Array α}
    (h : tabulate n f = .ok ys) : ys.size = n := by
  induction n generalizing ys with
  | zero =>
    cases h
    rfl
  | succ n ih =>
    rw [tabulate_succ] at h
    obtain ⟨zs, hzs, h⟩ := Checked.bind_eq_ok_iff.1 h
    obtain ⟨y, -, h⟩ := Checked.bind_eq_ok_iff.1 h
    cases h
    rw [Array.size_push, ih hzs]

@[simp] theorem size_overlay (xs : Array α) (start : Nat) (ys : List α) :
    (overlay xs start ys).size = xs.size := by
  induction ys generalizing xs start with
  | nil => rfl
  | cons y ys ih => simp [overlay, ih]

theorem overlay_append (xs : Array α) (start : Nat) (ys zs : List α) :
    overlay xs start (ys ++ zs) = overlay (overlay xs start ys) (start + ys.length) zs := by
  induction ys generalizing xs start with
  | nil => rfl
  | cons y ys ih =>
    rw [List.cons_append, overlay, overlay, ih, List.length_cons]
    congr 1
    omega

/-- **Filling** lays over the start of a buffer what would be tabulated, and meets a fault where
tabulating does. -/
theorem fill_eq_tabulate {n : Nat} (f : Nat → Checked α) {xs : Array α} (hn : n ≤ xs.size) :
    fill n f xs = do
      let ys ← tabulate n f
      return overlay xs 0 ys.toList := by
  induction n with
  | zero => rfl
  | succ n ih =>
    rw [fill_succ, tabulate_succ, ih (Nat.le_of_succ_le hn)]
    cases hys : tabulate n f with
    | error fault => rfl
    | ok ys =>
      simp only [Checked.ok_bind, Checked.pure_eq_ok]
      cases f n with
      | error fault => rfl
      | ok y =>
        -- The next entry is written right behind those that are laid down.
        have hlt : n < (overlay xs 0 ys.toList).size := by
          rw [size_overlay]
          exact hn
        simp only [Checked.ok_bind]
        rw [write_of_lt hlt, Array.toList_push, overlay_append, Array.length_toList,
          size_tabulate hys, Nat.zero_add, overlay, overlay, Array.setIfInBounds, dif_pos hlt]

/-- When every entry has a value, filling lays these values over the buffer. -/
theorem fill_of_ok {n : Nat} {f : Nat → Checked α} {g : Nat → α} {xs : Array α}
    (hn : n ≤ xs.size) (h : ∀ i < n, f i = .ok (g i)) :
    fill n f xs = .ok (overlay xs 0 ((List.range n).map g)) := by
  rw [fill_eq_tabulate f hn, tabulate_of_ok h, Checked.ok_bind, Checked.pure_eq_ok,
    Array.toList_map, Array.toList_range]

/-- Laying entries over a buffer changes the covered stretch and nothing else. -/
theorem getElem?_overlay (xs : Array α) (start : Nat) (ys : List α) (i : Nat) :
    (overlay xs start ys)[i]? =
      if start ≤ i ∧ i < start + ys.length ∧ i < xs.size then ys[i - start]? else xs[i]? := by
  induction ys generalizing xs start with
  | nil => simp [overlay]; omega
  | cons y ys ih =>
    rw [overlay, ih]
    simp only [Array.size_setIfInBounds, List.length_cons]
    by_cases hi : i = start
    · subst hi
      rw [if_neg (by omega)]
      by_cases hs : i < xs.size
      · rw [if_pos ⟨Nat.le_refl i, by omega, hs⟩, Nat.sub_self]
        simp [hs]
      · rw [if_neg fun h => hs h.2.2]
        simp [hs]
    · rw [Array.getElem?_setIfInBounds_ne (by omega)]
      by_cases hc : start + 1 ≤ i ∧ i < start + 1 + ys.length ∧ i < xs.size
      · have hd : i - start = (i - (start + 1)) + 1 := by omega
        rw [if_pos hc, if_pos (by omega), hd, List.getElem?_cons_succ]
      · rw [if_neg hc, if_neg (by omega)]

end Buffer

/-- A stretch of a larger buffer, addressed from zero. -/
structure Window where
  start : Nat
  size : Nat
deriving DecidableEq, Inhabited

namespace Window

/-- The place in the larger buffer of entry `i` of the window. -/
@[inline] def place (w : Window) (i : Nat) : Checked Nat :=
  if i < w.size then .ok (w.start + i) else .error (.outOfRange i w.size)

/-- The part of a window that starts at entry `first` and has `size` entries. -/
def part (w : Window) (first size : Nat) : Checked Window :=
  if first + size ≤ w.size then .ok ⟨w.start + first, size⟩
  else .error (.stretchOutOfRange (first + size) w.size)

@[simp] theorem place_of_lt {w : Window} {i : Nat} (h : i < w.size) :
    w.place i = .ok (w.start + i) := by
  simp [place, h]

@[simp] theorem part_of_le {w : Window} {first size : Nat} (h : first + size ≤ w.size) :
    w.part first size = .ok ⟨w.start + first, size⟩ := by
  simp [part, h]

end Window

end CosineTransform
