import CosineTransform.Word.Arithmetic

/-!
# Shares of a loop

A loop over the indices below an extent is divided into **shares**: a share
visits every `stride`-th index from `start` on. Dealing a loop out to some number
of workers gives worker `w` the indices that leave the remainder `w`. The list of
shares is made when there is room for it (`Share.dealOut`).
-/

namespace CosineTransform

/-- The indices `start`, `start + stride`, `start + 2 * stride`, … of a loop. -/
structure Share where
  start : Nat
  stride : Nat
  stride_pos : 0 < stride := by decide
deriving DecidableEq

namespace Share

/-- The share that visits every index. -/
def whole : Share where
  start := 0
  stride := 1

/-- The share with a given start and stride; a stride of zero leads nowhere. -/
def ofPair (start stride : Nat) : Checked Share :=
  if h : 0 < stride then .ok ⟨start, stride, h⟩ else .error (.unmet .strideNotZero)

/-- A loop dealt out to a number of workers, of which there is at least one. -/
def deal (workers : Nat) : List Share :=
  (List.range (max workers 1)).map fun w =>
    ⟨w, max workers 1, Nat.lt_of_lt_of_le Nat.zero_lt_one (Nat.le_max_right workers 1)⟩

/-- The number of bytes that a share takes: a start and a stride. -/
def bytes : Nat := 2 * Word.bytes

/-- The shares of a number of workers, when there is room for the list of them. -/
def dealOut (workers : Nat) : Checked (List Share) := do
  Word.reserve bytes (max workers 1)
  return deal workers

/-- The indices of a share below an extent, in increasing order. -/
def visits (s : Share) (extent : Nat) : List Nat :=
  (List.range ((extent - s.start + (s.stride - 1)) / s.stride)).map (s.start + s.stride * ·)

/-- A share visits exactly the indices that it reaches by whole strides. -/
theorem mem_visits {s : Share} {extent i : Nat} :
    i ∈ s.visits extent ↔ i < extent ∧ ∃ m, i = s.start + s.stride * m := by
  have hpos := s.stride_pos
  simp only [visits, List.mem_map, List.mem_range]
  constructor
  · rintro ⟨m, hm, rfl⟩
    refine ⟨?_, m, rfl⟩
    have h := (Nat.le_div_iff_mul_le hpos).1 (Nat.succ_le_of_lt hm)
    rw [Nat.succ_mul, Nat.mul_comm] at h
    omega
  · rintro ⟨hlt, m, rfl⟩
    refine ⟨m, ?_, rfl⟩
    apply Nat.lt_of_succ_le
    rw [Nat.le_div_iff_mul_le hpos, Nat.succ_mul, Nat.mul_comm]
    omega

/-- A share visits no index twice. -/
theorem nodup_visits (s : Share) (extent : Nat) : (s.visits extent).Nodup := by
  refine List.Pairwise.map _ (fun m m' hne heq => hne ?_) List.nodup_range
  exact Nat.eq_of_mul_eq_mul_left s.stride_pos (Nat.add_left_cancel heq)

end Share

end CosineTransform
