import Mathlib
import CosineTransform.Proofs.Interleaving

/-!
# Shares partition a loop

A loop over the indices below an extent is dealt out to some number of workers.
`Share.deal_partitions` says what comes of it, for every number of workers and every extent:
worker `w` visits the indices that leave the remainder `w`, in increasing order, so no two
workers visit the same index and each index is visited by one of them (`Share.Partition`).
No workers count as one. When there are more workers than indices, the shares that start past
the end visit nothing.

What a share visits is strictly increasing (`pairwise_visits`), and an increasing list is told
by its members. Everything else is read off the members of a dealt share, which
`mem_visits_dealt` gives by division with remainder.
-/

namespace CosineTransform

namespace Share

/-- **A share visits its indices in increasing order.** -/
theorem pairwise_visits (s : Share) (extent : Nat) : (s.visits extent).Pairwise (· < ·) := by
  refine List.Pairwise.map _ (fun m m' hlt => ?_) List.pairwise_lt_range
  exact Nat.add_lt_add_left (Nat.mul_lt_mul_of_pos_left hlt s.stride_pos) s.start

/-- **A dealt share as a list**: the indices with the remainder of its worker. -/
theorem visits_dealt_eq {workers w : Nat} (hw : w < max workers 1) (extent : Nat) :
    (dealt workers w).visits extent =
      (List.range extent).filter (· % max workers 1 = w) := by
  refine (pairwise_visits _ _).eq_of_mem_iff (List.pairwise_lt_range.filter _) fun i => ?_
  rw [mem_visits_dealt hw, List.mem_filter, List.mem_range, decide_eq_true_iff]

/-- Two workers have no index in common. -/
theorem disjoint_visits_dealt {workers w w' : Nat} (hw : w < max workers 1)
    (hw' : w' < max workers 1) (hne : w ≠ w') (extent : Nat) :
    ((dealt workers w).visits extent).Disjoint ((dealt workers w').visits extent) := by
  intro i hi hi'
  -- The remainder of an index tells its worker.
  have hrem := (mem_visits_dealt hw).1 hi
  have hrem' := (mem_visits_dealt hw').1 hi'
  exact hne (hrem.2.symm.trans hrem'.2)

theorem pairwise_disjoint_deal (workers extent : Nat) :
    (deal workers).Pairwise fun share other =>
      (share.visits extent).Disjoint (other.visits extent) := by
  rw [deal_eq, List.pairwise_map]
  refine List.nodup_range.imp_of_mem fun hw hw' hne => ?_
  exact disjoint_visits_dealt (List.mem_range.1 hw) (List.mem_range.1 hw') hne extent

/-- **Dealt shares** together visit each index once. -/
theorem visits_deal_perm (workers extent : Nat) :
    ((deal workers).flatMap (·.visits extent)).Perm (List.range extent) := by
  have hnodup : ((deal workers).flatMap (·.visits extent)).Nodup :=
    List.nodup_flatMap.2
      ⟨fun share _ => nodup_visits share extent, pairwise_disjoint_deal workers extent⟩
  refine (List.perm_ext_iff_of_nodup hnodup List.nodup_range).2 fun i => ?_
  rw [List.mem_flatMap, List.mem_range]
  constructor
  · rintro ⟨share, -, hi⟩
    exact (mem_visits.1 hi).1
  · intro hi
    have hw : i % max workers 1 < max workers 1 := Nat.mod_lt _ (workers_pos workers)
    refine ⟨dealt workers (i % max workers 1), ?_, (mem_visits_dealt hw).2 ⟨hi, rfl⟩⟩
    rw [deal_eq]
    exact List.mem_map_of_mem (List.mem_range.2 hw)

/-- **Shares partition a loop.** -/
structure Partition (shares : List Share) (extent : Nat) : Prop where
  /-- Each share visits its indices in increasing order. -/
  increasing : ∀ share ∈ shares, (share.visits extent).Pairwise (· < ·)
  /-- No two shares visit the same index. -/
  disjoint : shares.Pairwise fun share other =>
    (share.visits extent).Disjoint (other.visits extent)
  /-- Together the shares visit each index below the extent once, and no other. -/
  visits_perm : (shares.flatMap (·.visits extent)).Perm (List.range extent)

/-- **A dealt loop is partitioned** by the shares of its workers, of which there is at least
one, and the indices of a worker are those that leave its number as the remainder. -/
theorem deal_partitions (workers extent : Nat) :
    Partition (deal workers) extent ∧
    (deal workers).map (·.visits extent) = (List.range (max workers 1)).map fun w =>
      (List.range extent).filter (· % max workers 1 = w) := by
  constructor
  · exact ⟨fun share _ => pairwise_visits share extent, pairwise_disjoint_deal workers extent,
      visits_deal_perm workers extent⟩
  · rw [deal_eq, List.map_map]
    exact List.map_congr_left fun w hw => visits_dealt_eq (List.mem_range.1 hw) extent

/-- Three workers on a loop of two indices: the last one has none. -/
example : (deal 3).map (·.visits 2) = [[0], [1], []] := by decide

end Share

end CosineTransform
