import Mathlib
import CosineTransform.Proofs.GrowingTables
import CosineTransform.Sample.Binary

/-!
# Reordering is a permutation

Every number of `b` binary digits has a reversal of `b` digits, and none is the reversal of two
numbers. So reversing is a permutation of the indices of a buffer of `2 ^ b` entries, and it is
its own inverse (`DigitReversal.permutation`). `CircleTable.digits_reversed` says this of
everything that is computed from the list of reversals:

* **the list**, which is doubled until it has the wanted length. It is shorter before the last
  round and has exactly this length after it, and then each number has its reversal at its place;
* **a table** that has served any call. It holds the list for its own count of digits, and looks
  up the reversals of fewer digits in the same list;
* **the loop** that reorders a buffer in place. It leaves at each index what was at the reversed
  index, so the entries are the same as before, each as often as before.
-/

namespace CosineTransform

namespace DigitReversal

/-- **Reversal as a permutation** of the numbers of `b` digits. -/
def permutation (b : ℕ) : Equiv.Perm (Fin (2 ^ b)) :=
  Function.Involutive.toPerm (fun i => ⟨reversal b i, reversal_lt i.isLt⟩)
    fun i => Fin.ext (reversal_reversal i.isLt)

@[simp] theorem val_permutation {b : ℕ} (i : Fin (2 ^ b)) :
    (permutation b i : ℕ) = reversal b i := rfl

theorem permutation_involutive (b : ℕ) : Function.Involutive (permutation b) :=
  Function.Involutive.toPerm_involutive _

end DigitReversal

namespace Buffer

variable {α : Type}

/-- Permuted indices lead to the same entries. -/
theorem perm_map_range {n : ℕ} (σ : Equiv.Perm (Fin n)) {f g : ℕ → α}
    (h : ∀ i : Fin n, g i = f (σ i)) :
    ((Array.range n).map g).Perm ((Array.range n).map f) := by
  have hlist (f : ℕ → α) : (List.range n).map f = List.ofFn fun i : Fin n => f i := by
    rw [← List.map_coe_finRange_eq_range, List.map_map, List.ofFn_eq_map]
    rfl
  have hcomp : List.ofFn (fun i : Fin n => g i) = List.ofFn ((fun i : Fin n => f i) ∘ σ) :=
    congrArg List.ofFn (funext h)
  rw [Array.perm_iff_toList_perm, toList_map_range, toList_map_range, hlist g, hlist f, hcomp]
  exact Equiv.Perm.ofFn_comp_perm σ _

end Buffer

namespace CircleTable

variable {T W : Type} [Precision W] [Sample T W]

/-- **Reordering a buffer** of `2 ^ b` entries permutes it. -/
theorem reorder_eq_permuted {N b : ℕ} (hroom : HalfCircle.HasRoom T N) (hb : b ≤ depth N)
    {xs : Array (Cartesian T)} (hxs : xs.size = 2 ^ b) :
    ∃ ys, Fourier.reorder (complete N) b xs = .ok ys ∧ ys.size = 2 ^ b ∧
      (∀ i : Fin (2 ^ b), ys[(i : ℕ)]? = xs[(DigitReversal.permutation b i : ℕ)]?) ∧
      ys.Perm xs := by
  obtain ⟨f, rfl⟩ := Buffer.exists_rule hxs 0
  refine ⟨_, Fourier.reorder_eq hb hroom f, by simp, fun i => ?_, ?_⟩
  · rw [Buffer.getElem?_map_range _ i.isLt,
      Buffer.getElem?_map_range _ (DigitReversal.permutation b i).isLt,
      DigitReversal.val_permutation]
  · exact Buffer.perm_map_range (DigitReversal.permutation b) fun _ => rfl

/-- **Digits are reversed** by the list of reversals that the doubling loop ends with, by every
table that was built, for as many digits as it has or fewer, and by the loop that reorders a
buffer. -/
theorem digits_reversed :
    (∀ d : ℕ, (∀ e < d, (DigitReversal.table e).size < 2 ^ d) ∧
      DigitReversal.grow (2 ^ d) #[0] = DigitReversal.table d ∧
      (DigitReversal.table d).size = 2 ^ d ∧
      ∀ i < 2 ^ d, (DigitReversal.table d)[i]? = some (BitVec.ofNat d i).reverse.toNat) ∧
    ∀ {lengths : List ℕ} {table : CircleTable T}, ofLengths lengths = .ok table → lengths ≠ [] →
      table.reversals = DigitReversal.table table.digits ∧
      ∀ b ≤ table.digits, ∃ σ : Equiv.Perm (Fin (2 ^ b)), Function.Involutive σ ∧
        (∀ i : Fin (2 ^ b), (σ i : ℕ) = (BitVec.ofNat b i).reverse.toNat ∧
          table.reverse i b = .ok (σ i)) ∧
        ∀ xs : Array (Cartesian T), xs.size = 2 ^ b →
          ∃ ys, Fourier.reorder table b xs = .ok ys ∧ ys.size = 2 ^ b ∧
            (∀ i : Fin (2 ^ b), ys[(i : ℕ)]? = xs[(σ i : ℕ)]?) ∧ ys.Perm xs := by
  constructor
  · intro d
    refine ⟨fun e he => ?_, DigitReversal.grow_two_pow d, DigitReversal.size_table d,
      fun i hi => ?_⟩
    · rw [DigitReversal.size_table]
      exact Nat.pow_lt_pow_right Nat.one_lt_two he
    · rw [DigitReversal.getElem?_table hi, DigitReversal.reversal_eq_reverse hi]
  · intro lengths table htable hne
    obtain ⟨N, -, hroom, rfl⟩ := complete_of_ne_nil htable hne
    refine ⟨rfl, fun b hb => ⟨DigitReversal.permutation b,
      DigitReversal.permutation_involutive b, fun i => ⟨?_, ?_⟩, fun xs hxs => ?_⟩⟩
    · rw [DigitReversal.val_permutation, DigitReversal.reversal_eq_reverse i.isLt]
    · exact reverse_complete hb hroom i.isLt
    · exact reorder_eq_permuted hroom hb hxs

/-- A table for lines of thirty-two has four digits. It reverses three of them as well: one is
four read backwards, and in a buffer of eight entries the two change places. -/
theorem digits_reversed_three :
    ∃ table : CircleTable Float, ofLengths [32] = .ok table ∧ table.digits = 4 ∧
      table.reverse 1 3 = .ok 4 ∧
      ∃ ys, Fourier.reorder table 3 ((Array.range 8).map fun i => ⟨Float.ofNat i, 0⟩) = .ok ys ∧
        ys[1]? = some ⟨Float.ofNat 4, 0⟩ ∧ ys[4]? = some ⟨Float.ofNat 1, 0⟩ := by
  have htable : ofLengths [32] = .ok (complete 32 : CircleTable Float) :=
    ofLengths_singleton (by decide) (by decide)
  obtain ⟨-, σ, -, hσ, hreorder⟩ :=
    (digits_reversed (T := Float)).2 htable (by decide) |>.imp_right fun h => h 3 (by decide)
  have hone : (σ 1 : ℕ) = 4 := (hσ 1).1.trans (by decide)
  have hfour : (σ 4 : ℕ) = 1 := (hσ 4).1.trans (by decide)
  obtain ⟨ys, hys, -, hentry, -⟩ :=
    hreorder ((Array.range 8).map fun i => ⟨Float.ofNat i, 0⟩) (by simp)
  refine ⟨_, htable, by decide, (hσ 1).2.trans (congrArg _ hone), ys, hys, ?_, ?_⟩
  · refine (hentry 1).trans ?_
    rw [hone, Buffer.getElem?_map_range _ (by decide)]
  · refine (hentry 4).trans ?_
    rw [hfour, Buffer.getElem?_map_range _ (by decide)]

end CircleTable

end CosineTransform
