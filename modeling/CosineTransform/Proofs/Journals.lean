import Mathlib
import CosineTransform.Rows.Probe

/-!
# What a journal makes of a list of accesses

A journal that sees accesses one after the other (`Journal.after`) records them in this
order and lets its arrangements count their visits. An arrangement looks at one access
only, so accesses that differ do not disturb each other: what an access raises does not
depend on the other accesses before it (`raises_after_of_not_mem`), and the arrangements
end the same in whatever order the accesses come (`arranged_after_of_perm`). The visits
of workers that share a journal can therefore be counted without regard to how the
workers take turns.
-/

namespace CosineTransform

/-- An arrangement that has seen one more visit. -/
def Arranged.counted (p : Arranged) : Arranged :=
  { p with seen := p.seen + 1 }

namespace Journal

variable {a b : Access} {j : Journal}

/-- What an access raises when it is made next. -/
def raises (j : Journal) (a : Access) : Option Payload :=
  (j.visit a).1

/-- **The journal after a list of accesses.** -/
def after (j : Journal) (accesses : List Access) : Journal :=
  accesses.foldl (fun j a => (j.visit a).2) j

@[simp] theorem after_nil (j : Journal) : j.after [] = j :=
  rfl

@[simp] theorem after_cons (j : Journal) (a : Access) (accesses : List Access) :
    j.after (a :: accesses) = (j.visit a).2.after accesses :=
  rfl

theorem after_append (j : Journal) (accesses accesses' : List Access) :
    j.after (accesses ++ accesses') = (j.after accesses).after accesses' :=
  List.foldl_append

theorem visit_eq (j : Journal) (a : Access) :
    j.visit a = (j.raises a, j.after [a]) :=
  rfl

/-- **Every access is recorded**, in its order. -/
theorem accesses_after (j : Journal) (accesses : List Access) :
    (j.after accesses).accesses.toList = j.accesses.toList ++ accesses := by
  induction accesses generalizing j with
  | nil => simp
  | cons a accesses ih =>
    have hvisit : (j.visit a).2.accesses = j.accesses.push a := rfl
    rw [after_cons, ih, hvisit, Array.toList_push, List.append_assoc, List.singleton_append]

/-- What the arrangements become is a matter of the arrangements alone. -/
theorem arranged_after (j : Journal) (accesses : List Access) :
    (j.after accesses).arranged = accesses.foldl (fun ps a => (meet a ps).2) j.arranged := by
  induction accesses generalizing j with
  | nil => rfl
  | cons a accesses ih => exact ih (j.visit a).2

/-! ### Accesses that differ -/

theorem meet_cons_of_ne {p : Arranged} (h : p.access ≠ a) (ps : List Arranged) :
    meet a (p :: ps) = ((meet a ps).1, p :: (meet a ps).2) := by
  rw [meet, if_neg h]

/-- The arrangement whose visit it is raises its payload. -/
theorem meet_cons_raising {p : Arranged} (h : p.access = a) (hseen : p.seen + 1 = p.visit)
    (ps : List Arranged) :
    meet a (p :: ps) = (some p.payload, p.counted :: ps) := by
  rw [meet, if_pos h]
  exact if_pos hseen

/-- An arrangement for another visit counts this one and lets it pass. -/
theorem meet_cons_passing {p : Arranged} (h : p.access = a) (hseen : p.seen + 1 ≠ p.visit)
    (ps : List Arranged) :
    meet a (p :: ps) = ((meet a ps).1, p.counted :: (meet a ps).2) := by
  rw [meet, if_pos h]
  exact if_neg hseen

/-- **Different accesses do not disturb each other.** -/
theorem meet_meet_of_ne (h : a ≠ b) (ps : List Arranged) :
    (meet a (meet b ps).2).1 = (meet a ps).1 ∧
      (meet a (meet b ps).2).2 = (meet b (meet a ps).2).2 := by
  -- Induction on the arrangements: the first one is for one of the accesses or for neither.
  induction ps with
  | nil => exact ⟨rfl, rfl⟩
  | cons p ps ih =>
    by_cases ha : p.access = a
    · have hb : p.access ≠ b := fun hb => h (ha.symm.trans hb)
      rw [meet_cons_of_ne hb]
      by_cases hseen : p.seen + 1 = p.visit
      · rw [meet_cons_raising ha hseen, meet_cons_raising ha hseen]
        exact ⟨rfl, (congrArg Prod.snd (meet_cons_of_ne (p := p.counted) hb ps)).symm⟩
      · rw [meet_cons_passing ha hseen, meet_cons_passing ha hseen]
        exact ⟨ih.1, (congrArg (List.cons p.counted) ih.2).trans
          (congrArg Prod.snd (meet_cons_of_ne (p := p.counted) hb _)).symm⟩
    · rw [meet_cons_of_ne ha]
      by_cases hb : p.access = b
      · by_cases hseen : p.seen + 1 = p.visit
        · rw [meet_cons_raising hb hseen, meet_cons_raising hb hseen]
          dsimp only
          rw [meet_cons_of_ne (p := p.counted) ha]
          exact ⟨rfl, rfl⟩
        · rw [meet_cons_passing hb hseen, meet_cons_passing hb hseen]
          dsimp only
          rw [meet_cons_of_ne (p := p.counted) ha]
          exact ⟨ih.1, congrArg (List.cons p.counted) ih.2⟩
      · rw [meet_cons_of_ne hb, meet_cons_of_ne hb]
        dsimp only
        rw [meet_cons_of_ne ha]
        exact ⟨ih.1, congrArg (List.cons p) ih.2⟩

/-- **What an access raises** does not depend on other accesses before it. -/
theorem raises_after_of_not_mem {accesses : List Access} (h : a ∉ accesses) :
    (j.after accesses).raises a = j.raises a := by
  induction accesses generalizing j with
  | nil => rfl
  | cons b accesses ih =>
    rw [List.mem_cons, not_or] at h
    exact (ih h.2).trans (meet_meet_of_ne h.1 j.arranged).1

/-- **The order of the accesses** does not show in the arrangements. -/
theorem arranged_after_of_perm {accesses accesses' : List Access} (h : accesses.Perm accesses') :
    (j.after accesses).arranged = (j.after accesses').arranged := by
  rw [arranged_after, arranged_after]
  refine h.foldl_eq' (fun b _ a _ ps => ?_) _
  by_cases hab : a = b
  · rw [hab]
  · exact (meet_meet_of_ne hab ps).2

/-- Journals with the same arrangements raise the same. -/
theorem raises_congr {j j' : Journal} (h : j.arranged = j'.arranged) : j.raises = j'.raises := by
  funext a
  change (meet a j.arranged).1 = (meet a j'.arranged).1
  rw [h]

/-- A journal without arrangements raises nothing. -/
theorem raises_of_arranged_eq_nil (h : j.arranged = []) : j.raises a = none := by
  change (meet a j.arranged).1 = none
  rw [h]
  rfl

/-- No arrangements are added on the way. -/
theorem arranged_after_of_eq_nil (h : j.arranged = []) (accesses : List Access) :
    (j.after accesses).arranged = [] := by
  rw [arranged_after, h]
  induction accesses with
  | nil => rfl
  | cons a accesses ih => exact ih

end Journal

end CosineTransform
