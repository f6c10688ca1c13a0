import Mathlib
import CosineTransform.Proofs.Schedules

/-!
# Runs whose workers meet faults

A worker stops at its first fault, and the others go on. Which steps of an order are
begun then is fixed by the order and by which steps fail (`Roster.begun`): all those
before which no step of the same worker has failed. The steps that are **taken** are those
that are begun and succeed, and of each worker they are its steps before the first one
that fails (`Roster.ownSteps_taken`).

A roster runs its items one after the other and knows nothing of steps. It is the
schedule in which the programs of the items come in turn (`Roster.outcomes_eq_interleaved`),
so what is proved of schedules is true of rosters, faults included.
-/

namespace CosineTransform

namespace Roster

/-! ### Steps that are begun, and steps that are taken -/

section Steps

variable {α ε : Type}

/-- The faults of the workers after an order of steps: a worker keeps the fault that it
has, or it meets that of its first step that fails. -/
def faultsAfter (fails : α → Option ε) (order : List (Nat × α)) (faults : Nat → Option ε)
    (w : Nat) : Option ε :=
  (faults w).or ((ownSteps w order).findSome? fails)

/-- **The steps that are begun**, when some workers have faults to start with. -/
def begun (fails : α → Option ε) : List (Nat × α) → (Nat → Option ε) → List (Nat × α)
  | [], _ => []
  | (w, x) :: order, faults =>
      if (faults w).isSome then begun fails order faults
      else (w, x) :: begun fails order fun w' => if w' = w then fails x else faults w'

/-- **The steps that are taken** are begun and do not fail. -/
def taken (fails : α → Option ε) (order : List (Nat × α)) (faults : Nat → Option ε) :
    List (Nat × α) :=
  (begun fails order faults).filter fun x => (fails x.2).isNone

variable {fails : α → Option ε} {faults : Nat → Option ε} {order : List (Nat × α)} {w : Nat}
  {x : α}

theorem begun_cons_of_isSome (h : (faults w).isSome) :
    begun fails ((w, x) :: order) faults = begun fails order faults := by
  rw [begun, if_pos h]

theorem begun_cons_of_eq_none (h : faults w = none) :
    begun fails ((w, x) :: order) faults =
      (w, x) :: begun fails order fun w' => if w' = w then fails x else faults w' := by
  rw [begun, if_neg (by rw [h]; exact Bool.false_ne_true)]

/-- A step that does not fail gives no worker a fault. -/
theorem faults_of_not_fails (h : faults w = none) (hx : fails x = none) :
    (fun w' => if w' = w then fails x else faults w') = faults := by
  funext w'
  by_cases hw : w' = w
  · rw [if_pos hw, hx, hw, h]
  · rw [if_neg hw]

theorem faultsAfter_cons_of_isSome (h : (faults w).isSome) :
    faultsAfter fails ((w, x) :: order) faults = faultsAfter fails order faults := by
  funext w'
  unfold faultsAfter
  by_cases hw : w = w'
  · subst hw
    rw [Option.or_of_isSome h, Option.or_of_isSome h]
  · rw [ownSteps_cons_of_ne hw]

theorem faultsAfter_cons_of_eq_none (h : faults w = none) :
    faultsAfter fails ((w, x) :: order) faults =
      faultsAfter fails order fun w' => if w' = w then fails x else faults w' := by
  funext w'
  unfold faultsAfter
  by_cases hw : w = w'
  · subst hw
    dsimp only
    rw [h, if_pos rfl, ownSteps_cons_self, List.findSome?_cons, Option.none_or]
    cases fails x with
    | none => rfl
    | some fault => rfl
  · dsimp only
    rw [ownSteps_cons_of_ne hw, if_neg (Ne.symm hw)]

theorem begun_sublist (fails : α → Option ε) (order : List (Nat × α))
    (faults : Nat → Option ε) : (begun fails order faults).Sublist order := by
  induction order generalizing faults with
  | nil => exact List.Sublist.refl _
  | cons y order ih =>
    obtain ⟨w, x⟩ := y
    unfold begun
    split
    · exact (ih _).cons _
    · exact (ih _).cons_cons _

theorem taken_sublist (fails : α → Option ε) (order : List (Nat × α))
    (faults : Nat → Option ε) : (taken fails order faults).Sublist order :=
  List.filter_sublist.trans (begun_sublist fails order faults)

/-- When no step fails, all are begun. -/
theorem begun_of_not_fails (h : ∀ x ∈ order, fails x.2 = none) (hfaults : ∀ w, faults w = none) :
    begun fails order faults = order := by
  induction order generalizing faults with
  | nil => rfl
  | cons y order ih =>
    obtain ⟨w, x⟩ := y
    obtain ⟨hx, horder⟩ := List.forall_mem_cons.1 h
    rw [begun_cons_of_eq_none (hfaults w), faults_of_not_fails (hfaults w) hx, ih horder hfaults]

/-- **The taken steps of a worker** are its steps before the first one that fails. -/
theorem ownSteps_taken (fails : α → Option ε) (order : List (Nat × α))
    (faults : Nat → Option ε) (w : Nat) :
    ownSteps w (taken fails order faults) =
      if (faults w).isSome then [] else (ownSteps w order).takeWhile fun x => (fails x).isNone := by
  -- Induction on the order: a step of the worker is the next one to be taken, or it ends
  -- the worker, and a step of another worker is of no account.
  induction order generalizing faults with
  | nil => simp [taken, begun, ownSteps]
  | cons y order ih =>
    obtain ⟨w', x⟩ := y
    by_cases hfault : (faults w').isSome
    · have hcons : taken fails ((w', x) :: order) faults = taken fails order faults := by
        unfold taken
        rw [begun_cons_of_isSome hfault]
      rw [hcons, ih]
      by_cases hw : w' = w
      · subst hw
        rw [if_pos hfault, if_pos hfault]
      · rw [ownSteps_cons_of_ne hw]
    · rw [Option.not_isSome_iff_eq_none] at hfault
      have hcons : taken fails ((w', x) :: order) faults =
          (if (fails x).isNone then [(w', x)] else []) ++
            taken fails order fun w'' => if w'' = w' then fails x else faults w'' := by
        unfold taken
        rw [begun_cons_of_eq_none hfault, List.filter_cons]
        split <;> rfl
      rw [hcons, ownSteps_append, ih]
      by_cases hw : w' = w
      · subst hw
        rw [if_pos rfl, hfault, ownSteps_cons_self, List.takeWhile_cons]
        cases fails x with
        | none => simp [ownSteps]
        | some fault => simp [ownSteps]
      · have hother : ownSteps w (if (fails x).isNone then [(w', x)] else []) = [] := by
          split
          · exact ownSteps_cons_of_ne hw x []
          · rfl
        rw [hother, List.nil_append, if_neg (Ne.symm hw), ownSteps_cons_of_ne hw]

end Steps

/-! ### Rosters as schedules -/

section Schedules

variable {σ ι κ : Type} {step : Nat → ι → EStateM Fault σ Unit} {faults : Nat → Option Fault}
  {w : Nat}

/-- The steps of a worker that has a fault are left out. -/
theorem interleaved_program_of_isSome (h : (faults w).isSome) (program : List ι)
    (order : List (Nat × ι)) (s : σ) :
    interleaved step ((program.map fun x => (w, x)) ++ order) faults s =
      interleaved step order faults s := by
  induction program with
  | nil => rfl
  | cons x program ih =>
    rw [List.map_cons, List.cons_append, interleaved, if_pos h]
    exact ih

/-- **A program as a whole**: its worker succeeds, or it meets a fault. -/
theorem interleaved_program (h : faults w = none) (program : List ι) (order : List (Nat × ι))
    (s : σ) :
    interleaved step ((program.map fun x => (w, x)) ++ order) faults s =
      match program.forM (step w) s with
      | .ok _ s => interleaved step order faults s
      | .error fault s =>
          interleaved step order (fun w' => if w' = w then some fault else faults w') s := by
  have hnone : ¬ (faults w).isSome := by
    rw [h]
    exact Bool.false_ne_true
  induction program generalizing s with
  | nil => rfl
  | cons x program ih =>
    rw [List.map_cons, List.cons_append, interleaved, if_neg hnone]
    cases hx : step w x s with
    | ok u s' =>
      rw [Workspace.forM_cons_of_ok hx]
      exact ih s'
    | error fault s' =>
      have hforM : (x :: program).forM (step w) s = .error fault s' := Workspace.bind_of_error hx
      rw [hforM]
      exact interleaved_program_of_isSome (by rw [if_pos rfl]; rfl) program order s'

/-- The steps of others give a worker no fault. -/
theorem interleaved_fst_of_forall_ne {order : List (Nat × ι)} (h : ∀ x ∈ order, x.1 ≠ w)
    (faults : Nat → Option Fault) (s : σ) :
    (interleaved step order faults s).1 w = faults w := by
  induction order generalizing faults s with
  | nil => rfl
  | cons y order ih =>
    obtain ⟨w', x⟩ := y
    obtain ⟨hne, horder⟩ := List.forall_mem_cons.1 h
    unfold interleaved
    split
    · exact ih horder faults s
    · split
      · exact ih horder faults _
      · exact (ih horder _ _).trans (if_neg (Ne.symm hne))

/-- **A roster is a schedule.** The items of some workers, run one after the other, are
their programs in turn, when each item is the program of its worker. This may be so only
in the states that the items lead through (`Inv`). -/
theorem outcomes_eq_interleaved (step : Nat → ι → EStateM Fault σ Unit)
    (task : κ → EStateM Fault σ Unit) (item : Nat → κ) (program : Nat → List ι)
    (Inv : σ → Prop) {ws : List Nat} (hws : ws.Nodup)
    (htask : ∀ w ∈ ws, ∀ s, Inv s → task (item w) s = (program w).forM (step w) s)
    (hinv : ∀ w ∈ ws, ∀ s, Inv s → (∀ s', task (item w) s = .ok () s' → Inv s') ∧
      ∀ fault s', task (item w) s = .error fault s' → Inv s')
    {faults : Nat → Option Fault} (hfaults : ∀ w ∈ ws, faults w = none) {s : σ} (hs : Inv s) :
    outcomes task (ws.map item) s =
      (ws.map (interleaved step
          (ws.flatMap fun w => (program w).map fun x => (w, x)) faults s).1,
        (interleaved step (ws.flatMap fun w => (program w).map fun x => (w, x)) faults s).2) := by
  -- Induction on the workers: the fault of the first one is not changed by the others.
  induction ws generalizing faults s with
  | nil => rfl
  | cons w ws ih =>
    obtain ⟨hnot, hws⟩ := List.nodup_cons.1 hws
    obtain ⟨htaskw, htask⟩ := List.forall_mem_cons.1 htask
    obtain ⟨hinvw, hinv⟩ := List.forall_mem_cons.1 hinv
    obtain ⟨hfaultsw, hfaults⟩ := List.forall_mem_cons.1 hfaults
    have hothers : ∀ x ∈ ws.flatMap fun w => (program w).map fun x => (w, x), x.1 ≠ w := by
      intro x hx
      obtain ⟨w', hw', hx⟩ := List.mem_flatMap.1 hx
      obtain ⟨x', -, rfl⟩ := List.mem_map.1 hx
      exact fun heq => hnot (heq ▸ hw')
    rw [List.flatMap_cons, interleaved_program hfaultsw, ← htaskw s hs, List.map_cons,
      outcomes_cons]
    cases hitem : task (item w) s with
    | ok u s' =>
      have houtcome : outcome (task (item w)) s = (none, s') := by rw [outcome, hitem]
      rw [houtcome]
      dsimp only
      rw [ih hws htask hinv hfaults ((hinvw s hs).1 s' hitem), List.map_cons,
        interleaved_fst_of_forall_ne hothers, hfaultsw]
    | error fault s' =>
      have houtcome : outcome (task (item w)) s = (some fault, s') := by rw [outcome, hitem]
      rw [houtcome]
      dsimp only
      have hfaults' : ∀ w' ∈ ws, (if w' = w then some fault else faults w') = none := by
        intro w' hw'
        have hne : w' ≠ w := fun heq => hnot (heq ▸ hw')
        rw [if_neg hne]
        exact hfaults w' hw'
      rw [ih hws htask hinv hfaults' ((hinvw s hs).2 fault s' hitem), List.map_cons,
        interleaved_fst_of_forall_ne hothers, if_pos rfl]

end Schedules

end Roster

end CosineTransform
