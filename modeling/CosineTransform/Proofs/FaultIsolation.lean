import Mathlib
import CosineTransform.Proofs.CollectedCalls
import CosineTransform.Work.Roster

/-!
# Faults stay with their items

The items of a pass are run on the calling thread or by a pool, and `dispatch_isolates` says
what holds on either path (`Roster.Isolates`): each item is run once, from its beginning to
its end or to its fault; everything that was done is in the state that is left; and the answer
is that of the first item of the list that met a fault, whichever met one first in time.

A pool is handed calls, which return, and what is assumed of it is about calls
(`ParallelMap.CollectsInOrder`). That the work of an item may fail, and that it then fails
alone, is the roster's own doing, since it catches the fault of each item
(`Work.executes_of_caught`). The answer is read off the faults in the order of the list
(`Roster.verdict_eq_ok_iff`, `Roster.verdict_eq_error_iff`).

Items that are run in turn, as the passes of a call run them, are the case of pools that make
their calls one after the other (`Roster.runBy_inTurn`).
-/

namespace CosineTransform

variable {σ ι : Type}

/-! ### Work and its fault -/

namespace Work

/-- The work done without a break. -/
def alone : Work σ → EStateM Fault σ Unit
  | finished, s => .ok () s
  | failed fault, s => .error fault s
  | act effect rest, s => (rest s).alone (effect s)

/-- **The moves that make up work** once it is begun, from the first step to the end, and the
fault it ends in. -/
inductive Executes : Work σ → List (Move σ (Option Fault)) → Option Fault → Prop where
  | finished : Executes .finished [.ends none] none
  | failed {fault : Fault} : Executes (.failed fault) [.ends (some fault)] (some fault)
  | act {effect : σ → σ} {rest : σ → Work σ} {s : σ} {moves : List (Move σ (Option Fault))}
      {fault? : Option Fault} (h : Executes (rest s) moves fault?) :
      Executes (.act effect rest) (.acts s (effect s) :: moves) fault?

/-- **A fault that is caught** ends the work and is what the call returns. -/
theorem executes_of_caught {work : Work σ} {moves : List (Move σ (Option Fault))}
    {fault? : Option Fault} (h : work.caught.Executes moves fault?) :
    work.Executes moves fault? := by
  induction work generalizing moves with
  | finished =>
    cases h
    exact .finished
  | failed fault =>
    cases h
    exact .failed
  | act effect rest ih =>
    obtain _ | ⟨hrest⟩ := h
    exact .act (ih _ hrest)

/-- Work that is called without a break. -/
theorem alone_caught (work : Work σ) (s : σ) : work.caught.alone s = outcome work.alone s := by
  induction work generalizing s with
  | finished => rfl
  | failed fault => rfl
  | act effect rest ih => exact ih s (effect s)

end Work

/-- **The assumption on the pools** of a process: each makes its calls once and collects what
they return in the order of the list. -/
structure Pools.CollectInOrder (pools : Pools σ) : Prop where
  own : pools.own.CollectsInOrder
  shared : pools.shared.CollectsInOrder

namespace Roster

variable {pass : Pass} {items : List ι} {s s' : σ} {faults : List (Option Fault)}
  {trace : List (Nat × Move σ (Option Fault))}

/-! ### The answer of a pass -/

theorem verdict_eq_ok_iff :
    verdict pass faults s = .ok () s' ↔ (∀ fault? ∈ faults, fault? = none) ∧ s' = s := by
  have hnone : faults.findSome? id = none ↔ ∀ fault? ∈ faults, fault? = none :=
    List.findSome?_eq_none_iff
  rw [← hnone]
  unfold verdict
  cases faults.findSome? id with
  | none => simp [eq_comm]
  | some fault => simp

theorem verdict_eq_error_iff {error : TransformError} :
    verdict pass faults s = .error error s' ↔
      (∃ earlier fault later, faults = earlier ++ some fault :: later ∧
        (∀ fault? ∈ earlier, fault? = none) ∧ error = .workerFailed pass fault.message) ∧
      s' = s := by
  have hsome : ∀ fault, faults.findSome? id = some fault ↔ ∃ earlier later,
      faults = earlier ++ some fault :: later ∧ ∀ fault? ∈ earlier, fault? = none := by
    intro fault
    rw [List.findSome?_eq_some_iff]
    constructor
    · rintro ⟨earlier, _, later, hsplit, rfl, hearlier⟩
      exact ⟨earlier, later, hsplit, hearlier⟩
    · rintro ⟨earlier, later, hsplit, hearlier⟩
      exact ⟨earlier, _, later, hsplit, rfl, hearlier⟩
  unfold verdict
  cases hfind : faults.findSome? id with
  | none =>
    constructor
    · nofun
    · rintro ⟨⟨earlier, fault, later, hsplit, hearlier, -⟩, -⟩
      cases hfind.symm.trans ((hsome fault).2 ⟨earlier, later, hsplit, hearlier⟩)
  | some fault =>
    constructor
    · intro h
      obtain ⟨rfl, rfl⟩ := EStateM.Result.error.inj h
      obtain ⟨earlier, later, hsplit, hearlier⟩ := (hsome fault).1 hfind
      exact ⟨⟨earlier, fault, later, hsplit, hearlier, rfl⟩, rfl⟩
    · rintro ⟨⟨earlier, fault', later, hsplit, hearlier, rfl⟩, rfl⟩
      obtain rfl := Option.some.inj
        (hfind.symm.trans ((hsome fault').2 ⟨earlier, later, hsplit, hearlier⟩))
      rfl

/-- **Items are isolated from each other**: what a pass over items of work has done when it
answers, with the moves of its run in the order of time, the faults of the items in the
order of the list, and the state that is left. -/
structure Isolates (pass : Pass) (works : List (Work σ)) (s : σ)
    (answer : EStateM.Result TransformError σ Unit)
    (trace : List (Nat × Move σ (Option Fault))) (faults : List (Option Fault)) (s' : σ) :
    Prop where
  /-- Every item has ended. -/
  length_eq : faults.length = works.length
  /-- Every move is one of an item. -/
  lt_length : ∀ x ∈ trace, x.1 < works.length
  /-- Every item is begun once and then makes all the moves of its work up to its end. -/
  runs_once : ∀ w (hw : w < works.length), ∃ moves fault?, faults[w]? = some fault? ∧
    ownSteps w trace = .begins :: moves ∧ works[w].Executes moves fault?
  /-- The state that is left is what the moves have made of the first one. -/
  leads : Leads s (trace.map (·.2)) s'
  /-- The pass succeeds exactly when no item met a fault. -/
  ok_iff : ∀ s'', answer = .ok () s'' ↔ (∀ fault? ∈ faults, fault? = none) ∧ s'' = s'
  /-- Otherwise the fault of the first item in the order of the list is reported. -/
  error_iff : ∀ error s'', answer = .error error s'' ↔
    (∃ earlier fault later, faults = earlier ++ some fault :: later ∧
      (∀ fault? ∈ earlier, fault? = none) ∧ error = .workerFailed pass fault.message) ∧ s'' = s'

/-- **Calls with their faults caught** isolate the items, whoever makes them. -/
theorem isolates_of_collects {works : List (Work σ)}
    (h : Collects (works.map Work.caught) s trace faults s') :
    Isolates pass works s (verdict pass faults s') trace faults s' where
  length_eq := by rw [h.length_eq, List.length_map]
  lt_length x hx := (h.lt_length x hx).trans_eq (List.length_map _)
  runs_once w hw := by
    obtain ⟨moves, fault?, hfault, hown, hexecutes⟩ :=
      h.made_once w (hw.trans_eq (List.length_map _).symm)
    rw [List.getElem_map] at hexecutes
    exact ⟨moves, fault?, hfault, hown, Work.executes_of_caught hexecutes⟩
  leads := h.leads
  ok_iff _ := verdict_eq_ok_iff
  error_iff _ _ := verdict_eq_error_iff

/-! ### The paths of a pass -/

section Paths

variable {map : ParallelMap σ (Option Fault)} {pools : Pools σ}

/-- **Whoever collects in order** isolates the items. -/
theorem exists_isolates (hmap : map.CollectsInOrder) (pass : Pass) (work : ι → Work σ)
    (items : List ι) (s : σ) : ∃ trace faults s',
    Isolates pass (items.map work) s (runBy map pass work items s) trace faults s' := by
  obtain ⟨trace, hcollects⟩ := hmap (items.map fun item => (work item).caught) s
  refine ⟨trace, _, _, isolates_of_collects ?_⟩
  rw [List.map_map]
  exact hcollects

theorem caller_collectsInOrder (hpools : pools.CollectInOrder) (crew : Crew) (count : Nat) :
    (pools.caller crew count).CollectsInOrder := by
  unfold Pools.caller
  split_ifs
  · exact Call.inTurn_collectsInOrder
  · exact hpools.own
  · exact hpools.shared

/-- How the work of an item is divided into steps makes no difference in turn. -/
theorem runBy_inTurn (crew : Crew) (pass : Pass) (work : ι → Work σ) (items : List ι) (s : σ) :
    runBy Call.inTurn pass work items s =
      run crew pass (fun item => (work item).alone) items s := by
  have hcalls : Call.inTurn (items.map fun item => (work item).caught) s =
      outcomes (fun item => (work item).alone) items s := by
    induction items generalizing s with
    | nil => rfl
    | cons item items ih =>
      rw [List.map_cons, Call.inTurn, Work.alone_caught, outcomes_cons]
      simp only [ih]
  rw [run_eq_verdict, ← hcalls]
  rfl

/-- **One item, or none**, is run alike by whoever makes the call. -/
theorem runBy_of_length_le_one (hmap : map.CollectsInOrder) (pass : Pass) (work : ι → Work σ)
    (hone : items.length ≤ 1) (s : σ) :
    runBy map pass work items s = runBy Call.inTurn pass work items s := by
  obtain ⟨_, hcollects⟩ := hmap (items.map fun item => (work item).caught) s
  have hturn := hcollects.eq_inTurn ((List.length_map _).trans_le hone)
  unfold runBy
  rw [← hturn]

end Paths

/-! ### Isolation -/

/-- **A pass isolates its items**, for every crew, every list of items and every work that
they do, with faults of any items at any of their steps, and for all pools that collect in
order.

* Every item is run once, and the answer is that of the first item of the list that met a
  fault.
* The path makes no difference to this: it holds of the calling thread and of either pool,
  however many items there are. One item, or none, is answered alike on all of them.
* Items that are run in turn are answered as a call of the transform runs them.
* A fault that was raised is reported in its own words, or in fixed ones if it has none. -/
theorem dispatch_isolates {pools : Pools σ} (hpools : pools.CollectInOrder) (crew : Crew)
    (pass : Pass) (work : ι → Work σ) (items : List ι) (s : σ) :
    (∃ trace faults s', Isolates pass (items.map work) s
      (dispatch pools crew pass work items s) trace faults s') ∧
    (∀ map ∈ ([Call.inTurn, pools.own, pools.shared] : List (ParallelMap σ (Option Fault))),
      (∃ trace faults s', Isolates pass (items.map work) s
        (runBy map pass work items s) trace faults s') ∧
      (items.length ≤ 1 → runBy map pass work items s = dispatch pools crew pass work items s)) ∧
    runBy Call.inTurn pass work items s =
      run crew pass (fun item => (work item).alone) items s ∧
    (∀ message, (Fault.raised (.text message)).message = message) ∧
    (Fault.raised .wordless).message = "unknown panic payload" := by
  have hcaller := caller_collectsInOrder hpools crew items.length
  refine ⟨exists_isolates hcaller pass work items s, fun map hmap => ?_,
    runBy_inTurn crew pass work items s, fun _ => rfl, rfl⟩
  have hcollects : ParallelMap.CollectsInOrder map := by
    simp only [List.mem_cons, List.not_mem_nil, or_false] at hmap
    obtain rfl | rfl | rfl := hmap
    · exact Call.inTurn_collectsInOrder
    · exact hpools.own
    · exact hpools.shared
  refine ⟨exists_isolates hcollects pass work items s, fun hone => ?_⟩
  exact (runBy_of_length_le_one hcollects pass work hone s).trans
    (runBy_of_length_le_one hcaller pass work hone s).symm

/-- Two of three items meet a fault, the last one after a step. A pool that makes the calls
backwards meets the fault of the last one first in time, and still the first one of the list
is reported, with everything done that came before a fault. -/
theorem dispatch_isolates_of_three :
    Pools.CollectInOrder (σ := List Nat) ⟨Call.backwards, Call.inTurn⟩ ∧
    dispatch ⟨Call.backwards, Call.inTurn⟩ ⟨.own 2, 4⟩ .middle id
        [.act (0 :: ·) fun _ => .finished, .failed (.raised .wordless),
          .act (2 :: ·) fun _ => .failed (.raised (.text "late"))] [] =
      .error (.workerFailed .middle "unknown panic payload") [0, 2] ∧
    ∃ trace faults s', Isolates .middle
        [.act (0 :: ·) fun _ => .finished, .failed (.raised .wordless),
          .act (2 :: ·) fun _ => .failed (.raised (.text "late"))] []
        (.error (.workerFailed .middle "unknown panic payload") [0, 2]) trace faults s' :=
  have hpools : Pools.CollectInOrder (σ := List Nat) ⟨Call.backwards, Call.inTurn⟩ :=
    ⟨Call.backwards_collectsInOrder, Call.inTurn_collectsInOrder⟩
  ⟨hpools, rfl, (dispatch_isolates hpools ⟨.own 2, 4⟩ .middle id
    [.act (0 :: ·) fun _ => .finished, .failed (.raised .wordless),
      .act (2 :: ·) fun _ => .failed (.raised (.text "late"))] []).1⟩

end Roster

end CosineTransform
