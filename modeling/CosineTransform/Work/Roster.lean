import CosineTransform.Work.Crew
import CosineTransform.Work.ParallelMap

/-!
# Rosters

A roster lists the items of work of a pass. Each item is run to its end or to a fault, which
is caught, so that a fault ends the item that meets it and no other: every item is run, and
what the items have done is kept. Afterwards the pass has succeeded if no item met a fault;
otherwise the fault of the item that comes first in the list is reported, under the name of
the pass (`verdict`).

A single item is run on the calling thread. Several are run by a pool (`dispatch`): the one
that the crew has for itself, or else the one that the process shares.
-/

namespace CosineTransform

/-- The pools by which items are run: a crew's own one, and the one that the process
shares. -/
structure Pools (σ : Type) where
  own : ParallelMap σ (Option Fault)
  shared : ParallelMap σ (Option Fault)

/-- Pools that make their calls one after the other. -/
def Pools.inTurn {σ : Type} : Pools σ where
  own := Call.inTurn
  shared := Call.inTurn

/-- Who makes the calls of a pass: the calling thread when there is one at most, and a pool
when there are several. -/
def Pools.caller {σ : Type} (pools : Pools σ) (crew : Crew) (count : Nat) :
    ParallelMap σ (Option Fault) :=
  if count ≤ 1 then Call.inTurn
  else if crew.hasOwnThreads then pools.own
  else pools.shared

@[simp] theorem Pools.caller_inTurn {σ : Type} (crew : Crew) (count : Nat) :
    (inTurn : Pools σ).caller crew count = Call.inTurn := by
  unfold caller inTurn
  simp only [ite_self]

namespace Roster

variable {σ ι : Type}

/-- **The answer** once all items have ended: the first fault in the order of the list is
reported. -/
def verdict (pass : Pass) (faults : List (Option Fault)) : EStateM TransformError σ Unit :=
  fun s => match faults.findSome? id with
    | none => .ok () s
    | some fault => .error (.workerFailed pass fault.message) s

theorem verdict_of_forall_none {faults : List (Option Fault)}
    (h : ∀ fault? ∈ faults, fault? = none) (pass : Pass) (s : σ) :
    verdict pass faults s = .ok () s := by
  have hnone : faults.findSome? id = none := List.findSome?_eq_none_iff.2 h
  rw [verdict, hnone]

/-- **Items are run by a map of calls**, each with its fault caught. -/
def runBy (map : ParallelMap σ (Option Fault)) (pass : Pass) (work : ι → Work σ)
    (items : List ι) : EStateM TransformError σ Unit := fun s =>
  let (faults, s) := map (items.map fun item => (work item).caught) s
  verdict pass faults s

/-- **The items of a pass are run**, on the calling thread or by a pool. -/
def dispatch (pools : Pools σ) (crew : Crew) (pass : Pass) (work : ι → Work σ)
    (items : List ι) : EStateM TransformError σ Unit :=
  runBy (pools.caller crew items.length) pass work items

/-- The items of a pass are run, and no pool interrupts a task or changes the order of the
list. -/
def run (crew : Crew) (pass : Pass) (task : ι → EStateM Fault σ Unit) (items : List ι) :
    EStateM TransformError σ Unit :=
  dispatch .inTurn crew pass (fun item => .once (task item)) items

/-! ### Items in turn -/

/-- The faults of items that are run in the order of the list, each on the state that the
ones before it left, and the state that they leave. -/
def outcomes (task : ι → EStateM Fault σ Unit) (items : List ι) (s : σ) :
    List (Option Fault) × σ :=
  Call.inTurn (items.map fun item => (Work.once (task item)).caught) s

theorem outcomes_cons (task : ι → EStateM Fault σ Unit) (item : ι) (items : List ι) (s : σ) :
    outcomes task (item :: items) s =
      ((outcome (task item) s).1 :: (outcomes task items (outcome (task item) s).2).1,
        (outcomes task items (outcome (task item) s).2).2) := by
  unfold outcomes
  rw [List.map_cons, Call.inTurn, Work.alone_caught_once]

/-- **A run** is answered by what its items ended in, whatever the crew is. -/
theorem run_eq_verdict (crew : Crew) (pass : Pass) (task : ι → EStateM Fault σ Unit)
    (items : List ι) (s : σ) :
    run crew pass task items s =
      verdict pass (outcomes task items s).1 (outcomes task items s).2 := by
  unfold run dispatch
  rw [Pools.caller_inTurn]
  rfl

end Roster

end CosineTransform
