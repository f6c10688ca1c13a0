import CosineTransform.Fault

/-!
# Calls in the hands of a pool

What an item of a pass has to do is **work** (`Work`): steps on a state that others act on as
well, up to an end or to a fault. A pool of threads is not handed work but **calls**
(`Call`), which always return something. Work becomes a call when its fault is caught
(`Work.caught`): the call returns what the work ended in.

A pool maps a list of calls to what they return. How its threads share the calls out, and in
which order they take their steps, is the pool's own affair, so a pool is given as a
`ParallelMap`, any function of this type. The calling thread is one of them: it makes the
calls one after the other (`Call.inTurn`).
-/

namespace CosineTransform

variable {σ β : Type}

/-- The fault that a task meets, if it meets one, and the state that it leaves. -/
def outcome (task : EStateM Fault σ Unit) (s : σ) : Option Fault × σ :=
  match task s with
  | .ok _ s' => (none, s')
  | .error fault s' => (some fault, s')

/-- **Work on a state**, in steps that nothing interrupts. The rest of the work depends on
the state that the step before it found. -/
inductive Work (σ : Type) where
  | finished
  | failed (fault : Fault)
  | act (effect : σ → σ) (rest : σ → Work σ)

/-- **A call** on a state, in steps that nothing interrupts. It always returns. -/
inductive Call (σ β : Type) where
  | returns (value : β)
  | act (effect : σ → σ) (rest : σ → Call σ β)

namespace Call

/-- The call made without a break: what it returns, and the state that it leaves. -/
def alone : Call σ β → σ → β × σ
  | returns value, s => (value, s)
  | act effect rest, s => (rest s).alone (effect s)

/-- Calls made one after the other, in the order of the list. -/
def inTurn : List (Call σ β) → σ → List β × σ
  | [], s => ([], s)
  | call :: calls, s =>
      let (value, s) := call.alone s
      let (values, s) := inTurn calls s
      (value :: values, s)

end Call

namespace Work

/-- **A fault is caught**: work as a call that returns the fault that the work ended in, if
it ended in one. -/
def caught : Work σ → Call σ (Option Fault)
  | finished => .returns none
  | failed fault => .returns (some fault)
  | act effect rest => .act effect fun s => (rest s).caught

/-- Work that is over, with a fault or without one. -/
def ended : Option Fault → Work σ
  | none => finished
  | some fault => failed fault

/-- A task that nothing interrupts, as work of a single step. -/
def once (task : EStateM Fault σ Unit) : Work σ :=
  .act (fun s => (outcome task s).2) fun s => ended (outcome task s).1

/-- A task caught is called in one step, which leaves what the task leaves. -/
@[simp] theorem alone_caught_once (task : EStateM Fault σ Unit) (s : σ) :
    (once task).caught.alone s = outcome task s := by
  unfold once
  simp only [caught, Call.alone]
  cases h : (outcome task s).1 with
  | none => simp only [ended, caught, Call.alone, ← h]
  | some fault => simp only [ended, caught, Call.alone, ← h]

end Work

/-- **A map in parallel**: what a pool of threads makes of a list of calls on a state, which
is a list of values and another state. -/
abbrev ParallelMap (σ β : Type) : Type :=
  List (Call σ β) → σ → List β × σ

end CosineTransform
