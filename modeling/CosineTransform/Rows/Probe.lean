import CosineTransform.Rows.Store

/-!
# Probed row stores

A row store whose accesses are written down in a **journal** and can be arranged
to fail. Each access is recorded first; then, if a failure is arranged for this
visit, it raises its payload, before anything is read or written; otherwise the
access goes to the store inside. Each arrangement counts its visits from one, over
the whole life of the journal.
-/

namespace CosineTransform

/-- An access to a row store. -/
inductive Access where
  | row (i j : Nat)
  | load (i j k : Nat)
  | store (i j k : Nat)
deriving DecidableEq, Inhabited

namespace Access

/-- The written form of an access. -/
def text : Access → String
  | row i j => "R " ++ toString i ++ " " ++ toString j
  | load i j k => "L " ++ toString i ++ " " ++ toString j ++ " " ++ toString k
  | store i j k => "S " ++ toString i ++ " " ++ toString j ++ " " ++ toString k

end Access

/-- An arranged failure: visit number `visit` of an access raises a payload. -/
structure Arranged where
  access : Access
  visit : Nat
  payload : Payload
  /-- The visits of the access so far. -/
  seen : Nat
deriving Inhabited

/-- The accesses made so far and the failures arranged. -/
structure Journal where
  accesses : Array Access
  arranged : List Arranged
deriving Inhabited

namespace Journal

/-- An empty journal without arranged failures. -/
def empty : Journal :=
  ⟨#[], []⟩

/-- **An access meets the arrangements** one after the other. Each arrangement for
the access counts the visit; the one whose visit it is raises its payload, and
those behind it do not come to see this visit. -/
def meet (a : Access) : List Arranged → Option Payload × List Arranged
  | [] => (none, [])
  | p :: ps =>
      if p.access = a then
        let p := { p with seen := p.seen + 1 }
        if p.seen = p.visit then (some p.payload, p :: ps)
        else
          let (raised, ps) := meet a ps
          (raised, p :: ps)
      else
        let (raised, ps) := meet a ps
        (raised, p :: ps)

/-- The journal after an access, which is recorded first, and what the access
raises. -/
def visit (j : Journal) (a : Access) : Option Payload × Journal :=
  let (raised, arranged) := meet a j.arranged
  (raised, ⟨j.accesses.push a, arranged⟩)

/-- The journal without the accesses made so far. -/
def cleared (j : Journal) : Journal :=
  { j with accesses := #[] }

end Journal

/-- A row store with a journal. -/
structure ProbedStore (R : Type) where
  inside : R
  journal : Journal

namespace ProbedStore

variable {R T α : Type}

/-- An access that is recorded, may be arranged to fail, and otherwise acts on
the store inside. -/
def probe (a : Access) (act : EStateM Fault R α) : EStateM Fault (ProbedStore R) α :=
  fun ⟨inside, journal⟩ =>
    match journal.visit a with
    | (some payload, journal) => .error (.raised payload) ⟨inside, journal⟩
    | (none, journal) =>
        match act inside with
        | .ok x inside => .ok x ⟨inside, journal⟩
        | .error f inside => .error f ⟨inside, journal⟩

instance [RowStore R T] : RowStore (ProbedStore R) T where
  shape s := RowStore.shape s.inside
  load i j k := probe (.load i j k) (RowStore.load i j k)
  store i j k value := probe (.store i j k) (RowStore.store i j k value)
  modifyRow i j change := probe (.row i j) (RowStore.modifyRow i j change)

end ProbedStore

end CosineTransform
