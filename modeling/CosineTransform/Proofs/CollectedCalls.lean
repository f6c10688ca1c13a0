import Mathlib
import CosineTransform.Proofs.Interleaving
import CosineTransform.Work.ParallelMap

/-!
# What is assumed of a pool

A pool of threads is any map of calls to what they return (`ParallelMap`). One thing is
assumed of it, `ParallelMap.CollectsInOrder`: every call of the list is made once, what the
calls return comes in the order of the list, and nothing but the calls acts on the state. The
calls may be taken up in any order, and the steps of one may come between the steps of
another: of time, the assumption says no more than that a pool answers after the last of them.

* `Move` is what a thread does with a call, and `Call.Executes` says which moves make up a
  call. A step is made on whatever state the others have left, so the moves of a call are not
  told by the call alone.
* `Leads` puts the moves of all calls together, in the order of time.
* `Collects` is what a pool has done when it answers.

Calls that are made one after the other are collected in order (`Call.inTurn_collectsInOrder`),
and a single call leaves a pool no choice (`Collects.eq_inTurn`).
-/

namespace CosineTransform

variable {σ β : Type}

/-! ### Moves -/

/-- What a thread does with a call. -/
inductive Move (σ β : Type) where
  | begins
  | acts (before after : σ)
  | ends (value : β)

/-- **The moves that make up a call** once it is begun, and what it returns. -/
inductive Call.Executes : Call σ β → List (Move σ β) → β → Prop where
  | returns {value : β} : Executes (.returns value) [.ends value] value
  | act {effect : σ → σ} {rest : σ → Call σ β} {s : σ} {moves : List (Move σ β)} {value : β}
      (h : Executes (rest s) moves value) :
      Executes (.act effect rest) (.acts s (effect s) :: moves) value

/-- **Moves in a row lead** from a state to another one: each step is made on the state that
the one before it left, whichever calls they belong to. -/
inductive Leads : σ → List (Move σ β) → σ → Prop where
  | nil {s : σ} : Leads s [] s
  | begins {s s' : σ} {moves : List (Move σ β)} (h : Leads s moves s') :
      Leads s (.begins :: moves) s'
  | acts {before after s' : σ} {moves : List (Move σ β)} (h : Leads after moves s') :
      Leads before (.acts before after :: moves) s'
  | ends {s s' : σ} {moves : List (Move σ β)} {value : β} (h : Leads s moves s') :
      Leads s (.ends value :: moves) s'

theorem Leads.trans {s s' s'' : σ} {moves moves' : List (Move σ β)} (h : Leads s moves s')
    (h' : Leads s' moves' s'') : Leads s (moves ++ moves') s'' := by
  induction h with
  | nil => exact h'
  | begins _ ih => exact .begins (ih h')
  | acts _ ih => exact .acts (ih h')
  | ends _ ih => exact .ends (ih h')

namespace Call

/-- A call made without a break. -/
theorem exists_executes (call : Call σ β) (s : σ) :
    ∃ moves, call.Executes moves (call.alone s).1 ∧ Leads s moves (call.alone s).2 := by
  induction call generalizing s with
  | returns value => exact ⟨[.ends value], .returns, .ends .nil⟩
  | act effect rest ih =>
    obtain ⟨moves, hexecutes, hleads⟩ := ih s (effect s)
    exact ⟨.acts s (effect s) :: moves, .act hexecutes, .acts hleads⟩

/-- **A call that nobody interferes with** is the call made without a break. -/
theorem Executes.alone_eq {call : Call σ β} {moves : List (Move σ β)} {value : β}
    (h : call.Executes moves value) {s s' : σ} (hleads : Leads s moves s') :
    call.alone s = (value, s') := by
  induction h generalizing s with
  | returns =>
    obtain _ | _ | _ | ⟨⟨⟩⟩ := hleads
    rfl
  | act _ ih =>
    obtain _ | _ | ⟨hrest⟩ := hleads
    exact ih hrest

end Call

/-! ### Calls collected in order -/

/-- **What a pool has done** when it answers: its moves in the order of time, what the calls
returned in the order of the list, and the state that is left. -/
structure Collects (calls : List (Call σ β)) (s : σ) (trace : List (Nat × Move σ β))
    (values : List β) (s' : σ) : Prop where
  /-- Every call has returned. -/
  length_eq : values.length = calls.length
  /-- Every move is one of a call. -/
  lt_length : ∀ x ∈ trace, x.1 < calls.length
  /-- Every call is begun once, and what it returns is found in its place. -/
  made_once : ∀ w (hw : w < calls.length), ∃ moves value, values[w]? = some value ∧
    ownSteps w trace = .begins :: moves ∧ calls[w].Executes moves value
  /-- The state that is left is what the moves have made of the first one. -/
  leads : Leads s (trace.map (·.2)) s'

/-- **The assumption on a pool**: it makes each call once and collects what the calls return
in the order of the list. -/
def ParallelMap.CollectsInOrder (map : ParallelMap σ β) : Prop :=
  ∀ calls s, ∃ trace, Collects calls s trace (map calls s).1 (map calls s).2

namespace Collects

variable {call : Call σ β} {calls : List (Call σ β)} {s s' : σ} {values : List β}
  {trace : List (Nat × Move σ β)}

theorem nil : Collects ([] : List (Call σ β)) s [] [] s where
  length_eq := rfl
  lt_length _ h := absurd h List.not_mem_nil
  made_once w hw := absurd hw (Nat.not_lt_zero w)
  leads := .nil

/-- **One more call**, whose moves come anywhere among those of the others. -/
theorem cons {s₁ s₂ : σ} {trace' : List (Nat × Move σ β)} {moves : List (Move σ β)} {value : β}
    (h : Collects calls s₁ trace values s₂) (hexecutes : call.Executes moves value)
    (hown : ownSteps 0 trace' = .begins :: moves)
    (hothers : ∀ w, ownSteps (w + 1) trace' = ownSteps w trace)
    (hleads : Leads s (trace'.map (·.2)) s') :
    Collects (call :: calls) s trace' (value :: values) s' where
  length_eq := by rw [List.length_cons, h.length_eq, List.length_cons]
  lt_length := by
    rintro ⟨w, move⟩ hx
    cases w with
    | zero => exact Nat.succ_pos _
    | succ w =>
      have hmem : move ∈ ownSteps w trace := hothers w ▸ mem_ownSteps.2 hx
      exact Nat.succ_lt_succ (h.lt_length _ (mem_ownSteps.1 hmem))
  made_once w hw := by
    cases w with
    | zero => exact ⟨moves, value, rfl, hown, hexecutes⟩
    | succ w =>
      obtain ⟨moves', value', hvalue, hsteps, hexecutes'⟩ :=
        h.made_once w (Nat.lt_of_succ_lt_succ hw)
      exact ⟨moves', value', hvalue, (hothers w).trans hsteps, hexecutes'⟩
  leads := hleads

/-- Moves of calls that stand one place further back in the list. -/
def behind (trace : List (Nat × Move σ β)) : List (Nat × Move σ β) :=
  trace.map fun x => (x.1 + 1, x.2)

theorem ownSteps_zero_behind (trace : List (Nat × Move σ β)) : ownSteps 0 (behind trace) = [] := by
  refine List.eq_nil_iff_forall_not_mem.2 fun move hmove => ?_
  obtain ⟨x, -, hx⟩ := List.mem_map.1 (mem_ownSteps.1 hmove)
  cases hx

theorem ownSteps_succ_behind (w : Nat) (trace : List (Nat × Move σ β)) :
    ownSteps (w + 1) (behind trace) = ownSteps w trace := by
  simp [ownSteps, behind, List.filter_map, Function.comp_def]

theorem leads_behind (h : Leads s (trace.map (·.2)) s') :
    Leads s ((behind trace).map (·.2)) s' := by
  simpa [behind, Function.comp_def] using h

theorem leads_own {moves : List (Move σ β)} (h : Leads s moves s') :
    Leads s ((moves.map fun move => (0, move)).map (·.2)) s' := by
  simpa [Function.comp_def] using h

/-- A call made before the others. -/
theorem cons_first (h : Collects calls (call.alone s).2 trace values s') :
    ∃ trace', Collects (call :: calls) s trace' ((call.alone s).1 :: values) s' := by
  obtain ⟨moves, hexecutes, hleads⟩ := call.exists_executes s
  refine ⟨(.begins :: moves).map (fun move => (0, move)) ++ behind trace,
    h.cons hexecutes ?_ (fun w => ?_) ?_⟩
  · rw [ownSteps_append, ownSteps_map, if_pos rfl, ownSteps_zero_behind, List.append_nil]
  · rw [ownSteps_append, ownSteps_map, if_neg (Nat.succ_ne_zero w).symm, ownSteps_succ_behind,
      List.nil_append]
  · rw [List.map_append]
    exact (leads_own (.begins hleads)).trans (leads_behind h.leads)

/-- A call made after the others. -/
theorem cons_last {s₁ : σ} (h : Collects calls s trace values s₁) :
    ∃ trace', Collects (call :: calls) s trace' ((call.alone s₁).1 :: values)
      (call.alone s₁).2 := by
  obtain ⟨moves, hexecutes, hleads⟩ := call.exists_executes s₁
  refine ⟨behind trace ++ (.begins :: moves).map (fun move => (0, move)),
    h.cons hexecutes ?_ (fun w => ?_) ?_⟩
  · rw [ownSteps_append, ownSteps_map, if_pos rfl, ownSteps_zero_behind, List.nil_append]
  · rw [ownSteps_append, ownSteps_map, if_neg (Nat.succ_ne_zero w).symm, ownSteps_succ_behind,
      List.append_nil]
  · rw [List.map_append]
    exact (leads_behind h.leads).trans (leads_own (.begins hleads))

/-- **One call, or none**, is made as the calling thread makes it. -/
theorem eq_inTurn (h : Collects calls s trace values s') (hone : calls.length ≤ 1) :
    (values, s') = Call.inTurn calls s := by
  match calls, hone with
  | [], _ =>
    obtain rfl := List.length_eq_zero_iff.1 h.length_eq
    -- There is no call to make a move.
    obtain rfl : trace = [] := List.eq_nil_iff_forall_not_mem.2 fun x hx =>
      absurd (h.lt_length x hx) (Nat.not_lt_zero _)
    cases h.leads
    rfl
  | [call], _ =>
    obtain ⟨moves, value, hvalue, hown, hexecutes⟩ := h.made_once 0 Nat.one_pos
    obtain ⟨only, rfl⟩ := List.length_eq_one_iff.1 h.length_eq
    obtain rfl := Option.some.inj hvalue
    have htrace : trace.map (·.2) = ownSteps 0 trace := by
      unfold ownSteps
      rw [List.filter_eq_self.2 fun x hx => by simpa using h.lt_length x hx]
    have hleads := h.leads
    rw [htrace, hown] at hleads
    obtain _ | ⟨hleads⟩ := hleads
    have halone : call.alone s = (only, s') := hexecutes.alone_eq hleads
    rw [Call.inTurn, halone]
    rfl

end Collects

namespace Call

/-- **Calls one after the other** are collected in order. -/
theorem inTurn_collectsInOrder :
    ParallelMap.CollectsInOrder (inTurn : ParallelMap σ β) := by
  intro calls s
  induction calls generalizing s with
  | nil => exact ⟨[], .nil⟩
  | cons call calls ih =>
    obtain ⟨_, htail⟩ := ih (call.alone s).2
    exact htail.cons_first

/-- Calls made in the order opposite to that of the list. -/
def backwards : ParallelMap σ β
  | [], s => ([], s)
  | call :: calls, s =>
      let (values, s) := backwards calls s
      let (value, s) := call.alone s
      (value :: values, s)

/-- **Calls made backwards** are collected in the order of the list all the same. -/
theorem backwards_collectsInOrder :
    ParallelMap.CollectsInOrder (backwards : ParallelMap σ β) := by
  intro calls s
  induction calls generalizing s with
  | nil => exact ⟨[], .nil⟩
  | cons call calls ih =>
    obtain ⟨_, htail⟩ := ih s
    exact htail.cons_last

end Call

end CosineTransform
