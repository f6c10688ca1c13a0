import CosineTransform.Failure

/-!
# Crews

How many workers may share a pass. A crew either works on the threads that the
whole process shares, all of them or at most some number, or it has threads of its
own, which the host has to start. No crew can be asked to have no workers.
-/

namespace CosineTransform

/-- The workers that a caller asks for. -/
inductive Staffing where
  /-- All threads that the process shares. -/
  | shared
  /-- A given number of threads of the crew's own. -/
  | own (count : Nat)
  /-- The shared threads, but at most a given number of them. -/
  | atMost (count : Nat)
deriving DecidableEq, Inhabited

namespace Staffing

/-- The written form of a staffing. -/
def text : Staffing → String
  | shared => "Auto"
  | own count => "Exact(" ++ toString count ++ ")"
  | atMost count => "Max(" ++ toString count ++ ")"

/-- The staffing asks for no workers at all. -/
def IsEmpty (s : Staffing) : Prop :=
  s = own 0 ∨ s = atMost 0

instance (s : Staffing) : Decidable s.IsEmpty :=
  inferInstanceAs (Decidable (_ ∨ _))

end Staffing

/-- Where a crew is hired: what the process and the system under it have to offer. -/
structure Host where
  /-- The threads that the process shares. -/
  threads : Nat
  /-- Starting a number of threads of a crew's own, which may fail for a reason. -/
  start : Nat → Except String Unit

/-- A host that starts all the threads it is asked for. -/
def Host.willing (threads : Nat) : Host where
  threads := threads
  start := fun _ => .ok ()

/-- Workers as they were asked for, next to the threads that the process shares. -/
structure Crew where
  staffing : Staffing
  sharedThreads : Nat
deriving DecidableEq, Inhabited

namespace Crew

/-- The crew for a staffing, which has to ask for a worker. Threads of its own have to
be started. -/
def hire (host : Host) (staffing : Staffing) : Attempt Crew :=
  if staffing.IsEmpty then .refuse (.noWorkers 0)
  else
    match staffing with
    | .own count =>
        match host.start count with
        | .ok _ => .ok ⟨staffing, host.threads⟩
        | .error reason => .refuse (.crewUnavailable reason)
    | _ => .ok ⟨staffing, host.threads⟩

/-- A staffing that a crew is hired for: it asks for a worker, and threads of the crew's own
are started. -/
structure CanHire (host : Host) (staffing : Staffing) : Prop where
  asks : ¬ staffing.IsEmpty
  starts : ∀ count, staffing = .own count → host.start count = .ok ()

/-- A willing host provides every crew that asks for a worker. -/
theorem canHire_willing {threads : Nat} {staffing : Staffing} (h : ¬ staffing.IsEmpty) :
    CanHire (.willing threads) staffing :=
  ⟨h, fun _ _ => rfl⟩

theorem hire_eq_ok_iff {host : Host} {staffing : Staffing} {crew : Crew} :
    hire host staffing = .ok crew ↔ CanHire host staffing ∧ crew = ⟨staffing, host.threads⟩ := by
  unfold hire
  constructor
  · intro h
    by_cases hempty : staffing.IsEmpty
    · rw [if_pos hempty] at h
      cases h
    · rw [if_neg hempty] at h
      cases staffing with
      | own count =>
        cases hstart : host.start count with
        | error reason => simp [hstart, Attempt.refuse] at h
        | ok u =>
          simp only [hstart] at h
          refine ⟨⟨hempty, ?_⟩, (Except.ok.inj h).symm⟩
          rintro _ ⟨⟩
          exact hstart
      | shared => exact ⟨⟨hempty, by rintro _ ⟨⟩⟩, (Except.ok.inj h).symm⟩
      | atMost count => exact ⟨⟨hempty, by rintro _ ⟨⟩⟩, (Except.ok.inj h).symm⟩
  · rintro ⟨hcan, rfl⟩
    rw [if_neg hcan.asks]
    cases staffing with
    | own count => simp only [hcan.starts count rfl]
    | shared => rfl
    | atMost count => rfl

/-- The crew has threads of its own. -/
def hasOwnThreads (c : Crew) : Bool :=
  match c.staffing with
  | .own _ => true
  | _ => false

/-- The number of workers. -/
def workers (c : Crew) : Nat :=
  match c.staffing with
  | .shared => c.sharedThreads
  | .own count => count
  | .atMost count => min count c.sharedThreads

end Crew

end CosineTransform
