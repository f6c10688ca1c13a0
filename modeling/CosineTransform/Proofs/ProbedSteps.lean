import Mathlib
import CosineTransform.Proofs.Journals
import CosineTransform.Proofs.Simulation

/-!
# Steps on a probed row store

A step on a row store with a journal is the step on the store inside, with its access
written down (`PassJob.step_probed`): when the journal raises nothing, the step does to
the store inside and to the bench what it did without a journal, and when the journal
raises a payload, the step ends in this payload and leaves both as they were. The access
is recorded either way.

The proof takes a step apart into its actions. Each of them succeeded without the journal
(`bind_eq_ok_iff` and its companions), and the only one that can tell the difference is
the one access to the rows.
-/

namespace CosineTransform

/-! ### Actions that have succeeded -/

namespace Workspace

variable {R T α : Type} {rows rows' : R} {bench bench' : Bench T} {a : α}

/-- An action in two parts succeeds exactly when both parts do. -/
theorem bind_eq_ok_iff {σ ε β : Type} {x : EStateM ε σ α} {f : α → EStateM ε σ β} {b : β}
    {s s'' : σ} :
    (x >>= f) s = .ok b s'' ↔ ∃ a s', x s = .ok a s' ∧ f a s' = .ok b s'' := by
  constructor
  · intro h
    cases hx : x s with
    | ok a s' => exact ⟨a, s', rfl, (bind_of_ok hx).symm.trans h⟩
    | error e s' => cases (bind_of_error hx).symm.trans h
  · rintro ⟨a, s', hx, hf⟩
    exact (bind_of_ok hx).trans hf

theorem lift_eq_ok_iff {σ : Type} {x : Checked α} {s s' : σ} :
    Checked.lift x s = .ok a s' ↔ x = .ok a ∧ s' = s := by
  cases x with
  | ok b => simp [eq_comm]
  | error f => simp

theorem onRows_eq_ok_iff {act : EStateM Fault R α} {st : Workspace R T} :
    onRows act (⟨rows, bench⟩ : Workspace R T) = .ok a st ↔
      ∃ rows', act rows = .ok a rows' ∧ st = ⟨rows', bench⟩ := by
  unfold onRows
  dsimp only
  cases act rows with
  | ok b rows'' => simp [eq_comm]
  | error f rows'' => simp

theorem onBench_eq_ok_iff {act : EStateM Fault (Bench T) α} {st : Workspace R T} :
    onBench act (⟨rows, bench⟩ : Workspace R T) = .ok a st ↔
      ∃ bench', act bench = .ok a bench' ∧ st = ⟨rows, bench'⟩ := by
  unfold onBench
  dsimp only
  cases act bench with
  | ok b bench'' => simp [eq_comm]
  | error f bench'' => simp

section Binds

variable {β : Type} {b : β} {st st' : Workspace R T}

theorem lift_bind_eq_ok_iff {x : Checked α} {f : α → EStateM Fault (Workspace R T) β} :
    (Checked.lift x >>= f) st = .ok b st' ↔ ∃ a, x = .ok a ∧ f a st = .ok b st' := by
  rw [bind_eq_ok_iff]
  constructor
  · rintro ⟨a, s, hlift, hf⟩
    obtain ⟨hx, rfl⟩ := lift_eq_ok_iff.1 hlift
    exact ⟨a, hx, hf⟩
  · rintro ⟨a, hx, hf⟩
    exact ⟨a, st, lift_of_ok hx st, hf⟩

theorem onRows_bind_eq_ok_iff {act : EStateM Fault R α}
    {f : α → EStateM Fault (Workspace R T) β} :
    (onRows act >>= f) ⟨rows, bench⟩ = .ok b st' ↔
      ∃ a rows', act rows = .ok a rows' ∧ f a ⟨rows', bench⟩ = .ok b st' := by
  rw [bind_eq_ok_iff]
  constructor
  · rintro ⟨a, s, hx, hf⟩
    obtain ⟨rows', hact, rfl⟩ := onRows_eq_ok_iff.1 hx
    exact ⟨a, rows', hact, hf⟩
  · rintro ⟨a, rows', hact, hf⟩
    exact ⟨a, _, onRows_of_ok hact, hf⟩

theorem onBench_bind_eq_ok_iff {act : EStateM Fault (Bench T) α}
    {f : α → EStateM Fault (Workspace R T) β} :
    (onBench act >>= f) ⟨rows, bench⟩ = .ok b st' ↔
      ∃ a bench', act bench = .ok a bench' ∧ f a ⟨rows, bench'⟩ = .ok b st' := by
  rw [bind_eq_ok_iff]
  constructor
  · rintro ⟨a, s, hx, hf⟩
    obtain ⟨bench', hact, rfl⟩ := onBench_eq_ok_iff.1 hx
    exact ⟨a, bench', hact, hf⟩
  · rintro ⟨a, bench', hact, hf⟩
    exact ⟨a, _, onBench_of_ok hact, hf⟩

end Binds

end Workspace

namespace Bench

variable {T : Type} {b b' : Bench T} {window : Window}

/-- Reading a spectrum leaves the bench as it is. -/
theorem eq_of_spectrum_eq_ok {spectrum : Array (Cartesian T)}
    (h : Bench.spectrum window b = .ok spectrum b') : b' = b := by
  unfold Bench.spectrum at h
  dsimp only at h
  split at h
  · cases h
    rfl
  · cases h

/-- Reading a slot leaves the bench as it is. -/
theorem eq_of_slot_eq_ok {m : Nat} {x : T} (h : Bench.slot window m b = .ok x b') : b' = b := by
  unfold Bench.slot at h
  split at h
  · cases h
  · split at h
    · cases h
      rfl
    · cases h

end Bench

/-! ### Probed accesses -/

namespace Journal

/-- The journal after a step, which records its access if there is one. -/
def afterStep (j : Journal) (x : Step) : Journal :=
  j.after x.access?.toList

/-- The fault that a step meets in the journal. -/
def faultOf (j : Journal) (x : Step) : Option Fault :=
  x.access?.bind fun a => (j.raises a).map .raised

end Journal

namespace ProbedStore

variable {R T α : Type} {inside inside' : R} {bench : Bench T} {j : Journal} {a : Access}
  {act : EStateM Fault R α} {answer : α}

/-- An access that raises nothing is made on the store inside. -/
theorem onRows_probe_of_none (hj : j.raises a = none) (h : act inside = .ok answer inside') :
    Workspace.onRows (probe a act) (⟨⟨inside, j⟩, bench⟩ : Workspace (ProbedStore R) T) =
      .ok answer ⟨⟨inside', j.after [a]⟩, bench⟩ := by
  refine Workspace.onRows_of_ok ?_
  unfold probe
  dsimp only
  rw [Journal.visit_eq, hj]
  dsimp only
  rw [h]

/-- An access that raises a payload is not made. -/
theorem onRows_probe_of_some {payload : Payload} (hj : j.raises a = some payload) :
    Workspace.onRows (probe a act) (⟨⟨inside, j⟩, bench⟩ : Workspace (ProbedStore R) T) =
      .error (.raised payload) ⟨⟨inside, j.after [a]⟩, bench⟩ := by
  unfold Workspace.onRows probe
  dsimp only
  rw [Journal.visit_eq, hj]

end ProbedStore

/-! ### Probed steps -/

namespace PassJob

open Workspace ProbedStore

variable {R T W : Type} [Precision W] [Sample T W] [RowStore R T] {job : PassJob T}
  {region : Region} {inside inside' : R} {bench bench' : Bench T}

/-- What a step becomes when the journal takes part in it. -/
def Probed (job : PassJob T) (region : Region) (x : Step) (inside inside' : R)
    (bench bench' : Bench T) : Prop :=
  ∀ j : Journal,
    (j.faultOf x = none → job.step region x (⟨⟨inside, j⟩, bench⟩ : Workspace (ProbedStore R) T) =
      .ok () ⟨⟨inside', j.afterStep x⟩, bench'⟩) ∧
    ∀ fault, j.faultOf x = some fault →
      job.step region x (⟨⟨inside, j⟩, bench⟩ : Workspace (ProbedStore R) T) =
        .error fault ⟨⟨inside, j.afterStep x⟩, bench⟩

theorem row_probed {i k : Nat}
    (h : job.step region (.row i k) ⟨inside, bench⟩ = .ok () ⟨inside', bench'⟩) :
    job.Probed region (.row i k) inside inside' bench bench' := by
  unfold step at h
  dsimp only at h
  obtain ⟨window, hwindow, h⟩ := lift_bind_eq_ok_iff.1 h
  obtain ⟨spectrum, b, hspectrum, hlast⟩ := onBench_bind_eq_ok_iff.1 h
  obtain rfl := Bench.eq_of_spectrum_eq_ok hspectrum
  obtain ⟨worked, rows, hmodify, hlast⟩ := onRows_bind_eq_ok_iff.1 hlast
  obtain ⟨b', hset, heq⟩ := onBench_eq_ok_iff.1 hlast
  obtain ⟨rfl, rfl⟩ := Workspace.mk.inj heq
  intro j
  constructor
  · intro hj
    have hraises : j.raises (.row i k) = none := Option.map_eq_none_iff.1 hj
    unfold step
    dsimp only
    rw [bind_of_ok (lift_of_ok hwindow _), bind_of_ok (onBench_of_ok hspectrum)]
    exact (bind_of_ok (onRows_probe_of_none hraises hmodify)).trans (onBench_of_ok hset)
  · intro fault hj
    obtain ⟨payload, hraises, rfl⟩ := Option.map_eq_some_iff.1 hj
    unfold step
    dsimp only
    rw [bind_of_ok (lift_of_ok hwindow _), bind_of_ok (onBench_of_ok hspectrum)]
    exact bind_of_error (onRows_probe_of_some hraises)

theorem load_probed {i j k slot : Nat}
    (h : job.step region (.load i j k slot) ⟨inside, bench⟩ = .ok () ⟨inside', bench'⟩) :
    job.Probed region (.load i j k slot) inside inside' bench bench' := by
  unfold step at h
  dsimp only at h
  obtain ⟨window, hwindow, h⟩ := lift_bind_eq_ok_iff.1 h
  obtain ⟨value, rows, hload, h⟩ := onRows_bind_eq_ok_iff.1 h
  obtain ⟨b', hset, heq⟩ := onBench_eq_ok_iff.1 h
  obtain ⟨rfl, rfl⟩ := Workspace.mk.inj heq
  intro journal
  constructor
  · intro hj
    have hraises : journal.raises (.load i j k) = none := Option.map_eq_none_iff.1 hj
    unfold step
    dsimp only
    rw [bind_of_ok (lift_of_ok hwindow _)]
    exact (bind_of_ok (onRows_probe_of_none hraises hload)).trans (onBench_of_ok hset)
  · intro fault hj
    obtain ⟨payload, hraises, rfl⟩ := Option.map_eq_some_iff.1 hj
    unfold step
    dsimp only
    rw [bind_of_ok (lift_of_ok hwindow _)]
    exact bind_of_error (onRows_probe_of_some hraises)

theorem store_probed {i j k slot : Nat}
    (h : job.step region (.store i j k slot) ⟨inside, bench⟩ = .ok () ⟨inside', bench'⟩) :
    job.Probed region (.store i j k slot) inside inside' bench bench' := by
  unfold step at h
  dsimp only at h
  obtain ⟨window, hwindow, h⟩ := lift_bind_eq_ok_iff.1 h
  obtain ⟨value, b, hslot, hlast⟩ := onBench_bind_eq_ok_iff.1 h
  obtain rfl := Bench.eq_of_slot_eq_ok hslot
  obtain ⟨rows, hstore, heq⟩ := onRows_eq_ok_iff.1 hlast
  obtain ⟨rfl, rfl⟩ := Workspace.mk.inj heq
  intro journal
  constructor
  · intro hj
    have hraises : journal.raises (.store i j k) = none := Option.map_eq_none_iff.1 hj
    unfold step
    dsimp only
    rw [bind_of_ok (lift_of_ok hwindow _), bind_of_ok (onBench_of_ok hslot)]
    exact onRows_probe_of_none hraises hstore
  · intro fault hj
    obtain ⟨payload, hraises, rfl⟩ := Option.map_eq_some_iff.1 hj
    unfold step
    dsimp only
    rw [bind_of_ok (lift_of_ok hwindow _), bind_of_ok (onBench_of_ok hslot)]
    exact onRows_probe_of_some hraises

/-- A line is transformed on the bench, where no journal is kept. -/
theorem line_probed {c : Nat}
    (h : job.step region (.line c) ⟨inside, bench⟩ = .ok () ⟨inside', bench'⟩) :
    job.Probed region (.line c) inside inside' bench bench' := by
  unfold step at h
  dsimp only at h
  obtain ⟨bundle, hbundle, h⟩ := lift_bind_eq_ok_iff.1 h
  obtain ⟨place, hplace, h⟩ := lift_bind_eq_ok_iff.1 h
  obtain ⟨window, hwindow, h⟩ := lift_bind_eq_ok_iff.1 h
  obtain ⟨line, b, hline, h⟩ := onBench_bind_eq_ok_iff.1 h
  obtain ⟨spectrum, b, hspectrum, h⟩ := onBench_bind_eq_ok_iff.1 h
  obtain ⟨worked, hcall, h⟩ := lift_bind_eq_ok_iff.1 h
  obtain ⟨u, b, hset, h⟩ := onBench_bind_eq_ok_iff.1 h
  obtain ⟨b, hset', heq⟩ := onBench_eq_ok_iff.1 h
  obtain ⟨rfl, rfl⟩ := Workspace.mk.inj heq
  intro j
  refine ⟨fun _ => ?_, nofun⟩
  unfold step
  dsimp only
  rw [bind_of_ok (lift_of_ok hbundle _), bind_of_ok (lift_of_ok hplace _),
    bind_of_ok (lift_of_ok hwindow _), bind_of_ok (onBench_of_ok hline),
    bind_of_ok (onBench_of_ok hspectrum), bind_of_ok (lift_of_ok hcall _),
    bind_of_ok (onBench_of_ok hset)]
  exact onBench_of_ok hset'

/-- **A step with a journal**, from the step without one. -/
theorem step_probed {x : Step}
    (h : job.step region x ⟨inside, bench⟩ = .ok () ⟨inside', bench'⟩) :
    job.Probed region x inside inside' bench bench' := by
  cases x with
  | row i j => exact row_probed h
  | load i j k slot => exact load_probed h
  | line c => exact line_probed h
  | store i j k slot => exact store_probed h

end PassJob

end CosineTransform
