import CosineTransform.Line.Transform
import CosineTransform.Rows.Store
import CosineTransform.Rows.Probe
import CosineTransform.Work.Share
import CosineTransform.Work.Workspace

/-!
# The steps of a pass

What a worker does in a pass is a list of **steps**, fixed before the first of
them is taken: no address depends on the data. A step accesses one row or one
element, or transforms one line in the worker's own region of the bench.

* In the inner pass the lines are rows, and each row is transformed where it lies
  (`Step.row`).
* In the middle and the outer pass a line runs across rows. A bundle of
  neighbouring columns is gathered on the bench (`Step.load`), its lines are
  transformed there (`Step.line`), and it is scattered back (`Step.store`). All
  elements of a bundle are loaded before the first one is stored.

`PassJob.program` is the list of steps for a share of a pass, and `PassJob.run`
takes them one after the other. The first fault ends a worker's run.
-/

namespace CosineTransform

/-- One step of a worker. -/
inductive Step where
  /-- Row `(i, j)` is transformed. -/
  | row (i j : Nat)
  /-- Element `(i, j, k)` is copied to a slot of the gathered bundle. -/
  | load (i j k slot : Nat)
  /-- Line `c` of the gathered bundle is transformed. -/
  | line (c : Nat)
  /-- A slot of the gathered bundle is copied to element `(i, j, k)`. -/
  | store (i j k slot : Nat)
deriving DecidableEq, Inhabited

namespace Step

/-- The access to the row store that a step makes, if it makes one. -/
def access? : Step → Option Access
  | row i j => some (.row i j)
  | load i j k _ => some (.load i j k)
  | line _ => none
  | store i j k _ => some (.store i j k)

end Step

/-- What the workers of a pass have to do. -/
structure PassJob (T : Type) where
  pass : Pass
  transform : LineTransform T
  direction : Direction
  scaled : Bool
  bundle : Bundle
deriving Inhabited

namespace PassJob

variable {R T W : Type}

/-- The work of a pass over a shape. The transform has to be the one for the lines
of the pass. -/
def prepare (pass : Pass) (transform : LineTransform T) (shape : Shape) (direction : Direction)
    (scaled : Bool) : Checked (PassJob T) := do
  require (transform.length = pass.lineLength shape)
    (.sameLength transform.length (pass.lineLength shape))
  return { pass, transform, direction, scaled, bundle := .ofColumns shape.columns }

/-! ### Programs -/

/-- Each element of a bundle with the slot it is gathered in: the bundle starts at
column `k`, its rows are `row t` for `t` below the length, and its lines lie one
after the other on the bench. -/
def cells (job : PassJob T) (row : Nat → Nat × Nat) (k : Nat) : List (Nat × Nat × Nat × Nat) :=
  (List.range job.transform.length).flatMap fun t =>
    (List.range job.bundle.width).map fun c =>
      ((row t).1, (row t).2, k + c, c * job.transform.length + t)

/-- The steps that transform the bundle that starts at column `k`. -/
def bundleSteps (job : PassJob T) (row : Nat → Nat × Nat) (k : Nat) : List Step :=
  (job.cells row k).map (fun (i, j, k, slot) => .load i j k slot) ++
    (List.range job.bundle.width).map .line ++
    (job.cells row k).map (fun (i, j, k, slot) => .store i j k slot)

/-- The columns at which bundles start. -/
def bundleStarts (job : PassJob T) (shape : Shape) : List Nat :=
  Share.visits ⟨0, job.bundle.width, job.bundle.width_pos⟩ shape.columns

/-- The steps for one value of the outer index of the pass. -/
def outerSteps (job : PassJob T) (shape : Shape) (o : Nat) : List Step :=
  match job.pass with
  | .inner => (List.range shape.rows).map fun j => .row o j
  | .middle => (job.bundleStarts shape).flatMap (job.bundleSteps fun j => (o, j))
  | .outer => (job.bundleStarts shape).flatMap (job.bundleSteps fun i => (i, o))

/-- **The program of a share**: the steps for each of its indices in turn. -/
def program (job : PassJob T) (shape : Shape) (share : Share) : List Step :=
  (share.visits (job.pass.outerCount shape)).flatMap (job.outerSteps shape)

/-! ### Running -/

/-- The part of a region's spectrum that a line of the pass needs. -/
def spectrumWindow (job : PassJob T) (region : Region) : Checked Window := do
  require (job.transform.spectrumLength ≤ region.spectrum.size) .spectrumRoom
  return ⟨region.spectrum.start, job.transform.spectrumLength⟩

/-- A line's spectrum lies at the start of a region that has room for it. -/
theorem spectrumWindow_of_le {job : PassJob T} {region : Region}
    (h : job.transform.spectrumLength ≤ region.spectrum.size) :
    job.spectrumWindow region = .ok ⟨region.spectrum.start, job.transform.spectrumLength⟩ := by
  unfold spectrumWindow
  rw [require_of h]
  rfl

/-- The part of a region in which a bundle of the pass is gathered. -/
def bundleWindow (job : PassJob T) (region : Region) : Checked Window :=
  region.bundleWindow job.bundle.width job.transform.length

/-- One step, in the region of its worker. -/
def step [Precision W] [Sample T W] [RowStore R T] (job : PassJob T) (region : Region) :
    Step → EStateM Fault (Workspace R T) Unit
  | .row i j => do
      let window ← Checked.lift (job.spectrumWindow region)
      let spectrum ← Workspace.onBench (Bench.spectrum window)
      let worked ← Workspace.onRows (RowStore.modifyRow i j fun row =>
        job.transform.callOn job.direction job.scaled row spectrum)
      Workspace.onBench (Bench.setSpectrum window worked)
  | .load i j k slot => do
      let bundle ← Checked.lift (job.bundleWindow region)
      let value ← Workspace.onRows (RowStore.load i j k)
      Workspace.onBench (Bench.setSlot bundle slot value)
  | .line c => do
      let bundle ← Checked.lift (job.bundleWindow region)
      let place ← Checked.lift (bundle.part (c * job.transform.length) job.transform.length)
      let window ← Checked.lift (job.spectrumWindow region)
      let line ← Workspace.onBench (Bench.line place)
      let spectrum ← Workspace.onBench (Bench.spectrum window)
      let (line, worked) ← Checked.lift
        (job.transform.callOn job.direction job.scaled line spectrum)
      Workspace.onBench (Bench.setLine place line)
      Workspace.onBench (Bench.setSpectrum window worked)
  | .store i j k slot => do
      let bundle ← Checked.lift (job.bundleWindow region)
      let value ← Workspace.onBench (Bench.slot bundle slot)
      Workspace.onRows (RowStore.store i j k value)

/-- A list of steps, one after the other. -/
def steps [Precision W] [Sample T W] [RowStore R T] (job : PassJob T) (region : Region)
    (program : List Step) : EStateM Fault (Workspace R T) Unit :=
  program.forM (job.step region)

/-- A share of a pass, in the region of its worker. -/
def run [Precision W] [Sample T W] [RowStore R T] (job : PassJob T) (share : Share)
    (region : Region) : EStateM Fault (Workspace R T) Unit := fun s =>
  job.steps region (job.program (RowStore.shape s.rows) share) s

end PassJob

end CosineTransform
