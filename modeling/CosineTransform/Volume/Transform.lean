import CosineTransform.Rows.Layout
import CosineTransform.Volume.Event
import CosineTransform.Volume.Options
import CosineTransform.Work.Roster
import CosineTransform.Work.Step

/-!
# The cosine transform of a volume

A `VolumeTransform` is planned for one shape, whose extents are powers of two. It
holds a line transform for each pass, all three on one table, and the crew that
may share the work.

A call (`call`) addresses the rows of the data, which may be refused, and then
runs the passes in order (`runPass`). A pass over lines of length one is skipped.
Any other pass is dealt out to as many workers as there are, but no more than the
outer index has values; each share of the work goes with a region of the bench.
The first pass in which a worker fails ends the call, and the data stays as the
workers left it.

What a call answers is its `Report`: the outcome, the data afterwards, and the
events on the way.
-/

namespace CosineTransform

/-- What a call answers. -/
structure Report (D : Type) where
  outcome : Attempt Unit
  data : D
  events : List Event

/-- A planned cosine transform of volumes of one shape. -/
structure VolumeTransform (T : Type) where
  shape : Shape
  /-- The number of elements. -/
  volume : Nat
  /-- The transforms of the lines of the three passes. -/
  inner : LineTransform T
  middle : LineTransform T
  outer : LineTransform T
  options : SharingOptions
  crew : Crew

/-- What a call acts on: the rows, the bench, and the events so far. -/
structure CallState (R T : Type) where
  workspace : Workspace R T
  events : List Event

namespace CallState

variable {R T : Type}

/-- One more event. -/
def emit (event : Event) : EStateM Failure (CallState R T) Unit := fun s =>
  .ok () { s with events := s.events ++ [event] }

/-- A refusable action on the workspace. -/
def onWorkspace (act : EStateM TransformError (Workspace R T) Unit) :
    EStateM Failure (CallState R T) Unit := fun ⟨workspace, events⟩ =>
  match act workspace with
  | .ok _ workspace => .ok () ⟨workspace, events⟩
  | .error error workspace => .error (.refused error) ⟨workspace, events⟩

/-- An attempt during a call: a failure leaves the state as it is. -/
def attempt {α : Type} (x : Attempt α) : EStateM Failure (CallState R T) α := fun s =>
  match x with
  | .ok a => .ok a s
  | .error failure => .error failure s

end CallState

namespace VolumeTransform

variable {T W : Type} [Precision W] [Sample T W]

/-! ### Planning -/

/-- Goes on only when every extent is a power of two; the first one that is not is
reported. -/
def checkExtents (shape : Shape) : Attempt Unit :=
  shape.extents.zipIdx.forM fun (extent, axis) =>
    if extent.isPowerOfTwo then .ok () else .refuse (.notPowerOfTwo axis extent)

/-- **Planning.** The extents are checked before the volume, and the volume before
the workers, which the host provides. -/
def plan (host : Host) (options : SharingOptions) (shape : Shape) :
    Attempt (VolumeTransform T) := do
  checkExtents shape
  match shape.volume with
  | none => .refuse .volumeOverflow
  | some volume =>
      let table ← CircleTable.ofLengths shape.extents
      let outer ← LineTransform.onTable shape.slices table
      let middle ← LineTransform.onTable shape.rows table
      let inner ← LineTransform.onTable shape.columns table
      let crew ← Crew.hire host options.staffing
      return { shape, volume, inner, middle, outer, options, crew }

/-- The event of planning. -/
def planned (v : VolumeTransform T) : Event :=
  .volumePlanned v.shape v.options.staffing v.crew.hasOwnThreads v.options.threshold

/-! ### Passes -/

/-- The transform of the lines of a pass. -/
def lineTransform (v : VolumeTransform T) : Pass → LineTransform T
  | .inner => v.inner
  | .middle => v.middle
  | .outer => v.outer

/-- The number of workers of a call. -/
def workers (v : VolumeTransform T) : Nat :=
  if v.options.threshold ≤ v.volume then max v.crew.workers 1 else 1

/-- The number of workers of a pass. -/
def passWorkers (v : VolumeTransform T) (pass : Pass) : Nat :=
  min v.workers (pass.outerCount v.shape)

/-- The shares of a pass, one for each worker. -/
def shares (v : VolumeTransform T) (pass : Pass) : List Share :=
  if 1 < v.passWorkers pass then Share.deal (v.passWorkers pass) else [Share.whole]

/-- The longest line that is gathered. -/
def gatheredLength (v : VolumeTransform T) : Nat :=
  max v.shape.slices v.shape.rows

/-- The longest spectrum that is worked on. -/
def spectrumLength (v : VolumeTransform T) : Nat :=
  max (v.shape.longest / 2) 1

/-- The shares of a pass, when there is room for the list of them. One share is no list
that room has to be made for. -/
def dealShares (v : VolumeTransform T) (pass : Pass) : Checked (List Share) :=
  if 1 < v.passWorkers pass then Share.dealOut (v.passWorkers pass) else .ok [Share.whole]

/-- One pass of a call. -/
def runPass {R : Type} [RowStore R T] (v : VolumeTransform T) (direction : Direction)
    (scaled : Bool) (pass : Pass) : EStateM Failure (CallState R T) Unit := do
  let transform := v.lineTransform pass
  if transform.length = 1 then
    CallState.emit (.passSkipped pass)
  else
    let shares ← CallState.attempt (Attempt.ofChecked (v.dealShares pass))
    CallState.emit (.passStarted pass (v.passWorkers pass))
    let job ← CallState.attempt
      (Attempt.ofChecked (PassJob.prepare pass transform v.shape direction scaled))
    CallState.onWorkspace fun w =>
      Roster.run v.crew pass (fun (share, region) => job.run share region)
        (shares.zip w.bench.regions) w

/-- All passes of a call in order; a pass that fails is the last. -/
def runPasses {R : Type} [RowStore R T] (v : VolumeTransform T) (direction : Direction)
    (scaled : Bool) : EStateM Failure (CallState R T) Unit :=
  Pass.inOrder.forM (v.runPass direction scaled)

/-! ### Calls -/

/-- **A call.** The event of the call comes first, whatever becomes of it. Data of
other sizes is refused before anything else happens. -/
def call {D R : Type} [Layout D R] [RowStore R T] (v : VolumeTransform T)
    (direction : Direction) (scaled : Bool) (data : D) : Report D :=
  let started := Event.callStarted v.shape direction scaled
  match Layout.address v.shape data with
  | .error failure => ⟨.error failure, data, [started]⟩
  | .ok rows =>
      match Bench.allocate v.workers v.gatheredLength v.spectrumLength with
      | .error fault => ⟨.error (.fault fault), Layout.collect rows, [started]⟩
      | .ok bench =>
          let allocated := Event.benchReady bench.workers v.gatheredLength v.spectrumLength
          match v.runPasses direction scaled ⟨⟨rows, bench⟩, [started, allocated]⟩ with
          | .ok _ s => ⟨.ok (), Layout.collect s.workspace.rows, s.events⟩
          | .error failure s => ⟨.error failure, Layout.collect s.workspace.rows, s.events⟩

/-- The forward transform of a volume. -/
def forward {D R : Type} [Layout D R] [RowStore R T] (v : VolumeTransform T) (scaled : Bool)
    (data : D) : Report D :=
  v.call .forward scaled data

/-- The inverse transform of a volume. -/
def inverse {D R : Type} [Layout D R] [RowStore R T] (v : VolumeTransform T) (scaled : Bool)
    (data : D) : Report D :=
  v.call .inverse scaled data

end VolumeTransform

end CosineTransform
