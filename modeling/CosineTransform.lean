import CosineTransform.Sample.Binary
import CosineTransform.Volume.Plane
import CosineTransform.Proofs.CountedElements
import CosineTransform.Proofs.DigitPermutation
import CosineTransform.Proofs.EvaluatedOctant
import CosineTransform.Proofs.SharedTables
import CosineTransform.Proofs.Spans
import CosineTransform.Proofs.DiscreteFourier
import CosineTransform.Proofs.FoldingInverse
import CosineTransform.Proofs.LineBounds
import CosineTransform.Proofs.CosineKernel
import CosineTransform.Proofs.RowOperations
import CosineTransform.Proofs.ListedLayouts
import CosineTransform.Proofs.FirstMismatch
import CosineTransform.Proofs.LayoutAgreement
import CosineTransform.Proofs.PrivateRegions
import CosineTransform.Proofs.StaleBench
import CosineTransform.Proofs.ReplacedLines
import CosineTransform.Proofs.DealtShares
import CosineTransform.Proofs.DealtItems
import CosineTransform.Proofs.CollectedCalls
import CosineTransform.Proofs.FaultIsolation
import CosineTransform.Proofs.Accesses
import CosineTransform.Proofs.AccessDiscipline
import CosineTransform.Proofs.ScheduleIndependence
import CosineTransform.Proofs.Journals
import CosineTransform.Proofs.ProbedSteps
import CosineTransform.Proofs.FaultyRuns
import CosineTransform.Proofs.FaultyPasses
import CosineTransform.Proofs.ProbedCalls
import CosineTransform.Proofs.FailingCalls
import CosineTransform.Proofs.SafeCalls
import CosineTransform.Proofs.Separable
import CosineTransform.Proofs.RoundTrip
import CosineTransform.Proofs.Isometry

/-!
# The cosine transform of volumes

Forward and inverse cosine transforms of lines, planes and volumes whose extents are powers of
two, in place, and with the work of a pass shared among workers.

The program comes first.

* Numbers and buffers: `Word`, `Fault`, `Sample`, `Cartesian`, `Buffer`.
* Tables: `HalfCircle`, `DigitReversal`, `CircleTable`, and on them `Fourier.transform` and
  `LineTransform`.
* Data: `Shape`, `RowStore` and `Layout`.
* Work: `Share`, `Bench`, `PassJob`, `Crew`, `Roster`.
* Calls: `VolumeTransform.call` and `PlaneTransform.call`.

The modules under `Proofs` say what holds of it.

* Tables and lines: `CircleTable.digits_reversed`, `Fourier.transform_eq_sums`,
  `LineTransform.callOn_forward`, `LineTransform.callOn_inverse`.
* Volumes: a call is the line transform of each axis in turn
  (`Separable.call_eq_separable`), and over the real numbers a sum of cosines
  (`VolumeTransform.call_eq_cosine_sums`), an isometry when it is scaled (`scaled_isometry`),
  and undone by the other direction (`round_trip`).
* Workers: neither their number nor the order of their steps shows
  (`VolumeTransform.schedules_agree`), no share is lost (`VolumeTransform.no_work_is_lost`), and
  a fault ends the item that meets it and no other (`Roster.dispatch_isolates`,
  `VolumeTransform.call_with_failures`).
* Safety: a planned transform meets no fault (`VolumeTransform.answers_safely`).

Some things are parameters. Pools of threads are maps of calls to what they return, of which
`ParallelMap.CollectsInOrder` is assumed. A `Host` starts the threads that a crew asks for. The
numbers are a `Sample` over a `Precision`, with the laws of neither.

Some things are left out. Time is not modelled, so neither is what is gained by working in
parallel. Memory is limited only where a buffer would have more bytes than a buffer can have:
tables, benches, lists of addresses and lists of shares are refused room there, while the lists
that a pass makes of regions, items and outcomes have no limit of their own, since they have an
entry for each worker and the bench of all workers is there before them. The steps of a shape
are read without a bound (`Shape.offset`); the addresses that are used are words (`Shape.place`).
-/
