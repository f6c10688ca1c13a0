import CosineTransform.Volume.Transform

/-!
# The cosine transform of a plane

A plane of rows and columns is a volume of one slice. Its two axes are numbered
from zero, so an extent that is refused is reported one axis lower than in the
volume.
-/

namespace CosineTransform

/-- A planned cosine transform of planes of one size. -/
structure PlaneTransform (T : Type) where
  volume : VolumeTransform T

namespace PlaneTransform

variable {T W : Type} [Precision W] [Sample T W]

/-- A failure to plan the volume of one slice, in terms of the plane. -/
def ofVolumeFailure : Failure → Failure
  | .refused (.notPowerOfTwo axis extent) => .refused (.notPowerOfTwo (axis - 1) extent)
  | failure => failure

/-- Planning a plane. -/
def plan (host : Host) (options : SharingOptions) (rows columns : Nat) :
    Attempt (PlaneTransform T) :=
  match VolumeTransform.plan host options ⟨1, rows, columns⟩ with
  | .ok volume => .ok ⟨volume⟩
  | .error failure => .error (ofVolumeFailure failure)

/-- The number of rows and of columns. -/
def size (p : PlaneTransform T) : Nat × Nat :=
  (p.volume.shape.rows, p.volume.shape.columns)

/-- A call. -/
def call {D R : Type} [Layout D R] [RowStore R T] (p : PlaneTransform T)
    (direction : Direction) (scaled : Bool) (data : D) : Report D :=
  p.volume.call direction scaled data

/-- The forward transform of a plane. -/
def forward {D R : Type} [Layout D R] [RowStore R T] (p : PlaneTransform T) (scaled : Bool)
    (data : D) : Report D :=
  p.call .forward scaled data

/-- The inverse transform of a plane. -/
def inverse {D R : Type} [Layout D R] [RowStore R T] (p : PlaneTransform T) (scaled : Bool)
    (data : D) : Report D :=
  p.call .inverse scaled data

end PlaneTransform

end CosineTransform
