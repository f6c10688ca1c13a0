import CosineTransform.Work.Crew

/-!
# Sharing options

When a call is shared among workers, and among how many: a call on a volume of at
least `threshold` elements uses the whole crew, a smaller one a single worker.
-/

namespace CosineTransform

/-- How the calls of a transform are shared among workers. -/
structure SharingOptions where
  threshold : Nat
  staffing : Staffing
deriving DecidableEq

namespace SharingOptions

/-- The volume from which on sharing pays off. -/
def standardThreshold : Nat := 65536

/-- Large volumes are shared among all threads of the process. -/
def standard : SharingOptions where
  threshold := standardThreshold
  staffing := .shared

/-- No volume is large enough to be shared. -/
def serial : SharingOptions where
  threshold := Word.last
  staffing := .shared

instance : Inhabited SharingOptions where
  default := standard

/-- The options with another threshold. -/
def withThreshold (o : SharingOptions) (threshold : Nat) : SharingOptions :=
  { o with threshold }

/-- The options with other workers. -/
def withStaffing (o : SharingOptions) (staffing : Staffing) : SharingOptions :=
  { o with staffing }

end SharingOptions

end CosineTransform
