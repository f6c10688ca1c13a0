/-!
# Directions
-/

namespace CosineTransform

/-- Analysis into waves, or synthesis from them. -/
inductive Direction where
  | forward
  | inverse
deriving DecidableEq, Inhabited

namespace Direction

/-- The written form of a direction. -/
def text : Direction → String
  | forward => "Forward"
  | inverse => "Inverse"

end Direction

end CosineTransform
