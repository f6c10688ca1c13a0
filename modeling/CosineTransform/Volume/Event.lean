import CosineTransform.Direction
import CosineTransform.Pass
import CosineTransform.Work.Crew

/-!
# Events

What planning and transforming report while they go on. An event has a level, a
name and fields, which are numbers, truth values or texts.
-/

namespace CosineTransform

/-- How detailed an event is. -/
inductive Level where
  | debug
  | trace
deriving DecidableEq, Inhabited

namespace Level

/-- The written form of a level. -/
def text : Level → String
  | debug => "DEBUG"
  | trace => "TRACE"

end Level

/-- What a field of an event holds. -/
inductive FieldValue where
  | number (n : Nat)
  | truth (b : Bool)
  | text (s : String)
deriving DecidableEq, Inhabited

/-- What planning and transforming report. -/
inductive Event where
  /-- The transform of a line is planned. -/
  | linePlanned (length : Nat)
  /-- The transform of a volume is planned. -/
  | volumePlanned (shape : Shape) (staffing : Staffing) (dedicated : Bool) (threshold : Nat)
  /-- A call begins. -/
  | callStarted (shape : Shape) (direction : Direction) (scaled : Bool)
  /-- Bench memory is at hand. -/
  | benchReady (regions gathered spectrum : Nat)
  /-- A pass has lines of length one and nothing to do. -/
  | passSkipped (pass : Pass)
  /-- A pass begins. -/
  | passStarted (pass : Pass) (workers : Nat)
deriving DecidableEq, Inhabited

namespace Event

/-- The level of an event. -/
def level : Event → Level
  | linePlanned .. => .debug
  | volumePlanned .. => .debug
  | callStarted .. => .debug
  | benchReady .. => .trace
  | passSkipped .. => .trace
  | passStarted .. => .trace

/-- The name of an event. -/
def name : Event → String
  | linePlanned .. => "planned 1d dct"
  | volumePlanned .. => "planned 3d dct"
  | callStarted .. => "span dct3d"
  | benchReady .. => "allocated scratch"
  | passSkipped .. => "skipped length-1 pass"
  | passStarted .. => "axis pass"

/-- The extents of a shape as fields. -/
def extentFields (shape : Shape) : List (String × FieldValue) :=
  [("n1", .number shape.slices), ("n2", .number shape.rows), ("n3", .number shape.columns)]

/-- The fields of an event, under their names. -/
def fields : Event → List (String × FieldValue)
  | linePlanned length => [("len", .number length)]
  | volumePlanned shape staffing dedicated threshold =>
      extentFields shape ++
        [("workers", .text staffing.text), ("dedicated_pool", .truth dedicated),
          ("parallel_threshold", .number threshold)]
  | callStarted shape direction scaled =>
      extentFields shape ++ [("direction", .text direction.text), ("scale", .truth scaled)]
  | benchReady regions gathered spectrum =>
      [("regions", .number regions), ("gathered", .number gathered),
        ("spectrum", .number spectrum)]
  | passSkipped pass => [("pass", .text pass.text)]
  | passStarted pass workers => [("pass", .text pass.text), ("threads", .number workers)]

end Event

end CosineTransform
