/-!
# Samples

The transforms are written once, over two kinds of numbers.

* The **samples** `T` (class `Sample`) are the elements of the data.
* The **working precision** `W` (class `Precision`) is where angles, sines,
  cosines and weights are evaluated. A value of the working precision becomes a
  sample by `Sample.narrow`, and by nothing else.

A buffer of numbers takes memory, so a type that is **stored** says how wide its
values are (class `Stored`). A value of the working precision always takes
`Precision.bytes` bytes.

These classes hold operations and no laws. Rounding breaks the laws of a ring, so
a statement about the program is either about all operations, whatever they
compute, or about a reading of them (such as the real numbers) that brings its
laws along.
-/

namespace CosineTransform

/-- The numbers in which angles and weights are evaluated. -/
class Precision (W : Type) extends Mul W, Div W, Neg W where
  /-- The number nearest to a natural number. -/
  ofNat : Nat → W
  /-- Half of the number π. -/
  quarterTurn : W
  cos : W → W
  sin : W → W
  sqrt : W → W

/-- How wide a stored number is. -/
inductive Width where
  | single
  | double
deriving DecidableEq, Inhabited

namespace Width

/-- The number of bytes that a stored number takes. -/
def bytes : Width → Nat
  | single => 4
  | double => 8

theorem four_le_bytes (w : Width) : 4 ≤ w.bytes := by
  cases w <;> decide

theorem bytes_le_eight (w : Width) : w.bytes ≤ 8 := by
  cases w <;> decide

end Width

/-- Numbers that are stored in buffers. -/
class Stored (T : Type) where
  width : Width

/-- The number of bytes that a value of a stored type takes. -/
def Stored.bytes (T : Type) [Stored T] : Nat :=
  (Stored.width T).bytes

theorem Stored.bytes_pos (T : Type) [Stored T] : 0 < Stored.bytes T :=
  Nat.lt_of_lt_of_le (by decide) (Width.four_le_bytes _)

/-- The numbers that are transformed, over a working precision `W`. -/
class Sample (T : Type) (W : outParam Type) extends
    Zero T, Add T, Sub T, Mul T, Neg T, Stored T where
  /-- The sample nearest to a number of the working precision. -/
  narrow : W → T

namespace Precision

/-- The number of bytes that a value of the working precision takes. -/
def bytes : Nat := 8

variable {W : Type} [Precision W]

/-- One half. -/
def half : W :=
  ofNat 1 / ofNat 2

/-- The angle `j` of the quarter turn cut into `n` equal steps. One step is
evaluated first and multiplied by `j` afterwards. -/
def angle (n j : Nat) : W :=
  quarterTurn / ofNat n * ofNat j

end Precision

namespace Sample

variable {T W : Type} [Precision W] [Sample T W]

/-- One half, as a sample. -/
def half : T :=
  narrow (Precision.half : W)

/-- Two, as a sample. -/
def two : T :=
  narrow (Precision.ofNat 2 : W)

/-- The weight of the constant term of an orthonormal transform of length `n`. -/
def constantWeight (n : Nat) : T :=
  narrow (Precision.sqrt (Precision.ofNat 1 / Precision.ofNat n : W))

/-- The weight of every other term of an orthonormal transform of length `n`. -/
def waveWeight (n : Nat) : T :=
  narrow (Precision.sqrt (Precision.ofNat 2 / Precision.ofNat n : W))

end Sample

end CosineTransform
