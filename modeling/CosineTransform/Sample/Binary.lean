import CosineTransform.Sample

/-!
# Binary floating point

The two binary formats as samples. The working precision is the format of 64
bits; narrowing to 64 bits changes nothing, and narrowing to 32 bits rounds to
nearest, ties to even.
-/

namespace CosineTransform

instance : Precision Float where
  ofNat n := Float.ofNat n
  quarterTurn := Float.ofBits 0x3FF921FB54442D18
  cos := Float.cos
  sin := Float.sin
  sqrt := Float.sqrt

instance : Sample Float Float where
  zero := 0
  width := .double
  narrow x := x

instance : Sample Float32 Float where
  zero := 0
  width := .single
  narrow x := x.toFloat32

end CosineTransform
