/-!
# Complex values by coordinates

A complex value over numbers that need no laws: a pair of coordinates with the
textbook formulas. The order of the operations inside a product is part of its
definition, since each of them rounds: `(a + bi)(c + di)` is `ac - bd` and
`ad + bc`.
-/

namespace CosineTransform

/-- A complex value `re + im · i`. -/
structure Cartesian (T : Type) where
  re : T
  im : T
deriving DecidableEq, Inhabited

namespace Cartesian

variable {T : Type}

instance [Zero T] : Zero (Cartesian T) where
  zero := ⟨0, 0⟩

instance [Add T] : Add (Cartesian T) where
  add z w := ⟨z.re + w.re, z.im + w.im⟩

instance [Sub T] : Sub (Cartesian T) where
  sub z w := ⟨z.re - w.re, z.im - w.im⟩

instance [Add T] [Sub T] [Mul T] : Mul (Cartesian T) where
  mul z w := ⟨z.re * w.re - z.im * w.im, z.re * w.im + z.im * w.re⟩

/-- The complex conjugate. -/
def conj [Neg T] (z : Cartesian T) : Cartesian T :=
  ⟨z.re, -z.im⟩

/-- Both coordinates multiplied by a number. -/
def scale [Mul T] (z : Cartesian T) (t : T) : Cartesian T :=
  ⟨z.re * t, z.im * t⟩

/-- The value turned back by a quarter turn, that is, multiplied by `-i`. -/
def turnBack [Neg T] (z : Cartesian T) : Cartesian T :=
  ⟨z.im, -z.re⟩

/-- The value turned on by a quarter turn, that is, multiplied by `i`. -/
def turn [Neg T] (z : Cartesian T) : Cartesian T :=
  ⟨-z.im, z.re⟩

/-- The coordinates exchanged: the reflection at the diagonal. -/
def reflect (z : Cartesian T) : Cartesian T :=
  ⟨z.im, z.re⟩

/-- The value with both coordinates replaced by a function of them. -/
def map {U : Type} (f : T → U) (z : Cartesian T) : Cartesian U :=
  ⟨f z.re, f z.im⟩

@[simp] theorem zero_re [Zero T] : (0 : Cartesian T).re = 0 := rfl

@[simp] theorem zero_im [Zero T] : (0 : Cartesian T).im = 0 := rfl

@[simp] theorem add_re [Add T] (z w : Cartesian T) : (z + w).re = z.re + w.re := rfl

@[simp] theorem add_im [Add T] (z w : Cartesian T) : (z + w).im = z.im + w.im := rfl

@[simp] theorem sub_re [Sub T] (z w : Cartesian T) : (z - w).re = z.re - w.re := rfl

@[simp] theorem sub_im [Sub T] (z w : Cartesian T) : (z - w).im = z.im - w.im := rfl

@[simp] theorem mul_re [Add T] [Sub T] [Mul T] (z w : Cartesian T) :
    (z * w).re = z.re * w.re - z.im * w.im := rfl

@[simp] theorem mul_im [Add T] [Sub T] [Mul T] (z w : Cartesian T) :
    (z * w).im = z.re * w.im + z.im * w.re := rfl

end Cartesian

end CosineTransform
