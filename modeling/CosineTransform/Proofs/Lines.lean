import Mathlib
import CosineTransform.Proofs.LawfulRows
import CosineTransform.Proofs.Tableau

/-!
# Lines of a pass

The lines of a pass are numbered by the two indices that do not run along them. Every
element lies on one line, at one place (`Pass.has_iff`): the line `lineThrough` and the
place `placeInLine`, from which `element` leads back. The image of a pass replaces each
line by its transform (`Pass.image_eq`).
-/

namespace CosineTransform

namespace Pass

/-- Element `t` of the line `(a, b)`: the two indices that do not run keep their order. -/
def element (p : Pass) (line : Nat × Nat) (t : Nat) : Nat × Nat × Nat :=
  match p with
  | inner => (line.1, line.2, t)
  | middle => (line.1, t, line.2)
  | outer => (t, line.1, line.2)

/-- The line through an element. -/
def lineThrough (p : Pass) (i j k : Nat) : Nat × Nat :=
  match p with
  | inner => (i, j)
  | middle => (i, k)
  | outer => (j, k)

/-- The place of an element in its line. -/
def placeInLine (p : Pass) (i j k : Nat) : Nat :=
  match p with
  | inner => k
  | middle => j
  | outer => i

/-- All lines of a pass. -/
def lines (p : Pass) (shape : Shape) : List (Nat × Nat) :=
  match p with
  | inner => (List.range shape.slices).product (List.range shape.rows)
  | middle => (List.range shape.slices).product (List.range shape.columns)
  | outer => (List.range shape.rows).product (List.range shape.columns)

theorem element_lineThrough (p : Pass) (i j k : Nat) :
    p.element (p.lineThrough i j k) (p.placeInLine i j k) = (i, j, k) := by
  cases p <;> rfl

theorem lineThrough_element (p : Pass) (line : Nat × Nat) (t : Nat) :
    p.lineThrough (p.element line t).1 (p.element line t).2.1 (p.element line t).2.2 = line := by
  cases p <;> rfl

theorem placeInLine_element (p : Pass) (line : Nat × Nat) (t : Nat) :
    p.placeInLine (p.element line t).1 (p.element line t).2.1 (p.element line t).2.2 = t := by
  cases p <;> rfl

theorem image_eq {T : Type} (p : Pass) (f : (Nat → T) → Nat → T) (g : Nat → Nat → Nat → T)
    (i j k : Nat) : p.image f g i j k = f (fun t => g (p.element (p.lineThrough i j k) t).1
      (p.element (p.lineThrough i j k) t).2.1 (p.element (p.lineThrough i j k) t).2.2)
      (p.placeInLine i j k) := by
  cases p <;> rfl

theorem nodup_lines (p : Pass) (shape : Shape) : (p.lines shape).Nodup := by
  cases p <;> exact List.nodup_range.product List.nodup_range

/-- The elements of the lines are the elements of the shape. -/
theorem has_iff {p : Pass} {shape : Shape} {i j k : Nat} :
    shape.Has i j k ↔
      p.lineThrough i j k ∈ p.lines shape ∧ p.placeInLine i j k < p.lineLength shape := by
  -- Case by case: each of the three indices has its bound on either side.
  unfold Shape.Has Shape.HasRow
  cases p <;>
    simp only [lineThrough, lines, placeInLine, lineLength, List.pair_mem_product,
      List.mem_range] <;>
    tauto

theorem has_element {p : Pass} {shape : Shape} {line : Nat × Nat} {t : Nat}
    (hline : line ∈ p.lines shape) (ht : t < p.lineLength shape) :
    shape.Has (p.element line t).1 (p.element line t).2.1 (p.element line t).2.2 := by
  rw [has_iff (p := p), lineThrough_element, placeInLine_element]
  exact ⟨hline, ht⟩

end Pass

end CosineTransform
