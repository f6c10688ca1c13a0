import CosineTransform.Buffer
import CosineTransform.Cartesian

/-!
# Folding a line

A cosine transform of a line is a Fourier transform of the line **folded**: first
the entries at even places in order, then those at odd places backwards.
`Folding.source p n` is the place in a line of length `n` of entry `p` of the
folded line. A line of real numbers needs only half a complex spectrum, so the
folded line is packed two entries at a time into the coordinates of a spectrum
(`pack`), and unpacked again into places (`unpack`).
-/

namespace CosineTransform

namespace Folding

variable {T : Type}

/-- The place of entry `p` of the folded line: `0, 2, 4, …` up to the middle,
then the odd places from the last one down. -/
def source (p n : Nat) : Checked Nat := do
  if p < n / 2 then
    Word.mul 2 p
  else
    Word.sub (← Word.mul 2 (← Word.sub n p)) 1

/-- The entries `2 * m` and `2 * m + 1` of the folded line as one complex value. -/
def packed (line : Array T) (m : Nat) : Checked (Cartesian T) := do
  let p ← Word.mul 2 m
  let re ← Buffer.read line (← source p line.size)
  let im ← Buffer.read line (← source (← Word.add p 1) line.size)
  return ⟨re, im⟩

/-- The spectrum with the folded line written to it from its start on, two entries
to a complex value. -/
def pack (line : Array T) (spectrum : Array (Cartesian T)) : Checked (Array (Cartesian T)) :=
  Buffer.fill (line.size / 2) (packed line) spectrum

/-- The line with each entry written back from a spectrum that holds the folded
line. -/
def unpack (spectrum : Array (Cartesian T)) (line : Array T) : Checked (Array T) :=
  let n := line.size
  (List.range n).foldlM (fun line p => do
    let z ← Buffer.read spectrum (p / 2)
    Buffer.write line (← source p n) (if p % 2 = 0 then z.re else z.im)) line

end Folding

end CosineTransform
