import CosineTransform.Failure
import CosineTransform.Fourier
import CosineTransform.Line.Folding

/-!
# The cosine transform of one line

A `LineTransform` is planned for one length, a power of two, on tables that cover
it. Forward, it turns a line `x` of length `n` into the sums of `x m` times
`cos (π (2 m + 1) k / (2 n))`; inverse, it turns such coefficients back into a
line. Both directions work on a spectrum of half the length.

* **Analysis** (`analyse`) packs the folded line, transforms it, and then splits
  each pair of opposite entries into the transforms of the entries at even and at
  odd places of the folded line (`foldedBin`). Their combination, turned by a
  fraction of a quarter turn, carries coefficient `k` in its real part and
  coefficient `n - k` in its imaginary part, negated.
* **Synthesis** (`synthesise`) goes the opposite way: it joins the coefficients
  `k` and `n - k` into a turned bin (`coefficientBin`), packs the bins of opposite
  entries into one spectrum, transforms it back, and unpacks the line.

Scaling gives the constant term the weight `√(1/n)` and all other terms `√(2/n)`;
it comes last in analysis and first in synthesis, where the constant term is
doubled as well. A line of length one is its own transform.
-/

namespace CosineTransform

/-- A planned cosine transform of lines of one length. -/
structure LineTransform (T : Type) where
  /-- The length of the lines. -/
  length : Nat
  /-- The tables, which cover the length. -/
  table : CircleTable T
  /-- Steps of the table in one `n`-th of a quarter turn. -/
  rotationStride : Nat
  /-- Steps of the table in one `n`-th of a whole turn. -/
  splitStride : Nat
  constantWeight : T
  waveWeight : T
deriving Inhabited

namespace LineTransform

variable {T W : Type} [Precision W] [Sample T W]

/-! ### Planning -/

/-- The transform of length `n` on tables that are shared with other lengths. -/
def onTable (n : Nat) (table : CircleTable T) : Checked (LineTransform T) := do
  require (n.isPowerOfTwo ∧ table.Serves n) .lineServed
  let rotationStride := table.coverage / n
  return {
    length := n
    table
    rotationStride
    splitStride := ← Word.mul 4 rotationStride
    constantWeight := Sample.constantWeight n
    waveWeight := Sample.waveWeight n }

/-- The transform of length `n` on tables of its own. -/
def plan (n : Nat) : Attempt (LineTransform T) := do
  if n.isPowerOfTwo then
    let table ← CircleTable.ofLengths [n]
    onTable n table
  else
    .refuse (.notPowerOfTwo 0 n)

/-- The number of spectrum entries that a transform needs. -/
def spectrumLength (l : LineTransform T) : Nat :=
  max (l.length / 2) 1

/-- The line with its first entry changed by one function and all others
multiplied by the weight of the waves. -/
def weigh (l : LineTransform T) (first : T → T) (line : Array T) : Array T :=
  line.mapIdx fun i x => if i = 0 then first x else x * l.waveWeight

/-! ### Analysis -/

/-- Entry `k` of the transform of the folded line, turned back by `k` `n`-ths of a
quarter turn, from the transform of the packed line. -/
def foldedBin (l : LineTransform T) (spectrum : Array (Cartesian T)) (k : Nat) :
    Checked (Cartesian T) := do
  let h := l.length / 2
  let z ← Buffer.read spectrum (k % h)
  let opposite := (← Buffer.read spectrum ((← Word.sub h k) % h)).conj
  let even := (z + opposite).scale Sample.half
  let odd := (z - opposite).turnBack.scale Sample.half
  let bin ←
    if k = h then
      pure (even - odd)
    else do
      let w ← l.table.phasor (← Word.mul k l.splitStride)
      pure (even + w.conj * odd)
  let w ← l.table.phasor (← Word.mul k l.rotationStride)
  return w.conj * bin

/-- **Analysis.** The coefficients of a line, and the spectrum that was worked on. -/
def analyse (l : LineTransform T) (scaled : Bool) (line : Array T)
    (spectrum : Array (Cartesian T)) : Checked (Array T × Array (Cartesian T)) := do
  let h := l.length / 2
  let packed ← Folding.pack line spectrum
  let waves ← Fourier.transform l.table .forward (packed.extract 0 h)
  let bins ← Buffer.tabulate (h + 1) (l.foldedBin waves)
  let coefficients ← Buffer.tabulate l.length fun k => do
    if k ≤ h then
      return (← Buffer.read bins k).re
    else
      return -(← Buffer.read bins (← Word.sub l.length k)).im
  let weighted :=
    if scaled then l.weigh (· * l.constantWeight) coefficients else coefficients
  return (weighted, Buffer.overlay packed 0 waves.toList)

/-! ### Synthesis -/

/-- The coefficients `k` and `n - k` as one complex value, turned by `k` `n`-ths
of a quarter turn. The constant term has no partner. -/
def coefficientBin (l : LineTransform T) (line : Array T) (k : Nat) :
    Checked (Cartesian T) := do
  let im ←
    if k = 0 then
      pure 0
    else do
      pure (-(← Buffer.read line (← Word.sub l.length k)))
  let w ← l.table.phasor (← Word.mul k l.rotationStride)
  return w * ⟨← Buffer.read line k, im⟩

/-- Entry `k` of the packed spectrum whose transform is the packed line. -/
def packedBin (l : LineTransform T) (line : Array T) (k : Nat) : Checked (Cartesian T) := do
  let v ← l.coefficientBin line k
  let opposite := (← l.coefficientBin line (← Word.sub (l.length / 2) k)).conj
  let even := (v + opposite).scale Sample.half
  let w ← l.table.phasor (← Word.mul k l.splitStride)
  let odd := ((v - opposite) * w).scale Sample.half
  return even + odd.turn

/-- **Synthesis.** The line of given coefficients, and the spectrum that was
worked on. -/
def synthesise (l : LineTransform T) (scaled : Bool) (coefficients : Array T)
    (spectrum : Array (Cartesian T)) : Checked (Array T × Array (Cartesian T)) := do
  let h := l.length / 2
  let weighted :=
    if scaled then l.weigh (fun x => x * l.constantWeight * Sample.two) coefficients
    else coefficients
  let packed ← Buffer.fill h (l.packedBin weighted) spectrum
  let waves ← Fourier.transform l.table .inverse (packed.extract 0 h)
  let line ← Folding.unpack waves weighted
  return (line, Buffer.overlay packed 0 waves.toList)

/-! ### Calls -/

/-- **A call on a given spectrum**, which may be longer than needed and hold
anything. The answer is the transformed line and the spectrum afterwards, of which
only the part that was worked on has changed. -/
def callOn (l : LineTransform T) (d : Direction) (scaled : Bool) (line : Array T)
    (spectrum : Array (Cartesian T)) : Checked (Array T × Array (Cartesian T)) := do
  require (line.size = l.length) (.sameLength line.size l.length)
  require (l.spectrumLength ≤ spectrum.size) .spectrumRoom
  if l.length = 1 then
    return (line, spectrum)
  else
    match d with
    | .forward => l.analyse scaled line spectrum
    | .inverse => l.synthesise scaled line spectrum

/-- **A call** on a spectrum of its own. A line of another length is refused. -/
def call (l : LineTransform T) (d : Direction) (scaled : Bool) (line : Array T) :
    Attempt (Array T) := do
  if line.size = l.length then
    Word.reserve (2 * Stored.bytes T) l.spectrumLength
    let (line, _) ← l.callOn d scaled line (Array.replicate l.spectrumLength 0)
    return line
  else
    .refuse (.lineLengthDiffers l.length line.size)

end LineTransform

end CosineTransform
