import CosineTransform.Circle.Table
import CosineTransform.Direction

/-!
# The Fourier transform of a power-of-two buffer

The transform splits a buffer by the lowest binary digit of the index: the
entries at even indices and those at odd indices are transformed on their own,
and one round of butterflies combines the two results.

The splitting is done for all digits at once and in place: `reorder` exchanges
the entries at `i` and at the reversal of `i`, after which the entries at even
indices are the first half of the buffer, and so on inside each half. The rounds
of butterflies then go back up: a loop doubles the **span** (`spans`), and a round
cuts the buffer into blocks of one span and combines the two halves of each block
(`round`).

`butterflies` is the same recursion from the top down, structural in the count of
digits: each half on its own, and then one round on the whole.

No result is divided by the length.
-/

namespace CosineTransform

namespace Fourier

variable {T W : Type} [Precision W] [Sample T W]

/-- The phasor by which a direction turns: forward turns clockwise. -/
@[inline] def twiddle (d : Direction) (w : Cartesian T) : Cartesian T :=
  match d with
  | .forward => w.conj
  | .inverse => w

/-- **Reordering.** Each entry is exchanged once with the entry at the reversed
index. -/
def reorder (t : CircleTable T) (digits : Nat) (xs : Array (Cartesian T)) :
    Checked (Array (Cartesian T)) :=
  (List.range xs.size).foldlM (fun xs i => do
    let r ← t.reverse i digits
    if i < r then Buffer.swap xs i r else return xs) xs

/-- **One round of butterflies** on two transforms of `half` entries each: entry
`j` of the second one is turned by the `j`-th step of the joint circle, then sum
and difference are entries `j` and `half + j` of the result. -/
def combine (t : CircleTable T) (d : Direction) (half : Nat) (evens odds : Array (Cartesian T)) :
    Checked (Array (Cartesian T)) := do
  let step := (← t.wholeTurn) / (← Word.mul 2 half)
  let turned ← Buffer.tabulate half fun j => do
    let w ← t.phasor (← Word.mul j step)
    return (← Buffer.read odds j) * twiddle d w
  let sums ← Buffer.tabulate half fun j => do
    return (← Buffer.read evens j) + (← Buffer.read turned j)
  let differences ← Buffer.tabulate half fun j => do
    return (← Buffer.read evens j) - (← Buffer.read turned j)
  return sums ++ differences

/-- Block `b` of `span` entries with its two halves combined. -/
def combineBlock (t : CircleTable T) (d : Direction) (span : Nat) (xs : Array (Cartesian T))
    (b : Nat) : Checked (Array (Cartesian T)) := do
  let start := b * span
  let half := span / 2
  let block ← combine t d half (xs.extract start (start + half))
    (xs.extract (start + half) (start + span))
  return Buffer.overlay xs start block.toList

/-- **A round**: all blocks of one span, one after the other. -/
def round (t : CircleTable T) (d : Direction) (span : Nat) (xs : Array (Cartesian T)) :
    Checked (Array (Cartesian T)) :=
  (List.range (xs.size / span)).foldlM (combineBlock t d span) xs

/-- **The loop over the spans**: `span`, then twice as many entries, and so on up to
`len` entries. Doubling a span of no entries would never reach them. -/
def spans (t : CircleTable T) (d : Direction) (len span : Nat) (xs : Array (Cartesian T)) :
    Checked (Array (Cartesian T)) :=
  if h : 0 < span ∧ span ≤ len then do
    let xs ← round t d span xs
    spans t d len (2 * span) xs
  else return xs
termination_by len + 1 - span

/-- All rounds of butterflies from the top down, on a reordered buffer whose indices
have the given count of binary digits. -/
def butterflies (t : CircleTable T) (d : Direction) :
    (digits : Nat) → Array (Cartesian T) → Checked (Array (Cartesian T))
  | 0, xs => return xs
  | digits + 1, xs => do
      let half := xs.size / 2
      let evens ← butterflies t d digits (xs.extract 0 half)
      let odds ← butterflies t d digits (xs.extract half xs.size)
      combine t d half evens odds

/-- **The Fourier transform.** A buffer of at most one entry is its own
transform. A longer one needs a power of two as its length, and tables that cover
twice the length. -/
def transform (t : CircleTable T) (d : Direction) (xs : Array (Cartesian T)) :
    Checked (Array (Cartesian T)) := do
  if xs.size ≤ 1 then
    return xs
  else
    require xs.size.isPowerOfTwo .lengthPowerOfTwo
    require (t.Serves (← Word.mul 2 xs.size)) .lengthServed
    spans t d xs.size 2 (← reorder t xs.size.log2 xs)

end Fourier

end CosineTransform
