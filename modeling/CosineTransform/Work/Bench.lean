import CosineTransform.Buffer
import CosineTransform.Cartesian
import CosineTransform.Sample
import CosineTransform.Work.Bundle

/-!
# The bench

The workers of a call share a bench on which they lay out what they gather: one
buffer of lines and one buffer of spectra. Each buffer is cut into stretches of
equal length, and worker `w` owns stretch `w` of both, its **region**. A region
has room for the widest bundle of lines and for one spectrum.

A region is a pair of windows. Reading and writing through a window is an action
on the bench; it meets a fault, and changes nothing, when the window does not
hold what is asked of it.
-/

namespace CosineTransform

/-- The part of the bench that a worker owns. -/
structure Region where
  lines : Window
  spectrum : Window
deriving DecidableEq, Inhabited

namespace Region

/-- The part of a region that holds a bundle: `width` lines, one after the other. -/
def bundleWindow (r : Region) (width length : Nat) : Checked Window := do
  require (width * length ≤ r.lines.size) .bundleRoom
  return ⟨r.lines.start, width * length⟩

/-- A bundle lies at the start of a region that has room for it. -/
theorem bundleWindow_of_le {r : Region} {width length : Nat} (h : width * length ≤ r.lines.size) :
    r.bundleWindow width length = .ok ⟨r.lines.start, width * length⟩ := by
  unfold bundleWindow
  rw [require_of h]
  rfl

end Region

/-- The bench of a call. -/
structure Bench (T : Type) where
  lines : Array T
  spectra : Array (Cartesian T)
  /-- Line elements in a region. -/
  lineRoom : Nat
  /-- Spectrum entries in a region. -/
  spectrumRoom : Nat
deriving Inhabited

namespace Bench

variable {T : Type}

/-- **A fresh bench**, all zero, for some number of workers, of which there is at
least one. No region is empty, whatever lengths are asked for. -/
def allocate [Zero T] [Stored T] (workers lineLength spectrumLength : Nat) :
    Checked (Bench T) := do
  let workers := max workers 1
  let lineRoom ← Word.mul Bundle.widest (max lineLength 1)
  let spectrumRoom := max spectrumLength 1
  let lines ← Word.mul workers lineRoom
  Word.reserve (Stored.bytes T) lines
  let entries ← Word.mul workers spectrumRoom
  Word.reserve (2 * Stored.bytes T) entries
  return {
    lines := Array.replicate lines 0
    spectra := Array.replicate entries 0
    lineRoom
    spectrumRoom }

/-- The number of workers that have a region. -/
def workers (s : Bench T) : Nat :=
  s.spectra.size / s.spectrumRoom

/-- The region of worker `w`. -/
def region (s : Bench T) (w : Nat) : Region where
  lines := ⟨w * s.lineRoom, s.lineRoom⟩
  spectrum := ⟨w * s.spectrumRoom, s.spectrumRoom⟩

/-- The regions of all workers. -/
def regions (s : Bench T) : List Region :=
  (List.range s.workers).map s.region

/-! ### Reading and writing -/

/-- Line element `m` of a window. -/
def slot (w : Window) (m : Nat) : EStateM Fault (Bench T) T := fun s =>
  match w.place m with
  | .error f => .error f s
  | .ok p =>
      if h : p < s.lines.size then .ok s.lines[p] s else .error (.outOfRange p s.lines.size) s

/-- Another value for line element `m` of a window. -/
def setSlot (w : Window) (m : Nat) (value : T) : EStateM Fault (Bench T) Unit := fun s =>
  match w.place m with
  | .error f => .error f s
  | .ok p =>
      if h : p < s.lines.size then .ok () { s with lines := s.lines.set p value h }
      else .error (.outOfRange p s.lines.size) s

/-- All line elements of a window. -/
def line (w : Window) : EStateM Fault (Bench T) (Array T) := fun s =>
  let stop := w.start + w.size
  if stop ≤ s.lines.size then .ok (s.lines.extract w.start stop) s
  else .error (.stretchOutOfRange stop s.lines.size) s

/-- Other values for the first line elements of a window. -/
def setLine (w : Window) (values : Array T) : EStateM Fault (Bench T) Unit := fun s =>
  if values.size ≤ w.size ∧ w.start + w.size ≤ s.lines.size then
    .ok () { s with lines := Buffer.overlay s.lines w.start values.toList }
  else .error (.stretchOutOfRange values.size w.size) s

/-- All spectrum entries of a window. -/
def spectrum (w : Window) : EStateM Fault (Bench T) (Array (Cartesian T)) := fun s =>
  let stop := w.start + w.size
  if stop ≤ s.spectra.size then .ok (s.spectra.extract w.start stop) s
  else .error (.stretchOutOfRange stop s.spectra.size) s

/-- Other values for the first spectrum entries of a window. -/
def setSpectrum (w : Window) (values : Array (Cartesian T)) : EStateM Fault (Bench T) Unit :=
  fun s =>
    if values.size ≤ w.size ∧ w.start + w.size ≤ s.spectra.size then
      .ok () { s with spectra := Buffer.overlay s.spectra w.start values.toList }
    else .error (.stretchOutOfRange values.size w.size) s

end Bench

end CosineTransform
