import Mathlib
import CosineTransform.Line.Transform
import CosineTransform.Proofs.Spans

/-!
# What a spectrum held before

A line is transformed on a spectrum that was used before and is never cleared. What it held does
not show: the line that is left is the same on any two spectra that are long enough, whatever
they hold and however long they are, and so are the entries that a call has worked on, half as
many as the line is long; those behind them stay as they were. Both are one equation,
`LineTransform.callOn_other`: what a call does on one spectrum, laid over another one, is what it
does on the other one.

Nothing is asked of the transform. It need not have been planned, and where a call meets a fault
it meets the same fault on every spectrum. The reason is that either direction first fills the
part of the spectrum that it goes on to read (`LineTransform.workOn`): to fill is to tabulate a
new buffer and to lay it down (`Buffer.fill_eq_tabulate`), and everything later is computed from
the new buffer.
-/

namespace CosineTransform

/-! ### Sizes -/

namespace Fourier

variable {T W : Type} [Sample T W] {t : CircleTable T} {d : Direction}

/-- Reordering exchanges entries, which keeps the size. -/
theorem size_reorder {digits : Nat} {xs ys : Array (Cartesian T)}
    (h : reorder t digits xs = .ok ys) : ys.size = xs.size := by
  refine Buffer.size_foldlM (fun zs i zs' hstep => ?_) h
  obtain ⟨r, -, hstep⟩ := Checked.bind_eq_ok_iff.1 hstep
  by_cases hr : i < r
  · rw [if_pos hr] at hstep
    exact Buffer.size_swap hstep
  · rw [if_neg hr] at hstep
    cases hstep
    rfl

/-- **A transform keeps the size** of its buffer. -/
theorem size_transform {xs ys : Array (Cartesian T)} (h : transform t d xs = .ok ys) :
    ys.size = xs.size := by
  unfold transform at h
  by_cases hone : xs.size ≤ 1
  · rw [if_pos hone] at h
    cases h
    rfl
  · rw [if_neg hone] at h
    obtain ⟨_, -, h⟩ := Checked.bind_eq_ok_iff.1 h
    obtain ⟨_, -, h⟩ := Checked.bind_eq_ok_iff.1 h
    obtain ⟨_, -, h⟩ := Checked.bind_eq_ok_iff.1 h
    obtain ⟨zs, hzs, h⟩ := Checked.bind_eq_ok_iff.1 h
    exact (size_spans h).trans (size_reorder hzs)

end Fourier

/-! ### Calls -/

namespace LineTransform

variable {T W : Type} [Sample T W] (l : LineTransform T)

/-- A spectrum over which the part is laid that a call has worked on elsewhere. -/
def laidOver (l : LineTransform T) (spectrum worked : Array (Cartesian T)) :
    Array (Cartesian T) :=
  Buffer.overlay spectrum 0 (worked.extract 0 (l.length / 2)).toList

omit [Sample T W] in
@[simp] theorem size_laidOver (spectrum worked : Array (Cartesian T)) :
    (l.laidOver spectrum worked).size = spectrum.size :=
  Buffer.size_overlay _ _ _

omit [Sample T W] in
/-- Entries that no call works on are kept. -/
theorem getElem?_laidOver {i : Nat} (hi : l.length / 2 ≤ i)
    (spectrum worked : Array (Cartesian T)) :
    (l.laidOver spectrum worked)[i]? = spectrum[i]? := by
  unfold laidOver
  rw [Buffer.getElem?_overlay, Array.length_toList, Array.size_extract, if_neg (by omega)]

variable {spectrum spectrum' : Array (Cartesian T)}

/-- **A line worked on a spectrum**: half the length is filled and transformed, and the line is
finished from what comes out. -/
def workOn (l : LineTransform T) (d : Direction) (f : Nat → Checked (Cartesian T))
    (finish : Array (Cartesian T) → Checked (Array T)) (spectrum : Array (Cartesian T)) :
    Checked (Array T × Array (Cartesian T)) := do
  let packed ← Buffer.fill (l.length / 2) f spectrum
  let waves ← Fourier.transform l.table d (packed.extract 0 (l.length / 2))
  let line ← finish waves
  return (line, Buffer.overlay packed 0 waves.toList)

theorem workOn_other (d : Direction) (f : Nat → Checked (Cartesian T))
    (finish : Array (Cartesian T) → Checked (Array T)) (hs : l.length / 2 ≤ spectrum.size)
    (hs' : l.length / 2 ≤ spectrum'.size) :
    l.workOn d f finish spectrum' =
      Prod.map id (l.laidOver spectrum') <$> l.workOn d f finish spectrum := by
  unfold workOn
  rw [Buffer.fill_eq_tabulate f hs, Buffer.fill_eq_tabulate f hs']
  cases hys : Buffer.tabulate (l.length / 2) f with
  | error fault => rfl
  | ok ys =>
    have hsize := Buffer.size_tabulate hys
    simp only [Checked.ok_bind, Checked.pure_eq_ok]
    rw [Buffer.extract_overlay hsize hs, Buffer.extract_overlay hsize hs']
    -- Both runs go on with the buffer that was tabulated.
    cases hwaves : Fourier.transform l.table d ys with
    | error fault => rfl
    | ok waves =>
      rw [Checked.ok_bind, Checked.ok_bind]
      cases finish waves with
      | error fault => rfl
      | ok line =>
        have hwaves' := (Fourier.size_transform hwaves).trans hsize
        have hlength : ys.toList.length = waves.toList.length := by
          rw [Array.length_toList, Array.length_toList, hsize, hwaves']
        rw [Checked.ok_bind, Checked.ok_bind, Checked.ok_map, Buffer.overlay_overlay _ _ hlength,
          Buffer.overlay_overlay _ _ hlength, Prod.map_apply, laidOver,
          Buffer.extract_overlay hwaves' hs, id]

variable [Precision W]

theorem analyse_eq_workOn (scaled : Bool) {line : Array T} (hline : line.size = l.length)
    (spectrum : Array (Cartesian T)) :
    l.analyse scaled line spectrum = l.workOn .forward (Folding.packed line) (fun waves => do
      let bins ← Buffer.tabulate (l.length / 2 + 1) (l.foldedBin waves)
      let coefficients ← Buffer.tabulate l.length fun k => do
        if k ≤ l.length / 2 then
          return (← Buffer.read bins k).re
        else
          return -(← Buffer.read bins (← Word.sub l.length k)).im
      return if scaled then l.weigh (· * l.constantWeight) coefficients else coefficients)
      spectrum := by
  unfold analyse workOn Folding.pack
  rw [hline]
  simp only [bind_assoc, pure_bind]

theorem synthesise_eq_workOn (scaled : Bool) (coefficients : Array T)
    (spectrum : Array (Cartesian T)) :
    l.synthesise scaled coefficients spectrum =
      let weighted :=
        if scaled then l.weigh (fun x => x * l.constantWeight * Sample.two) coefficients
        else coefficients
      l.workOn .inverse (l.packedBin weighted) (Folding.unpack · weighted) spectrum :=
  rfl

/-- **What a call does on another spectrum** that is long enough: the line is the same, and the
part that was worked on is the same, laid over the other spectrum. -/
theorem callOn_other (d : Direction) (scaled : Bool) (line : Array T)
    (hs : l.spectrumLength ≤ spectrum.size) (hs' : l.spectrumLength ≤ spectrum'.size) :
    l.callOn d scaled line spectrum' =
      Prod.map id (l.laidOver spectrum') <$> l.callOn d scaled line spectrum := by
  have hhalf : l.length / 2 ≤ spectrum.size := le_trans (le_max_left _ _) hs
  have hhalf' : l.length / 2 ≤ spectrum'.size := le_trans (le_max_left _ _) hs'
  unfold callOn
  rw [require_of hs, require_of hs']
  by_cases hline : line.size = l.length
  · rw [require_of hline, Checked.ok_bind, Checked.ok_bind, Checked.ok_bind, Checked.ok_bind]
    by_cases hone : l.length = 1
    · -- A line of one place is not worked on.
      rw [if_pos hone, if_pos hone, Checked.pure_eq_ok, Checked.pure_eq_ok, Checked.ok_map,
        Prod.map_apply, id, laidOver, hone]
      simp [Buffer.overlay]
    · rw [if_neg hone, if_neg hone]
      cases d with
      | forward =>
        simp only [l.analyse_eq_workOn scaled hline]
        exact l.workOn_other .forward _ _ hhalf hhalf'
      | inverse =>
        simp only [synthesise_eq_workOn]
        exact l.workOn_other .inverse _ _ hhalf hhalf'
  · simp only [require, if_neg hline]
    rfl

/-- A call changes no more of its own spectrum than the part it works on. -/
theorem laidOver_worked {d : Direction} {scaled : Bool} {line line' : Array T}
    {worked : Array (Cartesian T)} (hs : l.spectrumLength ≤ spectrum.size)
    (h : l.callOn d scaled line spectrum = .ok (line', worked)) :
    l.laidOver spectrum worked = worked := by
  have hself := l.callOn_other d scaled line hs hs
  rw [h, Checked.ok_map, Prod.map_apply] at hself
  exact (congrArg Prod.snd (Except.ok.inj hself)).symm

end LineTransform

end CosineTransform
