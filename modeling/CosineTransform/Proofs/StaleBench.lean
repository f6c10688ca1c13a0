import Mathlib
import CosineTransform.Proofs.GrowingTables
import CosineTransform.Proofs.Schedules
import CosineTransform.Proofs.Spectra

/-!
# What a bench held before

Workers use their regions of the bench for bundle after bundle and pass after pass, with lines of
other lengths in between, and never clear them. What a region held before does not show in the
rows: a share of a pass, run twice over the same rows, on two benches that hold anything, leaves
the same rows, and if it meets a fault it meets the same one (`PassJob.run_alike`).

The two runs are compared step by step. They **agree** when their rows are the same and the slots
of the bundle hold the same wherever they have been gathered (`PassJob.Agree`); nothing is said of
other slots, nor of the spectra. Loading adds a slot to those that are gathered. Transforming a
line and storing ask for slots that were gathered before, which is why a bundle is loaded as a
whole before its first line is transformed. The spectrum is asked for nothing, since a call on it
is the same whatever it held (`LineTransform.callOn_other`); all that a row store has to do for
this is to hand on what a change answers without looking at it (`HandsOnAnswers`).
-/

namespace CosineTransform

/-! ### Row stores and answers -/

/-- A row store that hands on what a change of a row answers. -/
class HandsOnAnswers (R : Type) (T : outParam Type) [RowStore R T] : Prop where
  modifyRow_map {α β : Type} (i j : Nat) (change : Array T → Checked (Array T × α)) (φ : α → β) :
    (RowStore.modifyRow i j fun row => Prod.map id φ <$> change row : EStateM Fault R β) =
      φ <$> RowStore.modifyRow i j change

instance {T : Type} : HandsOnAnswers (FlatStore T) T where
  modifyRow_map i j change φ := by
    funext s
    change FlatStore.modifyRow i j _ s = EStateM.map φ (FlatStore.modifyRow i j change) s
    unfold EStateM.map FlatStore.modifyRow
    cases s.shape.rowStart i j with
    | error f => rfl
    | ok start =>
      dsimp only
      by_cases hstop : start + s.shape.columns ≤ s.elements.size
      · rw [if_pos hstop, if_pos hstop]
        cases change (s.elements.extract start (start + s.shape.columns)) with
        | error f => rfl
        | ok answer =>
          obtain ⟨row, a⟩ := answer
          simp only [Checked.ok_map, Prod.map_apply, id]
          by_cases hrow : row.size = s.shape.columns
          · rw [if_pos hrow, if_pos hrow]
          · rw [if_neg hrow, if_neg hrow]
      · rw [if_neg hstop, if_neg hstop]

instance {T : Type} : HandsOnAnswers (RowTable T) T where
  modifyRow_map i j change φ := by
    funext s
    change RowTable.modifyRow i j _ s = EStateM.map φ (RowTable.modifyRow i j change) s
    unfold EStateM.map RowTable.modifyRow
    cases RowTable.entry s.shape i j with
    | error f => rfl
    | ok r =>
      dsimp only
      by_cases hr : r < s.rows.size
      · rw [dif_pos hr, dif_pos hr]
        cases change s.rows[r] with
        | error f => rfl
        | ok answer =>
          obtain ⟨row, a⟩ := answer
          simp only [Checked.ok_map, Prod.map_apply, id]
          by_cases hrow : row.size = s.rows[r].size
          · rw [if_pos hrow, if_pos hrow]
          · rw [if_neg hrow, if_neg hrow]
      · rw [dif_neg hr, dif_neg hr]

instance {R T : Type} [RowStore R T] [HandsOnAnswers R T] : HandsOnAnswers (ProbedStore R) T where
  modifyRow_map i j change φ := by
    funext s
    change ProbedStore.probe (.row i j) _ s =
      EStateM.map φ (ProbedStore.probe (.row i j) (RowStore.modifyRow i j change)) s
    rw [HandsOnAnswers.modifyRow_map i j change φ]
    unfold EStateM.map ProbedStore.probe
    dsimp only
    cases s.journal.visit (.row i j) with
    | mk raised journal =>
      cases raised with
      | some payload => rfl
      | none =>
        change (match EStateM.map φ (RowStore.modifyRow i j change) s.inside with
          | .ok x inside => _
          | .error f inside => _) = _
        unfold EStateM.map
        cases RowStore.modifyRow i j change s.inside with
        | ok a inside => rfl
        | error f inside => rfl

/-! ### Runs that end alike -/

namespace Workspace

variable {R T α : Type} {rows rows' : R} {bench : Bench T}

theorem map_of_ok {σ ε β : Type} {x : EStateM ε σ α} {φ : α → β} {a : α} {s s' : σ}
    (h : x s = .ok a s') : (φ <$> x) s = .ok (φ a) s' := by
  change EStateM.map φ x s = _
  unfold EStateM.map
  rw [h]

theorem map_of_error {σ ε β : Type} {x : EStateM ε σ α} {φ : α → β} {error : ε} {s s' : σ}
    (h : x s = .error error s') : (φ <$> x) s = .error error s' := by
  change EStateM.map φ x s = _
  unfold EStateM.map
  rw [h]

theorem onRows_of_error {act : EStateM Fault R α} {fault : Fault}
    (h : act rows = .error fault rows') :
    onRows act (⟨rows, bench⟩ : Workspace R T) = .error fault ⟨rows', bench⟩ := by
  unfold onRows
  dsimp only
  rw [h]

theorem onBench_of_error {act : EStateM Fault (Bench T) α} {fault : Fault} {bench' : Bench T}
    (h : act bench = .error fault bench') :
    onBench act (⟨rows, bench⟩ : Workspace R T) = .error fault ⟨rows, bench'⟩ := by
  unfold onBench
  dsimp only
  rw [h]

end Workspace

theorem Bench.setLine_of_lt {T : Type} {b : Bench T} {window : Window} {values : Array T}
    (h : ¬ values.size ≤ window.size) :
    setLine window values b = .error (.stretchOutOfRange values.size window.size) b := by
  unfold setLine
  rw [if_neg fun hand => h hand.1]

/-- **Two runs end alike**: both succeed, with answers and workspaces that are related, or both
meet the same fault and leave the same rows. -/
inductive EndsAlike {R T α β : Type} (Q : α → β → Workspace R T → Workspace R T → Prop) :
    EStateM.Result Fault (Workspace R T) α → EStateM.Result Fault (Workspace R T) β → Prop
  | ok {a : α} {b : β} {st st' : Workspace R T} :
      Q a b st st' → EndsAlike Q (.ok a st) (.ok b st')
  | error {f : Fault} {st st' : Workspace R T} :
      st.rows = st'.rows → EndsAlike Q (.error f st) (.error f st')

namespace EndsAlike

variable {R T α β γ δ : Type} {Q : α → β → Workspace R T → Workspace R T → Prop}
  {Q' : γ → δ → Workspace R T → Workspace R T → Prop} {st st' : Workspace R T}

theorem bind {x : EStateM Fault (Workspace R T) α} {x' : EStateM Fault (Workspace R T) β}
    {f : α → EStateM Fault (Workspace R T) γ} {f' : β → EStateM Fault (Workspace R T) δ}
    (hx : EndsAlike Q (x st) (x' st'))
    (hf : ∀ a b s s', Q a b s s' → EndsAlike Q' (f a s) (f' b s')) :
    EndsAlike Q' ((x >>= f) st) ((x' >>= f') st') := by
  change EndsAlike Q' (EStateM.bind x f st) (EStateM.bind x' f' st')
  unfold EStateM.bind
  generalize x st = r, x' st' = r' at hx
  cases hx with
  | ok h => exact hf _ _ _ _ h
  | error h => exact .error h

/-- Steps that succeed on either side. -/
theorem bind_ok {x : EStateM Fault (Workspace R T) α} {x' : EStateM Fault (Workspace R T) β}
    {f : α → EStateM Fault (Workspace R T) γ} {f' : β → EStateM Fault (Workspace R T) δ}
    {a : α} {b : β} {s s' : Workspace R T} (hx : x st = .ok a s) (hx' : x' st' = .ok b s')
    (hf : EndsAlike Q' (f a s) (f' b s')) : EndsAlike Q' ((x >>= f) st) ((x' >>= f') st') := by
  rwa [Workspace.bind_of_ok hx, Workspace.bind_of_ok hx']

theorem mono {Q' : α → β → Workspace R T → Workspace R T → Prop}
    {r : EStateM.Result Fault (Workspace R T) α} {r' : EStateM.Result Fault (Workspace R T) β}
    (h : EndsAlike Q r r') (hQ : ∀ a b s s', Q a b s s' → Q' a b s s') : EndsAlike Q' r r' := by
  cases h with
  | ok h => exact .ok (hQ _ _ _ _ h)
  | error h => exact .error h

/-- When the first run succeeds, so does the other. -/
theorem exists_ok {a : α} {st : Workspace R T} {r' : EStateM.Result Fault (Workspace R T) β}
    (h : EndsAlike Q (.ok a st) r') : ∃ b st', r' = .ok b st' ∧ Q a b st st' := by
  cases h with
  | ok h => exact ⟨_, _, rfl, h⟩

/-- **Two lists of actions**, taken in step, end alike when each pair of actions keeps what is
related. -/
theorem forM {ι : Type} {P : Workspace R T → Workspace R T → Prop} {xs : List ι}
    {f f' : ι → EStateM Fault (Workspace R T) Unit}
    (hf : ∀ x ∈ xs, ∀ s s', P s s' → EndsAlike (fun _ _ => P) (f x s) (f' x s'))
    (h : P st st') : EndsAlike (fun _ _ => P) (xs.forM f st) (xs.forM f' st') := by
  induction xs generalizing st st' with
  | nil => exact .ok h
  | cons x xs ih =>
    obtain ⟨hx, hxs⟩ := List.forall_mem_cons.1 hf
    exact .bind (hx st st' h) fun _ _ _ _ hs => ih hxs hs

end EndsAlike

/-! ### Regions that have room -/

/-- **The region lies on the bench** and has room for a number of slots and of spectrum
entries. -/
structure Region.Fits {T : Type} (r : Region) (b : Bench T) (slots entries : Nat) : Prop where
  slots_le : slots ≤ r.lines.size
  entries_le : entries ≤ r.spectrum.size
  lines_le : r.lines.start + r.lines.size ≤ b.lines.size
  spectra_le : r.spectrum.start + r.spectrum.size ≤ b.spectra.size

/-- The last worker of those that a bench serves has a region with room. -/
theorem Bench.Serves.fits {T : Type} {b : Bench T} {w slots entries : Nat}
    (h : b.Serves (w + 1) slots entries) : (b.region w).Fits b slots entries where
  slots_le := h.slots_le
  entries_le := h.entries_le
  lines_le := Bench.stretch_le h.lines_le (Nat.lt_succ_self w) le_rfl
  spectra_le := Bench.stretch_le h.spectra_le (Nat.lt_succ_self w) le_rfl

namespace PassJob

open Workspace

variable {R T : Type} {job : PassJob T} {region region' : Region} {bench : Bench T}

/-- The region has room for what the job needs. -/
def FitsIn (job : PassJob T) (region : Region) (bench : Bench T) : Prop :=
  region.Fits bench job.slots job.transform.spectrumLength

/-! ### Windows of a region -/

theorem FitsIn.spectrumWindow_eq (h : job.FitsIn region bench) :
    job.spectrumWindow region =
      .ok ⟨region.spectrum.start, job.transform.spectrumLength⟩ :=
  spectrumWindow_of_le h.entries_le

theorem FitsIn.bundleWindow_eq (h : job.FitsIn region bench) (hpass : job.pass ≠ .inner) :
    job.bundleWindow region = .ok ⟨region.lines.start, job.slots⟩ := by
  have hroom := h.slots_le
  rw [slots_eq hpass] at hroom ⊢
  exact Region.bundleWindow_of_le hroom

theorem FitsIn.spectrum_le (h : job.FitsIn region bench) :
    region.spectrum.start + job.transform.spectrumLength ≤ bench.spectra.size :=
  le_trans (Nat.add_le_add_left h.entries_le _) h.spectra_le

theorem FitsIn.slots_le_size (h : job.FitsIn region bench) :
    region.lines.start + job.slots ≤ bench.lines.size :=
  le_trans (Nat.add_le_add_left h.slots_le _) h.lines_le

/-- The place of a line in the bundle lies on the bench. -/
theorem FitsIn.place_le (h : job.FitsIn region bench) {start n : Nat}
    (hn : start + n ≤ job.slots) : region.lines.start + start + n ≤ bench.lines.size := by
  rw [Nat.add_assoc]
  exact le_trans (Nat.add_le_add_left hn _) h.slots_le_size

theorem FitsIn.setSlot_eq (h : job.FitsIn region bench) {slot : Nat} (hslot : slot < job.slots)
    (x : T) : Bench.setSlot ⟨region.lines.start, job.slots⟩ slot x bench =
      .ok () { bench with
        lines := bench.lines.setIfInBounds (region.lines.start + slot) x } := by
  have hend := h.slots_le_size
  exact Bench.setSlot_eq x hslot (by dsimp only; omega)

theorem FitsIn.exists_slot (h : job.FitsIn region bench) {slot : Nat} (hslot : slot < job.slots) :
    ∃ x, bench.lines[region.lines.start + slot]? = some x := by
  have hend := h.slots_le_size
  exact ⟨_, Array.getElem?_eq_getElem (by omega)⟩

/-- The spectrum on which a job works in a region. -/
def spectrumIn (job : PassJob T) (region : Region) (bench : Bench T) : Array (Cartesian T) :=
  bench.spectra.extract region.spectrum.start
    (region.spectrum.start + job.transform.spectrumLength)

theorem FitsIn.size_spectrumIn (h : job.FitsIn region bench) :
    (job.spectrumIn region bench).size = job.transform.spectrumLength := by
  have hle := h.spectrum_le
  unfold spectrumIn
  rw [Array.size_extract]
  omega

theorem FitsIn.spectrum_eq (h : job.FitsIn region bench) :
    Bench.spectrum ⟨region.spectrum.start, job.transform.spectrumLength⟩ bench =
      .ok (job.spectrumIn region bench) bench :=
  Bench.spectrum_eq h.spectrum_le

theorem FitsIn.setSpectrum_eq (h : job.FitsIn region bench) {worked : Array (Cartesian T)}
    (hworked : worked.size = job.transform.spectrumLength) :
    Bench.setSpectrum ⟨region.spectrum.start, job.transform.spectrumLength⟩ worked bench =
      .ok () { bench with
        spectra := Buffer.overlay bench.spectra region.spectrum.start worked.toList } :=
  Bench.setSpectrum_eq hworked.le h.spectrum_le

/-- A bench of the same sizes. -/
theorem FitsIn.congr {bench' : Bench T} (h : job.FitsIn region bench)
    (hlines : bench'.lines.size = bench.lines.size)
    (hspectra : bench'.spectra.size = bench.spectra.size) : job.FitsIn region bench' :=
  ⟨h.slots_le, h.entries_le, hlines ▸ h.lines_le, hspectra ▸ h.spectra_le⟩

/-! ### Agreement -/

variable {G : Nat → Prop} {st st' : Workspace R T}

/-- **Two workspaces agree**: the rows are the same, and the slots that have been gathered hold
the same in either region. -/
structure Agree (job : PassJob T) (region region' : Region) (G : Nat → Prop)
    (st st' : Workspace R T) : Prop where
  rows_eq : st.rows = st'.rows
  fits : job.FitsIn region st.bench
  fits' : job.FitsIn region' st'.bench
  slot_eq : ∀ m < job.slots, G m →
    st.bench.lines[region.lines.start + m]? = st'.bench.lines[region'.lines.start + m]?

/-- Fewer slots. -/
theorem Agree.mono {G' : Nat → Prop} (h : Agree job region region' G st st')
    (hG : ∀ m < job.slots, G' m → G m) : Agree job region region' G' st st' :=
  ⟨h.rows_eq, h.fits, h.fits', fun m hm hmG => h.slot_eq m hm (hG m hm hmG)⟩

/-- Workspaces that agree differ in their benches only. -/
theorem Agree.exists_rows (h : Agree job region region' G st st') :
    ∃ rows bench bench', st = ⟨rows, bench⟩ ∧ st' = ⟨rows, bench'⟩ := by
  obtain ⟨rows, bench⟩ := st
  obtain ⟨rows', bench'⟩ := st'
  have hrows : rows = rows' := h.rows_eq
  exact ⟨rows, bench, bench', rfl, by rw [hrows]⟩

section Agreement

variable {rows : R} {bench' : Bench T}

/-- The spectra do not count. -/
theorem Agree.withSpectra (h : Agree job region region' G (⟨rows, bench⟩ : Workspace R T)
      ⟨rows, bench'⟩) (rows₁ : R) {spectra spectra' : Array (Cartesian T)}
    (hsize : spectra.size = bench.spectra.size) (hsize' : spectra'.size = bench'.spectra.size) :
    Agree job region region' G (⟨rows₁, { bench with spectra := spectra }⟩ : Workspace R T)
      ⟨rows₁, { bench' with spectra := spectra' }⟩ :=
  ⟨rfl, h.fits.congr rfl hsize, h.fits'.congr rfl hsize', h.slot_eq⟩

/-- Other lines of the same size, which hold the same wherever slots are gathered. -/
theorem Agree.withLines {G' : Nat → Prop} (h : Agree job region region' G
      (⟨rows, bench⟩ : Workspace R T) ⟨rows, bench'⟩) (rows₁ : R) {lines lines' : Array T}
    (hsize : lines.size = bench.lines.size) (hsize' : lines'.size = bench'.lines.size)
    (hslot : ∀ m < job.slots, G' m →
      lines[region.lines.start + m]? = lines'[region'.lines.start + m]?) :
    Agree job region region' G' (⟨rows₁, { bench with lines := lines }⟩ : Workspace R T)
      ⟨rows₁, { bench' with lines := lines' }⟩ :=
  ⟨rfl, h.fits.congr hsize rfl, h.fits'.congr hsize' rfl, hslot⟩

/-- A line is the same in either region, once every slot has been gathered. -/
theorem Agree.extract_eq
    (h : Agree job region region' (fun _ => True) (⟨rows, bench⟩ : Workspace R T) ⟨rows, bench'⟩)
    {start n : Nat} (hn : start + n ≤ job.slots) :
    bench'.lines.extract (region'.lines.start + start) (region'.lines.start + start + n) =
      bench.lines.extract (region.lines.start + start) (region.lines.start + start + n) := by
  have hend : region.lines.start + job.slots ≤ bench.lines.size := h.fits.slots_le_size
  have hend' : region'.lines.start + job.slots ≤ bench'.lines.size := h.fits'.slots_le_size
  apply Array.ext_getElem?
  intro t
  rw [Array.getElem?_extract, Array.getElem?_extract]
  by_cases ht : t < n
  · rw [if_pos (by omega), if_pos (by omega), Nat.add_assoc, Nat.add_assoc]
    exact (h.slot_eq _ (by omega) trivial).symm
  · rw [if_neg (by omega), if_neg (by omega)]

/-- Agreement after the same line was laid down in either region. -/
theorem Agree.overlay
    (h : Agree job region region' (fun _ => True) (⟨rows, bench⟩ : Workspace R T) ⟨rows, bench'⟩)
    (start : Nat) (line : List T) :
    Agree job region region' (fun _ => True)
      (⟨rows, { bench with
        lines := Buffer.overlay bench.lines (region.lines.start + start) line }⟩ : Workspace R T)
      ⟨rows, { bench' with
        lines := Buffer.overlay bench'.lines (region'.lines.start + start) line }⟩ := by
  have hend : region.lines.start + job.slots ≤ bench.lines.size := h.fits.slots_le_size
  have hend' : region'.lines.start + job.slots ≤ bench'.lines.size := h.fits'.slots_le_size
  refine h.withLines rows (Buffer.size_overlay _ _ _) (Buffer.size_overlay _ _ _) fun m hm _ => ?_
  rw [Buffer.getElem?_overlay, Buffer.getElem?_overlay]
  -- Seen from the starts of the regions, the line covers the same slots.
  by_cases hcovered : start ≤ m ∧ m < start + line.length
  · rw [if_pos (by omega), if_pos (by omega), Nat.add_sub_add_left, Nat.add_sub_add_left]
  · rw [if_neg (by omega), if_neg (by omega)]
    exact h.slot_eq m hm trivial

/-- An access to the same rows ends alike, and leaves the benches as they are. -/
theorem onRows_alike {α : Type} (act : EStateM Fault R α) (rows : R) (bench bench' : Bench T) :
    EndsAlike (fun a a' s s' => a = a' ∧ ∃ rows₁, s = ⟨rows₁, bench⟩ ∧ s' = ⟨rows₁, bench'⟩)
      (onRows act ⟨rows, bench⟩) (onRows act ⟨rows, bench'⟩) := by
  unfold onRows
  dsimp only
  cases act rows with
  | ok a rows₁ => exact .ok ⟨rfl, rows₁, rfl, rfl⟩
  | error f rows₁ => exact .error rfl

/-- The same line laid down in either region, if it does not exceed its place. -/
theorem setLine_alike
    (h : Agree job region region' (fun _ => True) (⟨rows, bench⟩ : Workspace R T) ⟨rows, bench'⟩)
    {start n : Nat} (hn : start + n ≤ job.slots) (line : Array T) :
    EndsAlike (fun _ _ s s' => ∃ bench₁ bench₁', s = ⟨rows, bench₁⟩ ∧ s' = ⟨rows, bench₁'⟩ ∧
        Agree job region region' (fun _ => True) s s')
      (onBench (Bench.setLine ⟨region.lines.start + start, n⟩ line) ⟨rows, bench⟩)
      (onBench (Bench.setLine ⟨region'.lines.start + start, n⟩ line) ⟨rows, bench'⟩) := by
  by_cases hline : line.size ≤ n
  · rw [onBench_of_ok (Bench.setLine_eq hline (h.fits.place_le hn)),
      onBench_of_ok (Bench.setLine_eq hline (h.fits'.place_le hn))]
    exact .ok ⟨_, _, rfl, rfl, h.overlay start line.toList⟩
  · rw [onBench_of_error (Bench.setLine_of_lt hline), onBench_of_error (Bench.setLine_of_lt hline)]
    exact .error rfl

end Agreement

/-! ### Steps -/

section Steps

variable {W : Type} [Precision W] [Sample T W] {rows : R} {bench' : Bench T}

/-- **A line transformed on two spectra** is left the same. What comes back of either spectrum
has its size. -/
theorem callOn_alike (l : LineTransform T) (d : Direction) (scaled : Bool) (line : Array T)
    {spectrum spectrum' : Array (Cartesian T)} (hs : l.spectrumLength ≤ spectrum.size)
    (hs' : l.spectrumLength ≤ spectrum'.size) :
    EndsAlike (fun a a' s s' => a.1 = a'.1 ∧ a.2.size = spectrum.size ∧
        a'.2.size = spectrum'.size ∧ s = (⟨rows, bench⟩ : Workspace R T) ∧ s' = ⟨rows, bench'⟩)
      (Checked.lift (l.callOn d scaled line spectrum) ⟨rows, bench⟩)
      (Checked.lift (l.callOn d scaled line spectrum') ⟨rows, bench'⟩) := by
  rw [l.callOn_other d scaled line hs hs']
  cases hcall : l.callOn d scaled line spectrum with
  | error f => exact .error rfl
  | ok answer =>
    obtain ⟨line', worked⟩ := answer
    have hworked : worked.size = spectrum.size := by
      rw [← l.laidOver_worked hs hcall, LineTransform.size_laidOver]
    exact .ok ⟨rfl, hworked, l.size_laidOver _ _, rfl, rfl⟩

variable [RowStore R T]

/-- **A row transformed on two spectra** is left the same. What comes back of either spectrum
has its size. -/
theorem modifyRow_alike [HandsOnAnswers R T] (l : LineTransform T) (d : Direction) (scaled : Bool)
    {spectrum spectrum' : Array (Cartesian T)} (hs : l.spectrumLength ≤ spectrum.size)
    (hs' : l.spectrumLength ≤ spectrum'.size) (i j : Nat) (rows : R) (bench bench' : Bench T) :
    EndsAlike (fun worked worked' s s' => worked.size = spectrum.size ∧
        worked'.size = spectrum'.size ∧ ∃ rows₁, s = ⟨rows₁, bench⟩ ∧ s' = ⟨rows₁, bench'⟩)
      (onRows (RowStore.modifyRow i j fun row => l.callOn d scaled row spectrum) ⟨rows, bench⟩)
      (onRows (RowStore.modifyRow i j fun row => l.callOn d scaled row spectrum')
        ⟨rows, bench'⟩) := by
  -- Both changes are the first one, with its answer laid over the spectrum at hand.
  have hchange : ∀ {other : Array (Cartesian T)}, l.spectrumLength ≤ other.size →
      (RowStore.modifyRow i j fun row => l.callOn d scaled row other :
        EStateM Fault R (Array (Cartesian T))) =
      l.laidOver other <$> RowStore.modifyRow i j fun row => l.callOn d scaled row spectrum := by
    intro other hother
    rw [← HandsOnAnswers.modifyRow_map]
    simp only [l.callOn_other d scaled _ hs hother]
  have hself := congrFun (hchange hs) rows
  rw [hchange hs']
  cases hrun : (RowStore.modifyRow i j fun row => l.callOn d scaled row spectrum :
      EStateM Fault R (Array (Cartesian T))) rows with
  | error f rows₁ =>
    rw [onRows_of_error hrun, onRows_of_error (map_of_error hrun)]
    exact .error rfl
  | ok worked rows₁ =>
    rw [hrun, map_of_ok hrun] at hself
    have hworked : worked.size = spectrum.size := by
      rw [(EStateM.Result.ok.inj hself).1, LineTransform.size_laidOver]
    rw [onRows_of_ok hrun, onRows_of_ok (map_of_ok hrun)]
    exact .ok ⟨hworked, l.size_laidOver _ _, rows₁, rfl, rfl⟩

/-- Transforming a row where it lies asks for no slot. -/
theorem row_alike [HandsOnAnswers R T] (h : Agree job region region' G ⟨rows, bench⟩ ⟨rows, bench'⟩)
    (i j : Nat) :
    EndsAlike (fun _ _ => Agree job region region' G) (job.step region (.row i j) ⟨rows, bench⟩)
      (job.step region' (.row i j) ⟨rows, bench'⟩) := by
  have hsize := h.fits.size_spectrumIn
  have hsize' := h.fits'.size_spectrumIn
  unfold step
  dsimp only
  refine .bind_ok (lift_of_ok h.fits.spectrumWindow_eq _)
    (lift_of_ok h.fits'.spectrumWindow_eq _) ?_
  refine .bind_ok (onBench_of_ok h.fits.spectrum_eq) (onBench_of_ok h.fits'.spectrum_eq) ?_
  refine .bind (modifyRow_alike job.transform job.direction job.scaled hsize.ge hsize'.ge
    i j rows bench bench') ?_
  rintro worked worked' _ _ ⟨hworked, hworked', rows₁, rfl, rfl⟩
  rw [onBench_of_ok (h.fits.setSpectrum_eq (hworked.trans hsize)),
    onBench_of_ok (h.fits'.setSpectrum_eq (hworked'.trans hsize'))]
  exact .ok (h.withSpectra rows₁ (Buffer.size_overlay _ _ _) (Buffer.size_overlay _ _ _))

/-- **Loading** adds a slot to those that are gathered. -/
theorem load_alike (h : Agree job region region' G ⟨rows, bench⟩ ⟨rows, bench'⟩)
    (hpass : job.pass ≠ .inner) {slot : Nat} (hslot : slot < job.slots) (i j k : Nat) :
    EndsAlike (fun _ _ => Agree job region region' fun m => G m ∨ m = slot)
      (job.step region (.load i j k slot) ⟨rows, bench⟩)
      (job.step region' (.load i j k slot) ⟨rows, bench'⟩) := by
  unfold step
  dsimp only
  refine .bind_ok (lift_of_ok (h.fits.bundleWindow_eq hpass) _)
    (lift_of_ok (h.fits'.bundleWindow_eq hpass) _) ?_
  refine .bind (onRows_alike (RowStore.load i j k) rows bench bench') ?_
  rintro value _ _ _ ⟨rfl, rows₁, rfl, rfl⟩
  rw [onBench_of_ok (h.fits.setSlot_eq hslot value), onBench_of_ok (h.fits'.setSlot_eq hslot value)]
  refine .ok (h.withLines rows₁ Array.size_setIfInBounds Array.size_setIfInBounds
    fun m hm hG => ?_)
  by_cases hms : m = slot
  · -- The slot now holds what was loaded, in either region.
    have hend := h.fits.slots_le_size
    have hend' := h.fits'.slots_le_size
    rw [hms, Array.getElem?_setIfInBounds_self_of_lt (by omega),
      Array.getElem?_setIfInBounds_self_of_lt (by omega)]
  · rw [Array.getElem?_setIfInBounds_ne (by omega), Array.getElem?_setIfInBounds_ne (by omega)]
    exact h.slot_eq m hm (hG.resolve_right hms)

/-- **Storing** asks for a slot that was gathered. -/
theorem store_alike (h : Agree job region region' G ⟨rows, bench⟩ ⟨rows, bench'⟩)
    (hpass : job.pass ≠ .inner) {slot : Nat} (hslot : slot < job.slots) (hG : G slot)
    (i j k : Nat) :
    EndsAlike (fun _ _ => Agree job region region' G)
      (job.step region (.store i j k slot) ⟨rows, bench⟩)
      (job.step region' (.store i j k slot) ⟨rows, bench'⟩) := by
  obtain ⟨x, hx⟩ := h.fits.exists_slot hslot
  have hx' := (h.slot_eq slot hslot hG).symm.trans hx
  have hread : Bench.slot ⟨region.lines.start, job.slots⟩ slot bench = .ok x bench :=
    Bench.slot_eq hslot hx
  have hread' : Bench.slot ⟨region'.lines.start, job.slots⟩ slot bench' = .ok x bench' :=
    Bench.slot_eq hslot hx'
  unfold step
  dsimp only
  refine .bind_ok (lift_of_ok (h.fits.bundleWindow_eq hpass) _)
    (lift_of_ok (h.fits'.bundleWindow_eq hpass) _) ?_
  refine .bind_ok (onBench_of_ok hread) (onBench_of_ok hread') ?_
  refine (onRows_alike (RowStore.store i j k x) rows bench bench').mono ?_
  rintro _ _ _ _ ⟨-, rows₁, rfl, rfl⟩
  exact h.withLines rows₁ rfl rfl h.slot_eq

/-- **Transforming a line** asks for all slots of the bundle. -/
theorem line_alike (h : Agree job region region' (fun _ => True) ⟨rows, bench⟩ ⟨rows, bench'⟩)
    (hpass : job.pass ≠ .inner) {c : Nat} (hc : c < job.bundle.width) :
    EndsAlike (fun _ _ => Agree job region region' fun _ => True)
      (job.step region (.line c) ⟨rows, bench⟩) (job.step region' (.line c) ⟨rows, bench'⟩) := by
  have hslots : c * job.transform.length + job.transform.length ≤ job.slots := by
    rw [slots_eq hpass]
    exact Bench.stretch_le le_rfl hc le_rfl
  have hsize := h.fits.size_spectrumIn
  have hsize' := h.fits'.size_spectrumIn
  unfold step
  dsimp only
  refine .bind_ok (lift_of_ok (h.fits.bundleWindow_eq hpass) _)
    (lift_of_ok (h.fits'.bundleWindow_eq hpass) _) ?_
  refine .bind_ok (lift_of_ok (Window.part_of_le hslots) _)
    (lift_of_ok (Window.part_of_le hslots) _) ?_
  refine .bind_ok (lift_of_ok h.fits.spectrumWindow_eq _)
    (lift_of_ok h.fits'.spectrumWindow_eq _) ?_
  refine .bind_ok (onBench_of_ok (Bench.line_eq (h.fits.place_le hslots)))
    (onBench_of_ok (Bench.line_eq (h.fits'.place_le hslots))) ?_
  refine .bind_ok (onBench_of_ok h.fits.spectrum_eq) (onBench_of_ok h.fits'.spectrum_eq) ?_
  -- Every slot was gathered, so both runs take the same line.
  rw [h.extract_eq hslots]
  refine .bind (callOn_alike job.transform job.direction job.scaled _ hsize.ge hsize'.ge) ?_
  rintro ⟨line, worked⟩ ⟨_, worked'⟩ _ _ ⟨rfl, hworked, hworked', rfl, rfl⟩
  refine .bind (setLine_alike h hslots line) ?_
  rintro _ _ _ _ ⟨bench₁, bench₁', rfl, rfl, h₁⟩
  rw [onBench_of_ok (h₁.fits.setSpectrum_eq (hworked.trans hsize)),
    onBench_of_ok (h₁.fits'.setSpectrum_eq (hworked'.trans hsize'))]
  exact .ok (h₁.withSpectra rows (Buffer.size_overlay _ _ _) (Buffer.size_overlay _ _ _))

end Steps

/-! ### Programs -/

variable {W : Type} [Precision W] [Sample T W] [RowStore R T]

theorem steps_append (program program' : List Step) :
    (job.steps region (program ++ program') : EStateM Fault (Workspace R T) Unit) =
      (do job.steps region program; job.steps region program') := by
  unfold steps
  rw [List.forM_eq_forM, List.forM_append]

/-- After all loads of a list, its slots are gathered. -/
theorem loads_alike (hpass : job.pass ≠ .inner) {cells : List (Nat × Nat × Nat × Nat)}
    (hcells : ∀ x ∈ cells, x.2.2.2 < job.slots) (h : Agree job region region' G st st') :
    EndsAlike (fun _ _ => Agree job region region' fun m => G m ∨ ∃ x ∈ cells, m = x.2.2.2)
      (job.steps region (cells.map fun (i, j, k, slot) => .load i j k slot) st)
      (job.steps region' (cells.map fun (i, j, k, slot) => .load i j k slot) st') := by
  induction cells generalizing G st st' with
  | nil => exact .ok (h.mono fun m _ hm => hm.resolve_right (by simp))
  | cons x cells ih =>
    obtain ⟨i, j, k, slot⟩ := x
    obtain ⟨hslot, hcells⟩ := List.forall_mem_cons.1 hcells
    obtain ⟨rows, bench, bench', rfl, rfl⟩ := h.exists_rows
    refine .bind (load_alike h hpass hslot i j k) fun _ _ s s' hs => ?_
    refine (ih hcells hs).mono fun _ _ t t' ht => ht.mono fun m _ hm => ?_
    simpa [or_assoc] using hm

/-- The slots of a bundle are those of its cells. -/
theorem slot_lt_of_mem_cells (hpass : job.pass ≠ .inner) {row : Nat → Nat × Nat} {k : Nat}
    {x : Nat × Nat × Nat × Nat} (hx : x ∈ job.cells row k) : x.2.2.2 < job.slots := by
  obtain ⟨t, ht, hx⟩ := List.mem_flatMap.1 hx
  obtain ⟨c, hc, rfl⟩ := List.mem_map.1 hx
  rw [slots_eq hpass]
  exact Bench.stretch_lt (List.mem_range.1 hc) (List.mem_range.1 ht)

theorem exists_cell_of_lt_slots (hpass : job.pass ≠ .inner) (row : Nat → Nat × Nat) (k : Nat)
    {m : Nat} (hm : m < job.slots) : ∃ x ∈ job.cells row k, m = x.2.2.2 := by
  rw [slots_eq hpass] at hm
  have hpos : 0 < job.transform.length := Nat.pos_of_mul_pos_left (Nat.zero_lt_of_lt hm)
  -- The line and the place in it are quotient and remainder.
  have ht : m % job.transform.length < job.transform.length := Nat.mod_lt m hpos
  have hc : m / job.transform.length < job.bundle.width :=
    Nat.div_lt_of_lt_mul (by rwa [Nat.mul_comm])
  refine ⟨_, List.mem_flatMap.2 ⟨_, List.mem_range.2 ht,
    List.mem_map.2 ⟨_, List.mem_range.2 hc, rfl⟩⟩, ?_⟩
  exact (Nat.div_add_mod' m job.transform.length).symm

/-- **A bundle** asks for nothing that was on the bench before: it is loaded as a whole, then
its lines are transformed, and then it is stored. -/
theorem bundleSteps_alike (hpass : job.pass ≠ .inner) (row : Nat → Nat × Nat) (k : Nat)
    (h : Agree job region region' (fun _ => False) st st') :
    EndsAlike (fun _ _ => Agree job region region' fun _ => False)
      (job.steps region (job.bundleSteps row k) st)
      (job.steps region' (job.bundleSteps row k) st') := by
  -- After the loads every slot is gathered, and it stays so.
  have hslots : ∀ x ∈ job.cells row k, x.2.2.2 < job.slots :=
    fun x hx => slot_lt_of_mem_cells hpass hx
  have hloads := loads_alike hpass hslots h
  have hlines : ∀ s s' : Workspace R T, Agree job region region' (fun _ => True) s s' →
      EndsAlike (fun _ _ => Agree job region region' fun _ => True)
        (job.steps region ((List.range job.bundle.width).map .line) s)
        (job.steps region' ((List.range job.bundle.width).map .line) s') := by
    refine fun s s' hs => EndsAlike.forM (fun x hx t t' ht => ?_) hs
    obtain ⟨c, hc, rfl⟩ := List.mem_map.1 hx
    obtain ⟨rows, bench, bench', rfl, rfl⟩ := ht.exists_rows
    exact line_alike ht hpass (List.mem_range.1 hc)
  have hstores : ∀ s s' : Workspace R T, Agree job region region' (fun _ => True) s s' →
      EndsAlike (fun _ _ => Agree job region region' fun _ => True)
        (job.steps region ((job.cells row k).map fun (i, j, k, slot) => .store i j k slot) s)
        (job.steps region' ((job.cells row k).map fun (i, j, k, slot) => .store i j k slot)
          s') := by
    refine fun s s' hs => EndsAlike.forM (fun x hx t t' ht => ?_) hs
    obtain ⟨⟨i, j, k, slot⟩, hcell, rfl⟩ := List.mem_map.1 hx
    obtain ⟨rows, bench, bench', rfl, rfl⟩ := ht.exists_rows
    exact store_alike ht hpass (hslots _ hcell) trivial i j k
  have hgathered := EndsAlike.bind hloads fun _ _ s s' hs =>
    hlines s s' (hs.mono fun m hm _ => .inr (exists_cell_of_lt_slots hpass row k hm))
  have hbundle := EndsAlike.bind hgathered fun _ _ s s' hs => hstores s s' hs
  unfold bundleSteps
  rw [steps_append, steps_append, steps_append, steps_append]
  exact hbundle.mono fun _ _ t t' ht => ht.mono fun _ _ hand => hand.elim

/-- Blocks of steps that ask for nothing may follow one another. -/
theorem flatMap_alike {ι : Type} {xs : List ι} {block : ι → List Step}
    (hblock : ∀ x ∈ xs, ∀ s s' : Workspace R T, Agree job region region' (fun _ => False) s s' →
      EndsAlike (fun _ _ => Agree job region region' fun _ => False)
        (job.steps region (block x) s) (job.steps region' (block x) s'))
    (h : Agree job region region' (fun _ => False) st st') :
    EndsAlike (fun _ _ => Agree job region region' fun _ => False)
      (job.steps region (xs.flatMap block) st) (job.steps region' (xs.flatMap block) st') := by
  induction xs generalizing st st' with
  | nil => exact .ok h
  | cons x xs ih =>
    obtain ⟨hx, hxs⟩ := List.forall_mem_cons.1 hblock
    rw [List.flatMap_cons, steps_append, steps_append]
    exact .bind (hx st st' h) fun _ _ s s' hs => ih hxs hs

variable [HandsOnAnswers R T]

theorem outerSteps_alike (shape : Shape) (o : Nat)
    (h : Agree job region region' (fun _ => False) st st') :
    EndsAlike (fun _ _ => Agree job region region' fun _ => False)
      (job.steps region (job.outerSteps shape o) st)
      (job.steps region' (job.outerSteps shape o) st') := by
  unfold outerSteps
  cases hpass : job.pass with
  | inner =>
    refine EndsAlike.forM (fun x hx s s' hs => ?_) h
    obtain ⟨j, -, rfl⟩ := List.mem_map.1 hx
    obtain ⟨rows, bench, bench', rfl, rfl⟩ := hs.exists_rows
    exact row_alike hs o j
  | middle =>
    have hgathers : job.pass ≠ .inner := by rw [hpass]; decide
    exact flatMap_alike (fun k _ s s' hs => bundleSteps_alike hgathers _ k hs) h
  | outer =>
    have hgathers : job.pass ≠ .inner := by rw [hpass]; decide
    exact flatMap_alike (fun k _ s s' hs => bundleSteps_alike hgathers _ k hs) h

/-- **A share run twice**, over the same rows and in two regions that have room, ends alike,
whatever the regions held before. -/
theorem run_alike (share : Share) (rows : R) {bench bench' : Bench T}
    (h : job.FitsIn region bench) (h' : job.FitsIn region' bench') :
    EndsAlike (fun _ _ s s' => s.rows = s'.rows) (job.run share region ⟨rows, bench⟩)
      (job.run share region' ⟨rows, bench'⟩) := by
  have hagree : Agree job region region' (fun _ => False) (⟨rows, bench⟩ : Workspace R T)
      ⟨rows, bench'⟩ := ⟨rfl, h, h', fun _ _ hand => hand.elim⟩
  have hrun := flatMap_alike
    (fun o (_ : o ∈ share.visits (job.pass.outerCount (RowStore.shape rows))) s s' hs =>
      outerSteps_alike (RowStore.shape rows) o hs) hagree
  exact hrun.mono fun _ _ s s' hs => hs.rows_eq

end PassJob

/-! ### What is left on the bench is not seen -/

section Planned

variable {T W : Type} [Precision W] [Sample T W] {lengths : List Nat} {table : CircleTable T}
  {n : Nat} {l : LineTransform T}

/-- A planned transform answers for every line of its length. -/
theorem LineTransform.exists_callOn_eq (htable : CircleTable.ofLengths lengths = .ok table)
    (hl : LineTransform.onTable n table = .ok l) (d : Direction) (scaled : Bool) {line : Array T}
    (hline : line.size = n) {spectrum : Array (Cartesian T)}
    (hs : l.spectrumLength ≤ spectrum.size) :
    ∃ answer, l.callOn d scaled line spectrum = .ok answer := by
  obtain ⟨N, hserved, rfl⟩ := LineTransform.served_of_onTable htable hl
  obtain ⟨_, _, hcall, -⟩ := hserved.exists_callOn d scaled hline hs
  exact ⟨_, hcall⟩

/-- A job for the lines of its pass succeeds on every share, in every region that has room. -/
theorem PassJob.exists_run_eq {R : Type} [RowStore R T] [HandsOnAnswers R T] [RowView R T]
    [LawfulRowStore R T] {job : PassJob T} {rows : R}
    (htable : CircleTable.ofLengths lengths = .ok table)
    (hjob : LineTransform.onTable (job.pass.lineLength (RowStore.shape rows)) table =
      .ok job.transform)
    (hwidth : job.bundle.width ∣ (RowStore.shape rows).columns) (hsound : RowView.Sound rows)
    (share : Share) {region : Region} {bench : Bench T} (hfits : job.FitsIn region bench) :
    ∃ st, job.run share region ⟨rows, bench⟩ = .ok () st := by
  obtain ⟨N, hserved, htransform⟩ := LineTransform.served_of_onTable htable hjob
  -- It does on a bench cut to its size, and what is on the bench does not count.
  have hfitted := Bench.serves_fitted (T := T) job.slots job.transform.spectrumLength
  obtain ⟨st, hrun, -⟩ := PassJob.run_share_eq ⟨hserved, htransform, hwidth⟩ hfitted
    (RowView.Holds.of_sound hsound) share
  have hends := PassJob.run_alike share rows hfitted.fits hfits
  rw [hrun] at hends
  obtain ⟨⟨⟩, st', hrun', -⟩ := hends.exists_ok
  exact ⟨st', hrun'⟩

/-- **What a bench held before is not seen.** A call leaves the same line on any two spectra
that are long enough, and of its spectrum it keeps every entry from half the length on. A share
of a pass leaves the same rows in any two regions that have room. This is so for all transforms
and jobs, those that meet faults included; planned ones meet none. -/
theorem stale_bench_unobservable :
    (∀ (l : LineTransform T) (d : Direction) (scaled : Bool) (line : Array T)
      (spectrum spectrum' : Array (Cartesian T)), l.spectrumLength ≤ spectrum.size →
      l.spectrumLength ≤ spectrum'.size →
      Prod.fst <$> l.callOn d scaled line spectrum =
        Prod.fst <$> l.callOn d scaled line spectrum' ∧
      ∀ line' worked, l.callOn d scaled line spectrum = .ok (line', worked) →
        worked.size = spectrum.size ∧ ∀ i, l.length / 2 ≤ i → worked[i]? = spectrum[i]?) ∧
    (∀ {R : Type} [RowStore R T] [HandsOnAnswers R T] (job : PassJob T) (share : Share) (rows : R)
      (region region' : Region) (bench bench' : Bench T),
      job.FitsIn region bench → job.FitsIn region' bench' →
      EndsAlike (fun _ _ s s' => s.rows = s'.rows) (job.run share region ⟨rows, bench⟩)
        (job.run share region' ⟨rows, bench'⟩)) ∧
    (∀ {lengths : List Nat} {table : CircleTable T} {n : Nat} {l : LineTransform T},
      CircleTable.ofLengths lengths = .ok table → LineTransform.onTable n table = .ok l →
      ∀ (d : Direction) (scaled : Bool) (line : Array T) (spectrum : Array (Cartesian T)),
        line.size = n → l.spectrumLength ≤ spectrum.size →
        ∃ answer, l.callOn d scaled line spectrum = .ok answer) ∧
    (∀ {R : Type} [RowStore R T] [HandsOnAnswers R T] [RowView R T] [LawfulRowStore R T]
      {lengths : List Nat} {table : CircleTable T} (job : PassJob T) (share : Share) (rows : R)
      (region : Region) (bench : Bench T), CircleTable.ofLengths lengths = .ok table →
      LineTransform.onTable (job.pass.lineLength (RowStore.shape rows)) table =
        .ok job.transform →
      job.bundle.width ∣ (RowStore.shape rows).columns → RowView.Sound rows →
      job.FitsIn region bench → ∃ st, job.run share region ⟨rows, bench⟩ = .ok () st) := by
  refine ⟨fun l d scaled line spectrum spectrum' hs hs' => ⟨?_, fun line' worked hcall => ?_⟩,
    fun job share rows region region' bench bench' h h' => PassJob.run_alike share rows h h',
    fun htable hl d scaled line spectrum hline hs =>
      LineTransform.exists_callOn_eq htable hl d scaled hline hs,
    fun job share rows region bench htable hjob hwidth hsound hfits =>
      PassJob.exists_run_eq htable hjob hwidth hsound share hfits⟩
  · -- The other call is this one, with its spectrum laid over the other spectrum.
    rw [l.callOn_other d scaled line hs hs', ← comp_map]
    rfl
  · have hover := l.laidOver_worked hs hcall
    refine ⟨by rw [← hover, LineTransform.size_laidOver], fun i hi => ?_⟩
    rw [← hover]
    exact l.getElem?_laidOver hi spectrum worked

/-- A line of four on an empty spectrum and on a longer one that is not empty, and the lines
across four slices, gathered on a fresh bench and in the second region of a used one. -/
theorem stale_bench_unobservable_small :
    ∃ (table : CircleTable Float) (l : LineTransform Float),
      CircleTable.ofLengths [8] = .ok table ∧ LineTransform.onTable 4 table = .ok l ∧
      (∃ line worked worked',
        l.callOn .forward true #[1, 2, 3, 4] (Array.replicate 2 0) = .ok (line, worked) ∧
        l.callOn .forward true #[1, 2, 3, 4] (Array.replicate 7 ⟨0, 9⟩) = .ok (line, worked') ∧
        worked'[6]? = some ⟨0, 9⟩) ∧
      ∃ (rows : FlatStore Float) (bench bench' : Bench Float),
        PassJob.run ⟨.outer, l, .inverse, true, .two⟩ Share.whole
            ((Bench.fitted 8 2 : Bench Float).region 0)
            ⟨⟨⟨4, 1, 2⟩, Array.replicate 9 1⟩, Bench.fitted 8 2⟩ = .ok () ⟨rows, bench⟩ ∧
        PassJob.run ⟨.outer, l, .inverse, true, .two⟩ Share.whole
            (Bench.region ⟨Array.replicate 20 (3 : Float), Array.replicate 6 ⟨1, 1⟩, 9, 3⟩ 1)
            ⟨⟨⟨4, 1, 2⟩, Array.replicate 9 1⟩,
              ⟨Array.replicate 20 3, Array.replicate 6 ⟨1, 1⟩, 9, 3⟩⟩ =
          .ok () ⟨rows, bench'⟩ := by
  have htable : CircleTable.ofLengths [8] = .ok (CircleTable.complete 8 : CircleTable Float) :=
    CircleTable.ofLengths_singleton (by decide) (by decide)
  have hserved : LineTransform.Served Float 8 4 := ⟨by decide, by decide, by decide, by decide⟩
  have hl : LineTransform.onTable 4 (CircleTable.complete 8) =
      .ok (LineTransform.shared 8 4 : LineTransform Float) := hserved.onTable_eq
  obtain ⟨hcalls, hruns, hanswers, hsucceeds⟩ := stale_bench_unobservable (T := Float)
  refine ⟨_, _, htable, hl, ?_, ?_⟩
  · have hs : (LineTransform.shared 8 4 : LineTransform Float).spectrumLength ≤
        (Array.replicate 2 (0 : Cartesian Float)).size := by decide
    have hs' : (LineTransform.shared 8 4 : LineTransform Float).spectrumLength ≤
        (Array.replicate 7 (⟨0, 9⟩ : Cartesian Float)).size := by decide
    obtain ⟨⟨line, worked⟩, hcall⟩ := hanswers htable hl .forward true #[1, 2, 3, 4] _ rfl hs
    obtain ⟨⟨line', worked'⟩, hcall'⟩ := hanswers htable hl .forward true #[1, 2, 3, 4] _ rfl hs'
    have hsame := (hcalls _ .forward true #[1, 2, 3, 4] _ _ hs hs').1
    rw [hcall, hcall'] at hsame
    obtain rfl : line = line' := Except.ok.inj hsame
    obtain ⟨-, hkept⟩ := (hcalls _ .forward true #[1, 2, 3, 4] _ _ hs' hs').2 _ _ hcall'
    exact ⟨line, worked, worked', hcall, hcall', (hkept 6 (by decide)).trans (by simp)⟩
  · have hsound : RowView.Sound (⟨⟨4, 1, 2⟩, Array.replicate 9 1⟩ : FlatStore Float) :=
      ⟨by decide, by simp⟩
    have hbench : (Bench.fitted 8 2 : Bench Float).Serves (0 + 1) 8 2 := Bench.serves_fitted 8 2
    have hbench' : (⟨Array.replicate 20 3, Array.replicate 6 ⟨1, 1⟩, 9, 3⟩ :
        Bench Float).Serves (1 + 1) 8 2 := by constructor <;> simp
    have hends := hruns ⟨.outer, LineTransform.shared 8 4, .inverse, true, .two⟩ Share.whole
      (⟨⟨4, 1, 2⟩, Array.replicate 9 1⟩ : FlatStore Float) _ _ _ _ hbench.fits hbench'.fits
    obtain ⟨⟨rows, bench⟩, hrun⟩ := hsucceeds
      ⟨.outer, LineTransform.shared 8 4, .inverse, true, .two⟩ Share.whole
      (⟨⟨4, 1, 2⟩, Array.replicate 9 1⟩ : FlatStore Float) _ _ htable hl (by decide) hsound
      hbench.fits
    rw [hrun] at hends
    obtain ⟨⟨⟩, ⟨rows', bench'⟩, hrun', hrows⟩ := hends.exists_ok
    obtain rfl : rows = rows' := hrows
    exact ⟨rows, bench, bench', hrun, hrun'⟩

end Planned

end CosineTransform
