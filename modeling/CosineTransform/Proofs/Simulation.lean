import Mathlib
import CosineTransform.Proofs.Interleaving
import CosineTransform.Proofs.LawfulRows
import CosineTransform.Proofs.LineImage

/-!
# The steps of a pass have no faults

`Tableau` leaves addresses, bounds and faults out. Here they come back in: a
workspace **mirrors** a tableau when its rows hold the volume and its bench holds the
slots of every worker (`Workspace.Mirrors`), and each step of a planned pass, taken
on a workspace that mirrors a tableau, succeeds and mirrors the step of the tableau
(`step_mirrors`). What carries this is that a bench cut for some number of workers
keeps their regions apart (`Bench.place_inj`) and that a step changes entries of the
bench but never its cut (`Bench.SameCut`).

So all that was proved of tableaus is true of workspaces. `runOrder_interleaved` says
it of any interleaving of the shares of a pass, and `roster_run_eq` of the program, which
runs the shares one after the other. The spectra do not occur in a tableau: whatever a
spectrum holds, a line is transformed into the same image.
-/

namespace CosineTransform

/-! ### Actions that succeed -/

namespace Workspace

variable {R T α : Type} {rows rows' : R} {bench bench' : Bench T} {a : α}

theorem bind_of_ok {σ ε β : Type} {x : EStateM ε σ α} {f : α → EStateM ε σ β} {s s' : σ}
    (h : x s = .ok a s') : (x >>= f) s = f a s' := by
  change EStateM.bind x f s = _
  unfold EStateM.bind
  rw [h]

theorem bind_of_error {σ ε β : Type} {x : EStateM ε σ α} {f : α → EStateM ε σ β} {error : ε}
    {s s' : σ} (h : x s = .error error s') : (x >>= f) s = .error error s' := by
  change EStateM.bind x f s = _
  unfold EStateM.bind
  rw [h]

/-- A list of actions whose first one succeeds goes on with the others. -/
theorem forM_cons_of_ok {σ ε ι : Type} {f : ι → EStateM ε σ Unit} {x : ι} {xs : List ι}
    {s s' : σ} (h : f x s = .ok () s') : (x :: xs).forM f s = xs.forM f s' :=
  bind_of_ok h

theorem onRows_of_ok {act : EStateM Fault R α} (h : act rows = .ok a rows') :
    onRows act (⟨rows, bench⟩ : Workspace R T) = .ok a ⟨rows', bench⟩ := by
  unfold onRows
  dsimp only
  rw [h]

theorem onBench_of_ok {act : EStateM Fault (Bench T) α} (h : act bench = .ok a bench') :
    onBench act (⟨rows, bench⟩ : Workspace R T) = .ok a ⟨rows, bench'⟩ := by
  unfold onBench
  dsimp only
  rw [h]

theorem lift_of_ok {σ : Type} {x : Checked α} (h : x = .ok a) (s : σ) :
    Checked.lift x s = .ok a s := by
  rw [h, Checked.lift_ok]

end Workspace

/-! ### Row stores that hold a volume -/

/-- The row store has the shape, the rest and the elements that are given. -/
structure RowView.Holds {R T : Type} [RowStore R T] [RowView R T] (shape : Shape)
    (rest : Array T) (g : Nat → Nat → Nat → T) (s : R) : Prop where
  sound : RowView.Sound s
  shape_eq : RowStore.shape s = shape
  rest_eq : RowView.rest s = rest
  element : ∀ i j k, shape.Has i j k → (RowView.row s i j)[k]? = some (g i j k)

namespace RowView.Holds

variable {R T : Type} [RowStore R T] [RowView R T] [LawfulRowStore R T] {shape : Shape}
  {rest : Array T} {g g' : Nat → Nat → Nat → T} {s s' : R}

/-- A row of a row store that holds a volume. -/
theorem row_eq (h : Holds shape rest g s) {i j : Nat} (hij : shape.HasRow i j) :
    RowView.row s i j = (Array.range shape.columns).map (g i j) := by
  have hij' : (RowStore.shape s).HasRow i j := by rwa [h.shape_eq]
  refine Buffer.eq_map_range ?_ fun k hk => h.element i j k ⟨hij, hk⟩
  rw [LawfulRowStore.size_row h.sound hij', h.shape_eq]

/-- **A volume determines its row store.** -/
theorem unique (h : Holds shape rest g s) (h' : Holds shape rest g' s')
    (hg : ∀ i j k, shape.Has i j k → g i j k = g' i j k) : s = s' := by
  -- Lawful stores are told apart by their rows and their rest.
  refine LawfulRowStore.ext h.sound h'.sound (h.shape_eq.trans h'.shape_eq.symm)
    (h.rest_eq.trans h'.rest_eq.symm) fun i j hij => ?_
  rw [h.shape_eq] at hij
  rw [h.row_eq hij, h'.row_eq hij]
  exact Buffer.map_range_congr fun k hk => hg i j k ⟨hij, hk⟩

omit [LawfulRowStore R T] in
theorem congr (h : Holds shape rest g s) (hg : ∀ i j k, shape.Has i j k → g i j k = g' i j k) :
    Holds shape rest g' s :=
  ⟨h.sound, h.shape_eq, h.rest_eq, fun i j k hijk => by rw [h.element i j k hijk, hg i j k hijk]⟩

omit [LawfulRowStore R T] in
/-- A row store after one of its rows was replaced. -/
theorem replace (h : Holds shape rest g s) {i j : Nat} {xs : Array T}
    (hs : Replaced s i j xs s')
    (hg : ∀ i' j' k, shape.Has i' j' k →
      (if i' = i ∧ j' = j then xs else RowView.row s i' j')[k]? = some (g' i' j' k)) :
    Holds shape rest g' s' := by
  refine ⟨hs.sound, hs.shape_eq.trans h.shape_eq, hs.rest_eq.trans h.rest_eq,
    fun i' j' k hijk => ?_⟩
  have hrow : (RowStore.shape s).HasRow i' j' := by
    rw [h.shape_eq]
    exact hijk.1
  rw [hs.row_eq i' j' hrow]
  exact hg i' j' k hijk

/-- An element that is loaded is the one of the volume. -/
theorem load_eq (h : Holds shape rest g s) {i j k : Nat} (hijk : shape.Has i j k) :
    RowStore.load i j k s = .ok (g i j k) s :=
  LawfulRowStore.load_eq h.sound (by rw [h.shape_eq]; exact hijk.1) (h.element i j k hijk)

/-- **Storing** changes one element of the volume. -/
theorem store_eq (h : Holds shape rest g s) {i j k : Nat} (x : T) (hijk : shape.Has i j k) :
    ∃ s', RowStore.store i j k x s = .ok () s' ∧
      Holds shape rest (fun i' j' k' => if i' = i ∧ j' = j ∧ k' = k then x else g i' j' k')
        s' := by
  obtain ⟨s', hstore, hreplaced⟩ := LawfulRowStore.store_eq x h.sound
    (by rw [h.shape_eq]; exact hijk.1) (by rw [h.shape_eq]; exact hijk.2)
  refine ⟨s', hstore, h.replace hreplaced fun i' j' k' hijk' => ?_⟩
  -- In the row that is stored to, only element `k` changes.
  by_cases hrows : i' = i ∧ j' = j
  · obtain ⟨rfl, rfl⟩ := hrows
    rw [if_pos ⟨rfl, rfl⟩, h.row_eq hijk.1]
    by_cases hk : k' = k
    · subst hk
      rw [if_pos ⟨rfl, rfl, rfl⟩,
        Array.getElem?_setIfInBounds_self_of_lt (by simpa using hijk.2)]
    · rw [if_neg fun hand => hk hand.2.2, Array.getElem?_setIfInBounds_ne (Ne.symm hk)]
      exact Buffer.getElem?_map_range _ hijk'.2
  · rw [if_neg hrows, if_neg fun hand => hrows ⟨hand.1, hand.2.1⟩]
    exact h.element i' j' k' hijk'

/-- **Changing a row** puts another one in its place. -/
theorem modifyRow_eq (h : Holds shape rest g s) {i j : Nat} (hij : shape.HasRow i j) {α : Type}
    (change : Array T → Checked (Array T × α)) {f : Nat → T} {a : α}
    (hchange : change ((Array.range shape.columns).map (g i j)) =
      .ok ((Array.range shape.columns).map f, a)) :
    ∃ s', RowStore.modifyRow i j change s = .ok a s' ∧
      Holds shape rest (fun i' j' => if i' = i ∧ j' = j then f else g i' j') s' := by
  have hij' : (RowStore.shape s).HasRow i j := by rwa [h.shape_eq]
  rw [← h.row_eq hij] at hchange
  obtain ⟨s', hmodify, hreplaced⟩ :=
    LawfulRowStore.modifyRow_eq h.sound hij' hchange (by simp [h.shape_eq])
  refine ⟨s', hmodify, h.replace hreplaced fun i' j' k hijk => ?_⟩
  by_cases hrows : i' = i ∧ j' = j
  · rw [if_pos hrows, if_pos hrows]
    exact Buffer.getElem?_map_range _ hijk.2
  · rw [if_neg hrows, if_neg hrows]
    exact h.element i' j' k hijk

/-- A sound row store holds what it holds. -/
theorem of_sound [Zero T] (h : RowView.Sound s) :
    Holds (RowStore.shape s) (RowView.rest s)
      (fun i j k => (RowView.row s i j).getD k 0) s := by
  refine ⟨h, rfl, rfl, fun i j k hijk => ?_⟩
  have hk : k < (RowView.row s i j).size := by
    rw [LawfulRowStore.size_row h hijk.1]
    exact hijk.2
  rw [Array.getD_eq_getD_getElem?, Array.getElem?_eq_getElem hk, Option.getD_some]

end RowView.Holds

/-! ### Benches and their regions -/

namespace Bench

variable {T : Type}

/-- Two benches are cut into the same regions. -/
structure SameCut (b b' : Bench T) : Prop where
  size_lines : b.lines.size = b'.lines.size
  size_spectra : b.spectra.size = b'.spectra.size
  lineRoom_eq : b.lineRoom = b'.lineRoom
  spectrumRoom_eq : b.spectrumRoom = b'.spectrumRoom

/-- **The bench serves** a number of workers, each of whom needs a number of slots and
a number of spectrum entries. -/
structure Serves (b : Bench T) (workers slots entries : Nat) : Prop where
  lines_le : workers * b.lineRoom ≤ b.lines.size
  spectra_le : workers * b.spectrumRoom ≤ b.spectra.size
  slots_le : slots ≤ b.lineRoom
  entries_le : entries ≤ b.spectrumRoom

/-- A bench with one region, cut to measure. -/
def fitted [Zero T] (slots entries : Nat) : Bench T where
  lines := Array.replicate slots 0
  spectra := Array.replicate entries 0
  lineRoom := slots
  spectrumRoom := entries

theorem serves_fitted [Zero T] (slots entries : Nat) :
    (fitted slots entries : Bench T).Serves 1 slots entries := by
  constructor <;> simp [fitted]

theorem SameCut.rfl {b : Bench T} : SameCut b b :=
  ⟨Eq.refl _, Eq.refl _, Eq.refl _, Eq.refl _⟩

theorem SameCut.trans {b b' b'' : Bench T} (h : SameCut b b') (h' : SameCut b' b'') :
    SameCut b b'' :=
  ⟨h.size_lines.trans h'.size_lines, h.size_spectra.trans h'.size_spectra,
    h.lineRoom_eq.trans h'.lineRoom_eq, h.spectrumRoom_eq.trans h'.spectrumRoom_eq⟩

theorem Serves.of_sameCut {b b' : Bench T} {workers slots entries : Nat}
    (h : b.Serves workers slots entries) (hcut : SameCut b' b) :
    b'.Serves workers slots entries := by
  obtain ⟨hlines, hspectra, hslots, hentries⟩ := h
  constructor
  · rw [hcut.lineRoom_eq, hcut.size_lines]
    exact hlines
  · rw [hcut.spectrumRoom_eq, hcut.size_spectra]
    exact hspectra
  · rw [hcut.lineRoom_eq]
    exact hslots
  · rw [hcut.spectrumRoom_eq]
    exact hentries

/-- A worker's stretch ends within a buffer that has room for all of them. -/
theorem stretch_le {workers room size w m : Nat} (h : workers * room ≤ size) (hw : w < workers)
    (hm : m ≤ room) : w * room + m ≤ size := by
  have hle := Nat.mul_le_mul_right room (Nat.succ_le_of_lt hw)
  rw [Nat.succ_mul] at hle
  omega

theorem stretch_lt {count size c t : Nat} (hc : c < count) (ht : t < size) :
    c * size + t < count * size := by
  have hle := Nat.mul_le_mul_right size (Nat.succ_le_of_lt hc)
  rw [Nat.succ_mul] at hle
  omega

/-- **Regions do not meet**: a place in the stretches tells the worker and the slot. -/
theorem place_inj {room w w' m m' : Nat} (hm : m < room) (hm' : m' < room) :
    w * room + m = w' * room + m' ↔ w = w' ∧ m = m' := by
  constructor
  · intro heq
    have hw : w' = w := (Tableau.mem_line_iff hm).1 (by omega)
    subst hw
    exact ⟨Eq.refl _, by omega⟩
  · rintro ⟨rfl, rfl⟩
    exact Eq.refl _

/-! Each access to the bench, when it stays within it. -/

variable {b : Bench T} {window : Window}

theorem slot_eq {m : Nat} {x : T} (hm : m < window.size)
    (hx : b.lines[window.start + m]? = some x) : slot window m b = .ok x b := by
  obtain ⟨hlt, rfl⟩ := Array.getElem?_eq_some_iff.1 hx
  unfold slot
  rw [Window.place_of_lt hm]
  dsimp only
  rw [dif_pos hlt]

theorem setSlot_eq {m : Nat} (x : T) (hm : m < window.size)
    (hlt : window.start + m < b.lines.size) :
    setSlot window m x b =
      .ok () { b with lines := b.lines.setIfInBounds (window.start + m) x } := by
  unfold setSlot
  rw [Window.place_of_lt hm]
  dsimp only
  rw [dif_pos hlt, Array.setIfInBounds, dif_pos hlt]

theorem line_eq (h : window.start + window.size ≤ b.lines.size) :
    line window b = .ok (b.lines.extract window.start (window.start + window.size)) b := by
  unfold line
  dsimp only
  rw [if_pos h]

theorem setLine_eq {values : Array T} (hsize : values.size ≤ window.size)
    (h : window.start + window.size ≤ b.lines.size) :
    setLine window values b =
      .ok () { b with lines := Buffer.overlay b.lines window.start values.toList } := by
  unfold setLine
  rw [if_pos ⟨hsize, h⟩]

theorem spectrum_eq (h : window.start + window.size ≤ b.spectra.size) :
    spectrum window b = .ok (b.spectra.extract window.start (window.start + window.size)) b := by
  unfold spectrum
  dsimp only
  rw [if_pos h]

theorem setSpectrum_eq {values : Array (Cartesian T)} (hsize : values.size ≤ window.size)
    (h : window.start + window.size ≤ b.spectra.size) :
    setSpectrum window values b =
      .ok () { b with spectra := Buffer.overlay b.spectra window.start values.toList } := by
  unfold setSpectrum
  rw [if_pos ⟨hsize, h⟩]

end Bench

/-! ### Jobs of a planned volume -/

namespace PassJob

variable {T W : Type} [Precision W] [Sample T W]

/-- The job is that of a pass over a shape, on a table of length `N`. -/
structure Planned (job : PassJob T) (shape : Shape) (N : Nat) : Prop where
  served : LineTransform.Served T N (job.pass.lineLength shape)
  transform_eq : job.transform = LineTransform.shared N (job.pass.lineLength shape)
  width_dvd : job.bundle.width ∣ shape.columns

/-- What a job makes of a line. -/
def lineImage (job : PassJob T) (N : Nat) : (Nat → T) → Nat → T :=
  LineTransform.image (LineTransform.sharedPhase N job.transform.length) job.transform.length
    job.direction job.scaled

/-- The number of slots in which a worker gathers a bundle. The inner pass gathers
nothing. -/
def slots (job : PassJob T) : Nat :=
  if job.pass = .inner then 0 else job.bundle.width * job.transform.length

omit [Precision W] [Sample T W] in
theorem slots_eq {job : PassJob T} (h : job.pass ≠ .inner) :
    job.slots = job.bundle.width * job.transform.length :=
  if_neg h

/-- The step stays inside the shape and inside the bundle of the job. -/
def Admits (job : PassJob T) (shape : Shape) : Step → Prop
  | .row i j => shape.HasRow i j ∧ job.transform.length = shape.columns
  | .load i j k slot => job.pass ≠ .inner ∧ shape.Has i j k ∧ slot < job.slots
  | .line c => job.pass ≠ .inner ∧ c < job.bundle.width
  | .store i j k slot => job.pass ≠ .inner ∧ shape.Has i j k ∧ slot < job.slots

namespace Planned

variable {job : PassJob T} {shape : Shape} {N : Nat}

theorem length_eq (h : job.Planned shape N) :
    job.transform.length = job.pass.lineLength shape := by
  rw [h.transform_eq]
  rfl

theorem looksAt (h : job.Planned shape N) :
    Pass.LooksAt (job.lineImage N) job.transform.length := by
  intro x y hxy
  -- The image looks at the places of the line only.
  refine LineTransform.image_congr ?_ job.direction job.scaled hxy
  rw [h.length_eq]
  exact h.served.length_pow

/-- The last bundle of a row is a whole one, since the width divides the columns. -/
theorem bundle_end_le (h : job.Planned shape N) {k : Nat} (hk : k ∈ job.bundleStarts shape) :
    k + job.bundle.width ≤ shape.columns := by
  have hlt : k < shape.columns := (Share.mem_visits.1 hk).1
  obtain ⟨m, rfl⟩ := Tableau.dvd_of_mem_bundleStarts hk
  obtain ⟨m', hm'⟩ := h.width_dvd
  rw [hm'] at hlt ⊢
  rw [← Nat.mul_succ]
  exact Nat.mul_le_mul_left _ (Nat.lt_of_mul_lt_mul_left hlt)

theorem admits_bundleSteps (h : job.Planned shape N) (hpass : job.pass ≠ .inner)
    {row : Nat → Nat × Nat}
    (hrow : ∀ t < job.transform.length, shape.HasRow (row t).1 (row t).2) {k : Nat}
    (hk : k ∈ job.bundleStarts shape) : ∀ x ∈ job.bundleSteps row k, job.Admits shape x := by
  intro x hx
  have hend := h.bundle_end_le hk
  -- Loads and stores visit the same cells.
  have hcell : ∀ i j k' slot, (i, j, k', slot) ∈ job.cells row k →
      job.pass ≠ .inner ∧ shape.Has i j k' ∧ slot < job.slots := by
    intro i j k' slot hcell
    obtain ⟨t, ht, c, hc, hrowt, rfl, rfl⟩ := Tableau.mem_cells.1 hcell
    have hij := hrow t ht
    rw [hrowt] at hij
    exact ⟨hpass, ⟨hij, by omega⟩, by rw [slots_eq hpass]; exact Bench.stretch_lt hc ht⟩
  simp only [bundleSteps, List.mem_append, List.mem_map, List.mem_range] at hx
  rcases hx with (⟨⟨i, j, k', slot⟩, hmem, rfl⟩ | ⟨c, hc, rfl⟩) | ⟨⟨i, j, k', slot⟩, hmem, rfl⟩
  · exact hcell i j k' slot hmem
  · exact ⟨hpass, hc⟩
  · exact hcell i j k' slot hmem

/-- **A program asks for nothing that is not there.** -/
theorem admits_program (h : job.Planned shape N) {share : Share} :
    ∀ x ∈ job.program shape share, job.Admits shape x := by
  intro x hx
  obtain ⟨o, ho, hx⟩ := List.mem_flatMap.1 hx
  have hlt : o < job.pass.outerCount shape := (Share.mem_visits.1 ho).1
  have hlength := h.length_eq
  -- The outer index lies in the shape, and so do all indices along the line.
  unfold outerSteps at hx
  cases hpass : job.pass with
  | inner =>
    rw [hpass] at hx hlt hlength
    obtain ⟨j, hj, rfl⟩ := List.mem_map.1 hx
    exact ⟨⟨hlt, List.mem_range.1 hj⟩, hlength⟩
  | middle =>
    rw [hpass] at hx hlt hlength
    obtain ⟨k, hk, hx⟩ := List.mem_flatMap.1 hx
    exact h.admits_bundleSteps (by rw [hpass]; decide)
      (fun t ht => ⟨hlt, by rwa [hlength] at ht⟩) hk x hx
  | outer =>
    rw [hpass] at hx hlt hlength
    obtain ⟨k, hk, hx⟩ := List.mem_flatMap.1 hx
    exact h.admits_bundleSteps (by rw [hpass]; decide)
      (fun t ht => ⟨by rwa [hlength] at ht, hlt⟩) hk x hx

end Planned

end PassJob

/-! ### Workspaces that mirror a tableau -/

/-- What stays the same while the workers of a job are at work. -/
structure Setting (T : Type) where
  shape : Shape
  /-- What belongs to no row. -/
  rest : Array T
  /-- A bench with the cut of the bench at hand. -/
  bench : Bench T
  workers : Nat
  slots : Nat
  entries : Nat
  serves : bench.Serves workers slots entries

namespace Workspace

variable {R T : Type} [RowStore R T] [RowView R T]

/-- **A workspace mirrors a tableau**: its rows hold the volume, and the stretch of
each worker on the bench holds its slots. -/
structure Mirrors (e : Setting T) (st : Workspace R T) (s : Tableau T) : Prop where
  holds : RowView.Holds e.shape e.rest s.volume st.rows
  cut : st.bench.SameCut e.bench
  slot : ∀ w < e.workers, ∀ m < e.slots,
    st.bench.lines[w * e.bench.lineRoom + m]? = some (s.slots w m)

namespace Mirrors

variable {e : Setting T} {rows : R} {bench bench' : Bench T} {s : Tableau T}

theorem lines_end_le (h : Mirrors e ⟨rows, bench⟩ s) {w m : Nat} (hw : w < e.workers)
    (hm : m ≤ e.bench.lineRoom) : w * e.bench.lineRoom + m ≤ bench.lines.size := by
  rw [h.cut.size_lines]
  exact Bench.stretch_le e.serves.lines_le hw hm

theorem spectra_end_le (h : Mirrors e ⟨rows, bench⟩ s) {w m : Nat} (hw : w < e.workers)
    (hm : m ≤ e.bench.spectrumRoom) : w * e.bench.spectrumRoom + m ≤ bench.spectra.size := by
  rw [h.cut.size_spectra]
  exact Bench.stretch_le e.serves.spectra_le hw hm

/-- The spectra do not show in a tableau. -/
theorem withSpectra (h : Mirrors e ⟨rows, bench⟩ s) {spectra : Array (Cartesian T)}
    (hsize : spectra.size = bench.spectra.size) :
    Mirrors e ⟨rows, { bench with spectra := spectra }⟩ s :=
  ⟨h.holds, ⟨h.cut.size_lines, hsize.trans h.cut.size_spectra, h.cut.lineRoom_eq,
    h.cut.spectrumRoom_eq⟩, h.slot⟩

/-- A workspace after line elements were overwritten. -/
theorem withLines (h : Mirrors e ⟨rows, bench⟩ s) {lines : Array T} {slots : Nat → Nat → T}
    (hsize : lines.size = bench.lines.size)
    (hslot : ∀ w < e.workers, ∀ m < e.slots,
      lines[w * e.bench.lineRoom + m]? = some (slots w m)) :
    Mirrors e ⟨rows, { bench with lines := lines }⟩ { s with slots := slots } :=
  ⟨h.holds, ⟨hsize.trans h.cut.size_lines, h.cut.size_spectra, h.cut.lineRoom_eq,
    h.cut.spectrumRoom_eq⟩, hslot⟩

/-- The slots after a line of `n` entries was laid over those of worker `w`, from slot
`c * n` on. Its own slots in the line have changed, and no slot of another worker. -/
theorem slot_overlay (h : Mirrors e ⟨rows, bench⟩ s) {width n w c : Nat}
    (hslots : e.slots = width * n) (hw : w < e.workers) (hc : c * n + n ≤ width * n)
    (values : Nat → T) : ∀ w' < e.workers, ∀ m < e.slots,
      (Buffer.overlay bench.lines (w * e.bench.lineRoom + c * n)
          ((List.range n).map values))[w' * e.bench.lineRoom + m]? =
        some (if w' = w ∧ c * n ≤ m ∧ m < c * n + n then values (m - c * n)
          else s.slots w' m) := by
  intro w' hw' m hm
  have hroom := e.serves.slots_le
  have hold := h.slot w' hw' m hm
  have hend := h.lines_end_le hw (show c * n + n ≤ e.bench.lineRoom by omega)
  rw [hslots] at hm hroom
  dsimp only at hold
  rw [Buffer.getElem?_overlay, List.length_map, List.length_range]
  by_cases hww : w' = w
  · subst hww
    by_cases hmc : c * n ≤ m ∧ m < c * n + n
    · rw [if_pos (by omega), if_pos ⟨rfl, hmc⟩, List.getElem?_map, List.getElem?_range (by omega),
        show w' * e.bench.lineRoom + m - (w' * e.bench.lineRoom + c * n) = m - c * n by omega]
      rfl
    · rw [if_neg (by omega), if_neg fun hand => hmc hand.2]
      exact hold
  · -- The line lies in the stretch of worker `w`, the slot in that of another one.
    have houtside : ¬ (w * e.bench.lineRoom ≤ w' * e.bench.lineRoom + m ∧
        w' * e.bench.lineRoom + m < w * e.bench.lineRoom + e.bench.lineRoom) := fun hin =>
      hww ((Tableau.mem_line_iff (by omega)).1 hin).symm
    rw [if_neg (by omega), if_neg fun hand => hww hand.1]
    exact hold

end Mirrors

end Workspace

/-! ### Steps -/

namespace PassJob

open Workspace

variable {R T W : Type} [Precision W] [Sample T W] [RowStore R T] [RowView R T]
  [LawfulRowStore R T] {job : PassJob T} {N : Nat} {e : Setting T} {rows : R} {bench : Bench T}
  {s : Tableau T} {w : Nat}

/-- The setting gives each worker what the job needs. -/
structure Suits (job : PassJob T) (e : Setting T) : Prop where
  slots_eq : e.slots = job.slots
  entries_eq : e.entries = job.transform.spectrumLength

omit [Precision W] [Sample T W] [RowStore R T] [RowView R T] [LawfulRowStore R T] in
theorem spectrumWindow_eq (he : job.Suits e) (w : Nat) :
    job.spectrumWindow (e.bench.region w) =
      .ok ⟨w * e.bench.spectrumRoom, job.transform.spectrumLength⟩ := by
  have hroom : job.transform.spectrumLength ≤ (e.bench.region w).spectrum.size :=
    he.entries_eq ▸ e.serves.entries_le
  exact spectrumWindow_of_le hroom

omit [Precision W] [Sample T W] [RowStore R T] [RowView R T] [LawfulRowStore R T] in
theorem bundleWindow_eq (he : job.Suits e) (hpass : job.pass ≠ .inner) (w : Nat) :
    job.bundleWindow (e.bench.region w) =
      .ok ⟨w * e.bench.lineRoom, job.bundle.width * job.transform.length⟩ := by
  have hroom := e.serves.slots_le
  rw [he.slots_eq, slots_eq hpass] at hroom
  exact Region.bundleWindow_of_le (r := e.bench.region w) hroom

omit [RowStore R T] [RowView R T] [LawfulRowStore R T] in
/-- A line on a spectrum that is just long enough, with the image of its rule. -/
theorem callOn_eq (hjob : job.Planned e.shape N) (x : Nat → T) {spectrum : Array (Cartesian T)}
    (hs : spectrum.size = job.transform.spectrumLength) :
    ∃ worked, worked.size = job.transform.spectrumLength ∧
      job.transform.callOn job.direction job.scaled
        ((Array.range job.transform.length).map x) spectrum =
        .ok ((Array.range job.transform.length).map (job.lineImage N x), worked) := by
  -- The call overlays the spectrum, which keeps its size.
  have hroom := hs.ge
  rw [hjob.transform_eq] at hroom
  have hcall := LineTransform.callOn_eq hjob.served job.direction job.scaled x hroom
  rw [← hjob.transform_eq, ← hjob.length_eq] at hcall
  exact ⟨_, (Buffer.size_overlay _ _ _).trans hs, hcall⟩

omit [LawfulRowStore R T] [Precision W] [Sample T W] in
/-- The spectrum of a worker lies within the bench. -/
theorem spectrum_end_le (he : job.Suits e) (h : Mirrors e (⟨rows, bench⟩ : Workspace R T) s)
    (hw : w < e.workers) :
    w * e.bench.spectrumRoom + job.transform.spectrumLength ≤ bench.spectra.size := by
  rw [← he.entries_eq]
  exact h.spectra_end_le hw e.serves.entries_le

omit [LawfulRowStore R T] in
/-- **A line on the spectrum of a worker.** -/
theorem callOn_spectrum (hjob : job.Planned e.shape N) (he : job.Suits e)
    (h : Mirrors e (⟨rows, bench⟩ : Workspace R T) s) (hw : w < e.workers) (x : Nat → T) :
    ∃ worked, worked.size = job.transform.spectrumLength ∧
      job.transform.callOn job.direction job.scaled ((Array.range job.transform.length).map x)
          (bench.spectra.extract (w * e.bench.spectrumRoom)
            (w * e.bench.spectrumRoom + job.transform.spectrumLength)) =
        .ok ((Array.range job.transform.length).map (job.lineImage N x), worked) := by
  have hend := spectrum_end_le he h hw
  refine callOn_eq hjob x ?_
  rw [Array.size_extract]
  omega

theorem row_mirrors (hjob : job.Planned e.shape N) (he : job.Suits e)
    (h : Mirrors e (⟨rows, bench⟩ : Workspace R T) s) (hw : w < e.workers) {i j : Nat}
    (hx : job.Admits e.shape (.row i j)) :
    ∃ st', job.step (e.bench.region w) (.row i j) ⟨rows, bench⟩ = .ok () st' ∧
      Mirrors e st' (s.step (job.lineImage N) job.transform.length w (.row i j)) := by
  obtain ⟨hij, hlength⟩ := hx
  have hend := spectrum_end_le he h hw
  -- The row is the line, so the call gives its image.
  obtain ⟨worked, hworked, hcall⟩ := callOn_spectrum hjob he h hw (s.volume i j)
  rw [hlength] at hcall
  obtain ⟨rows', hmodify, hrows'⟩ := h.holds.modifyRow_eq hij
    (fun row => job.transform.callOn job.direction job.scaled row
      (bench.spectra.extract (w * e.bench.spectrumRoom)
        (w * e.bench.spectrumRoom + job.transform.spectrumLength))) hcall
  -- The new row is the only thing that changes in what the tableau shows.
  have hmirrors : Mirrors e ⟨rows', bench⟩
      (s.step (job.lineImage N) job.transform.length w (.row i j)) := ⟨hrows', h.cut, h.slot⟩
  refine ⟨⟨rows', { bench with
      spectra := Buffer.overlay bench.spectra (w * e.bench.spectrumRoom) worked.toList }⟩, ?_,
    hmirrors.withSpectra (Buffer.size_overlay _ _ _)⟩
  unfold step
  dsimp only
  rw [bind_of_ok (lift_of_ok (spectrumWindow_eq he w) _),
    bind_of_ok (onBench_of_ok (Bench.spectrum_eq hend)), bind_of_ok (onRows_of_ok hmodify)]
  exact onBench_of_ok (Bench.setSpectrum_eq hworked.le hend)

theorem load_mirrors (he : job.Suits e) (h : Mirrors e (⟨rows, bench⟩ : Workspace R T) s)
    (hw : w < e.workers) {i j k slot : Nat} (hx : job.Admits e.shape (.load i j k slot)) :
    ∃ st', job.step (e.bench.region w) (.load i j k slot) ⟨rows, bench⟩ = .ok () st' ∧
      Mirrors e st' (s.step (job.lineImage N) job.transform.length w (.load i j k slot)) := by
  obtain ⟨hpass, hijk, hslot⟩ := hx
  have hroom := e.serves.slots_le
  rw [he.slots_eq] at hroom
  have hlt : w * e.bench.lineRoom + slot < bench.lines.size :=
    Nat.lt_of_lt_of_le (by omega) (h.lines_end_le hw hroom)
  -- The element is there since the rows hold the volume.
  have hload := h.holds.load_eq hijk
  refine ⟨⟨rows, { bench with
      lines := bench.lines.setIfInBounds (w * e.bench.lineRoom + slot) (s.volume i j k) }⟩, ?_,
    h.withLines Array.size_setIfInBounds fun w' hw' m hm => ?_⟩
  · unfold step
    dsimp only
    rw [bind_of_ok (lift_of_ok (bundleWindow_eq he hpass w) _), bind_of_ok (onRows_of_ok hload)]
    rw [slots_eq hpass] at hslot
    exact onBench_of_ok (Bench.setSlot_eq (s.volume i j k) hslot hlt)
  · -- Regions do not meet, so no slot but the one that is loaded changes.
    rw [he.slots_eq] at hm
    have hplace : w' * e.bench.lineRoom + m = w * e.bench.lineRoom + slot ↔ w' = w ∧ m = slot :=
      Bench.place_inj (Nat.lt_of_lt_of_le hm hroom) (Nat.lt_of_lt_of_le hslot hroom)
    by_cases hsame : w' = w ∧ m = slot
    · rw [if_pos hsame, hplace.2 hsame, Array.getElem?_setIfInBounds_self_of_lt hlt]
    · rw [if_neg hsame, Array.getElem?_setIfInBounds_ne fun heq => hsame (hplace.1 heq.symm)]
      exact h.slot w' hw' m (by rw [he.slots_eq]; exact hm)

omit [LawfulRowStore R T] in
theorem line_mirrors (hjob : job.Planned e.shape N) (he : job.Suits e)
    (h : Mirrors e (⟨rows, bench⟩ : Workspace R T) s) (hw : w < e.workers) {c : Nat}
    (hx : job.Admits e.shape (.line c)) :
    ∃ st', job.step (e.bench.region w) (.line c) ⟨rows, bench⟩ = .ok () st' ∧
      Mirrors e st' (s.step (job.lineImage N) job.transform.length w (.line c)) := by
  obtain ⟨hpass, hx⟩ := hx
  have hslots := he.slots_eq
  have hroom := e.serves.slots_le
  rw [slots_eq hpass] at hslots
  rw [hslots] at hroom
  have hc : c * job.transform.length + job.transform.length ≤
      job.bundle.width * job.transform.length := Bench.stretch_le le_rfl hx le_rfl
  have hlines : w * e.bench.lineRoom + c * job.transform.length + job.transform.length ≤
      bench.lines.size := by
    rw [Nat.add_assoc]
    exact h.lines_end_le hw (by omega)
  have hspectra := spectrum_end_le he h hw
  -- What the worker takes for a line are its slots from `c * length` on.
  have hline : bench.lines.extract (w * e.bench.lineRoom + c * job.transform.length)
      (w * e.bench.lineRoom + c * job.transform.length + job.transform.length) =
        (Array.range job.transform.length).map
          fun t => s.slots w (c * job.transform.length + t) := by
    refine Buffer.eq_map_range (by rw [Array.size_extract]; omega) fun t ht => ?_
    rw [Array.getElem?_extract, if_pos (by omega), Nat.add_assoc]
    exact h.slot w hw _ (by omega)
  obtain ⟨worked, hworked, hcall⟩ := callOn_spectrum hjob he h hw
    fun t => s.slots w (c * job.transform.length + t)
  rw [← hline] at hcall
  refine ⟨⟨rows, { bench with
      lines := Buffer.overlay bench.lines (w * e.bench.lineRoom + c * job.transform.length)
        ((Array.range job.transform.length).map
          (job.lineImage N fun t => s.slots w (c * job.transform.length + t))).toList
      spectra := Buffer.overlay bench.spectra (w * e.bench.spectrumRoom) worked.toList }⟩, ?_,
    (h.withLines (Buffer.size_overlay _ _ _) fun w' hw' m hm => ?_).withSpectra
      (Buffer.size_overlay _ _ _)⟩
  · -- Every access of the step stays within the region.
    unfold step
    dsimp only
    rw [bind_of_ok (lift_of_ok (bundleWindow_eq he hpass w) _),
      bind_of_ok (lift_of_ok (Window.part_of_le hc) _),
      bind_of_ok (lift_of_ok (spectrumWindow_eq he w) _),
      bind_of_ok (onBench_of_ok (Bench.line_eq hlines)),
      bind_of_ok (onBench_of_ok (Bench.spectrum_eq hspectra)),
      bind_of_ok (lift_of_ok hcall _),
      bind_of_ok (onBench_of_ok (Bench.setLine_eq (by simp) hlines))]
    exact onBench_of_ok (Bench.setSpectrum_eq hworked.le hspectra)
  · rw [Buffer.toList_map_range]
    exact h.slot_overlay hslots hw hc _ w' hw' m hm

theorem store_mirrors (he : job.Suits e) (h : Mirrors e (⟨rows, bench⟩ : Workspace R T) s)
    (hw : w < e.workers) {i j k slot : Nat} (hx : job.Admits e.shape (.store i j k slot)) :
    ∃ st', job.step (e.bench.region w) (.store i j k slot) ⟨rows, bench⟩ = .ok () st' ∧
      Mirrors e st' (s.step (job.lineImage N) job.transform.length w (.store i j k slot)) := by
  obtain ⟨hpass, hijk, hslot⟩ := hx
  have hvalue := h.slot w hw slot (by rw [he.slots_eq]; exact hslot)
  rw [slots_eq hpass] at hslot
  obtain ⟨rows', hstore, hrows'⟩ := h.holds.store_eq (s.slots w slot) hijk
  refine ⟨⟨rows', bench⟩, ?_, ⟨hrows', h.cut, h.slot⟩⟩
  unfold step
  dsimp only
  rw [bind_of_ok (lift_of_ok (bundleWindow_eq he hpass w) _),
    bind_of_ok (onBench_of_ok (Bench.slot_eq hslot hvalue))]
  exact onRows_of_ok hstore

/-- **A step of a planned pass** succeeds, and does to the workspace what it does to the
tableau. -/
theorem step_mirrors (hjob : job.Planned e.shape N) (he : job.Suits e) {st : Workspace R T}
    (h : Mirrors e st s) (hw : w < e.workers) {x : Step} (hx : job.Admits e.shape x) :
    ∃ st', job.step (e.bench.region w) x st = .ok () st' ∧
      Mirrors e st' (s.step (job.lineImage N) job.transform.length w x) := by
  cases x with
  | row i j => exact row_mirrors hjob he h hw hx
  | load i j k slot => exact load_mirrors he h hw hx
  | line c => exact line_mirrors hjob he h hw hx
  | store i j k slot => exact store_mirrors he h hw hx

end PassJob

end CosineTransform
