import Mathlib
import CosineTransform.Proofs.Calls
import CosineTransform.Sample.Binary

/-!
# Regions are private

The workers of a call share two buffers, and each worker has a region: a window of either
buffer. A fresh bench is cut into as many regions as there are workers. They are the windows
that come out when each buffer is cut into stretches of its own length and the two lists are
paired, so none is lost and none is short (`Bench.IsCut`).

A region behaves as a memory of its own. `Bench.regions_are_private` says so for every list of
writes, through whatever regions and in whatever order: afterwards a region reads back the last
value that was written through it at each place, and zero where there was none
(`Region.ReadsBack`). Bundles of different widths lie over the same places of a region, so a
value is found again through any of them.

The proof is about windows. Whatever a write does is to lay a stretch of values over a window
(`Region.Write.perform_eq`), a window shows what is laid over it (`Window.Shows.layOver`), and
it goes on showing the same when a window apart from it is written
(`Window.Shows.layOver_apart`).
-/

namespace CosineTransform

/-! ### Windows of a buffer -/

namespace Window

/-- The window has the place. -/
def Has (w : Window) (m : Nat) : Prop :=
  w.start ≤ m ∧ m < w.start + w.size

/-- Two windows have no place in common. -/
def Apart (w w' : Window) : Prop :=
  ∀ m, ¬ (w.Has m ∧ w'.Has m)

theorem Apart.symm {w w' : Window} (h : w.Apart w') : w'.Apart w :=
  fun m hm => h m hm.symm

/-- Stretches of one length that begin at different multiples of it. -/
theorem apart_of_ne {room i j : Nat} (h : i ≠ j) :
    Apart ⟨i * room, room⟩ ⟨j * room, room⟩ := by
  rintro m ⟨⟨hi, hi'⟩, ⟨hj, hj'⟩⟩
  obtain ⟨a, rfl⟩ := Nat.exists_eq_add_of_le hi
  obtain ⟨b, hab⟩ := Nat.exists_eq_add_of_le hj
  rw [hab] at hj'
  -- A place in both would tell two different numbers of stretches.
  have ha : a < room := Nat.lt_of_add_lt_add_left hi'
  have hb : b < room := Nat.lt_of_add_lt_add_left hj'
  exact h ((Bench.place_inj ha hb).1 hab).1

/-- **A buffer cut into windows** of one length, from its start on. The last one may be
shorter. -/
def cut (size room : Nat) : List Window :=
  (List.range ((size + (room - 1)) / room)).map fun w => ⟨w * room, min room (size - w * room)⟩

/-- A buffer of some whole stretches is cut into these. -/
theorem cut_mul {room : Nat} (h : 0 < room) (count : Nat) :
    cut (count * room) room = (List.range count).map fun w => ⟨w * room, room⟩ := by
  have hcount : (count * room + (room - 1)) / room = count := by
    rw [Nat.mul_comm, Nat.mul_add_div h, Nat.div_eq_of_lt (Nat.sub_lt h Nat.one_pos), Nat.add_zero]
  unfold cut
  rw [hcount]
  refine List.map_congr_left fun w hw => ?_
  have hwhole : w * room + room ≤ count * room :=
    Bench.stretch_le le_rfl (List.mem_range.1 hw) le_rfl
  rw [Nat.min_eq_left (Nat.le_sub_of_add_le' hwhole)]

/-- **The window shows a rule**: each of its places has the value of the rule. -/
def Shows {α : Type} (w : Window) (xs : Array α) (f : Nat → α) : Prop :=
  ∀ m < w.size, xs[w.start + m]? = some (f m)

end Window

/-- Values to be laid over a window, from one of its places on. -/
structure Stretch (α : Type) where
  first : Nat
  values : List α

namespace Stretch

variable {α : Type}

/-- The value that a stretch has for a place of the window. -/
def value? (s : Stretch α) (m : Nat) : Option α :=
  if s.first ≤ m then s.values[m - s.first]? else none

/-- The stretch ends within the window. -/
def FitsIn (s : Stretch α) (w : Window) : Prop :=
  s.first + s.values.length ≤ w.size

/-- The buffer with the stretch laid over a window. -/
def layOver (s : Stretch α) (w : Window) (xs : Array α) : Array α :=
  Buffer.overlay xs (w.start + s.first) s.values

end Stretch

namespace Window.Shows

variable {α : Type} {w w' : Window} {xs : Array α} {f : Nat → α} {s : Stretch α}

/-- **A window shows what is laid over it**, and its old values elsewhere. -/
theorem layOver (h : w.Shows xs f) (s : Stretch α) :
    w.Shows (s.layOver w xs) fun m => (s.value? m).getD (f m) := by
  intro m hm
  obtain ⟨hlt, -⟩ := Array.getElem?_eq_some_iff.1 (h m hm)
  unfold Stretch.layOver Stretch.value?
  dsimp only
  rw [Buffer.getElem?_overlay]
  by_cases hcovered : s.first ≤ m ∧ m < s.first + s.values.length
  · have hsub : w.start + m - (w.start + s.first) = m - s.first := by omega
    rw [if_pos ⟨by omega, by omega, hlt⟩, if_pos hcovered.1, hsub,
      List.getElem?_eq_getElem (by omega), Option.getD_some]
  · rw [if_neg (by omega), h m hm]
    by_cases hle : s.first ≤ m
    · rw [if_pos hle, List.getElem?_eq_none (by omega), Option.getD_none]
    · rw [if_neg hle, Option.getD_none]

/-- A window does not show what is laid over a window apart from it. -/
theorem layOver_apart (h : w.Shows xs f) (hapart : w.Apart w') (hs : s.FitsIn w') :
    w.Shows (s.layOver w' xs) f := by
  intro m hm
  unfold Stretch.FitsIn at hs
  unfold Stretch.layOver
  rw [Buffer.getElem?_overlay, if_neg, h m hm]
  rintro ⟨hle, hlt, -⟩
  exact hapart (w.start + m) ⟨⟨by omega, by omega⟩, ⟨by omega, by omega⟩⟩

/-- What a window shows is read from the buffer. -/
theorem extract_eq (h : w.Shows xs f) {n : Nat} (hn : n ≤ w.size)
    (hle : w.start + w.size ≤ xs.size) :
    xs.extract w.start (w.start + n) = (Array.range n).map f := by
  refine Buffer.eq_map_range (by rw [Array.size_extract]; omega) fun m hm => ?_
  rw [Array.getElem?_extract, if_pos (by omega), h m (by omega)]

end Window.Shows

/-! ### Regions of a bench -/

namespace Region

/-- Two regions share nothing. -/
def Apart (r r' : Region) : Prop :=
  r.lines.Apart r'.lines ∧ r.spectrum.Apart r'.spectrum

theorem Apart.symm {r r' : Region} (h : r.Apart r') : r'.Apart r :=
  ⟨h.1.symm, h.2.symm⟩

instance : Std.Symm Apart :=
  ⟨fun _ _ => Apart.symm⟩

/-- The region is a part of the bench, and it is not empty. -/
structure LiesIn {T : Type} (r : Region) (bench : Bench T) : Prop where
  lines_pos : 0 < r.lines.size
  lines_le : r.lines.start + r.lines.size ≤ bench.lines.size
  spectrum_pos : 0 < r.spectrum.size
  spectrum_le : r.spectrum.start + r.spectrum.size ≤ bench.spectra.size

theorem LiesIn.of_sameCut {T : Type} {r : Region} {bench bench' : Bench T} (h : r.LiesIn bench)
    (hcut : bench'.SameCut bench) : r.LiesIn bench' where
  lines_pos := h.lines_pos
  lines_le := hcut.size_lines.symm ▸ h.lines_le
  spectrum_pos := h.spectrum_pos
  spectrum_le := hcut.size_spectra.symm ▸ h.spectrum_le

end Region

namespace Bench

variable {T : Type}

/-- **The regions of a bench** have nothing in common. -/
theorem regions_apart (bench : Bench T) : bench.regions.Pairwise Region.Apart := by
  unfold regions
  refine List.Pairwise.map _ (fun w w' hne => ?_) List.nodup_range
  exact ⟨Window.apart_of_ne hne, Window.apart_of_ne hne⟩

theorem apart_of_mem_regions {bench : Bench T} {r r' : Region} (hr : r ∈ bench.regions)
    (hr' : r' ∈ bench.regions) (hne : r ≠ r') : r.Apart r' :=
  bench.regions_apart.forall hr hr' hne

theorem liesIn_of_serves {bench : Bench T} {workers slots entries : Nat}
    (h : bench.Serves workers slots entries) (hslots : 0 < slots) (hentries : 0 < entries)
    {w : Nat} (hw : w < workers) : (bench.region w).LiesIn bench where
  lines_pos := hslots.trans_le h.slots_le
  lines_le := stretch_le h.lines_le hw le_rfl
  spectrum_pos := hentries.trans_le h.entries_le
  spectrum_le := stretch_le h.spectra_le hw le_rfl

theorem SameCut.regions_eq {bench bench' : Bench T} (h : bench'.SameCut bench) :
    bench'.regions = bench.regions := by
  unfold regions workers region
  rw [h.size_spectra, h.lineRoom_eq, h.spectrumRoom_eq]

/-- **The bench is cut** into a number of regions of one size. -/
structure IsCut (bench : Bench T) (count lineRoom spectrumRoom : Nat) : Prop where
  workers_eq : bench.workers = count
  length_regions : bench.regions.length = count
  size_lines : ∀ region ∈ bench.regions, region.lines.size = lineRoom
  size_spectrum : ∀ region ∈ bench.regions, region.spectrum.size = spectrumRoom
  /-- Both buffers are cut from end to end, and their windows are paired. -/
  regions_eq : bench.regions = List.zipWith Region.mk (Window.cut bench.lines.size lineRoom)
    (Window.cut bench.spectra.size spectrumRoom)
  liesIn : ∀ region ∈ bench.regions, region.LiesIn bench
  apart : bench.regions.Pairwise Region.Apart

/-- **A fresh bench is cut** into a region for each worker. -/
theorem isCut_of_allocate [Zero T] [Stored T] {bench : Bench T} {workers lineLength spectrumLength : Nat}
    (h : allocate workers lineLength spectrumLength = .ok bench) :
    bench.IsCut (max workers 1) (Bundle.widest * max lineLength 1) (max spectrumLength 1) := by
  obtain ⟨hserves, hworkers⟩ := serves_of_allocate h
  obtain ⟨-, rfl⟩ := allocate_eq_ok_iff.1 h
  have hlineRoom : 0 < Bundle.widest * max lineLength 1 :=
    Nat.mul_pos (by decide) (by omega)
  have hspectrumRoom : 0 < max spectrumLength 1 := by omega
  constructor
  case workers_eq => exact hworkers
  case length_regions =>
    unfold regions
    rw [List.length_map, List.length_range, hworkers]
  case size_lines =>
    intro region hregion
    obtain ⟨w, -, rfl⟩ := List.mem_map.1 hregion
    rfl
  case size_spectrum =>
    intro region hregion
    obtain ⟨w, -, rfl⟩ := List.mem_map.1 hregion
    rfl
  case regions_eq =>
    unfold regions
    rw [hworkers, Array.size_replicate, Array.size_replicate, Window.cut_mul hlineRoom,
      Window.cut_mul hspectrumRoom, List.zipWith_map, List.zipWith_self]
    rfl
  case liesIn =>
    intro region hregion
    obtain ⟨w, hw, rfl⟩ := List.mem_map.1 hregion
    rw [hworkers] at hw
    exact liesIn_of_serves hserves hlineRoom hspectrumRoom (List.mem_range.1 hw)
  case apart => exact regions_apart _

end Bench

/-! ### Writing through a region -/

namespace Region

variable {T : Type}

/-- **A write through a region.** The bundle that is written is one of `width` lines of some
length. -/
inductive Write (T : Type) where
  /-- Element `m` of a bundle. -/
  | slot (width length m : Nat) (value : T)
  /-- Elements of a bundle, from element `first` on. -/
  | line (width length first : Nat) (values : Array T)
  /-- Entries of the spectrum, from entry `first` on. -/
  | entries (first : Nat) (values : Array (Cartesian T))

namespace Write

/-- The write as an action on the bench. -/
def perform (region : Region) : Write T → EStateM Fault (Bench T) Unit
  | slot width length m value => do
      let bundle ← Checked.lift (region.bundleWindow width length)
      Bench.setSlot bundle m value
  | line width length first values => do
      let bundle ← Checked.lift (region.bundleWindow width length)
      let place ← Checked.lift (bundle.part first values.size)
      Bench.setLine place values
  | entries first values => do
      let place ← Checked.lift (region.spectrum.part first values.size)
      Bench.setSpectrum place values

/-- The region has room for the bundle that is written, and the write stays within it. -/
def Fits (region : Region) : Write T → Prop
  | slot width length m _ => width * length ≤ region.lines.size ∧ m < width * length
  | line width length first values =>
      width * length ≤ region.lines.size ∧ first + values.size ≤ width * length
  | entries first values => first + values.size ≤ region.spectrum.size

instance (region : Region) : (x : Write T) → Decidable (x.Fits region)
  | slot _ _ _ _ => inferInstanceAs (Decidable (_ ∧ _))
  | line _ _ _ _ => inferInstanceAs (Decidable (_ ∧ _))
  | entries _ _ => inferInstanceAs (Decidable (_ ≤ _))

/-- What is laid over the line elements of the region. -/
def onLines : Write T → Stretch T
  | slot _ _ m value => ⟨m, [value]⟩
  | line _ _ first values => ⟨first, values.toList⟩
  | entries _ _ => ⟨0, []⟩

/-- What is laid over the spectrum of the region. -/
def onSpectrum : Write T → Stretch (Cartesian T)
  | slot _ _ _ _ => ⟨0, []⟩
  | line _ _ _ _ => ⟨0, []⟩
  | entries first values => ⟨first, values.toList⟩

variable {region : Region} {x : Write T} {b : Bench T}

theorem Fits.onLines (h : x.Fits region) : x.onLines.FitsIn region.lines := by
  unfold Stretch.FitsIn
  cases x with
  | slot width length m value => exact Nat.le_trans h.2 h.1
  | line width length first values => exact Nat.le_trans h.2 h.1
  | entries first values => exact Nat.zero_le _

theorem Fits.onSpectrum (h : x.Fits region) : x.onSpectrum.FitsIn region.spectrum := by
  unfold Stretch.FitsIn
  cases x with
  | slot width length m value => exact Nat.zero_le _
  | line width length first values => exact Nat.zero_le _
  | entries first values => exact h

/-- **A write that fits** lays its stretches over the windows of the region. -/
theorem perform_eq (hx : x.Fits region) (hregion : region.LiesIn b) :
    x.perform region b = .ok () { b with
      lines := x.onLines.layOver region.lines b.lines
      spectra := x.onSpectrum.layOver region.spectrum b.spectra } := by
  have hlines := hregion.lines_le
  have hspectrum := hregion.spectrum_le
  cases x with
  | slot width length m value =>
    obtain ⟨hroom, hm⟩ := hx
    change (Checked.lift (region.bundleWindow width length) >>= fun bundle =>
      Bench.setSlot bundle m value) b = _
    rw [Workspace.bind_of_ok (Workspace.lift_of_ok (bundleWindow_of_le hroom) b)]
    exact Bench.setSlot_eq value hm (by dsimp only; omega)
  | line width length first values =>
    obtain ⟨hroom, hle⟩ := hx
    change (Checked.lift (region.bundleWindow width length) >>= fun bundle =>
      Checked.lift (bundle.part first values.size) >>= fun place =>
        Bench.setLine place values) b = _
    rw [Workspace.bind_of_ok (Workspace.lift_of_ok (bundleWindow_of_le hroom) b),
      Workspace.bind_of_ok (Workspace.lift_of_ok (Window.part_of_le hle) b)]
    exact Bench.setLine_eq le_rfl (by dsimp only; omega)
  | entries first values =>
    have hle : first + values.size ≤ region.spectrum.size := hx
    change (Checked.lift (region.spectrum.part first values.size) >>= fun place =>
      Bench.setSpectrum place values) b = _
    rw [Workspace.bind_of_ok (Workspace.lift_of_ok (Window.part_of_le hle) b)]
    exact Bench.setSpectrum_eq le_rfl (by dsimp only; omega)

end Write

/-- Writes through regions, one after the other. -/
def performAll (writes : List (Region × Write T)) : EStateM Fault (Bench T) Unit :=
  writes.forM fun x => x.2.perform x.1

/-- **The last value** that was written through a region at a place, in one of its windows. -/
def last {α : Type} (window : Write T → Stretch α) (writes : List (Region × Write T))
    (region : Region) (m : Nat) : Option α :=
  (writes.filter (·.1 = region)).reverse.findSome? fun x => (window x.2).value? m

theorem last_cons_self {α : Type} (window : Write T → Stretch α) (region : Region) (x : Write T)
    (writes : List (Region × Write T)) (m : Nat) :
    last window ((region, x) :: writes) region m =
      (last window writes region m).or ((window x).value? m) := by
  unfold last
  rw [List.filter_cons_of_pos (by simp), List.reverse_cons, List.findSome?_append,
    List.findSome?_singleton]

theorem last_cons_of_ne {α : Type} (window : Write T → Stretch α) {region region' : Region}
    (h : region' ≠ region) (x : Write T) (writes : List (Region × Write T)) (m : Nat) :
    last window ((region', x) :: writes) region m = last window writes region m := by
  unfold last
  rw [List.filter_cons_of_neg (by simpa using h)]

/-- **What a region holds**: a rule for its line elements and one for its spectrum. -/
structure Holds (region : Region) (lines : Nat → T) (entries : Nat → Cartesian T)
    (b : Bench T) : Prop where
  lines_shown : region.lines.Shows b.lines lines
  entries_shown : region.spectrum.Shows b.spectra entries

/-- **A run of writes.** Each region ends with the last values written through it, and keeps
what it held at other places. -/
theorem performAll_holds {bench b : Bench T} (hcut : b.SameCut bench)
    (hin : ∀ region ∈ bench.regions, region.LiesIn bench) {writes : List (Region × Write T)}
    (hwrites : ∀ x ∈ writes, x.1 ∈ bench.regions ∧ x.2.Fits x.1) :
    ∃ b', performAll writes b = .ok () b' ∧ b'.SameCut bench ∧
      ∀ region ∈ bench.regions, ∀ f g, region.Holds f g b →
        region.Holds (fun m => (last Write.onLines writes region m).getD (f m))
          (fun m => (last Write.onSpectrum writes region m).getD (g m)) b' := by
  induction writes generalizing b with
  | nil => exact ⟨b, rfl, hcut, fun _ _ _ _ h => h⟩
  | cons head writes ih =>
    obtain ⟨region', x⟩ := head
    obtain ⟨⟨hmem, hfits⟩, hwrites⟩ := List.forall_mem_cons.1 hwrites
    have hstep := Write.perform_eq hfits ((hin region' hmem).of_sameCut hcut)
    have hcons : ∀ b', x.perform region' b = .ok () b' →
        performAll ((region', x) :: writes) b = performAll writes b' := fun b' h =>
      Workspace.forM_cons_of_ok (f := fun x : Region × Write T => x.2.perform x.1) h
    -- The first write is done; the others go on from the bench that it leaves.
    obtain ⟨b', hrun, hcut', hholds⟩ := ih (b := { b with
        lines := x.onLines.layOver region'.lines b.lines
        spectra := x.onSpectrum.layOver region'.spectrum b.spectra })
      ⟨(Buffer.size_overlay _ _ _).trans hcut.size_lines,
        (Buffer.size_overlay _ _ _).trans hcut.size_spectra, hcut.lineRoom_eq,
        hcut.spectrumRoom_eq⟩ hwrites
    refine ⟨b', (hcons _ hstep).trans hrun, hcut', fun region hregion f g h => ?_⟩
    by_cases hsame : region' = region
    · subst hsame
      have hown := hholds region' hregion _ _
        ⟨h.lines_shown.layOver x.onLines, h.entries_shown.layOver x.onSpectrum⟩
      simpa only [last_cons_self, Option.getD_or] using hown
    · have hapart := Bench.apart_of_mem_regions hregion hmem (Ne.symm hsame)
      simpa only [last_cons_of_ne _ hsame] using hholds region hregion f g
        ⟨h.lines_shown.layOver_apart hapart.1 hfits.onLines,
          h.entries_shown.layOver_apart hapart.2 hfits.onSpectrum⟩

/-- **A region reads back** the last values that were written through it, and zero where
nothing was. -/
structure ReadsBack [Zero T] (region : Region) (writes : List (Region × Write T))
    (b : Bench T) : Prop where
  /-- A bundle is read, of any width and length that the region has room for. -/
  bundle_eq : ∀ width length, width * length ≤ region.lines.size →
    (do
      let bundle ← Checked.lift (region.bundleWindow width length)
      Bench.line bundle : EStateM Fault (Bench T) (Array T)) b =
    .ok ((Array.range (width * length)).map fun m =>
      (last Write.onLines writes region m).getD 0) b
  /-- All entries of the spectrum are read. -/
  spectrum_eq : Bench.spectrum region.spectrum b =
    .ok ((Array.range region.spectrum.size).map fun m =>
      (last Write.onSpectrum writes region m).getD 0) b

theorem readsBack_of_holds [Zero T] {region : Region} {writes : List (Region × Write T)}
    {b : Bench T} (hregion : region.LiesIn b)
    (h : region.Holds (fun m => (last Write.onLines writes region m).getD 0)
      (fun m => (last Write.onSpectrum writes region m).getD 0) b) :
    region.ReadsBack writes b where
  bundle_eq width length hroom := by
    have hle := hregion.lines_le
    rw [Workspace.bind_of_ok (Workspace.lift_of_ok (bundleWindow_of_le hroom) b),
      Bench.line_eq (by dsimp only; omega), h.lines_shown.extract_eq hroom hle]
  spectrum_eq := by
    rw [Bench.spectrum_eq hregion.spectrum_le,
      h.entries_shown.extract_eq le_rfl hregion.spectrum_le]

end Region

namespace Bench

variable {T : Type} [Zero T] [Stored T]

/-- The regions of a fresh bench hold zeros. -/
theorem holds_of_allocate {bench : Bench T} {workers lineLength spectrumLength : Nat}
    (h : allocate workers lineLength spectrumLength = .ok bench) {region : Region}
    (hregion : region.LiesIn bench) : region.Holds (fun _ => 0) (fun _ => 0) bench := by
  have hlines := hregion.lines_le
  have hspectrum := hregion.spectrum_le
  obtain ⟨-, rfl⟩ := allocate_eq_ok_iff.1 h
  rw [Array.size_replicate] at hlines hspectrum
  constructor
  · intro m hm
    rw [Array.getElem?_replicate, if_pos (by omega)]
  · intro m hm
    rw [Array.getElem?_replicate, if_pos (by omega)]

/-- **Regions are private.** When there is room for a bench, it is allocated and cut into a region for each
worker, of which there is at least one, with room for the widest bundle of lines and for a
spectrum. Whatever is then written through the regions, in whatever order, each of them reads
back the last values that were written through it, and zero where nothing was. -/
theorem regions_are_private {workers lineLength spectrumLength : Nat}
    (hroom : HasRoom T workers lineLength spectrumLength) :
    ∃ bench : Bench T, allocate workers lineLength spectrumLength = .ok bench ∧
      bench.IsCut (max workers 1) (Bundle.widest * max lineLength 1) (max spectrumLength 1) ∧
      ∀ writes : List (Region × Region.Write T),
        (∀ x ∈ writes, x.1 ∈ bench.regions ∧ x.2.Fits x.1) →
        ∃ bench', Region.performAll writes bench = .ok () bench' ∧
          bench'.regions = bench.regions ∧
          ∀ region ∈ bench.regions, region.ReadsBack writes bench' := by
  have hbench := allocate_eq_ok_iff.2 ⟨hroom, rfl⟩
  have hcut := isCut_of_allocate hbench
  refine ⟨_, hbench, hcut, fun writes hwrites => ?_⟩
  obtain ⟨bench', hrun, hsame, hholds⟩ :=
    Region.performAll_holds SameCut.rfl hcut.liesIn hwrites
  refine ⟨bench', hrun, hsame.regions_eq, fun region hregion => ?_⟩
  have hin := hcut.liesIn region hregion
  -- A fresh region holds zeros, which show wherever nothing is written.
  exact Region.readsBack_of_holds (hin.of_sameCut hsame)
    (hholds region hregion _ _ (holds_of_allocate hbench hin))

/-- Two workers with room for lines of one element and no spectrum, which counts as one entry.
A bundle of two lines of two elements is written through the first region, and its second
element once more as the second line of four; one element and the spectrum are written through
the second region. -/
theorem regions_are_private_of_two :
    HasRoom Float 2 1 0 ∧
    ∃ bench bench' : Bench Float, allocate 2 1 0 = .ok bench ∧
      bench.regions = [⟨⟨0, 4⟩, ⟨0, 1⟩⟩, ⟨⟨4, 4⟩, ⟨1, 1⟩⟩] ∧
      Region.performAll
        [(⟨⟨0, 4⟩, ⟨0, 1⟩⟩, .line 2 2 0 #[1, 2, 3, 4]), (⟨⟨4, 4⟩, ⟨1, 1⟩⟩, .slot 4 1 3 9),
          (⟨⟨0, 4⟩, ⟨0, 1⟩⟩, .slot 4 1 1 7), (⟨⟨4, 4⟩, ⟨1, 1⟩⟩, .entries 0 #[⟨5, 6⟩])] bench =
        .ok () bench' ∧
      bench'.regions = bench.regions ∧
      spectrum ⟨0, 1⟩ bench' = .ok #[0] bench' ∧
      spectrum ⟨1, 1⟩ bench' = .ok #[⟨5, 6⟩] bench' ∧
      line ⟨0, 4⟩ bench' = .ok #[1, 7, 3, 4] bench' ∧
      line ⟨4, 4⟩ bench' = .ok #[0, 0, 0, 9] bench' := by
  have hroom : HasRoom Float 2 1 0 := .of_lt (by decide) (by decide)
  obtain ⟨bench, hbench, -, hall⟩ := regions_are_private hroom
  obtain ⟨-, rfl⟩ := allocate_eq_ok_iff.1 hbench
  obtain ⟨bench', hrun, hregions, hread⟩ := hall
    [(⟨⟨0, 4⟩, ⟨0, 1⟩⟩, .line 2 2 0 #[1, 2, 3, 4]), (⟨⟨4, 4⟩, ⟨1, 1⟩⟩, .slot 4 1 3 9),
      (⟨⟨0, 4⟩, ⟨0, 1⟩⟩, .slot 4 1 1 7), (⟨⟨4, 4⟩, ⟨1, 1⟩⟩, .entries 0 #[⟨5, 6⟩])] (by decide)
  have hfirst := hread ⟨⟨0, 4⟩, ⟨0, 1⟩⟩ (by decide)
  have hsecond := hread ⟨⟨4, 4⟩, ⟨1, 1⟩⟩ (by decide)
  -- What is read is a rule on a short range, which is listed.
  have hlist : ∀ {α : Type} {n : Nat} {f : Nat → α} {xs : List α}, (List.range n).map f = xs →
      (.ok ((Array.range n).map f) bench' : EStateM.Result Fault (Bench Float) (Array α)) =
        .ok xs.toArray bench' := by
    rintro α n f xs rfl
    rw [← Buffer.toList_map_range]
  exact ⟨hroom, _, bench', hbench, rfl, hrun, hregions,
    hfirst.spectrum_eq.trans (hlist rfl), hsecond.spectrum_eq.trans (hlist rfl),
    (hfirst.bundle_eq 1 4 (by decide)).trans (hlist rfl),
    (hsecond.bundle_eq 4 1 (by decide)).trans (hlist rfl)⟩

end Bench

end CosineTransform
