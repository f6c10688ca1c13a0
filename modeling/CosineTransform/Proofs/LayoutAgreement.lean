import Mathlib
import CosineTransform.Proofs.ListedLayouts
import CosineTransform.Sample.Binary

/-!
# All layouts are the same array

A flat buffer, a list of slices and a plane with the same contents have the same contents
after a call (`layouts_agree`): put one after the other, the rows of the lists are what the
call leaves in the volume of the buffer, bit for bit. No list changes its length, and neither
does the buffer, which keeps what lies behind the volume.

What a call leaves does not mention the layout: it is the image of the array that the
data follows (`call_flat`, `call_listed`), and an array of a given size has one buffer
that follows it (`Separable.Follows.unique`).
-/

namespace CosineTransform

/-- The part of a buffer that holds the volume. -/
def FlatVolume.within {T : Type} (data : FlatVolume T) (shape : Shape) : Array T :=
  data.elements.extract 0 (shape.slices * shape.rows * shape.columns)

/-- Every buffer of the size of the volume follows an array. -/
theorem Separable.exists_follows {T : Type} [Zero T] {shape : Shape} {xs : Array T}
    (h : xs.size = shape.slices * shape.rows * shape.columns) : ∃ g, Follows shape g xs := by
  refine ⟨fun i j k => xs.getD (shape.offset i j k) 0, h, fun i j k hijk => ?_⟩
  have hlt : shape.offset i j k < xs.size := by
    rw [h]
    exact Shape.offset_lt hijk
  rw [Array.getD_eq_getD_getElem?, Array.getElem?_eq_getElem hlt, Option.getD_some]

/-! ### Reports that agree -/

/-- **Lists agree with a buffer.** Lists that have the sizes of the shape and the contents of
the buffer, and for whose rows there is room in a table, are transformed, keep their sizes,
and have the contents of the buffer again. -/
def ListsAgree {D T : Type} [Listed D T] (shape : Shape) (flat : FlatVolume T)
    (onFlat : Report (FlatVolume T)) (onLists : D → Report D) : Prop :=
  shape.HasTableRoom → ∀ data : D,
    Listed.HasSizes shape data → Listed.elements data = flat.within shape →
    (onLists data).outcome = .ok () ∧ Listed.HasSizes shape (onLists data).data ∧
      Listed.elements (onLists data).data = onFlat.data.within shape

/-- **The layouts agree** on the contents of a buffer: the buffer is transformed and keeps its
size and its end, and lists agree with it. -/
structure LayoutsAgree {T : Type} (shape : Shape) (flat : FlatVolume T)
    (onFlat : FlatVolume T → Report (FlatVolume T))
    (onNested : NestedVolume T → Report (NestedVolume T))
    (onPlane : PlaneVolume T → Report (PlaneVolume T)) : Prop where
  outcome_eq : (onFlat flat).outcome = .ok ()
  size_eq : (onFlat flat).data.elements.size = flat.elements.size
  end_eq : ∀ m, shape.slices * shape.rows * shape.columns ≤ m →
    (onFlat flat).data.elements[m]? = flat.elements[m]?
  nested : ListsAgree shape flat (onFlat flat) onNested
  plane : ListsAgree shape flat (onFlat flat) onPlane

namespace VolumeTransform

variable {T W : Type} [Precision W] [Sample T W] {v : VolumeTransform T} {bench : Bench T}
  {g : Nat → Nat → Nat → T}

/-- **A call on a buffer** leaves the image of the array that its volume follows, and
everything else as it is. -/
theorem call_flat (hv : v.Planned)
    (hbench : Bench.allocate v.workers v.gatheredLength v.spectrumLength = .ok bench)
    (d : Direction) (scaled : Bool) {flat : FlatVolume T}
    (hsize : v.shape.slices * v.shape.rows * v.shape.columns ≤ flat.elements.size)
    (hg : Separable.Follows v.shape g (flat.within v.shape)) :
    (v.call d scaled flat).outcome = .ok () ∧
      (v.call d scaled flat).data.elements.size = flat.elements.size ∧
      (∀ m, v.shape.slices * v.shape.rows * v.shape.columns ≤ m →
        (v.call d scaled flat).data.elements[m]? = flat.elements[m]?) ∧
      Separable.Follows v.shape (imageOf (LineTransform.sharedPhase v.shape.longest) v.shape d
        scaled Pass.inOrder g) ((v.call d scaled flat).data.within v.shape) := by
  obtain ⟨elements⟩ := flat
  obtain ⟨hvolume, -⟩ := Shape.volume_eq_some hv.volume_eq
  have haddress : Layout.address v.shape (⟨elements⟩ : FlatVolume T) =
      .ok (⟨v.shape, elements⟩ : FlatStore T) :=
    FlatStore.ofBuffer_eq_ok_iff.2 ⟨⟨_, hv.volume_eq, by rw [hvolume]; exact hsize⟩, rfl⟩
  have hholds := LawfulLayout.holds_of_address (T := T) haddress
  have hrows := hholds.congr fun i j k hijk => Option.some.inj
    (((Separable.follows_extract hholds).element i j k hijk).symm.trans (hg.element i j k hijk))
  obtain ⟨⟨shape, elements'⟩, houtcome, hdata, hrows'⟩ :=
    call_eq hv hbench haddress hrows d scaled
  obtain rfl : shape = v.shape := hrows'.shape_eq
  -- What belongs to no row is the end of the buffer, and it has not changed.
  have hrest : elements'.extract (v.shape.slices * v.shape.rows * v.shape.columns)
      elements'.size = elements.extract (v.shape.slices * v.shape.rows * v.shape.columns)
        elements.size := hrows'.rest_eq
  have hsizes : elements'.size = elements.size :=
    Buffer.size_eq_of_extract_eq hrows'.sound.2 hsize hrest
  rw [hdata]
  exact ⟨houtcome, hsizes, fun m hm => Buffer.getElem?_eq_of_extract_eq hsizes hrest hm,
    Separable.follows_extract hrows'⟩

variable {D R : Type} [Layout D R] [RowStore R T] [RowView R T] [LawfulRowStore R T]
  [Indexed D T] [LawfulLayout D] [Listed D T] [LawfulListed D]

/-- **A call on lists** leaves the image of the array that they follow, and their sizes. -/
theorem call_listed (hv : v.Planned)
    (hbench : Bench.allocate v.workers v.gatheredLength v.spectrumLength = .ok bench)
    (hroom : v.shape.HasTableRoom) (d : Direction) (scaled : Bool) {data : D}
    (hsizes : Listed.HasSizes v.shape data)
    (hg : Separable.Follows v.shape g (Listed.elements data)) :
    (v.call d scaled data).outcome = .ok () ∧
      Listed.HasSizes v.shape (v.call d scaled data).data ∧
      Separable.Follows v.shape (imageOf (LineTransform.sharedPhase v.shape.longest) v.shape d
        scaled Pass.inOrder g) (Listed.elements (v.call d scaled data).data) := by
  obtain ⟨rows, haddress⟩ := address_of_hasSizes (R := R) hroom hsizes
  have hholds := LawfulLayout.holds_of_address (T := T) haddress
  -- The row store holds the array that the lists follow.
  have hfollows := LawfulListed.follows haddress hholds
  have hrows := hholds.congr fun i j k hijk =>
    Option.some.inj ((hfollows.element i j k hijk).symm.trans (hg.element i j k hijk))
  obtain ⟨rows', houtcome, hdata, hrows'⟩ := call_eq hv hbench haddress hrows d scaled
  have haddress' := LawfulLayout.address_collect haddress hrows'.sound hrows'.shape_eq
  rw [hdata]
  exact ⟨houtcome, hasSizes_of_address hroom haddress', LawfulListed.follows haddress' hrows'⟩

/-- Lists with the contents of a buffer, after a call on both. -/
theorem listsAgree (hv : v.Planned)
    (hbench : Bench.allocate v.workers v.gatheredLength v.spectrumLength = .ok bench)
    (d : Direction) (scaled : Bool) {flat : FlatVolume T}
    (hsize : v.shape.slices * v.shape.rows * v.shape.columns ≤ flat.elements.size)
    (hg : Separable.Follows v.shape g (flat.within v.shape)) :
    ListsAgree v.shape flat (v.call d scaled flat) (v.call d scaled : D → Report D) := by
  intro hroom data hsizes hsame
  rw [← hsame] at hg
  obtain ⟨houtcome, hsizes', hlists⟩ := call_listed hv hbench hroom d scaled hsizes hg
  rw [hsame] at hg
  obtain ⟨-, -, -, hflat⟩ := call_flat hv hbench d scaled hsize hg
  exact ⟨houtcome, hsizes', hlists.unique hflat fun _ _ _ _ => rfl⟩

/-- **All layouts agree** in a call. -/
theorem Planned.layoutsAgree (hv : v.Planned)
    (hbench : Bench.allocate v.workers v.gatheredLength v.spectrumLength = .ok bench)
    (d : Direction) (scaled : Bool) {flat : FlatVolume T}
    (hsize : v.shape.slices * v.shape.rows * v.shape.columns ≤ flat.elements.size) :
    LayoutsAgree v.shape flat (v.call d scaled) (v.call d scaled) (v.call d scaled) := by
  have hwithin : (flat.within v.shape).size =
      v.shape.slices * v.shape.rows * v.shape.columns := by
    unfold FlatVolume.within
    rw [Array.size_extract, Nat.min_eq_left hsize, Nat.sub_zero]
  obtain ⟨g, hg⟩ := Separable.exists_follows hwithin
  obtain ⟨houtcome, hsizes, hend, -⟩ := call_flat hv hbench d scaled hsize hg
  exact ⟨houtcome, hsizes, hend, listsAgree hv hbench d scaled hsize hg,
    listsAgree hv hbench d scaled hsize hg⟩

end VolumeTransform

/-- **Volumes and planes in all layouts.** Whatever numbers are transformed, however the work is
shared, in both directions and scaled or not: calls on a buffer, on a list of slices and on
a plane with the same contents all succeed and leave the same contents. -/
theorem layouts_agree {T W : Type} [Precision W] [Sample T W] :
    (∀ {host : Host} {options : SharingOptions} {shape : Shape} {v : VolumeTransform T},
      VolumeTransform.plan host options shape = .ok v → ∀ {bench : Bench T},
      Bench.allocate v.workers v.gatheredLength v.spectrumLength = .ok bench →
      ∀ (d : Direction) (scaled : Bool) (flat : FlatVolume T),
      shape.slices * shape.rows * shape.columns ≤ flat.elements.size →
      LayoutsAgree shape flat (v.call d scaled) (v.call d scaled) (v.call d scaled)) ∧
    ∀ {host : Host} {options : SharingOptions} {rows columns : Nat}
      {p : PlaneTransform T},
      PlaneTransform.plan host options rows columns = .ok p → ∀ {bench : Bench T},
      Bench.allocate p.volume.workers p.volume.gatheredLength p.volume.spectrumLength =
        .ok bench →
      ∀ (d : Direction) (scaled : Bool) (flat : FlatVolume T),
      rows * columns ≤ flat.elements.size →
      LayoutsAgree ⟨1, rows, columns⟩ flat (p.call d scaled) (p.call d scaled)
        (p.call d scaled) := by
  refine ⟨?_, ?_⟩
  · intro host options shape v hv bench hbench d scaled flat hsize
    obtain ⟨hplanned, rfl, -⟩ := VolumeTransform.planned_of_plan hv
    exact hplanned.layoutsAgree hbench d scaled hsize
  · intro host options rows columns p hp bench hbench d scaled flat hsize
    obtain ⟨hplanned, hshape, -⟩ :=
      VolumeTransform.planned_of_plan (PlaneTransform.plan_eq_ok_iff.1 hp)
    rw [← hshape]
    refine hplanned.layoutsAgree hbench d scaled ?_
    rw [hshape, Nat.one_mul]
    exact hsize

/-- Four doubles as one slice of two rows, and as a plane, next to a buffer of five. -/
theorem layouts_agree_small :
    ∃ (v : VolumeTransform Float) (p : PlaneTransform Float),
      VolumeTransform.plan (.willing 1) ⟨0, .own 2⟩ ⟨1, 2, 2⟩ = .ok v ∧
      PlaneTransform.plan (.willing 1) ⟨0, .own 2⟩ 2 2 = .ok p ∧
      Listed.elements (v.call .forward true
          (⟨#[#[#[1, 2], #[3, 4]]]⟩ : NestedVolume Float)).data =
        (v.call .forward true (⟨#[1, 2, 3, 4, 5]⟩ : FlatVolume Float)).data.within ⟨1, 2, 2⟩ ∧
      Listed.elements (p.call .inverse false
          (⟨#[#[1, 2], #[3, 4]]⟩ : PlaneVolume Float)).data =
        (p.call .inverse false (⟨#[1, 2, 3, 4, 5]⟩ : FlatVolume Float)).data.within
          ⟨1, 2, 2⟩ := by
  have hplan : VolumeTransform.plan (.willing 1) ⟨0, .own 2⟩ ⟨1, 2, 2⟩ =
      .ok (VolumeTransform.plannedFor (.willing 1) ⟨0, .own 2⟩ ⟨1, 2, 2⟩ 4 : VolumeTransform Float) :=
    VolumeTransform.plan_eq_ok_iff.2 ⟨by decide, Crew.canHire_willing (by decide), 4, by decide, rfl⟩
  obtain ⟨bench, hbench⟩ : ∃ bench : Bench Float, Bench.allocate 2 2 1 = .ok bench :=
    ⟨_, Bench.allocate_eq_ok_iff.2 ⟨by decide, rfl⟩⟩
  have hnested : Listed.HasSizes ⟨1, 2, 2⟩ (⟨#[#[#[1, 2], #[3, 4]]]⟩ : NestedVolume Float) :=
    ⟨rfl, by simp⟩
  have hplane : Listed.HasSizes ⟨1, 2, 2⟩ (⟨#[#[1, 2], #[3, 4]]⟩ : PlaneVolume Float) :=
    ⟨rfl, rfl, by simp⟩
  have hslices : Listed.elements (⟨#[#[#[1, 2], #[3, 4]]]⟩ : NestedVolume Float) =
      FlatVolume.within ⟨#[1, 2, 3, 4, 5]⟩ ⟨1, 2, 2⟩ := by
    simp [Listed.elements, FlatVolume.within]
  have hrows : Listed.elements (⟨#[#[1, 2], #[3, 4]]⟩ : PlaneVolume Float) =
      FlatVolume.within ⟨#[1, 2, 3, 4, 5]⟩ ⟨1, 2, 2⟩ := by
    simp [Listed.elements, FlatVolume.within]
  obtain ⟨hvolumes, hplanes⟩ := layouts_agree (T := Float)
  have hv := hvolumes hplan hbench .forward true ⟨#[1, 2, 3, 4, 5]⟩ (by decide)
  have hp := hplanes (p := ⟨_⟩) (PlaneTransform.plan_eq_ok_iff.2 hplan) hbench .inverse false
    ⟨#[1, 2, 3, 4, 5]⟩ (by decide)
  exact ⟨_, ⟨_⟩, hplan, PlaneTransform.plan_eq_ok_iff.2 hplan,
    (hv.nested (by decide) _ hnested hslices).2.2, (hp.plane (by decide) _ hplane hrows).2.2⟩

end CosineTransform
