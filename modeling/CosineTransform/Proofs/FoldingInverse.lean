import Mathlib
import CosineTransform.Proofs.FoldedLine

/-!
# Folding and unfolding are inverse

`Folding.source` sends the entries of a folded line of even length `n` one to one onto its
places: first the even places upwards, then the odd places downwards (`map_place_range`,
`bijOn_place`). So a line that is packed and unpacked again is the line it was
(`unpack_pack`).

Which places a loop comes to is not seen in what it leaves. Here the two loops are written
with the access to the line left open (`packVia`, `unpackVia`). With plain accesses they are
the loops of a line (`pack_eq_packVia`, `unpack_eq_unpackVia`). With accesses that are noted
they leave the same, along with a list of the places they came to. This is the list of the
places of the folded line (`packVia_noted`, `unpackVia_noted`), and it holds every place of the
line once (`places_perm`). `folding_is_inverse` puts this together for every even length of at
least two (`Folding.Inverse`).
-/

namespace CosineTransform

/-! ### Noted accesses -/

/-- A checked computation that notes the indices it comes to, the last one at the end. -/
abbrev Noting := StateT (List Nat) Checked

namespace Noting

variable {α β ι : Type}

/-- An access to index `i`, noted before it is made. -/
def noted (i : Nat) (access : Checked α) : Noting α := do
  modify (· ++ [i])
  access

theorem noted_apply (i : Nat) (access : Checked α) (log : List Nat) :
    noted i access log = (fun a => (a, log ++ [i])) <$> access := by
  cases access <;> rfl

/-- A computation that gives its value without an access goes on with the same list. -/
theorem ok_bind (a : α) (f : α → Noting β) (log : List Nat) :
    ((liftM (Except.ok a : Checked α) : Noting α) >>= f) log = f a log := rfl

/-- After an access that gives its value, the index is on the list. -/
theorem noted_bind {i : Nat} {access : Checked α} {a : α} (h : access = .ok a)
    (f : α → Noting β) (log : List Nat) : (noted i access >>= f) log = f a (log ++ [i]) := by
  rw [h]
  rfl

/-- **A loop of noting steps** leaves what the plain loop leaves, and notes what its steps
note, one step after the other. -/
theorem foldlM_apply {body : α → ι → Noting α} {plain : α → ι → Checked α}
    {indices : ι → List Nat} {items : List ι}
    (hstep : ∀ i ∈ items, ∀ a log,
      body a i log = (fun b => (b, log ++ indices i)) <$> plain a i) (a : α) (log : List Nat) :
    items.foldlM body a log =
      (fun b => (b, log ++ items.flatMap indices)) <$> items.foldlM plain a := by
  induction items generalizing a log with
  | nil =>
    show (Except.ok (a, log) : Checked (α × List Nat)) = .ok (a, log ++ [])
    rw [List.append_nil]
  | cons i items ih =>
    rw [List.foldlM_cons, List.foldlM_cons]
    show (body a i log >>= fun p => items.foldlM body p.1 p.2) = _
    rw [hstep i List.mem_cons_self a log]
    cases plain a i with
    | error fault => rfl
    | ok b =>
      show items.foldlM body b (log ++ indices i) = _
      rw [ih (fun i hi => hstep i (List.mem_cons_of_mem _ hi)), List.flatMap_cons,
        List.append_assoc]
      rfl

end Noting

namespace Folding

variable {T : Type}

/-! ### The places of a folded line -/

/-- The places of the entries of a folded line of length `n`, in the order of the entries:
the even places upwards, then the odd places downwards. -/
def places (n : Nat) : List Nat :=
  (List.range (n / 2)).map (2 * ·) ++ ((List.range (n / 2)).map (2 * · + 1)).reverse

theorem map_place_range {n : Nat} (hn : n % 2 = 0) :
    (List.range n).map (place n) = places n := by
  unfold places
  apply List.ext_getElem
  · simp only [List.length_append, List.length_reverse, List.length_map, List.length_range]
    omega
  · intro p hp hp'
    rw [List.length_map, List.length_range] at hp
    rw [List.getElem_map, List.getElem_range]
    unfold place
    by_cases h : p < n / 2
    · rw [if_pos h, List.getElem_append_left (by simpa using h), List.getElem_map,
        List.getElem_range]
    · rw [if_neg h, List.getElem_append_right (by simpa using h)]
      simp only [List.getElem_reverse, List.getElem_map, List.getElem_range, List.length_map,
        List.length_range]
      omega

/-- A line of six entries. -/
example : places 6 = [0, 2, 4, 5, 3, 1] := by decide

/-- **Entries and places** of a folded line are in bijection. -/
theorem bijOn_place {n : Nat} (hn : n % 2 = 0) :
    Set.BijOn (place n) (Set.Iio n) (Set.Iio n) := by
  have hinv : Set.InvOn (position n) (place n) (Set.Iio n) (Set.Iio n) := by
    constructor
    · intro p hp
      exact ((place_eq_iff hn hp (place_lt hn hp)).1 rfl).symm
    · intro i hi
      exact (place_eq_iff hn (position_lt hi) hi).2 rfl
  exact hinv.bijOn (fun p hp => place_lt hn hp) fun i hi => position_lt hi

/-- The places of a folded line are those of the line, each of them once. -/
theorem places_perm {n : Nat} (hn : n % 2 = 0) : (places n).Perm (List.range n) := by
  rw [← map_place_range hn]
  have hnodup : ((List.range n).map (place n)).Nodup := by
    refine List.Nodup.map_on (fun p hp q hq h => ?_) List.nodup_range
    exact (bijOn_place hn).injOn (List.mem_range.1 hp) (List.mem_range.1 hq) h
  refine (List.perm_ext_iff_of_nodup hnodup List.nodup_range).2 fun i => ?_
  rw [List.mem_map, List.mem_range]
  constructor
  · rintro ⟨p, hp, rfl⟩
    exact place_lt hn (List.mem_range.1 hp)
  · intro hi
    obtain ⟨p, hp, rfl⟩ := (bijOn_place hn).surjOn hi
    exact ⟨p, List.mem_range.2 hp, rfl⟩

/-! ### Unpacking what was packed -/

theorem unfolded_folded {n : Nat} (hn : n % 2 = 0) (x : Nat → T) :
    ∀ i < n, unfolded n (folded n x) i = x i := by
  intro i hi
  have hplace : place n (position n i) = i := (place_eq_iff hn (position_lt hi) hi).2 rfl
  unfold unfolded folded
  -- The parity of an entry tells the coordinate that it is packed in.
  by_cases h : position n i % 2 = 0
  · rw [if_pos h, show 2 * (position n i / 2) = position n i by omega, hplace]
  · rw [if_neg h, show 2 * (position n i / 2) + 1 = position n i by omega, hplace]

/-- The complex values of a packed line. -/
theorem getElem?_overlay_folded {n m : Nat} (x : Nat → T) {spectrum : Array (Cartesian T)}
    (hs : n / 2 ≤ spectrum.size) (hm : m < n / 2) :
    (Buffer.overlay spectrum 0 ((List.range (n / 2)).map (folded n x)))[m]? =
      some (folded n x m) := by
  rw [Buffer.getElem?_overlay, if_pos (by simp; omega), Nat.sub_zero, List.getElem?_map,
    List.getElem?_range hm, Option.map_some]

/-- **Unpacking undoes packing**, whatever the line held that is unpacked to. -/
theorem unpack_pack {n : Nat} (hn : n % 2 = 0) (hb : n < Word.bound) (x : Nat → T)
    {spectrum : Array (Cartesian T)} {target : Array T} (hs : n / 2 ≤ spectrum.size)
    (ht : target.size = n) :
    (do unpack (← pack ((Array.range n).map x) spectrum) target) =
      .ok ((Array.range n).map x) := by
  rw [pack_eq hn hb x hs, Checked.ok_bind]
  -- What was packed is the start of the spectrum, whose rest is not looked at.
  obtain ⟨z, hz⟩ := Buffer.exists_rule (Buffer.size_overlay spectrum 0 _) (folded n x 0)
  have hstart : ∀ m < n / 2, z m = folded n x m := by
    intro m hm
    have hvalue := getElem?_overlay_folded x hs hm
    rw [hz, Buffer.getElem?_map_range z (hm.trans_le hs)] at hvalue
    exact Option.some.inj hvalue
  rw [hz, unpack_eq hn hb hs z ht]
  refine congrArg Except.ok (Buffer.map_range_congr fun i hi => ?_)
  rw [unfolded_congr hn hstart i hi, unfolded_folded hn x i hi]

/-! ### Loops with the access left open -/

section Access

variable {M : Type → Type} [Monad M] [MonadLiftT Checked M]

/-- Two entries of a folded line of length `n` as one complex value, where `read` reads the
line. -/
def packedVia (n : Nat) (read : Nat → M T) (m : Nat) : M (Cartesian T) := do
  let p ← Word.mul 2 m
  let re ← read (← source p n)
  let im ← read (← source (← Word.add p 1) n)
  return ⟨re, im⟩

/-- Packing a line of length `n`, where `read` reads the line. -/
def packVia (n : Nat) (read : Nat → M T) (spectrum : Array (Cartesian T)) :
    M (Array (Cartesian T)) :=
  (List.range (n / 2)).foldlM (fun xs m => do Buffer.write xs m (← packedVia n read m)) spectrum

/-- Unpacking to a line of length `n`, where `write` writes the line. -/
def unpackVia (n : Nat) (write : Array T → Nat → T → M (Array T))
    (spectrum : Array (Cartesian T)) (line : Array T) : M (Array T) :=
  (List.range n).foldlM (fun line p => do
    let z ← Buffer.read spectrum (p / 2)
    write line (← source p n) (if p % 2 = 0 then z.re else z.im)) line

end Access

theorem pack_eq_packVia (line : Array T) (spectrum : Array (Cartesian T)) :
    pack line spectrum = packVia (M := Checked) line.size (Buffer.read line) spectrum := rfl

theorem unpack_eq_unpackVia (spectrum : Array (Cartesian T)) (line : Array T) :
    unpack spectrum line = unpackVia (M := Checked) line.size Buffer.write spectrum line := rfl

/-- Reading a line, where each read is noted. -/
def notedRead (line : Array T) (i : Nat) : Noting T :=
  Noting.noted i (Buffer.read line i)

/-- Writing a line, where each write is noted. -/
def notedWrite (line : Array T) (i : Nat) (x : T) : Noting (Array T) :=
  Noting.noted i (Buffer.write line i x)

/-- Every other entry and the one behind it are all entries. -/
theorem flatMap_pair (f : Nat → Nat) (h : Nat) :
    ((List.range h).flatMap fun m => [f (2 * m), f (2 * m + 1)]) =
      (List.range (2 * h)).map f := by
  induction h with
  | zero => rfl
  | succ h ih =>
    rw [List.range_succ, List.flatMap_append, ih, show 2 * (h + 1) = 2 * h + 1 + 1 by omega,
      List.range_succ, List.range_succ]
    simp

theorem packedVia_noted {n m : Nat} (hn : n % 2 = 0) (hb : n < Word.bound) (x : Nat → T)
    (hm : m < n / 2) (log : List Nat) :
    packedVia n (notedRead ((Array.range n).map x)) m log =
      .ok (folded n x m, log ++ [place n (2 * m), place n (2 * m + 1)]) := by
  have hread : ∀ p < n, Buffer.read ((Array.range n).map x) (place n p) = .ok (x (place n p)) :=
    fun p hp => Buffer.read_map_range x (place_lt hn hp)
  unfold packedVia notedRead
  rw [Word.mul_of_lt (by omega), Noting.ok_bind, source_eq hn hb (by omega), Noting.ok_bind,
    Noting.noted_bind (hread _ (by omega)), Word.add_of_lt (by omega), Noting.ok_bind,
    source_eq hn hb (by omega), Noting.ok_bind, Noting.noted_bind (hread _ (by omega)),
    List.append_assoc]
  rfl

/-- **What packing reads**: the places of the folded line in their order. -/
theorem packVia_noted {n : Nat} (hn : n % 2 = 0) (hb : n < Word.bound) (x : Nat → T)
    (spectrum : Array (Cartesian T)) :
    packVia n (notedRead ((Array.range n).map x)) spectrum [] =
      (fun packed => (packed, places n)) <$> pack ((Array.range n).map x) spectrum := by
  have hpack : pack ((Array.range n).map x) spectrum =
      Buffer.fill (n / 2) (packed ((Array.range n).map x)) spectrum := by
    unfold pack
    rw [Array.size_map, Array.size_range]
  have hplaces :=
    calc (List.range (n / 2)).flatMap fun m => [place n (2 * m), place n (2 * m + 1)]
      _ = (List.range (2 * (n / 2))).map (place n) := flatMap_pair (place n) (n / 2)
      _ = (List.range n).map (place n) := by rw [show 2 * (n / 2) = n by omega]
      _ = places n := map_place_range hn
  rw [hpack, ← hplaces]
  refine Noting.foldlM_apply (fun m hm xs log => ?_) spectrum []
  -- A step reads two places and writes the spectrum, which is not noted.
  have hm' := List.mem_range.1 hm
  show (packedVia n (notedRead ((Array.range n).map x)) m log >>= fun p =>
    (liftM (Buffer.write xs m p.1) : Noting (Array (Cartesian T))) p.2) = _
  rw [packedVia_noted hn hb x hm', packed_eq hn hb x hm', Checked.ok_bind, Checked.ok_bind]
  rfl

/-- **What unpacking writes**: the places of the folded line in their order. -/
theorem unpackVia_noted {n : Nat} (hn : n % 2 = 0) (hb : n < Word.bound)
    (spectrum : Array (Cartesian T)) {line : Array T} (hline : line.size = n) :
    unpackVia n notedWrite spectrum line [] =
      (fun line' => (line', places n)) <$> unpack spectrum line := by
  have hplaces : ((List.range n).flatMap fun p => [place n p]) = places n := by
    rw [← List.map_eq_flatMap, map_place_range hn]
  subst hline
  rw [← hplaces]
  refine Noting.foldlM_apply (fun p hp line' log => ?_) line []
  have hp' := List.mem_range.1 hp
  -- A step reads the spectrum, which is not noted, and writes one place.
  cases Buffer.read spectrum (p / 2) with
  | error fault => rfl
  | ok z =>
    rw [Noting.ok_bind, source_eq hn hb hp', Noting.ok_bind, Checked.ok_bind, Checked.ok_bind]
    exact Noting.noted_apply _ _ _

/-! ### Inverse loops -/

/-- **The two loops of a line of length `n` are inverse.** -/
structure Inverse (n : Nat) : Prop where
  /-- Every entry of the folded line has a place in the line, and they are in bijection. -/
  source_eq : ∀ p < n, source p n = .ok (place n p)
  bijOn : Set.BijOn (place n) (Set.Iio n) (Set.Iio n)
  /-- The first half of the entries has the even places, the rest the odd places backwards. -/
  map_place : (List.range n).map (place n) =
    (List.range (n / 2)).map (2 * ·) ++ ((List.range (n / 2)).map (2 * · + 1)).reverse
  /-- Packing has an answer: a complex value holds two entries of the folded line. -/
  packs {T : Type} (xs : Array T) (spectrum : Array (Cartesian T)) : xs.size = n →
    n / 2 ≤ spectrum.size →
    ∃ packed, pack xs spectrum = .ok packed ∧ ∀ m < n / 2,
      packed[m]?.map Cartesian.re = xs[place n (2 * m)]? ∧
      packed[m]?.map Cartesian.im = xs[place n (2 * m + 1)]?
  /-- Packing with its reads noted reads each element of the line once. -/
  reads_once {T : Type} (line : Array T) (spectrum : Array (Cartesian T)) : line.size = n →
    n / 2 ≤ spectrum.size →
    pack line spectrum = packVia (M := Checked) n (Buffer.read line) spectrum ∧
    ∃ packed reads, pack line spectrum = .ok packed ∧
      packVia n (notedRead line) spectrum [] = .ok (packed, reads) ∧
      reads.Perm (List.range n)
  /-- Unpacking has an answer, and with its writes noted it writes each element of the line
  once. -/
  writes_once {T : Type} (spectrum : Array (Cartesian T)) (line : Array T) : line.size = n →
    n / 2 ≤ spectrum.size →
    unpack spectrum line = unpackVia (M := Checked) n Buffer.write spectrum line ∧
    ∃ unpacked writes, unpack spectrum line = .ok unpacked ∧
      unpackVia n notedWrite spectrum line [] = .ok (unpacked, writes) ∧
      writes.Perm (List.range n)
  /-- Unpacking what was packed gives the line back, over whatever line it is unpacked. -/
  restores {T : Type} (line target : Array T) (spectrum : Array (Cartesian T)) : line.size = n →
    target.size = n → n / 2 ≤ spectrum.size →
    (do unpack (← pack line spectrum) target) = .ok line

/-- **Folding and unfolding are inverse** for every even length of at least two. -/
theorem folding_is_inverse {n : Nat} (hn : n % 2 = 0) (h2 : 2 ≤ n) (hb : n < Word.bound) :
    Inverse n where
  source_eq p hp := source_eq hn hb hp
  bijOn := bijOn_place hn
  map_place := map_place_range hn
  packs xs spectrum hxs hs := by
    obtain ⟨x, rfl⟩ := Buffer.exists_rule_of_pos hxs (by omega)
    refine ⟨_, pack_eq hn hb x hs, fun m hm => ?_⟩
    rw [getElem?_overlay_folded x hs hm, Buffer.getElem?_map_range x (place_lt hn (by omega)),
      Buffer.getElem?_map_range x (place_lt hn (by omega))]
    exact ⟨rfl, rfl⟩
  reads_once line spectrum hline hs := by
    obtain ⟨x, rfl⟩ := Buffer.exists_rule_of_pos hline (by omega)
    have hpack := pack_eq hn hb x hs
    refine ⟨by rw [pack_eq_packVia, hline], _, places n, hpack, ?_, places_perm hn⟩
    rw [packVia_noted hn hb x, hpack]
    rfl
  writes_once spectrum line hline hs := by
    obtain ⟨z, hz⟩ := Buffer.exists_rule_of_pos (rfl : spectrum.size = _) (by omega)
    have hunpack : unpack spectrum line = .ok ((Array.range n).map (unfolded n z)) := by
      rw [hz]
      exact unpack_eq hn hb hs z hline
    refine ⟨by rw [unpack_eq_unpackVia, hline], _, places n, hunpack, ?_, places_perm hn⟩
    rw [unpackVia_noted hn hb spectrum hline, hunpack]
    rfl
  restores line target spectrum hline ht hs := by
    obtain ⟨x, rfl⟩ := Buffer.exists_rule_of_pos hline (by omega)
    exact unpack_pack hn hb x hs ht

/-- The length six. -/
theorem folding_is_inverse_of_six : 6 % 2 = 0 ∧ 2 ≤ 6 ∧ 6 < Word.bound ∧ Inverse 6 := by
  have hb : 6 < Word.bound := by decide
  exact ⟨rfl, by omega, hb, folding_is_inverse rfl (by omega) hb⟩

end Folding

end CosineTransform
