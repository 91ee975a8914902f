import LatticeHull.Proofs.Binary.Reading
import LatticeHull.Proofs.Exact
import LatticeHull.Proofs.Hull.Runs
import LatticeHull.Proofs.Hull.Vertices
import LatticeHull.Proofs.Mesh.Solid

/-!
# Membership in the convex hull

A point is inside if the box does not exclude it and no triangle sees it.  In a solid
hull the box never decides: the points that no triangle sees are those of the convex hull
of the vertices, and that lies in the box.

So a reachable hull whose mesh is more than the flat start answers, for every lattice
point in range, whether the point lies in the convex hull of its vertices.  For points
between those of the lattice the same is true of exact half-space tests, on the fractions
that the corners of the mesh stand for.
-/

namespace LatticeHull

/-!
## Points in a box

An exact bounding box covers the convex hull of its blocks.  If the corners of the box
are in range, then machine numbers are compared with them as whole numbers are, also when
they stand for whole numbers that are too large to be held exactly.
-/

open Binary

/-- The lattice points in the bounding box of some blocks: on every axis they lie
between two of the blocks. -/
def Block.box (vs : List Block) : Set Block :=
  {q | ((∃ u ∈ vs, u.x ≤ q.x) ∧ ∃ u ∈ vs, q.x ≤ u.x) ∧
    ((∃ u ∈ vs, u.y ≤ q.y) ∧ ∃ u ∈ vs, q.y ≤ u.y) ∧
    ((∃ u ∈ vs, u.z ≤ q.z) ∧ ∃ u ∈ vs, q.z ≤ u.z)}

namespace Extent

variable {e : Extent}

theorem covers_map_iff {R S : Type} [CommRing R] [LinearOrder R] [CommRing S]
    [LinearOrder S] {f : R →+* S} (hf : StrictMono f) {q : Vec3 R} :
    e.Covers (q.map f) ↔ e.Covers q := by
  have hcast : ∀ n : Int, ((n : Int) : S) = f n := fun n => (map_intCast f n).symm
  simp only [Covers, Vec3.map, hcast, hf.le_iff_le]

theorem convex_covers (e : Extent) :
    Convex ℝ {x | ∀ p : Vec3 ℝ, p.place = x → e.Covers p} := by
  have hrange : ∀ {low high a b r s : ℝ}, 0 ≤ r → 0 ≤ s → r + s = 1 →
      low ≤ a ∧ a ≤ high →
      low ≤ b ∧ b ≤ high → low ≤ r * a + s * b ∧ r * a + s * b ≤ high := by
    intro low high a b r s hr hs hrs ha hb
    exact convex_Icc low high ha hb hr hs hrs
  intro x hx y hy r s hr hs hrs p hp
  obtain ⟨p₁, rfl⟩ := Vec3.place_surjective x
  obtain ⟨p₂, rfl⟩ := Vec3.place_surjective y
  rw [← Vec3.place_combine] at hp
  rw [Vec3.place_injective hp]
  obtain ⟨hx₁, hy₁, hz₁⟩ := hx p₁ rfl
  obtain ⟨hx₂, hy₂, hz₂⟩ := hy p₂ rfl
  exact ⟨hrange hr hs hrs hx₁ hx₂, hrange hr hs hrs hy₁ hy₂, hrange hr hs hrs hz₁ hz₂⟩

theorem Bounds.covers {vs : Set Block} (hbounds : e.Bounds vs) {v : Block}
    (hv : v ∈ vs) :
    e.Covers v :=
  ⟨⟨hbounds.x.1.2 ⟨v, hv, rfl⟩, hbounds.x.2.2 ⟨v, hv, rfl⟩⟩,
    ⟨hbounds.y.1.2 ⟨v, hv, rfl⟩, hbounds.y.2.2 ⟨v, hv, rfl⟩⟩,
    ⟨hbounds.z.1.2 ⟨v, hv, rfl⟩, hbounds.z.2.2 ⟨v, hv, rfl⟩⟩⟩

theorem Spans.between_iff {vs : List Block} {f : Block → Int} {low high : Int64}
    (hspans : Spans low high (f '' {v | v ∈ vs})) {n : Int} :
    (low.toInt ≤ n ∧ n ≤ high.toInt) ↔ (∃ u ∈ vs, f u ≤ n) ∧ ∃ u ∈ vs, n ≤ f u := by
  obtain ⟨⟨⟨a, ha, hlow⟩, hleast⟩, ⟨b, hb, hhigh⟩, hgreatest⟩ := hspans
  constructor
  · rintro ⟨hn, hn'⟩
    exact ⟨⟨a, ha, hlow.le.trans hn⟩, ⟨b, hb, hn'.trans hhigh.ge⟩⟩
  · rintro ⟨⟨u, hu, hun⟩, ⟨w, hw, hnw⟩⟩
    exact ⟨(hleast ⟨u, hu, rfl⟩).trans hun, hnw.trans (hgreatest ⟨w, hw, rfl⟩)⟩

/-- Among lattice points an exact box covers those between its blocks. -/
theorem Bounds.covers_iff_mem_box {vs : List Block} (hbounds : e.Bounds {v | v ∈ vs})
    {q : Block} :
    e.Covers q ↔ q ∈ Block.box vs := by
  have hx := hbounds.x.between_iff (n := q.x)
  have hy := hbounds.y.between_iff (n := q.y)
  have hz := hbounds.z.between_iff (n := q.z)
  simp only [Covers, Int.cast_id, hx, hy, hz]
  exact Iff.rfl

/-- The box of some blocks holds their convex hull. -/
theorem Bounds.covers_of_mem_solid {vs : List Block} (hbounds : e.Bounds {v | v ∈ vs})
    {q : Vec3 ℝ} (hq : q.place ∈ Block.solid vs) : e.Covers q := by
  refine convexHull_min ?_ e.convex_covers hq q rfl
  rintro x ⟨v, hv, rfl⟩ p hp
  rw [Vec3.place_injective hp]
  exact (covers_map_iff (f := Int.castRingHom ℝ) Int.cast_strictMono).2
    (hbounds.covers hv)

def InRange (e : Extent) : Prop :=
  e.lower.toBlock.InRange ∧ e.upper.toBlock.InRange

theorem Bounds.inRange {vs : Set Block} (hbounds : e.Bounds vs)
    (hvs : ∀ v ∈ vs, v.InRange) :
    e.InRange := by
  obtain ⟨⟨⟨u₁, hu₁, hx₁⟩, -⟩, ⟨v₁, hv₁, hx₂⟩, -⟩ := hbounds.x
  obtain ⟨⟨⟨u₂, hu₂, hy₁⟩, -⟩, ⟨v₂, hv₂, hy₂⟩, -⟩ := hbounds.y
  obtain ⟨⟨⟨u₃, hu₃, hz₁⟩, -⟩, ⟨v₃, hv₃, hz₂⟩, -⟩ := hbounds.z
  simp only [InRange, Vec3.InRange, Words.toBlock, Vec3.map, ← hx₁, ← hx₂, ← hy₁, ← hy₂,
    ← hz₁, ← hz₂]
  exact ⟨⟨(hvs u₁ hu₁).1, (hvs u₂ hu₂).2.1, (hvs u₃ hu₃).2.2⟩,
    ⟨(hvs v₁ hv₁).1, (hvs v₂ hv₂).2.1, (hvs v₃ hv₃).2.2⟩⟩

theorem InRange.of_excludes (he : e.InRange) {q : Block} (hin : e.excludes q = false) :
    q.InRange := by
  obtain ⟨hx, hy, hz⟩ := (excludes_exact_iff e q).1 hin
  obtain ⟨⟨hlx, hly, hlz⟩, hux, huy, huz⟩ := he
  simp only [Words.toBlock, Vec3.map, Int.cast_id] at hx hy hz hlx hly hlz hux huy huz
  exact ⟨by omega, by omega, by omega⟩

/-! ### The box among machine numbers -/

theorem outside_of_holds {x : Float} {n : Int} {low high : Int64} (hx : Binary.Holds x n)
    (hn : n.natAbs < 2 ^ 53) (hlow : low.toInt.natAbs ≤ 2 ^ 16)
    (hhigh : high.toInt.natAbs ≤ 2 ^ 16) : outside x low high = outside n low high := by
  have hleft := less_of_holds hx (holds_ofInt (n := low.toInt) (by omega)) hn (by omega)
  have hright :=
    less_of_holds (holds_ofInt (n := high.toInt) (by omega)) hx (by omega) hn
  exact congrArg₂ or hleft hright

theorem outside_ofInt (n : Int) {low high : Int64} (hlow : low.toInt.natAbs < 2 ^ 53)
    (hhigh : high.toInt.natAbs < 2 ^ 53) :
    outside (Float.ofInt n) low high = outside n low high := by
  have hleft := (less_ofInt n hlow).1
  have hright := (less_ofInt n hhigh).2
  exact congrArg₂ or hleft hright

theorem excludes_of_holds {p : Point} {q : Block} {bound : Nat} (he : e.InRange)
    (hp : p.Holds q bound) (hbound : bound < 2 ^ 53) : e.excludes p = e.excludes q := by
  obtain ⟨⟨hlx, hly, hlz⟩, hux, huy, huz⟩ := he
  rw [excludes, excludes, outside_of_holds hp.x (hp.x_le.trans_lt hbound) hlx hux,
    outside_of_holds hp.y (hp.y_le.trans_lt hbound) hly huy,
    outside_of_holds hp.z (hp.z_le.trans_lt hbound) hlz huz]

theorem excludes_ofBlock (q : Block) (he : e.InRange) :
    e.excludes (Vec3.ofBlock q : Point) = e.excludes q := by
  obtain ⟨⟨hlx, hly, hlz⟩, hux, huy, huz⟩ := he
  have hx := outside_ofInt q.x (hlx.trans_lt (by decide)) (hux.trans_lt (by decide))
  have hy := outside_ofInt q.y (hly.trans_lt (by decide)) (huy.trans_lt (by decide))
  have hz := outside_ofInt q.z (hlz.trans_lt (by decide)) (huz.trans_lt (by decide))
  exact congrArg₂ or (congrArg₂ or hx hy) hz

end Extent

/-! ## Answers of a hull -/

namespace Hull

theorem containsPoint_iff {α : Type} [Scalar α] {sees : Triangle α → Vec3 α → Bool}
    {h : Hull α} {q : Vec3 α} :
    (h.containsPoint sees q).1 = true ↔
      h.faces ≠ [] ∧ h.extent.any (·.excludes q) = false ∧
        ∀ t ∈ h.faces, sees t q = false := by
  rw [containsPoint]
  by_cases hfaces : h.faces = []
  · simp [hfaces]
  · have hsome : h.faces.isEmpty = false := by
      rw [List.isEmpty_eq_false_iff]
      exact hfaces
    rw [hsome, Bool.false_or]
    cases hbox : h.extent.any (·.excludes q) with
    | true => simp
    | false =>
        rw [if_neg Bool.false_ne_true, scan_fst_iff]
        simp [hfaces]

variable {h : Hull Int}

/-! ### Exact answers -/

theorem Boxed.exists_bounds (hbox : h.Boxed []) {v : Block} (hv : v ∈ h.accepted) :
    ∃ e, h.extent = some e ∧ e.Bounds {v | v ∈ h.accepted} := by
  cases he : h.extent with
  | none =>
      have hcounted : h.counted [] = ∅ := by
        rwa [Boxed, he] at hbox
      have hmem : v ∈ h.counted [] := Or.inl hv
      rw [hcounted] at hmem
      exact absurd hmem (Set.notMem_empty v)
  | some e => exact ⟨e, rfl, hbox.bounds he⟩

theorem Solid.mem_solid_vertices_iff (hsolid : h.Solid []) (hsettled : h.Settled)
    {q : Vec3 ℝ} :
    q.place ∈ Block.solid h.vertices ↔ ∀ t ∈ h.faces, t.real.height q ≤ 0 := by
  apply hsolid.convex.mem_solid_iff hsolid.ne_nil
  · intro c hc
    exact mem_vertices_iff.2 (Or.inl (by simpa [counted] using hsolid.corner_mem c hc))
  · intro v hv
    rcases mem_vertices_iff.1 hv with haccepted | hpending
    · exact hsolid.encloses v (Or.inl haccepted)
    · exact hsettled v hpending

theorem Solid.mem_solid_accepted_iff (hsolid : h.Solid []) {q : Vec3 ℝ} :
    q.place ∈ Block.solid h.accepted ↔ ∀ t ∈ h.faces, t.real.height q ≤ 0 := by
  apply hsolid.convex.mem_solid_iff hsolid.ne_nil
  · intro c hc
    simpa [counted] using hsolid.corner_mem c hc
  · intro v hv
    exact hsolid.encloses v (Or.inl hv)

def lift (R : Type) [IntCast R] (h : Hull Int) : Hull R :=
  { h with faces := h.faces.map (Triangle.map (Vec3.map Int.cast)) }

theorem lift_int (h : Hull Int) : h.lift Int = h := by
  have hface : Triangle.map (Vec3.map (Int.cast : Int → Int)) = id := rfl
  rw [lift, hface, List.map_id]

theorem height_lift {R : Type} [CommRing R] {f : R →+* ℝ} (t : Triangle Int)
    (q : Vec3 R) :
    f ((t.map (Vec3.map Int.cast)).height q) = t.real.height (q.map f) := by
  have hcorner : ∀ b : Block, (b.map (Int.cast : Int → R)).map f = b.real := by
    intro b
    simp only [Vec3.map, Vec3.real, map_intCast]
  rw [Triangle.height, ← Vec3.orient_map f]
  simp only [Triangle.map, hcorner]
  rfl

section Exact

variable {R : Type} [CommRing R] [LinearOrder R] [IsStrictOrderedRing R] {f : R →+* ℝ}

/-- In exact arithmetic the half-space tests of a solid hull cut out the convex
hull of its vertices. -/
theorem Solid.above_lift_iff (hsolid : h.Solid []) (hsettled : h.Settled)
    (hf : StrictMono f) (q : Vec3 R) :
    (∀ t ∈ (h.lift R).faces, @Triangle.above R (Scalar.exact R) t q = false) ↔
      (q.map f).place ∈ Block.solid h.vertices := by
  rw [hsolid.mem_solid_vertices_iff hsettled]
  simp only [lift, List.forall_mem_map]
  refine forall₂_congr fun t _ => ?_
  rw [← Bool.not_eq_true, Triangle.above_exact_iff, not_lt, ← height_lift,
    ← hf.le_iff_le, map_zero]

/-- In exact arithmetic a solid hull answers whether a point is in the convex hull of its
vertices: the box excludes none that the half-space tests let pass. -/
theorem Solid.containsPoint_lift_iff (hsolid : h.Solid []) (hsettled : h.Settled)
    (hbox : h.Boxed []) (hf : StrictMono f) (q : Vec3 R) :
    (@containsPoint R (Scalar.exact R) (@Triangle.above R (Scalar.exact R))
      (h.lift R) q).1 = true ↔ (q.map f).place ∈ Block.solid h.vertices := by
  rw [@containsPoint_iff R (Scalar.exact R), hsolid.above_lift_iff hsettled hf]
  constructor
  · exact fun hpassed => hpassed.2.2
  · intro hin
    refine ⟨?_, ?_, hin⟩
    · simpa [lift] using hsolid.ne_nil
    · have hextent : (h.lift R).extent = h.extent := rfl
      rw [hextent]
      cases he : h.extent with
      | none => rfl
      | some e =>
          have haccepted : (q.map f).place ∈ Block.solid h.accepted := by
            rw [hsolid.mem_solid_accepted_iff, ← hsolid.mem_solid_vertices_iff hsettled]
            exact hin
          have hcovers := (hbox.bounds he).covers_of_mem_solid haccepted
          exact (Extent.excludes_exact_iff e q).2 ((Extent.covers_map_iff hf).1 hcovers)

end Exact

theorem Solid.containsPoint_iff (hsolid : h.Solid []) (hsettled : h.Settled)
    (hbox : h.Boxed []) (q : Block) :
    (h.containsPoint Triangle.above q).1 = true ↔
      q.real.place ∈ Block.solid h.vertices := by
  have hcast : StrictMono (Int.castRingHom ℝ) := Int.cast_strictMono
  have hexact := hsolid.containsPoint_lift_iff hsettled hbox hcast q
  rw [lift_int] at hexact
  exact hexact

theorem Solid.above_iff (hsolid : h.Solid []) (hsettled : h.Settled) (q : Block) :
    (∀ t ∈ h.faces, t.above q = false) ↔ q.real.place ∈ Block.solid h.vertices := by
  have hcast : StrictMono (Int.castRingHom ℝ) := Int.cast_strictMono
  have hexact := hsolid.above_lift_iff hsettled hcast q
  rw [lift_int] at hexact
  exact hexact

/-! ### Answers of machine numbers -/

theorem Sound.solid_of_two_lt (hsound : h.Sound) (hlength : 2 < h.faces.length) :
    h.Solid [] ∧ h.Settled := by
  cases hsound.phase with
  | sparse hsparse => simp [hsparse.faces_eq] at hlength
  | flat a b c hflat => simp [hflat.faces_eq, Mesh.flat] at hlength
  | solid hsolid hsettled => exact ⟨hsolid, hsettled⟩

/-- A hull with a mesh has a box, whose corners are in range. -/
theorem Sound.exists_extent (hsound : h.Sound) (hne : h.faces ≠ []) :
    ∃ e, h.extent = some e ∧ e.InRange := by
  obtain ⟨t, ht⟩ := List.exists_mem_of_ne_nil _ hne
  obtain ⟨e, he, hbounds⟩ :=
    hsound.boxed.exists_bounds (hsound.phase.corner_mem t.a (Mesh.a_mem_corners ht))
  refine ⟨e, he, hbounds.inRange fun v hv => ?_⟩
  exact hsound.inRange v (mem_vertices_iff.2 (Or.inl hv))

/-- The triangles see a point that stands for a block in range as they see the block. -/
theorem Sound.above_machine_iff (hsound : h.Sound) {p : Point} {q : Block}
    (hp : p.Holds q (2 ^ 16)) :
    (∀ t ∈ h.machine.faces, t.above p = false) ↔ ∀ t ∈ h.faces, t.above q = false := by
  simp only [machine, Mesh.machine, List.forall_mem_map]
  refine forall₂_congr fun t ht => ?_
  rw [Triangle.above_machine (hsound.faces_inRange t ht) hp]

theorem machine_faces_ne_nil (hne : h.faces ≠ []) : h.machine.faces ≠ [] := by
  simpa [machine, Mesh.machine] using hne

/-- A point that stands for a block in range is answered as the block is over whole
numbers, and the same triangle is remembered. -/
theorem Sound.containsPoint_machine (hsound : h.Sound) {p : Point} {q : Block}
    (hp : p.Holds q (2 ^ 16)) :
    h.machine.containsPoint Triangle.above p =
      ((h.containsPoint Triangle.above q).1,
        (h.containsPoint Triangle.above q).2.machine) := by
  by_cases hne : h.faces = []
  · have hmachine : h.machine.faces = [] := by
      simp [machine, Mesh.machine, hne]
    simp [containsPoint, hne, hmachine]
  · obtain ⟨e, he, hrange⟩ := hsound.exists_extent hne
    have hextent : h.machine.extent = some e := he
    have hempty : h.machine.faces.isEmpty = h.faces.isEmpty := List.isEmpty_map
    rw [containsPoint, containsPoint, hempty, hextent, he, Option.any_some,
      Option.any_some, Extent.excludes_of_holds hrange hp (by norm_num),
      scan_machine hsound.faces_inRange hp]
    split <;> rfl

theorem Sound.containsPoint_of_holds (hsound : h.Sound) {p : Point} {q : Block}
    (hp : p.Holds q (2 ^ 16)) :
    (h.machine.containsPoint Triangle.above p).1 =
      (h.containsPoint Triangle.above q).1 :=
  congrArg Prod.fst (hsound.containsPoint_machine hp)

/-- Blocks out of range are not inside. -/
theorem Sound.inRange_of_containsPoint (hsound : h.Sound) {q : Block}
    (hin : (h.containsPoint Triangle.above q).1 = true) : q.InRange := by
  obtain ⟨hne, hbox, -⟩ := Hull.containsPoint_iff.1 hin
  obtain ⟨e, he, hrange⟩ := hsound.exists_extent hne
  rw [he, Option.any_some] at hbox
  exact hrange.of_excludes hbox

/-- A block out of range and a point that boxes compare like it are both
answered by the box. -/
theorem Sound.containsPoint_of_excludes (hsound : h.Sound) {p : Point} {q : Block}
    (hagree : ∀ e : Extent, e.InRange → e.excludes p = e.excludes q) (hq : ¬q.InRange) :
    (h.machine.containsPoint Triangle.above p).1 =
      (h.containsPoint Triangle.above q).1 := by
  have hexact : (h.containsPoint Triangle.above q).1 = false := by
    rw [Bool.eq_false_iff]
    exact fun hin => hq (hsound.inRange_of_containsPoint hin)
  rw [hexact, Bool.eq_false_iff]
  intro hin
  obtain ⟨hne, hbox, -⟩ := Hull.containsPoint_iff.1 hin
  have hne' : h.faces ≠ [] := by
    rintro heq
    exact hne (by simp [machine, Mesh.machine, heq])
  obtain ⟨e, he, hrange⟩ := hsound.exists_extent hne'
  have hextent : h.machine.extent = some e := he
  rw [hextent, Option.any_some, hagree e hrange] at hbox
  exact hq (hrange.of_excludes hbox)

/-- A point that stands for a block of exact coordinates is answered as the block is,
also if it is not in range. -/
theorem Sound.containsPoint_of_holds_of_lt (hsound : h.Sound) {p : Point} {q : Block}
    {bound : Nat} (hp : p.Holds q bound) (hbound : bound < 2 ^ 53) :
    (h.machine.containsPoint Triangle.above p).1 =
      (h.containsPoint Triangle.above q).1 := by
  by_cases hq : q.InRange
  · exact hsound.containsPoint_of_holds ⟨hp.x, hp.y, hp.z, hq.1, hq.2.1, hq.2.2⟩
  · exact hsound.containsPoint_of_excludes
      (fun e hrange => Extent.excludes_of_holds hrange hp hbound) hq

/-- A block of any size is answered as it is over whole numbers. -/
theorem Sound.containsPoint_ofBlock (hsound : h.Sound) (q : Block) :
    (h.machine.containsPoint Triangle.above (Vec3.ofBlock q)).1 =
      (h.containsPoint Triangle.above q).1 := by
  by_cases hq : q.InRange
  · exact hsound.containsPoint_of_holds (Vec3.holds_ofBlock hq)
  · exact hsound.containsPoint_of_excludes
      (fun e hrange => Extent.excludes_ofBlock q hrange) hq

end Hull

namespace Hull

/-!
## Hulls of lists of lattice points

A hull that lattice points in range are added to, one after another, is sound, has these
points for its vertices, and is one of the reachable hulls.
-/

variable {h : Hull Int} {v : Block}

def addBlocks (h : Hull Int) (vs : List Block) : Hull Int :=
  vs.foldl (fun h v => (h.addBlock Triangle.above v).2) h

theorem addBlocks_cons (h : Hull Int) (v : Block) (vs : List Block) :
    h.addBlocks (v :: vs) = (h.addBlock Triangle.above v).2.addBlocks vs := rfl

theorem Sound.addBlock_eq (hsound : h.Sound) (hv : v.InRange) :
    ∃ new, h.addBlock Triangle.above v = (.ok new, (h.addBlock Triangle.above v).2) := by
  obtain ⟨new, last, hadd⟩ :
      ∃ new last, h.addBlock Triangle.above v = (.ok new, last) := by
    apply addBlock_ok (toWords?_isSome_of_inRange hv)
    exact fun x hx => toWords?_isSome_of_inRange
      (hsound.inRange x (mem_vertices_iff.2 (Or.inr hx)))
  exact ⟨new, by rw [hadd]⟩

theorem Sound.add_eq (hsound : h.Sound) {d : Datum} (hread : Block.ofDatum d = .ok v)
    (hv : v.InRange) :
    ∃ new, h.machine.add d = (.ok new, (h.addBlock Triangle.above v).2.machine) := by
  obtain ⟨new, hadd⟩ := hsound.addBlock_eq hv
  refine ⟨new, ?_⟩
  rw [Hull.add, hread]
  change h.machine.addBlock Triangle.above v = _
  rw [addBlock_machine (hsound.ranged_insert hv), hadd]

theorem Sound.add_inRange (hsound : h.Sound) {d : Datum}
    (hread : Block.ofDatum d = .ok v) (hv : v.InRange) :
    (h.machine.add d).2.InRange := by
  obtain ⟨new, hblock⟩ := hsound.addBlock_eq hv
  obtain ⟨new', hadd⟩ := hsound.add_eq hread hv
  rw [hadd]
  exact (hsound.addBlock hv hblock).inRange

theorem Sound.add_toDatum (hsound : h.Sound) (hv : v.InRange) :
    ∃ new, h.machine.add v.toDatum =
      (.ok new, (h.addBlock Triangle.above v).2.machine) := by
  obtain ⟨hx, hy, hz⟩ := hv
  exact hsound.add_eq (Block.ofDatum_toDatum (by omega) (by omega) (by omega))
    ⟨hx, hy, hz⟩

/-- What no addition of a block in range breaks holds after all of them. -/
theorem Sound.addBlocks_induction {P : Hull Int → Prop} {vs : List Block}
    (hsound : h.Sound) (hstart : P h) (hvs : ∀ v ∈ vs, v.InRange)
    (hstep : ∀ (g next : Hull Int) (v : Block) (new : Bool), g.Sound → P g → v.InRange →
      g.addBlock Triangle.above v = (.ok new, next) → P next) : P (h.addBlocks vs) := by
  induction vs generalizing h with
  | nil => exact hstart
  | cons v vs ih =>
      obtain ⟨hv, hrest⟩ := List.forall_mem_cons.1 hvs
      obtain ⟨new, hadd⟩ := hsound.addBlock_eq hv
      exact ih (hsound.addBlock hv hadd) (hstep _ _ _ _ hsound hstart hv hadd) hrest

theorem Sound.addBlocks {vs : List Block} (hsound : h.Sound)
    (hvs : ∀ v ∈ vs, v.InRange) :
    (h.addBlocks vs).Sound := by
  refine hsound.addBlocks_induction hsound hvs ?_
  intro g next v new hg _ hv hadd
  exact hg.addBlock hv hadd

theorem Sound.mem_vertices_addBlocks {vs : List Block} (hsound : h.Sound)
    (hvs : ∀ v ∈ vs, v.InRange) {x : Block} :
    x ∈ (h.addBlocks vs).vertices ↔ x ∈ h.vertices ∨ x ∈ vs := by
  induction vs generalizing h with
  | nil => simp [Hull.addBlocks]
  | cons v vs ih =>
      obtain ⟨hv, hrest⟩ := List.forall_mem_cons.1 hvs
      obtain ⟨new, hadd⟩ := hsound.addBlock_eq hv
      rw [addBlocks_cons, ih (hsound.addBlock hv hadd) hrest, addBlock_vertices hadd,
        List.mem_cons, or_assoc]

/-- Adding data that are read as blocks in range leads to the hull of these blocks. -/
theorem Sound.addAll_map {vs : List Block} {f : Block → Datum} (hsound : h.Sound)
    (hvs : ∀ v ∈ vs, v.InRange) (hread : ∀ v ∈ vs, Block.ofDatum (f v) = .ok v) :
    addAll h.machine (vs.map f) = .ok (h.addBlocks vs).machine := by
  induction vs generalizing h with
  | nil => rfl
  | cons v vs ih =>
      obtain ⟨hv, hrest⟩ := List.forall_mem_cons.1 hvs
      obtain ⟨hreadv, hreadrest⟩ := List.forall_mem_cons.1 hread
      obtain ⟨new, hadd⟩ := hsound.addBlock_eq hv
      obtain ⟨new', hmachine⟩ := hsound.add_eq hreadv hv
      rw [List.map_cons, addAll, hmachine]
      exact ih (hsound.addBlock hv hadd) hrest hreadrest

/-- The hull of a list of lattice points, each given as a list of three whole numbers. -/
theorem ofDatum_blocks {vs : List Block} (hvs : ∀ v ∈ vs, v.InRange) :
    ofDatum (.list (vs.map Block.toDatum)) = .ok (empty.addBlocks vs).machine := by
  refine sound_empty.addAll_map hvs fun v hv => ?_
  obtain ⟨hx, hy, hz⟩ := hvs v hv
  exact Block.ofDatum_toDatum (by omega) (by omega) (by omega)

/-- Every list of lattice points in range leads to a reachable hull. -/
theorem reachable_blocks {vs : List Block} (hvs : ∀ v ∈ vs, v.InRange) :
    Reachable (empty.addBlocks vs).machine := by
  have hstart : Reachable (machine empty) := Reachable.start
  refine sound_empty.addBlocks_induction (P := fun g => Reachable g.machine)
    hstart hvs ?_
  intro g next v new hg hreach hv hadd
  obtain ⟨new', hmachine⟩ := hg.add_toDatum hv
  have hafter : g.machine.after (.add v.toDatum) = next.machine := by
    rw [after, hmachine, hadd]
  have hcall := hreach.call (.add v.toDatum) (by
    rw [hafter]
    exact (hg.addBlock hv hadd).inRange)
  rwa [hafter] at hcall

def square : List Block :=
  [⟨0, 0, 0⟩, ⟨4, 0, 0⟩, ⟨0, 4, 0⟩, ⟨4, 4, 0⟩]

def pyramid : List Block :=
  square ++ [⟨0, 0, 4⟩]

/-! ## Answers and membership -/

def rational (h : Hull Float) : Hull ℚ :=
  { h with faces := h.faces.map (Triangle.map (Vec3.map Binary.toRat)) }

variable {h : Hull Int}

theorem machine_rational (hfaces : h.faces.InRange) : h.machine.rational = h.lift ℚ := by
  have hcorner : ∀ c : Block, c.InRange →
      (Vec3.ofBlock c : Point).map Binary.toRat = c.map Int.cast := by
    intro c hc
    obtain ⟨hx, hy, hz⟩ := hc
    exact Vec3.ext (Binary.toRat_ofInt (by omega)) (Binary.toRat_ofInt (by omega))
      (Binary.toRat_ofInt (by omega))
  have hmesh : h.machine.faces.map (Triangle.map (Vec3.map Binary.toRat)) =
      h.faces.map (Triangle.map (Vec3.map (Int.cast : Int → ℚ))) := by
    simp only [machine, Mesh.machine, List.map_map]
    refine List.map_congr_left fun t ht => ?_
    simp only [Function.comp_apply, Triangle.machine, Triangle.map, Triangle.mk.injEq]
    exact Triangle.forall_mem_corners.1 fun c hc => hcorner c (hfaces t ht c hc)
  rw [rational, hmesh]
  rfl

/-- A finite point is read and then looked for. -/
theorem contains_of_read (hne : h.faces ≠ []) {d : Datum} {p : Point}
    (hread : Point.ofDatum d = .ok p) (hfinite : p.isFinite = true) :
    h.machine.contains d = (.ok (h.machine.containsPoint Triangle.above p).1,
      (h.machine.containsPoint Triangle.above p).2) := by
  have hdefined : h.machine.isDefined = true := by
    simpa [isDefined, machine, Mesh.machine] using hne
  rw [contains, hdefined, hread]
  simp only [Bool.not_true, Bool.false_eq_true, if_false, hfinite, if_true]

theorem isFinite_of_holds {p : Point} {q : Block} {bound : Nat} (hp : p.Holds q bound) :
    p.isFinite = true := by
  simp only [Point.isFinite, Vec3.all, Bool.and_eq_true]
  exact ⟨⟨Binary.isFinite_of_holds hp.x, Binary.isFinite_of_holds hp.y⟩,
    Binary.isFinite_of_holds hp.z⟩

/-- A point that is read as one of the lattice is answered as the lattice point is. -/
theorem Sound.contains_machine (hsound : h.Sound) (hne : h.faces ≠ []) {d : Datum}
    {p : Point} {q : Block} (hread : Point.ofDatum d = .ok p)
    (heq : (p == Vec3.ofBlock q) = true) (hq : q.InRange) :
    h.machine.contains d =
      (.ok (h.containsPoint Triangle.above q).1,
        (h.containsPoint Triangle.above q).2.machine) := by
  have hholds := Vec3.holds_of_beq hq heq
  rw [contains_of_read hne hread (isFinite_of_holds hholds),
    hsound.containsPoint_machine hholds]

theorem Sound.contains_of_beq (hsound : h.Sound) (hne : h.faces ≠ []) {d : Datum}
    {p : Point} {q : Block} (hread : Point.ofDatum d = .ok p)
    (heq : (p == Vec3.ofBlock q) = true) (hq : q.InRange) :
    (h.machine.contains d).1 = .ok (h.containsPoint Triangle.above q).1 :=
  congrArg Prod.fst (hsound.contains_machine hne hread heq hq)

/-- Once the mesh of a reachable hull has more than two triangles, a lattice point in
range is inside if and only if it lies in the convex hull of the vertices, and that is
so if and only if no triangle sees it.  The same holds of points with fractional
coordinates in exact arithmetic. -/
theorem Reachable.contains_iff_mem_solid {h : Hull Float} (hreach : Reachable h)
    (hmesh : 2 < h.faces.length) :
    (∀ (d : Datum) (p : Point) (q : Block), Point.ofDatum d = .ok p →
      (p == Vec3.ofBlock q) = true → q.InRange →
        (∃ inside, (h.contains d).1 = .ok inside ∧
          (inside = true ↔ q.real.place ∈ Block.solid h.vertices)) ∧
        (q.real.place ∈ Block.solid h.vertices ↔ ∀ t ∈ h.faces, t.above p = false)) ∧
    ∀ q : Vec3 ℚ,
      ((h.rational.containsPoint Triangle.above q).1 = true ↔
        (q.map Rat.cast).place ∈ Block.solid h.vertices) ∧
      ((q.map Rat.cast).place ∈ Block.solid h.vertices ↔
        ∀ t ∈ h.rational.faces, t.above q = false) := by
  obtain ⟨g, hsound, rfl⟩ := hreach.exists_sound
  have hlength : 2 < g.faces.length := by
    rwa [length_faces_machine] at hmesh
  obtain ⟨hsolid, hsettled⟩ := hsound.solid_of_two_lt hlength
  constructor
  · intro d p q hread heq hq
    have hholds := Vec3.holds_of_beq hq heq
    refine ⟨⟨_, hsound.contains_of_beq hsolid.ne_nil hread heq hq, ?_⟩, ?_⟩
    · exact hsolid.containsPoint_iff hsettled hsound.boxed q
    · rw [hsound.above_machine_iff hholds, hsolid.above_iff hsettled q]
      exact Iff.rfl
  · intro q
    rw [machine_rational hsound.faces_inRange]
    have hcast : StrictMono (Rat.castHom ℝ) := Rat.cast_strictMono
    exact ⟨hsolid.containsPoint_lift_iff hsettled hsound.boxed hcast q,
      (hsolid.above_lift_iff hsettled hcast q).symm⟩

theorem contains_iff_mem_solid_pyramid :
    Reachable (empty.addBlocks pyramid).machine ∧
      2 < (empty.addBlocks pyramid).machine.faces.length ∧
      ((empty.addBlocks pyramid).machine.contains (Block.toDatum ⟨1, 1, 1⟩)).1 =
        .ok true ∧
      (Vec3.real ⟨1, 1, 1⟩).place ∈
        Block.solid (empty.addBlocks pyramid).machine.vertices ∧
      (((empty.addBlocks pyramid).machine.rational.containsPoint Triangle.above
          ⟨1 / 2, 1 / 2, 1 / 3⟩).1 = true ↔
        (Vec3.map Rat.cast (⟨1 / 2, 1 / 2, 1 / 3⟩ : Vec3 ℚ)).place ∈
          Block.solid (empty.addBlocks pyramid).machine.vertices) := by
  have hreach : Reachable (empty.addBlocks pyramid).machine :=
    reachable_blocks (by decide)
  have hlength : (empty.addBlocks pyramid).faces.length = 6 := by cbv
  have hmesh : 2 < (empty.addBlocks pyramid).machine.faces.length := by
    rw [length_faces_machine, hlength]
    decide
  have hread :
      Point.ofDatum (Block.toDatum ⟨1, 1, 1⟩) = .ok (Vec3.ofBlock ⟨1, 1, 1⟩) := by
    rw [Block.pointOfDatum_toDatum, if_pos (by decide)]
  have hinside :
      ((empty.addBlocks pyramid).machine.contains (Block.toDatum ⟨1, 1, 1⟩)).1 =
      .ok true := by
    have hsound : (empty.addBlocks pyramid).Sound := sound_empty.addBlocks (by decide)
    have hne : (empty.addBlocks pyramid).faces ≠ [] :=
      List.ne_nil_of_length_pos (by omega)
    rw [hsound.contains_of_beq (q := ⟨1, 1, 1⟩) hne hread (by decide) (by decide)]
    cbv
  obtain ⟨hlattice, hfraction⟩ := hreach.contains_iff_mem_solid hmesh
  obtain ⟨⟨inside, hanswer, hiff⟩, -⟩ :=
    hlattice (Block.toDatum ⟨1, 1, 1⟩) (Vec3.ofBlock ⟨1, 1, 1⟩) ⟨1, 1, 1⟩ hread
      (by decide)
      (by decide)
  rw [hinside, Except.ok.injEq] at hanswer
  exact ⟨hreach, hmesh, hinside, hiff.1 hanswer.symm, (hfraction _).1⟩

end Hull
end LatticeHull
