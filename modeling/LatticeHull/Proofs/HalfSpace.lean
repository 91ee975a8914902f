import LatticeHull.Proofs.Collinear
import LatticeHull.Proofs.Exact
import LatticeHull.Proofs.Mesh.Convex

/-!
# Half-space tests of machine numbers

On small blocks nothing is rounded: every number that a half-space test meets is a whole
number below `2 ^ 53`, and the answer is the sign of a determinant.  So the answers do
not depend on the corner that a triangle starts from or on the place where it stands, and
they change sides if two corners change places.

The second part is about one edge of a convex mesh, with a triangle on either side
of it.  A point that is above the triangle before the edge and not above the one
behind it spans a new triangle with the edge, and that triangle has nothing above it
that neither of the two has.
-/

namespace LatticeHull

open Binary

namespace Vec3

theorem Holds.add {p d : Point} {b v : Block} {m n : Nat} (hp : p.Holds b m)
    (hd : d.Holds v n) (hsum : (b + v).InRange) : (p + d).Holds (b + v) (2 ^ 16) := by
  obtain ⟨hx, hy, hz⟩ := hsum
  exact ⟨holds_add hp.x hd.x (hx.trans_lt (by norm_num)),
    holds_add hp.y hd.y (hy.trans_lt (by norm_num)),
    holds_add hp.z hd.z (hz.trans_lt (by norm_num)), hx, hy, hz⟩

end Vec3

namespace Triangle

/-! ### Corners in another order -/

section Orders

variable {α : Type}

def rotations (t : Triangle α) : List (Triangle α) :=
  [t, ⟨t.b, t.c, t.a⟩, ⟨t.c, t.a, t.b⟩]

/-- The triangle with two corners in each other's place. -/
def swaps (t : Triangle α) : List (Triangle α) :=
  [⟨t.b, t.a, t.c⟩, ⟨t.a, t.c, t.b⟩, ⟨t.c, t.b, t.a⟩]

variable {R : Type} [CommRing R] {t u : Triangle R}

theorem height_of_mem_rotations (hu : u ∈ t.rotations) (p : Vec3 R) :
    u.height p = t.height p := by
  simp only [rotations, List.mem_cons, List.not_mem_nil, or_false] at hu
  rcases hu with rfl | rfl | rfl
  · rfl
  · exact Vec3.orient_rotate ..
  · exact (Vec3.orient_rotate t.c t.a t.b p).symm

theorem height_of_mem_swaps (hu : u ∈ t.swaps) (p : Vec3 R) :
    u.height p = -t.height p := by
  simp only [swaps, List.mem_cons, List.not_mem_nil, or_false] at hu
  simp only [height]
  rcases hu with rfl | rfl | rfl
  · exact Vec3.orient_swap ..
  · rw [← Vec3.orient_rotate, Vec3.orient_swap, Vec3.orient_rotate]
  · rw [Vec3.orient_swap, Vec3.orient_rotate]

end Orders

/-! ### Answers as signs -/

theorem below_iff (t : Triangle Int) (p : Block) : t.below p = true ↔ t.height p < 0 :=
  below_exact_iff t p

namespace Holds

variable {T U : Triangle Float} {t u : Triangle Int} {p p' : Point} {q q' : Block}

theorem above_iff (hT : T.Holds t) (hp : p.Holds q (2 ^ 16)) :
    T.above p = true ↔ 0 < t.height q := by
  rw [hT.above_eq hp, Triangle.above_iff]

theorem below_iff (hT : T.Holds t) (hp : p.Holds q (2 ^ 16)) :
    T.below p = true ↔ t.height q < 0 := by
  rw [hT.below_eq hp, Triangle.below_iff]

theorem above_eq_false_iff (hT : T.Holds t) (hp : p.Holds q (2 ^ 16)) :
    T.above p = false ↔ t.height q ≤ 0 := by
  rw [hT.above_eq hp, Triangle.above_eq_false_iff]

/-- Points at the same height have the same answers. -/
theorem answers_of_height_eq (hT : T.Holds t) (hp : p.Holds q (2 ^ 16)) (hU : U.Holds u)
    (hp' : p'.Holds q' (2 ^ 16)) (heq : u.height q' = t.height q) :
    U.above p' = T.above p ∧ U.below p' = T.below p := by
  simp only [Bool.eq_iff_iff, hT.above_iff hp, hT.below_iff hp, hU.above_iff hp',
    hU.below_iff hp', heq, and_self]

/-- Points at opposite heights have opposite answers. -/
theorem answers_of_height_eq_neg (hT : T.Holds t) (hp : p.Holds q (2 ^ 16))
    (hU : U.Holds u) (hp' : p'.Holds q' (2 ^ 16)) (heq : u.height q' = -t.height q) :
    U.above p' = T.below p ∧ U.below p' = T.above p := by
  simp only [Bool.eq_iff_iff, hT.above_iff hp, hT.below_iff hp, hU.above_iff hp',
    hU.below_iff hp', heq, Left.neg_pos_iff, Left.neg_neg_iff, and_self]

theorem exists_of_mem_rotations (hT : T.Holds t) (hU : U ∈ T.rotations) :
    ∃ u ∈ t.rotations, U.Holds u := by
  simp only [rotations, List.mem_cons, List.not_mem_nil, or_false] at hU
  simp only [rotations, List.exists_mem_cons_iff]
  rcases hU with rfl | rfl | rfl
  · exact Or.inl hT
  · exact Or.inr (Or.inl ⟨hT.b, hT.c, hT.a⟩)
  · exact Or.inr (Or.inr (Or.inl ⟨hT.c, hT.a, hT.b⟩))

theorem exists_of_mem_swaps (hT : T.Holds t) (hU : U ∈ T.swaps) :
    ∃ u ∈ t.swaps, U.Holds u := by
  simp only [swaps, List.mem_cons, List.not_mem_nil, or_false] at hU
  simp only [swaps, List.exists_mem_cons_iff]
  rcases hU with rfl | rfl | rfl
  · exact Or.inl ⟨hT.b, hT.a, hT.c⟩
  · exact Or.inr (Or.inl ⟨hT.a, hT.c, hT.b⟩)
  · exact Or.inr (Or.inr (Or.inl ⟨hT.c, hT.b, hT.a⟩))

theorem moveBy (hT : T.Holds t) {d : Point} {v : Block} {n : Nat} (hd : d.Holds v n)
    (hmoved : (t.moveBy v).InRange) : (T.moveBy d).Holds (t.moveBy v) := by
  obtain ⟨ha, hb, hc⟩ := forall_mem_corners.1 hmoved
  exact ⟨hT.a.add hd ha, hT.b.add hd hb, hT.c.add hd hc⟩

/-- All corners are at the same height along the normal, also as machine
numbers compute it. -/
theorem dot_corner_eq (hT : T.Holds t) :
    (T.normal.dot T.b == T.normal.dot T.a) = true ∧
      (T.normal.dot T.c == T.normal.dot T.a) = true := by
  have hab : t.normal.dot t.b = t.normal.dot t.a := (offset_exact t t.a).1
  have hac : t.normal.dot t.c = t.normal.dot t.a := (offset_exact t t.a).2.1
  obtain ⟨ha, ha_lt⟩ := hT.dot_value hT.a
  obtain ⟨hb, hb_lt⟩ := hT.dot_value hT.b
  obtain ⟨hc, hc_lt⟩ := hT.dot_value hT.c
  rw [beq_of_holds hb ha hb_lt ha_lt, beq_of_holds hc ha hc_lt ha_lt, hab, hac]
  exact ⟨beq_self_eq_true _, beq_self_eq_true _⟩

theorem exact_steps (hT : T.Holds t) (hp : p.Holds q (2 ^ 16)) :
    ∀ x ∈ T.steps p, IsExact x := by
  intro x hx
  rcases List.mem_cons.1 hx with rfl | hx
  · exact ⟨t.offset, hT.offset⟩
  · obtain ⟨r, hr, hmem⟩ := List.mem_flatMap.1 hx
    simp only [corners, List.cons_append, List.nil_append, List.mem_cons,
      List.not_mem_nil, or_false] at hr
    rcases hr with rfl | rfl | rfl | rfl
    · exact (hT.dot hT.a).exact x hmem
    · exact (hT.dot hT.b).exact x hmem
    · exact (hT.dot hT.c).exact x hmem
    · exact (hT.dot hp).exact x hmem

/-- On small blocks the half-space tests meet whole numbers below `2 ^ 53` only, the
corners are all at the greatest height, and the answers are the signs of a determinant.
So they are the same from every corner onwards and wherever the triangle is moved
together with the point, they change sides if two corners change places, and a triangle
with its corners on a line has nothing above or below. -/
theorem halfSpace_exact (hT : T.Holds t) (hp : p.Holds q (2 ^ 16)) :
    (∀ x ∈ T.steps p, IsExact x) ∧
      ((T.normal.dot T.b == T.normal.dot T.a) = true ∧
        (T.normal.dot T.c == T.normal.dot T.a) = true) ∧
      ((T.above p = true ↔ 0 < Vec3.det (t.b - t.a) (t.c - t.a) (q - t.a)) ∧
        (T.below p = true ↔ Vec3.det (t.b - t.a) (t.c - t.a) (q - t.a) < 0)) ∧
      (∀ U ∈ T.rotations, U.above p = T.above p ∧ U.below p = T.below p) ∧
      (∀ (d : Point) (v : Block) (n : Nat), d.Holds v n → (t.moveBy v).InRange →
        (q + v).InRange →
        (T.moveBy d).above (p + d) = T.above p ∧
          (T.moveBy d).below (p + d) = T.below p) ∧
      (∀ U ∈ T.swaps, U.above p = T.below p ∧ U.below p = T.above p) ∧
      (Collinear ℝ {t.a.real.place, t.b.real.place, t.c.real.place} →
        T.above p = false ∧ T.below p = false) := by
  refine ⟨hT.exact_steps hp, hT.dot_corner_eq, ⟨hT.above_iff hp, hT.below_iff hp⟩, ?_,
    ?_, ?_, ?_⟩
  · intro U hU
    obtain ⟨u, hu, hUu⟩ := hT.exists_of_mem_rotations hU
    exact hT.answers_of_height_eq hp hUu hp (height_of_mem_rotations hu q)
  · intro d v n hd hmoved hq
    exact hT.answers_of_height_eq hp (hT.moveBy hd hmoved) (hp.add hd hq)
      (height_moveBy t v q)
  · intro U hU
    obtain ⟨u, hu, hUu⟩ := hT.exists_of_mem_swaps hU
    exact hT.answers_of_height_eq_neg hp hUu hp (height_of_mem_swaps hu q)
  · intro hcollinear
    have hzero : t.height q = 0 := Block.collinear_iff.1 hcollinear q
    rw [Bool.eq_false_iff, Bool.eq_false_iff, Ne, Ne, hT.above_iff hp,
      hT.below_iff hp, hzero]
    exact ⟨lt_irrefl 0, lt_irrefl 0⟩

end Holds

/-- A triangle that spans the whole range, with a zero of either sign. -/
def ramp : Triangle Float :=
  ⟨⟨-65536, -65536, -0.0⟩, ⟨65536, -65536, 65536⟩, ⟨-65536, 65536, 0⟩⟩

/-- A triangle with its corners on a line. -/
def needle : Triangle Float :=
  ⟨⟨0, 0, 0⟩, ⟨1, 2, 3⟩, ⟨-2, -4, -6⟩⟩

/-- The corners of the ramp and a point above it, the ramp from another corner onwards,
moved and turned over, and a point beside the needle. -/
theorem halfSpace_exact_ramp :
    ramp.Holds ⟨⟨-65536, -65536, 0⟩, ⟨65536, -65536, 65536⟩, ⟨-65536, 65536, 0⟩⟩ ∧
      (⟨-65536, 0, 65536⟩ : Point).Holds ⟨-65536, 0, 65536⟩ (2 ^ 16) ∧
      (∀ x ∈ ramp.steps ⟨-65536, 0, 65536⟩, IsExact x) ∧
      ramp.above ⟨-65536, 0, 65536⟩ = true ∧
      (⟨ramp.b, ramp.c, ramp.a⟩ : Triangle Float).above ⟨-65536, 0, 65536⟩ = true ∧
      (ramp.moveBy ⟨0, 0, -65536⟩).above (⟨-65536, 0, 65536⟩ + ⟨0, 0, -65536⟩) = true ∧
      (⟨ramp.b, ramp.a, ramp.c⟩ : Triangle Float).below ⟨-65536, 0, 65536⟩ = true ∧
      (needle.above ⟨5, -7, 11⟩ = false ∧ needle.below ⟨5, -7, 11⟩ = false) := by
  have hramp :
      ramp.Holds ⟨⟨-65536, -65536, 0⟩, ⟨65536, -65536, 65536⟩, ⟨-65536, 65536, 0⟩⟩ :=
    ⟨Vec3.holds_of_beq (by decide) (by decide),
      Vec3.holds_of_beq (by decide) (by decide),
      Vec3.holds_of_beq (by decide) (by decide)⟩
  have hneedle : needle.Holds ⟨⟨0, 0, 0⟩, ⟨1, 2, 3⟩, ⟨-2, -4, -6⟩⟩ :=
    ⟨Vec3.holds_of_beq (by decide) (by decide),
      Vec3.holds_of_beq (by decide) (by decide),
      Vec3.holds_of_beq (by decide) (by decide)⟩
  have hcorner : (⟨-65536, 0, 65536⟩ : Point).Holds ⟨-65536, 0, 65536⟩ (2 ^ 16) :=
    Vec3.holds_of_beq (by decide) (by decide)
  have hpoint : (⟨5, -7, 11⟩ : Point).Holds ⟨5, -7, 11⟩ (2 ^ 16) :=
    Vec3.holds_of_beq (by decide) (by decide)
  have hstride : (⟨0, 0, -65536⟩ : Point).Holds ⟨0, 0, -65536⟩ (2 ^ 16) :=
    Vec3.holds_of_beq (by decide) (by decide)
  obtain ⟨hsteps, -, ⟨habove, -⟩, hrotate, hmove, hswap, -⟩ :=
    Holds.halfSpace_exact hramp hcorner
  obtain ⟨-, -, -, -, -, -, hline⟩ := Holds.halfSpace_exact hneedle hpoint
  have hsees : ramp.above ⟨-65536, 0, 65536⟩ = true := habove.2 (by decide)
  refine ⟨hramp, hcorner, hsteps, hsees, ?_, ?_, ?_, hline (Block.collinear_iff.2 ?_)⟩
  · exact (hrotate _ (by simp [rotations])).1.trans hsees
  · exact (hmove _ _ _ hstride (by decide) (by decide)).1.trans hsees
  · exact (hswap _ (by simp [swaps])).2.trans hsees
  · intro p
    simp only [Vec3.orient, Vec3.det, Vec3.sub_x, Vec3.sub_y, Vec3.sub_z]
    ring

end Triangle

/-! ### Cones -/

namespace Edge

/-- One triangle lies before an edge and sees the apex, another one lies behind it, bends
away from the first and does not see the apex.  Then the cone from the edge to the apex
joins the two ends of the edge to the apex, has its corners on no line, and sees nothing
that neither of the two sees. -/
theorem cone_outward {start stop front back apex : Point} {s t f g p : Block}
    (hfront : Triangle.Holds ⟨start, stop, front⟩ ⟨s, t, f⟩)
    (hback : Triangle.Holds ⟨stop, start, back⟩ ⟨t, s, g⟩)
    (hapex : apex.Holds p (2 ^ 16))
    (hleans : Triangle.below ⟨start, stop, front⟩ back = true)
    (hsees : Triangle.above ⟨start, stop, front⟩ apex = true)
    (hmisses : Triangle.above ⟨stop, start, back⟩ apex = false) :
    (Edge.cone ⟨start, stop⟩ apex).Holds ⟨s, t, p⟩ ∧
      ¬Collinear ℝ {s.real.place, t.real.place, p.real.place} ∧
      (∀ (v : Point) (b : Block), v.Holds b (2 ^ 16) →
        Triangle.above ⟨start, stop, front⟩ v = false →
        Triangle.above ⟨stop, start, back⟩ v = false →
        (Edge.cone ⟨start, stop⟩ apex).above v = false) ∧
      (Edge.cone ⟨start, stop⟩ apex).above front = false ∧
      (Edge.cone ⟨start, stop⟩ apex).above back = false := by
  have hcone : (Edge.cone ⟨start, stop⟩ apex).Holds ⟨s, t, p⟩ :=
    ⟨hfront.a, hfront.b, hapex⟩
  have hg : Vec3.orient s t f g < 0 := (hfront.below_iff hback.c).1 hleans
  have hp : 0 < Vec3.orient s t f p := (hfront.above_iff hapex).1 hsees
  have hp' : Vec3.orient t s g p ≤ 0 := (hback.above_eq_false_iff hapex).1 hmisses
  have hvolume : Vec3.orient s t p f < 0 := by
    rw [Vec3.orient_swap_last]
    exact neg_neg_of_pos hp
  have hheight : ∀ b, Vec3.orient s t f b ≤ 0 → Vec3.orient t s g b ≤ 0 →
      Vec3.orient s t p b ≤ 0 := fun b hb hb' =>
    Vec3.nonpos_of_exchange (Vec3.orient_exchange s t f g p b) hg hb hb' hp.le hp'
  refine ⟨hcone, ?_, ?_, ?_, ?_⟩
  · intro hcollinear
    exact hvolume.ne (Block.collinear_iff.1 hcollinear f)
  · intro v b hv hfree hfree'
    exact (hcone.above_eq_false_iff hv).2
      (hheight b ((hfront.above_eq_false_iff hv).1 hfree)
        ((hback.above_eq_false_iff hv).1 hfree'))
  · exact (hcone.above_eq_false_iff hfront.c).2 hvolume.le
  · exact (hcone.above_eq_false_iff hback.c).2
      (hheight g hg.le (Vec3.orient_last t s g).le)

/-- Half of the lid of a box, with a zero of either sign. -/
def lid : Triangle Float :=
  ⟨⟨1, 0, 0⟩, ⟨1, 1, 0⟩, ⟨0, 0, -0.0⟩⟩

/-- Half of a side of the box, behind an edge of its lid. -/
def side : Triangle Float :=
  ⟨⟨1, 1, 0⟩, ⟨1, 0, 0⟩, ⟨1, 0, -1⟩⟩

/-- The edge of a box between its lid, which the apex sees, and a side whose
plane holds the apex. -/
theorem cone_outward_lid :
    (lid.below side.c = true ∧ lid.above ⟨1, 2, 3⟩ = true ∧
      side.above ⟨1, 2, 3⟩ = false) ∧
      (Edge.cone ⟨lid.a, lid.b⟩ ⟨1, 2, 3⟩).Holds ⟨⟨1, 0, 0⟩, ⟨1, 1, 0⟩, ⟨1, 2, 3⟩⟩ ∧
      ¬Collinear ℝ {(⟨1, 0, 0⟩ : Block).real.place, (⟨1, 1, 0⟩ : Block).real.place,
          (⟨1, 2, 3⟩ : Block).real.place} ∧
      (Edge.cone ⟨lid.a, lid.b⟩ ⟨1, 2, 3⟩).above ⟨-4, 7, -1⟩ = false ∧
      (Edge.cone ⟨lid.a, lid.b⟩ ⟨1, 2, 3⟩).above lid.c = false ∧
      (Edge.cone ⟨lid.a, lid.b⟩ ⟨1, 2, 3⟩).above side.c = false := by
  have hlid : lid.Holds ⟨⟨1, 0, 0⟩, ⟨1, 1, 0⟩, ⟨0, 0, 0⟩⟩ :=
    ⟨Vec3.holds_of_beq (by decide) (by decide),
      Vec3.holds_of_beq (by decide) (by decide),
      Vec3.holds_of_beq (by decide) (by decide)⟩
  have hside : side.Holds ⟨⟨1, 1, 0⟩, ⟨1, 0, 0⟩, ⟨1, 0, -1⟩⟩ :=
    ⟨hlid.b, hlid.a, Vec3.holds_of_beq (by decide) (by decide)⟩
  have hapex : (⟨1, 2, 3⟩ : Point).Holds ⟨1, 2, 3⟩ (2 ^ 16) :=
    Vec3.holds_of_beq (by decide) (by decide)
  have hpoint : (⟨-4, 7, -1⟩ : Point).Holds ⟨-4, 7, -1⟩ (2 ^ 16) :=
    Vec3.holds_of_beq (by decide) (by decide)
  have hleans : lid.below side.c = true := (hlid.below_iff hside.c).2 (by decide)
  have hsees : lid.above ⟨1, 2, 3⟩ = true := (hlid.above_iff hapex).2 (by decide)
  have hmisses : side.above ⟨1, 2, 3⟩ = false :=
    (hside.above_eq_false_iff hapex).2 (by decide)
  obtain ⟨hcone, hflat, hrest, hfront, hback⟩ :=
    cone_outward hlid hside hapex hleans hsees hmisses
  exact ⟨⟨hleans, hsees, hmisses⟩, hcone, hflat,
    hrest _ _ hpoint ((hlid.above_eq_false_iff hpoint).2 (by decide))
      ((hside.above_eq_false_iff hpoint).2 (by decide)), hfront, hback⟩

end Edge
end LatticeHull
