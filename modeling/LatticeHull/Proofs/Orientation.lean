import LatticeHull.Mesh
import LatticeHull.Vec3
import Mathlib

/-!
# Orientation of points in space

Which side of a plane a point lies on is the sign of a determinant.  The determinant
is a polynomial in the coordinates, so it is stated here over any commutative ring:
over whole numbers it decides the half-space tests, over the reals it describes the
solid that they cut out.

Everything that the growing mesh relies on follows from one exchange identity between the
determinants of six points.
-/

namespace LatticeHull
namespace Vec3

section Ring

variable {R : Type} [CommRing R]

def det (u v w : Vec3 R) : R :=
  (u.y * v.z - u.z * v.y) * w.x + (u.z * v.x - u.x * v.z) * w.y +
    (u.x * v.y - u.y * v.x) * w.z

def inner (u v : Vec3 R) : R :=
  u.x * v.x + u.y * v.y + u.z * v.z

/-- Six times the signed volume of the tetrahedron on four points. -/
def orient (a b c d : Vec3 R) : R :=
  det (b - a) (c - a) (d - a)

theorem orient_rotate (a b c d : Vec3 R) : orient b c a d = orient a b c d := by
  simp only [orient, det, sub_x, sub_y, sub_z]
  ring

theorem orient_swap (a b c d : Vec3 R) : orient b a c d = -orient a b c d := by
  simp only [orient, det, sub_x, sub_y, sub_z]
  ring

/-- A plane through three points turns over if the last two of them change places. -/
theorem orient_swap_last (a b c d : Vec3 R) : orient a b d c = -orient a b c d := by
  simp only [orient, det, sub_x, sub_y, sub_z]
  ring

theorem orient_start (a b c : Vec3 R) : orient a b c a = 0 := by
  simp only [orient, det, sub_x, sub_y, sub_z]
  ring

theorem orient_middle (a b c : Vec3 R) : orient a b c b = 0 := by
  simp only [orient, det, sub_x, sub_y, sub_z]
  ring

theorem orient_last (a b c : Vec3 R) : orient a b c c = 0 := by
  simp only [orient, det, sub_x, sub_y, sub_z]
  ring

/-- A volume as seen from a fifth point. -/
theorem orient_eq_add (a b c p o : Vec3 R) :
    orient a b c p =
      det a b (p - o) + det b c (p - o) + det c a (p - o) -
        det (a - o) (b - o) (c - o) := by
  simp only [orient, det, sub_x, sub_y, sub_z]
  ring

/-- The exchange identity for the planes through the line `s t`: the plane to `p` is a
combination of the plane to `f` and, taken the other way round, the plane to `g`. -/
theorem orient_exchange (s t f g p v : Vec3 R) :
    orient s t f g * orient s t p v =
      orient s t f v * orient t s g p - orient s t f p * orient t s g v := by
  simp only [orient, det, sub_x, sub_y, sub_z]
  ring

/-- The signs in an exchange identity: if `f` and `b` stand for the heights over the
two old planes, that of a point and that of the apex, then the height `h` over the new
plane is not positive. -/
theorem nonpos_of_exchange {R : Type} [CommRing R] [LinearOrder R]
    [IsStrictOrderedRing R] {g h f b f' b' : R} (hexchange : g * h = f * b' - f' * b)
    (hg : g < 0) (hf : f ≤ 0) (hb : b ≤ 0) (hf' : 0 ≤ f') (hb' : b' ≤ 0) : h ≤ 0 := by
  have hfirst := mul_nonneg_of_nonpos_of_nonpos hf hb'
  have hsecond := mul_nonpos_of_nonneg_of_nonpos hf' hb
  have hproduct : 0 ≤ g * h := by
    rw [hexchange]
    exact sub_nonneg.2 (hsecond.trans hfirst)
  exact nonpos_of_mul_nonneg_right hproduct hg

/-- The exchange identity for vectors: `a` stands for the line that the planes share. -/
theorem det_exchange (a f b p o : Vec3 R) :
    det a f b * det a p o = det a f p * det a b o + det a p b * det a f o := by
  simp only [det]
  ring

/-- Cramer's rule, seen through the volumes over two fixed vectors. -/
theorem det_mul_det (u v p a b c : Vec3 R) :
    det u v p * det a b c =
      det u v a * det p b c + det u v b * det a p c + det u v c * det a b p := by
  simp only [det]
  ring

/-- Seen along a vector `n`, two vectors turn from one to the other as their slopes
compare, where slopes are taken in a direction `u` orthogonal to `n`. -/
theorem inner_self_mul_det_of_inner_eq_zero {n u : Vec3 R} (h : n.inner u = 0)
    (a b : Vec3 R) :
    n.inner n * det a b u = det n u a * n.inner b - n.inner a * det n u b := by
  simp only [inner] at h
  simp only [inner, det]
  linear_combination
    ((a.y * b.z - a.z * b.y) * n.x + (a.z * b.x - a.x * b.z) * n.y +
      (a.x * b.y - a.y * b.x) * n.z) * h

theorem det_swap (u v w : Vec3 R) : det v u w = -det u v w := by
  simp only [det]
  ring

end Ring

/-! ### Products of whole vectors -/

theorem dot_int (u v : Block) : u.dot v = u.x * v.x + u.y * v.y + u.z * v.z := rfl

theorem cross_int (u v : Block) :
    u.cross v = ⟨u.y * v.z - u.z * v.y, u.z * v.x - u.x * v.z, u.x * v.y - u.y * v.x⟩ :=
  rfl

abbrev origin : Block := ⟨0, 0, 0⟩

theorem dot_self_pos {u : Block} (hu : u ≠ origin) : 0 < u.dot u := by
  rw [dot_int]
  have hx := mul_self_nonneg u.x
  have hy := mul_self_nonneg u.y
  have hz := mul_self_nonneg u.z
  by_contra hnot
  apply hu
  ext
  · exact mul_self_eq_zero.1 (by omega)
  · exact mul_self_eq_zero.1 (by omega)
  · exact mul_self_eq_zero.1 (by omega)

/-- Two vectors that span no volume with any third one are parallel. -/
theorem cross_eq_origin {a b : Block} (h : ∀ w, det a b w = 0) : a.cross b = origin := by
  have hx := h ⟨1, 0, 0⟩
  have hy := h ⟨0, 1, 0⟩
  have hz := h ⟨0, 0, 1⟩
  simp only [det, mul_one, mul_zero, add_zero, zero_add] at hx hy hz
  simp only [cross_int, hx, hy, hz]

/-- Parallel vectors span determinants in the ratio of their lengths. -/
theorem dot_mul_det_of_cross_eq {a b : Block} (hparallel : a.cross b = origin)
    (p o : Block) :
    a.dot a * det b p o = a.dot b * det a p o := by
  rw [cross_int, Vec3.mk.injEq] at hparallel
  obtain ⟨hx, hy, hz⟩ := hparallel
  simp only [dot_int, det]
  linear_combination
    (a.y * (p.x * o.y - p.y * o.x) - a.z * (p.z * o.x - p.x * o.z)) * hx +
      (a.z * (p.y * o.z - p.z * o.y) - a.x * (p.x * o.y - p.y * o.x)) * hy +
      (a.x * (p.z * o.x - p.x * o.z) - a.y * (p.y * o.z - p.z * o.y)) * hz

end Vec3

/-!
## Points between two points

An edge of a mesh must not run through a corner that lies between its ends.  This is what
keeps the border of a hole from touching itself: two border edges that start at one point
would lie on one ray, one inside the other.
-/

namespace Block

/-- Whether `c` lies on the segment from `a` to `b`, strictly between its ends. -/
def Between (a b c : Block) : Prop :=
  (c - a).cross (b - a) = Vec3.origin ∧ 0 < (c - a).dot (b - a) ∧
    (c - a).dot (b - a) < (b - a).dot (b - a)

theorem between_comm {a b c : Block} (h : Between a b c) : Between b a c := by
  obtain ⟨hline, hpos, hlt⟩ := h
  simp only [Vec3.cross_int, Vec3.mk.injEq, Vec3.dot_int, Vec3.sub_x, Vec3.sub_y,
    Vec3.sub_z] at hline hpos hlt
  obtain ⟨hx, hy, hz⟩ := hline
  refine ⟨?_, ?_, ?_⟩
  · simp only [Vec3.cross_int, Vec3.mk.injEq, Vec3.sub_x, Vec3.sub_y, Vec3.sub_z]
    refine ⟨?_, ?_, ?_⟩
    · linear_combination -hx
    · linear_combination -hy
    · linear_combination -hz
  · simp only [Vec3.dot_int, Vec3.sub_x, Vec3.sub_y, Vec3.sub_z]
    linarith
  · simp only [Vec3.dot_int, Vec3.sub_x, Vec3.sub_y, Vec3.sub_z]
    linarith

/-- Heights above a plane change linearly along a segment. -/
theorem orient_of_between {a b c : Block} (h : Between a b c) (u v w : Block) :
    (b - a).dot (b - a) * Vec3.orient u v w c =
      ((b - a).dot (b - a) - (c - a).dot (b - a)) * Vec3.orient u v w a +
        (c - a).dot (b - a) * Vec3.orient u v w b := by
  obtain ⟨hline, -, -⟩ := h
  simp only [Vec3.cross_int, Vec3.mk.injEq, Vec3.sub_x, Vec3.sub_y, Vec3.sub_z] at hline
  obtain ⟨hx, hy, hz⟩ := hline
  simp only [Vec3.dot_int, Vec3.orient, Vec3.det, Vec3.sub_x, Vec3.sub_y, Vec3.sub_z]
  linear_combination
    (((v.z - u.z) * (w.x - u.x) - (v.x - u.x) * (w.z - u.z)) * (b.z - a.z) -
        ((v.x - u.x) * (w.y - u.y) - (v.y - u.y) * (w.x - u.x)) * (b.y - a.y)) * hx +
      (((v.x - u.x) * (w.y - u.y) - (v.y - u.y) * (w.x - u.x)) * (b.x - a.x) -
        ((v.y - u.y) * (w.z - u.z) - (v.z - u.z) * (w.y - u.y)) * (b.z - a.z)) * hy +
      (((v.y - u.y) * (w.z - u.z) - (v.z - u.z) * (w.y - u.y)) * (b.y - a.y) -
        ((v.z - u.z) * (w.x - u.x) - (v.x - u.x) * (w.z - u.z)) * (b.x - a.x)) * hz
/-- What lies above a plane through the one end lies on the side of the other end. -/
theorem orient_pos_of_between {a b c : Block} (h : Between a b c) {u v w : Block}
    (ha : Vec3.orient u v w a = 0) (hb : 0 < Vec3.orient u v w b) :
    0 < Vec3.orient u v w c := by
  have hlinear := orient_of_between h u v w
  obtain ⟨-, hpos, hlt⟩ := h
  rw [ha, mul_zero, zero_add] at hlinear
  have hright : 0 < (c - a).dot (b - a) * Vec3.orient u v w b := Int.mul_pos hpos hb
  rw [← hlinear] at hright
  exact pos_of_mul_pos_right hright (by omega)

/-- A half-space that holds both ends of a segment holds what lies between them. -/
theorem orient_nonpos_of_between {a b c : Block} (h : Between a b c) {u v w : Block}
    (ha : Vec3.orient u v w a ≤ 0) (hb : Vec3.orient u v w b ≤ 0) :
    Vec3.orient u v w c ≤ 0 := by
  have hlinear := orient_of_between h u v w
  obtain ⟨-, hpos, hlt⟩ := h
  by_contra habove
  have hleft : 0 < (b - a).dot (b - a) * Vec3.orient u v w c :=
    Int.mul_pos (by omega) (by omega)
  have hfirst := mul_nonpos_of_nonneg_of_nonpos
    (show 0 ≤ (b - a).dot (b - a) - (c - a).dot (b - a) by omega) ha
  have hsecond := mul_nonpos_of_nonneg_of_nonpos (le_of_lt hpos) hb
  omega

/-- Of two points on one ray from `v`, one lies between `v` and the other. -/
theorem between_of_same_ray {v a b : Block} (hne : a ≠ b)
    (hline : (a - v).cross (b - v) = Vec3.origin) (hpos : 0 < (a - v).dot (b - v)) :
    Between v b a ∨ Between v a b := by
  have hreverse : (b - v).cross (a - v) = Vec3.origin := by
    simp only [Vec3.cross_int, Vec3.mk.injEq] at hline ⊢
    obtain ⟨hx, hy, hz⟩ := hline
    exact ⟨by linear_combination -hx, by linear_combination -hy,
      by linear_combination -hz⟩
  have hcomm : (b - v).dot (a - v) = (a - v).dot (b - v) := by
    simp only [Vec3.dot_int]
    ring
  by_cases hshort : (a - v).dot (b - v) < (b - v).dot (b - v)
  · exact Or.inl ⟨hline, hpos, hshort⟩
  · refine Or.inr ⟨hreverse, by rwa [hcomm], ?_⟩
    rw [hcomm]
    by_contra hlong
    have hdiff : a - b ≠ Vec3.origin := by
      intro hzero
      apply hne
      simp only [Vec3.ext_iff, Vec3.sub_x, Vec3.sub_y, Vec3.sub_z] at hzero ⊢
      omega
    have hsquare := Vec3.dot_self_pos hdiff
    have hexpand : (a - b).dot (a - b) =
        (a - v).dot (a - v) - 2 * (a - v).dot (b - v) + (b - v).dot (b - v) := by
      simp only [Vec3.dot_int, Vec3.sub_x, Vec3.sub_y, Vec3.sub_z]
      ring
    omega

/-- Two border edges that leave one point leave it along one ray.

Here `a` and `b` are their ends, seen from that point, and `p` is the new apex.
Neither of the new faces sees the end of the other edge, and the removed faces,
through `f` and `g`, see the apex and not the end of the other edge.  The point `o`
lies below both new faces. -/
theorem same_ray_of_border {a b p f g o : Block}
    (hpb : Vec3.det a p b ≤ 0) (hpa : Vec3.det b p a ≤ 0)
    (hfp : 0 < Vec3.det a f p) (hfb : Vec3.det a f b ≤ 0)
    (hgp : 0 < Vec3.det b g p) (hga : Vec3.det b g a ≤ 0)
    (hao : Vec3.det a p o < 0) (hbo : Vec3.det b p o < 0) :
    a.cross b = Vec3.origin ∧ 0 < a.dot b := by
  have hflip : Vec3.det b p a = -Vec3.det a p b := by
    simp only [Vec3.det]
    ring
  have hflat : Vec3.det a p b = 0 := by omega
  have hswap : Vec3.det b a o = -Vec3.det a b o := Vec3.det_swap a b o
  have hfirst : Vec3.det a f b * Vec3.det a p o = Vec3.det a f p * Vec3.det a b o := by
    rw [Vec3.det_exchange, hflat, zero_mul, add_zero]
  have hsecond : Vec3.det b g a * Vec3.det b p o = Vec3.det b g p * Vec3.det b a o := by
    rw [Vec3.det_exchange, hflip, hflat, neg_zero, zero_mul, add_zero]
  have hnonneg : 0 ≤ Vec3.det a b o := by
    have hproduct := mul_nonneg_of_nonpos_of_nonpos hfb (le_of_lt hao)
    rw [hfirst] at hproduct
    exact nonneg_of_mul_nonneg_right hproduct hfp
  have hnonpos : 0 ≤ Vec3.det b a o := by
    have hproduct := mul_nonneg_of_nonpos_of_nonpos hga (le_of_lt hbo)
    rw [hsecond] at hproduct
    exact nonneg_of_mul_nonneg_right hproduct hgp
  have hzero : Vec3.det a b o = 0 := by omega
  have hfb_zero : Vec3.det a f b = 0 := by
    rw [hzero, mul_zero] at hfirst
    exact (Int.mul_eq_zero.1 hfirst).resolve_right (by omega)
  have hparallel : a.cross b = Vec3.origin := by
    apply Vec3.cross_eq_origin
    intro w
    have hexchange := Vec3.det_exchange a f b p w
    rw [hfb_zero, hflat, zero_mul, zero_mul, add_zero] at hexchange
    exact (Int.mul_eq_zero.1 hexchange.symm).resolve_left (by omega)
  refine ⟨hparallel, ?_⟩
  have hne : a ≠ Vec3.origin := by
    rintro rfl
    simp [Vec3.det] at hao
  have hratio := Vec3.dot_mul_det_of_cross_eq hparallel p o
  have hleft := Int.mul_neg_of_pos_of_neg (Vec3.dot_self_pos hne) hbo
  by_contra hnot
  have hright :=
    mul_nonneg_of_nonpos_of_nonpos (show a.dot b ≤ 0 by omega) (le_of_lt hao)
  omega

end Block

/-!
## Exact scalars

The scalars of an ordered ring are exact: a half-space test reads the sign of a
determinant, and a box holds the points between its corners.
-/

/-- The operations and the order of an ordered ring. -/
@[reducible] def Scalar.exact (R : Type) [CommRing R] [LinearOrder R] : Scalar R where
  less a b := decide (a < b)
  ofInt n := n

/-- Fractions are compared without rounding. -/
instance : Scalar ℚ :=
  Scalar.exact ℚ

section Exact

variable {R : Type} [CommRing R] [LinearOrder R]

namespace Triangle

def height {R : Type} [CommRing R] (t : Triangle R) (p : Vec3 R) : R :=
  Vec3.orient t.a t.b t.c p

/-- In exact arithmetic the corners of a triangle have one common height along its
normal, which the offset is and the height of other points is measured from. -/
theorem offset_exact (t : Triangle R) (p : Vec3 R) :
    let n := @normal R (Scalar.exact R) t
    n.inner t.b = n.inner t.a ∧ n.inner t.c = n.inner t.a ∧
      @offset R (Scalar.exact R) t = n.inner t.a ∧
      t.height p = n.inner p - n.inner t.a := by
  intro n
  have hb : n.inner t.b = n.inner t.a := by
    simp only [n, normal, Vec3.inner, Vec3.cross, Vec3.sub_x, Vec3.sub_y, Vec3.sub_z]
    ring
  have hc : n.inner t.c = n.inner t.a := by
    simp only [n, normal, Vec3.inner, Vec3.cross, Vec3.sub_x, Vec3.sub_y, Vec3.sub_z]
    ring
  have hoffset : @offset R (Scalar.exact R) t = n.inner t.a := by
    have hdot : ∀ q, @Vec3.dot R (Scalar.exact R) n q = n.inner q := fun _ => rfl
    simp [offset, Scalar.larger, n, hdot, hb, hc]
  refine ⟨hb, hc, hoffset, ?_⟩
  simp only [n, height, Vec3.orient, Vec3.det, normal, Vec3.inner, Vec3.cross,
    Vec3.sub_x, Vec3.sub_y, Vec3.sub_z]
  ring

variable [IsStrictOrderedRing R]

/-- In exact arithmetic the half-space tests read the sign of the height. -/
theorem above_exact_iff (t : Triangle R) (p : Vec3 R) :
    @Triangle.above R (Scalar.exact R) t p = true ↔ 0 < t.height p := by
  let := Scalar.exact R
  obtain ⟨-, -, hoffset, hheight⟩ := t.offset_exact p
  rw [hheight, Triangle.above, hoffset, sub_pos]
  exact decide_eq_true_iff

theorem below_exact_iff (t : Triangle R) (p : Vec3 R) :
    @Triangle.below R (Scalar.exact R) t p = true ↔ t.height p < 0 := by
  let := Scalar.exact R
  obtain ⟨-, -, hoffset, hheight⟩ := t.offset_exact p
  rw [hheight, Triangle.below, hoffset, sub_neg]
  exact decide_eq_true_iff

end Triangle

namespace Extent

def Covers (e : Extent) (q : Vec3 R) : Prop :=
  ((e.lower.x.toInt : R) ≤ q.x ∧ q.x ≤ (e.upper.x.toInt : R)) ∧
    ((e.lower.y.toInt : R) ≤ q.y ∧ q.y ≤ (e.upper.y.toInt : R)) ∧
    ((e.lower.z.toInt : R) ≤ q.z ∧ q.z ≤ (e.upper.z.toInt : R))

theorem excludes_exact_iff (e : Extent) (q : Vec3 R) :
    @Extent.excludes R (Scalar.exact R) e q = false ↔ e.Covers q := by
  simp only [excludes, outside, Scalar.less, Scalar.ofInt, Bool.or_eq_false_iff,
    decide_eq_false_iff_not, not_lt, Covers, and_assoc]

end Extent
end Exact
end LatticeHull
