import LatticeHull.Proofs.Mesh.Convex
import LatticeHull.Proofs.Mesh.Grow
import Mathlib

/-!
# The solid inside a convex mesh

The half-spaces of a convex mesh cut out the convex hull of its corners, and nothing
more.  A point outside the hull lies beyond some corner, in a direction in which all
other corners lie behind it.  If no triangle at that corner saw the point, then from each
edge at the corner to the next the slope of the edges would rise in one and the same
direction, all the way around the corner.  Around a closed mesh that is impossible.
-/

namespace LatticeHull

/-!
## Strict support of finite sets

A point outside the convex hull of a finite set is separated from it by a
linear function.  The function can be chosen so that it has its maximum over
the set at a single point.
-/

open scoped InnerProductSpace

variable {E : Type} [NormedAddCommGroup E] [InnerProductSpace ℝ E] [CompleteSpace E]

/-- A point outside the convex hull of a finite set lies strictly beyond one
of its points, in a direction in which all others lie strictly behind that
one.  A small multiple of the squared length is added to a separating
function, so that no two points tie. -/
theorem exists_strict_support {S : Set E} (hfinite : S.Finite) (hnonempty : S.Nonempty)
    {q : E} (hq : q ∉ convexHull ℝ S) :
    ∃ n : E, ∃ v ∈ S, (∀ a ∈ S, a ≠ v → ⟪n, a - v⟫_ℝ < 0) ∧ 0 < ⟪n, q - v⟫_ℝ := by
  obtain ⟨f, bound, hbelow, habove⟩ := geometric_hahn_banach_closed_point
    (convex_convexHull ℝ S) (hfinite.isClosed_convexHull ℝ) hq
  let n₀ : E := (InnerProductSpace.toDual ℝ E).symm f
  have hn₀ : ∀ y, ⟪n₀, y⟫_ℝ = f y := fun y => InnerProductSpace.toDual_symm_apply
  have hgap : ∀ v ∈ S, 0 < ⟪n₀, q - v⟫_ℝ := by
    intro v hv
    rw [inner_sub_right, hn₀, hn₀]
    have := hbelow v (subset_convexHull ℝ S hv)
    linarith
  have hsmall : ∀ᶠ ε : ℝ in nhdsWithin 0 (Set.Ioi 0),
      ∀ v ∈ S, 0 < ⟪n₀, q - v⟫_ℝ + 2 * ε * ⟪v, q - v⟫_ℝ := by
    rw [hfinite.eventually_all]
    intro v hv
    have hcontinuous : Continuous fun ε : ℝ => ⟪n₀, q - v⟫_ℝ + 2 * ε * ⟪v, q - v⟫_ℝ := by
      fun_prop
    have hzero : 0 < ⟪n₀, q - v⟫_ℝ + 2 * 0 * ⟪v, q - v⟫_ℝ := by
      simpa using hgap v hv
    exact (hcontinuous.continuousAt.eventually (lt_mem_nhds hzero)).filter_mono
      nhdsWithin_le_nhds
  obtain ⟨ε, hε, hpos⟩ := (hsmall.and self_mem_nhdsWithin).exists
  obtain ⟨v, hv, hmax⟩ := Set.exists_max_image S (fun a => ⟪n₀, a⟫_ℝ + ε * ⟪a, a⟫_ℝ)
    hfinite hnonempty
  refine ⟨n₀ + (2 * ε) • v, v, hv, ?_, ?_⟩
  · intro a ha hne
    have hle := hmax a ha
    have hdist : 0 < ⟪a - v, a - v⟫_ℝ := by
      rw [real_inner_self_eq_norm_sq]
      have hnorm : 0 < ‖a - v‖ := norm_pos_iff.2 (sub_ne_zero.2 hne)
      positivity
    have hexpand : ⟪a - v, a - v⟫_ℝ = ⟪a, a⟫_ℝ - 2 * ⟪v, a⟫_ℝ + ⟪v, v⟫_ℝ := by
      rw [inner_sub_left, inner_sub_right, inner_sub_right, real_inner_comm v a]
      ring
    have hproduct : 0 < ε * ⟪a - v, a - v⟫_ℝ := mul_pos hpos hdist
    rw [hexpand] at hproduct
    simp only [inner_add_left, inner_sub_right, real_inner_smul_left] at hle ⊢
    nlinarith
  · have hlarge := hε v hv
    rw [inner_add_left, real_inner_smul_left]
    exact hlarge

/-! ## Points that no triangle sees -/

namespace Vec3

noncomputable def place (p : Vec3 ℝ) : EuclideanSpace ℝ (Fin 3) :=
  !₂[p.x, p.y, p.z]

noncomputable def real (b : Block) : Vec3 ℝ :=
  b.map (Int.cast : Int → ℝ)

theorem orient_real (a b c d : Block) :
    orient a.real b.real c.real d.real = ((orient a b c d : Int) : ℝ) :=
  orient_map (Int.castRingHom ℝ) a b c d

def combine (r : ℝ) (u : Vec3 ℝ) (s : ℝ) (v : Vec3 ℝ) : Vec3 ℝ :=
  ⟨r * u.x + s * v.x, r * u.y + s * v.y, r * u.z + s * v.z⟩

theorem inner_combine (n u v : Vec3 ℝ) (r s : ℝ) :
    n.inner (combine r u s v) = r * n.inner u + s * n.inner v := by
  simp only [inner, combine]
  ring

theorem inner_combine_sub (n u v p : Vec3 ℝ) {r s : ℝ} (hrs : r + s = 1) :
    n.inner (combine r u s v - p) = r * n.inner (u - p) + s * n.inner (v - p) := by
  obtain rfl : s = 1 - r := by linarith
  simp only [inner, combine, sub_x, sub_y, sub_z]
  ring

theorem det_combine (a b u v : Vec3 ℝ) (r s : ℝ) :
    det a b (combine r u s v) = r * det a b u + s * det a b v := by
  simp only [det, combine]
  ring

theorem eq_zero_of_inner_self {n : Vec3 ℝ} (h : n.inner n ≤ 0) :
    n.x = 0 ∧ n.y = 0 ∧ n.z = 0 := by
  have hx := mul_self_nonneg n.x
  have hy := mul_self_nonneg n.y
  have hz := mul_self_nonneg n.z
  simp only [inner] at h
  exact ⟨mul_self_eq_zero.1 (by linarith), mul_self_eq_zero.1 (by linarith),
    mul_self_eq_zero.1 (by linarith)⟩

/-- Around a corner that has all others behind it, slopes rise from one
edge to the next. -/
theorem slope_lt {n u a b : Vec3 ℝ} (hu : n.inner u = 0) (ha : n.inner a < 0)
    (hb : n.inner b < 0) (hab : det a b u < 0) :
    det n u a / n.inner a < det n u b / n.inner b := by
  have hsquare : 0 < n.inner n := by
    by_contra hnot
    obtain ⟨hx, hy, hz⟩ := eq_zero_of_inner_self (not_lt.1 hnot)
    simp [inner, hx, hy, hz] at ha
  have hproduct := mul_neg_of_pos_of_neg hsquare hab
  rw [inner_self_mul_det_of_inner_eq_zero hu] at hproduct
  rw [← sub_neg, div_sub_div _ _ ha.ne hb.ne]
  exact div_neg_of_neg_of_pos hproduct (mul_pos_of_neg_of_neg ha hb)

theorem place_surjective : Function.Surjective place := by
  intro x
  refine ⟨⟨x 0, x 1, x 2⟩, ?_⟩
  ext i
  fin_cases i <;> rfl

theorem place_injective : Function.Injective place := by
  intro p q h
  ext
  · exact congrArg (fun x : EuclideanSpace ℝ (Fin 3) => x 0) h
  · exact congrArg (fun x : EuclideanSpace ℝ (Fin 3) => x 1) h
  · exact congrArg (fun x : EuclideanSpace ℝ (Fin 3) => x 2) h

theorem place_sub (p q : Vec3 ℝ) : (p - q).place = p.place - q.place := by
  ext i
  fin_cases i <;> rfl

theorem place_combine (p q : Vec3 ℝ) (r s : ℝ) :
    (combine r p s q).place = r • p.place + s • q.place := by
  ext i
  fin_cases i <;> rfl

theorem inner_place (u v : Vec3 ℝ) : ⟪u.place, v.place⟫_ℝ = u.inner v := by
  simp only [place, inner, PiLp.inner_apply, Fin.sum_univ_three, RCLike.inner_apply,
    conj_trivial]
  simp
  ring

end Vec3

namespace Triangle

noncomputable def real (t : Triangle Int) : Triangle ℝ :=
  t.map Vec3.real

theorem height_real (t : Triangle Int) (b : Block) :
    t.real.height b.real = ((t.height b : Int) : ℝ) :=
  Vec3.orient_real t.a t.b t.c b

theorem height_combine (t : Triangle ℝ) (p q : Vec3 ℝ) {r s : ℝ} (hrs : r + s = 1) :
    t.height (Vec3.combine r p s q) = r * t.height p + s * t.height q := by
  obtain rfl : s = 1 - r := by linarith
  simp only [height, Vec3.orient, Vec3.det, Vec3.combine, Vec3.sub_x, Vec3.sub_y,
    Vec3.sub_z]
  ring

theorem convex_below (t : Triangle ℝ) :
    Convex ℝ {x | ∀ p : Vec3 ℝ, p.place = x → t.height p ≤ 0} := by
  intro x hx y hy r s hr hs hrs p hp
  obtain ⟨p₁, rfl⟩ := Vec3.place_surjective x
  obtain ⟨p₂, rfl⟩ := Vec3.place_surjective y
  rw [← Vec3.place_combine] at hp
  rw [Vec3.place_injective hp, height_combine _ _ _ hrs]
  have hfirst := mul_nonpos_of_nonneg_of_nonpos hr (hx p₁ rfl)
  have hsecond := mul_nonpos_of_nonneg_of_nonpos hs (hy p₂ rfl)
  linarith

end Triangle

/-- The places of blocks in space. -/
def Block.places (vs : List Block) : Set (EuclideanSpace ℝ (Fin 3)) :=
  {x | ∃ v ∈ vs, x = (Vec3.real v).place}

def Block.solid (vs : List Block) : Set (EuclideanSpace ℝ (Fin 3)) :=
  convexHull ℝ (Block.places vs)

namespace Mesh

/-! ### Turning around a corner -/

/-- How much a slope rises along an edge around a corner: an edge to the corner
counts the slope that it comes from, an edge from the corner the one that it goes to,
with the opposite sign. -/
noncomputable def turn (slope : Block → ℝ) (v : Block) (e : Edge Block) : ℝ :=
  (if e.stop = v then slope e.start else 0) - (if e.start = v then slope e.stop else 0)

theorem turn_reverse (slope : Block → ℝ) (v : Block) (e : Edge Block) :
    turn slope v e.reverse = -turn slope v e :=
  (neg_sub _ _).symm

section Turn

variable {v : Block} {t : Triangle Int}

theorem sum_turn_of_not_mem (slope : Block → ℝ) (hv : v ∉ t.corners) :
    (t.edges.map (turn slope v)).sum = 0 := by
  simp only [Triangle.corners, List.mem_cons, List.not_mem_nil, or_false, not_or] at hv
  obtain ⟨ha, hb, hc⟩ := hv
  simp [Triangle.edges, turn, Ne.symm ha, Ne.symm hb, Ne.symm hc]

/-- Around a triangle every slope rises from one of the edges at the
corner to the other one. -/
theorem exists_turn (hne : ∀ e ∈ t.edges, e.start ≠ e.stop) (hv : v ∈ t.corners) :
    ∃ a ∈ t.corners, ∃ b ∈ t.corners, a ≠ v ∧ b ≠ v ∧
      (∀ p, t.real.height p = Vec3.orient v.real a.real b.real p) ∧
        ∀ slope : Block → ℝ, (t.edges.map (turn slope v)).sum = slope b - slope a := by
  obtain ⟨hab, hbc, hca⟩ := Triangle.forall_mem_edges.1 hne
  dsimp only at hab hbc hca
  simp only [Triangle.corners, List.mem_cons, List.not_mem_nil, or_false] at hv
  rcases hv with rfl | rfl | rfl
  · refine ⟨t.b, by simp [Triangle.corners], t.c, by simp [Triangle.corners], hab.symm,
      hca, fun p => rfl, fun slope => ?_⟩
    simp only [Triangle.edges, turn, hab.symm, hca, List.map_cons, List.map_nil,
      List.sum_cons, List.sum_nil, if_true, if_false]
    ring
  · refine ⟨t.c, by simp [Triangle.corners], t.a, by simp [Triangle.corners], hbc.symm,
      hab, fun p => (Vec3.orient_rotate ..).symm, fun slope => ?_⟩
    simp only [Triangle.edges, turn, hab, hbc.symm, List.map_cons, List.map_nil,
      List.sum_cons, List.sum_nil, if_true, if_false]
    ring
  · refine ⟨t.a, by simp [Triangle.corners], t.b, by simp [Triangle.corners], hca.symm,
      hbc, fun p => Vec3.orient_rotate .., fun slope => ?_⟩
    simp only [Triangle.edges, turn, hbc, hca.symm, List.map_cons, List.map_nil,
      List.sum_cons, List.sum_nil, if_true, if_false]
    ring

/-- No slope rises at every triangle, all the way around a corner. -/
theorem not_forall_turn_pos {m : Mesh Int} {slope : Block → ℝ}
    (hzero : (m.edges.map (turn slope v)).sum = 0) (hv : v ∈ m.corners) :
    ¬∀ t ∈ m, v ∈ t.corners → 0 < (t.edges.map (turn slope v)).sum := by
  intro hpos
  obtain ⟨t₀, ht₀, hvt₀⟩ := mem_corners_iff.1 hv
  have hnonneg : ∀ t ∈ m, 0 ≤ (t.edges.map (turn slope v)).sum := by
    intro t ht
    by_cases hvt : v ∈ t.corners
    · exact (hpos t ht hvt).le
    · exact (sum_turn_of_not_mem slope hvt).ge
  have hsum : (m.map fun _ => (0 : ℝ)).sum <
      (m.map fun t => (t.edges.map (turn slope v)).sum).sum :=
    List.sum_lt_sum _ _ hnonneg ⟨t₀, ht₀, hpos t₀ ht₀ hvt₀⟩
  rw [← sum_edges, hzero] at hsum
  simp only [List.map_const', List.sum_replicate, smul_zero, lt_self_iff_false] at hsum

end Turn

namespace Convex

variable {m : Mesh Int}

/-- A convex mesh has a point strictly inside, which lies behind any plane that has all
corners behind it.  A corner below each triangle is taken in turn, and the point moves
half of the way to it. -/
theorem exists_interior (h : m.Convex) (hne : m ≠ []) {n v : Vec3 ℝ}
    (hbehind : ∀ c ∈ m.corners, n.inner (c.real - v) ≤ 0) :
    ∃ o : Vec3 ℝ, n.inner (o - v) ≤ 0 ∧ ∀ t ∈ m, t.real.height o < 0 := by
  have henclosed : ∀ c ∈ m.corners, ∀ t ∈ m, t.real.height c.real ≤ 0 := by
    intro c hc t ht
    rw [Triangle.height_real]
    exact_mod_cast h.encloses_corner c hc t ht
  have hsome : ∀ ts : Mesh Int, ts ⊆ m →
      ∃ o : Vec3 ℝ, n.inner (o - v) ≤ 0 ∧ (∀ t ∈ m, t.real.height o ≤ 0) ∧
        ∀ t ∈ ts, t.real.height o < 0 := by
    intro ts
    induction ts with
    | nil =>
        intro _
        obtain ⟨t, ht⟩ := List.exists_mem_of_ne_nil m hne
        have hc := a_mem_corners ht
        exact ⟨t.a.real, hbehind _ hc, henclosed _ hc, by simp⟩
    | cons t ts ih =>
        intro hsub
        obtain ⟨ht, hrest⟩ := List.cons_subset.1 hsub
        obtain ⟨o, hinner, hle, hlt⟩ := ih hrest
        obtain ⟨c, hc, hbelow⟩ := h.exists_corner_below ht
        have hbelow' : t.real.height c.real < 0 := by
          rw [Triangle.height_real]
          exact_mod_cast hbelow
        have hhalf : (1 / 2 : ℝ) + 1 / 2 = 1 := by norm_num
        refine ⟨Vec3.combine (1 / 2) o (1 / 2) c.real, ?_, ?_, ?_⟩
        · have := hbehind c hc
          rw [Vec3.inner_combine_sub _ _ _ _ hhalf]
          linarith
        · intro t' ht'
          have := henclosed c hc t' ht'
          have := hle t' ht'
          rw [Triangle.height_combine _ _ _ hhalf]
          linarith
        · intro t' ht'
          rw [Triangle.height_combine _ _ _ hhalf]
          rcases List.mem_cons.1 ht' with rfl | hmem
          · have := hle t' ht
            linarith
          · have := henclosed c hc t' (hrest hmem)
            have := hlt t' hmem
            linarith
  obtain ⟨o, hinner, -, hlt⟩ := hsome m (List.Subset.refl m)
  exact ⟨o, hinner, hlt⟩

/-- A point beyond a corner that has all other corners behind it is seen
by a triangle. -/
theorem exists_sees (h : m.Convex) {n : Vec3 ℝ} {v : Block} (hv : v ∈ m.corners)
    (hbehind : ∀ c ∈ m.corners, c ≠ v → n.inner (c.real - v.real) < 0) {q : Vec3 ℝ}
    (hq : 0 < n.inner (q - v.real)) : ∃ t ∈ m, 0 < t.real.height q := by
  by_contra hnone
  have hmiss : ∀ t ∈ m, t.real.height q ≤ 0 := by
    intro t ht
    by_contra hsees
    exact hnone ⟨t, ht, not_le.1 hsees⟩
  obtain ⟨t₀, ht₀, hvt₀⟩ := mem_corners_iff.1 hv
  obtain ⟨o, ho, hinside⟩ :=
      h.exists_interior (List.ne_nil_of_mem ht₀) (n := n) (v := v.real) (by
    intro c hc
    by_cases hcv : c = v
    · subst hcv
      simp [Vec3.inner]
    · exact (hbehind c hc hcv).le)
  let u : Vec3 ℝ := Vec3.combine (n.inner (q - v.real)) (o - v.real)
    (-n.inner (o - v.real)) (q - v.real)
  have hu : n.inner u = 0 := by
    rw [Vec3.inner_combine]
    ring
  let slope : Block → ℝ :=
    fun c => Vec3.det n u (c.real - v.real) / n.inner (c.real - v.real)
  have hzero := h.sum_edges_eq_zero (f := turn slope v) (turn_reverse slope v)
  refine not_forall_turn_pos hzero hv fun t ht hvt => ?_
  have hcorner : ∀ c ∈ t.corners, c ∈ m.corners :=
    fun c hc => mem_corners_iff.2 ⟨t, ht, hc⟩
  obtain ⟨a, ha, b, hb, hav, hbv, hheight, hturn⟩ := exists_turn
    (fun e he => h.start_ne_stop (mem_edges_iff.2 ⟨t, ht, he⟩)) hvt
  rw [hturn, sub_pos]
  apply Vec3.slope_lt hu (hbehind a (hcorner a ha) hav) (hbehind b (hcorner b hb) hbv)
  have hdet : Vec3.det (a.real - v.real) (b.real - v.real) u =
      n.inner (q - v.real) * t.real.height o -
        n.inner (o - v.real) * t.real.height q := by
    rw [hheight, hheight, Vec3.det_combine]
    simp only [Vec3.orient]
    ring
  have := mul_neg_of_pos_of_neg hq (hinside t ht)
  have := mul_nonneg_of_nonpos_of_nonpos ho (hmiss t ht)
  linarith

/-- The half-spaces of a convex mesh cut out the convex hull of its corners, also if more
blocks are given that the mesh encloses. -/
theorem mem_solid_iff (h : m.Convex) (hne : m ≠ []) {vs : List Block}
    (hcorners : m.corners ⊆ vs) (henclosed : ∀ v ∈ vs, m.Encloses v) {q : Vec3 ℝ} :
    q.place ∈ Block.solid vs ↔ ∀ t ∈ m, t.real.height q ≤ 0 := by
  constructor
  · intro hq t ht
    refine convexHull_min ?_ t.real.convex_below hq q rfl
    rintro x ⟨v, hv, rfl⟩ p hp
    rw [Vec3.place_injective hp, Triangle.height_real]
    exact_mod_cast henclosed v hv t ht
  · intro hmiss
    by_contra hout
    have hout' : q.place ∉ convexHull ℝ (Block.places m.corners) := by
      intro hin
      apply hout
      refine convexHull_mono ?_ hin
      rintro x ⟨v, hv, rfl⟩
      exact ⟨v, hcorners hv, rfl⟩
    have hfinite : (Block.places m.corners).Finite := by
      have himage : Block.places m.corners =
          (fun v => (Vec3.real v).place) '' {v | v ∈ m.corners} := by
        ext x
        simp only [Block.places, Set.mem_ofPred_eq, Set.mem_image, eq_comm]
      rw [himage]
      exact (List.finite_toSet m.corners).image _
    obtain ⟨t₀, ht₀⟩ := List.exists_mem_of_ne_nil m hne
    obtain ⟨x, y, ⟨v, hv, rfl⟩, hbehind, hbeyond⟩ := exists_strict_support hfinite
      ⟨_, t₀.a, a_mem_corners ht₀, rfl⟩ hout'
    obtain ⟨n, rfl⟩ := Vec3.place_surjective x
    obtain ⟨t, ht, hsees⟩ := h.exists_sees (n := n) (q := q) hv
      (by
        intro c hc hcv
        rw [← Vec3.inner_place, Vec3.place_sub]
        apply hbehind _ ⟨c, hc, rfl⟩
        intro heq
        exact hcv (Vec3.map_injective Int.cast_injective (Vec3.place_injective heq)))
      (by
        rw [← Vec3.inner_place, Vec3.place_sub]
        exact hbeyond)
    exact absurd (hmiss t ht) (not_le.2 hsees)

end Convex
end Mesh
end LatticeHull
