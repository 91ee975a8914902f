import LatticeHull.Proofs.Mesh.Cap
import LatticeHull.Proofs.Mesh.Convex
import LatticeHull.Proofs.Mesh.Flat
import LatticeHull.Proofs.Mesh.Grow

/-!
# The mesh is a sphere

A mesh is a sphere if its triangles are twice as many as its corners, but for four.  A
mesh that grows stays one.  What is cut out of it is a cap, and a cap has no fewer
triangles than a disc with its corners has, so the new mesh has no more triangles than a
sphere has.  It has no fewer either, because no convex mesh has: a plane that sweeps over
it passes every corner but the first and the last in the middle of two triangles.
-/

namespace LatticeHull
namespace Mesh

/-- Whether the triangles are twice as many as the corners, but for four. -/
def Spherical (m : Mesh Int) : Prop :=
  m.length + 4 = 2 * m.corners.toFinset.card

namespace Convex

variable {m : Mesh Int} {p : Block}

/-- Two values on different sides of zero, or one at zero, have a mean of zero that gives
weight to the second. -/
theorem exists_weights {x y : ℝ} (hx : x ≠ 0) (hxy : x * y ≤ 0) :
    ∃ r s : ℝ, 0 < r ∧ 0 ≤ s ∧ r + s = 1 ∧ r * y + s * x = 0 := by
  have hpos : 0 < x * (x - y) := by
    have := mul_self_pos.2 hx
    linarith [mul_sub x x y]
  have hnonneg : 0 ≤ -y * (x - y) := by
    have := mul_self_nonneg y
    linarith [mul_sub (-y) x y, mul_comm x y]
  have hne : x - y ≠ 0 := right_ne_zero_of_mul hpos.ne'
  refine ⟨x / (x - y), -y / (x - y), div_pos_iff.2 (mul_pos_iff.1 hpos),
    div_nonneg_iff.2 (mul_nonneg_iff.1 hnonneg), ?_, ?_⟩
  · rw [← add_div, ← sub_eq_add_neg, div_self hne]
  · field_simp
    ring

/-- At the level of a corner that has others on both sides there is a point inside the
mesh: one that moves from the inside towards a corner on the other side. -/
theorem exists_level (h : m.Convex) (hne : m ≠ []) {n : Vec3 ℝ} {v a b : Block}
    (ha : a ∈ m.corners) (hb : b ∈ m.corners) (hbelow : n.inner (a.real - v.real) < 0)
    (habove : 0 < n.inner (b.real - v.real)) :
    ∃ q : Vec3 ℝ, n.inner (q - v.real) = 0 ∧ ∀ t ∈ m, t.real.height q < 0 := by
  obtain ⟨o, -, hinside⟩ := h.exists_interior hne (n := ⟨0, 0, 0⟩) (v := ⟨0, 0, 0⟩)
    (fun c _ => by simp [Vec3.inner])
  obtain ⟨w, hw, hwne, hopposite⟩ : ∃ w ∈ m.corners, n.inner (w.real - v.real) ≠ 0 ∧
      n.inner (w.real - v.real) * n.inner (o - v.real) ≤ 0 := by
    rcases le_total 0 (n.inner (o - v.real)) with hup | hdown
    · exact ⟨a, ha, hbelow.ne, mul_nonpos_of_nonpos_of_nonneg hbelow.le hup⟩
    · exact ⟨b, hb, habove.ne', mul_nonpos_of_nonneg_of_nonpos habove.le hdown⟩
  obtain ⟨r, s, hr, hs, hone, hmean⟩ := exists_weights hwne hopposite
  refine ⟨Vec3.combine r o s w.real, ?_, fun t ht => ?_⟩
  · rw [Vec3.inner_combine_sub _ _ _ _ hone, hmean]
  · have henclosed : t.real.height w.real ≤ 0 := by
      rw [Triangle.height_real]
      exact_mod_cast h.encloses_corner w hw t ht
    rw [Triangle.height_combine _ _ _ hone]
    have := mul_neg_of_pos_of_neg hr (hinside t ht)
    have := mul_nonpos_of_nonneg_of_nonpos hs henclosed
    linarith

/-! ### Sweeping along a direction -/

noncomputable def along (n : Vec3 ℝ) (c : Block) : ℝ :=
  n.inner c.real

theorem inner_sub_eq_along (n : Vec3 ℝ) (v c : Block) :
    n.inner (c.real - v.real) = along n c - along n v := by
  simp only [along, Vec3.inner, Vec3.sub_x, Vec3.sub_y, Vec3.sub_z]
  ring

/-- Along some direction, no two corners of a mesh lie equally far. -/
theorem exists_along_injective (m : Mesh Int) :
    ∃ n : Vec3 ℝ, ∀ v ∈ m.corners, ∀ c ∈ m.corners,
    along n v = along n c → v = c := by
  obtain ⟨n, hn⟩ : ∃ n : Vec3 ℝ, ∀ v ∈ m.corners, ∀ c ∈ m.corners, c ≠ v →
      n.inner (c.real - v.real) ≠ 0 := by
    refine Vec3.exists_generic_pair fun v _ c _ hcv hzero => hcv ?_
    simp only [Vec3.real, Vec3.map, Vec3.sub_x, Vec3.sub_y, Vec3.sub_z, sub_eq_zero,
      Int.cast_inj] at hzero
    exact Vec3.ext hzero.1 hzero.2.1 hzero.2.2
  refine ⟨n, fun v hv c hc heq => ?_⟩
  by_contra hvc
  apply hn v hv c hc (Ne.symm hvc)
  rw [inner_sub_eq_along, heq, sub_self]

/-- A plane that moves along such a direction sweeps over the mesh. -/
theorem sweeps_along {n : Vec3 ℝ} (hinjective : ∀ v ∈ m.corners, ∀ c ∈ m.corners,
    along n v = along n c → v = c) {v : Block} (hv : v ∈ m.corners) :
    Sweeps (along n) m v n where
  lower c _ _ hless := by
    rw [inner_sub_eq_along]
    exact sub_neg.2 hless
  upper c _ _ hless := by
    rw [inner_sub_eq_along]
    exact sub_pos.2 hless
  distinct c hc hcv heq := hcv (hinjective c hc v hv heq)

/-- The plane passes every corner of a convex mesh but the first and the last in the
middle of two triangles. -/
theorem two_le_card_middles_along (h : m.Convex) (hne : m ≠ []) {n : Vec3 ℝ}
    (hinjective : ∀ v ∈ m.corners, ∀ c ∈ m.corners, along n v = along n c → v = c)
    {v : Block} (hv : v ∈ m.corners) (hinner : ¬Extreme (along n) m.corners.toFinset v) :
    2 ≤ (middles (along n) m v).card := by
  simp only [Extreme, not_or, not_forall, not_le, List.mem_toFinset] at hinner
  obtain ⟨⟨a, ha, hav⟩, b, hb, hvb⟩ := hinner
  rw [← sub_neg, ← inner_sub_eq_along] at hav
  rw [← sub_pos, ← inner_sub_eq_along] at hvb
  obtain ⟨q, hlevel, hbehind⟩ := h.exists_level hne ha hb hav hvb
  exact two_le_card_middles (fun e he => h.start_ne_stop he)
    (sweeps_along hinjective hv) hv
    (h.closesAt v) hlevel fun t ht _ => hbehind t ht

/-- A convex mesh has at least twice as many triangles as corners, but for four. -/
theorem two_mul_card_corners_le (h : m.Convex) (hne : m ≠ []) :
    2 * m.corners.toFinset.card ≤ m.length + 4 := by
  obtain ⟨n, hn⟩ := exists_along_injective m
  have hinjective : ∀ v ∈ m.corners.toFinset, ∀ c ∈ m.corners.toFinset,
      along n v = along n c → v = c :=
    fun v hv c hc => hn v (List.mem_toFinset.1 hv) c (List.mem_toFinset.1 hc)
  have hcount := mul_card_le_sum_add hinjective fun v hv hinner =>
    h.two_le_card_middles_along hne hn (List.mem_toFinset.1 hv) hinner
  have hsum := sum_card_middles_le (m := m) hinjective
  omega

/-! ### Growing -/

theorem corners_rest_subset (m : Mesh Int) (p : Block) :
    (m.rest p).corners ⊆ m.corners := by
  intro c hc
  obtain ⟨t, ht, hct⟩ := mem_corners_iff.1 hc
  exact mem_corners_iff.2 ⟨t, (mem_rest.1 ht).1, hct⟩

theorem length_grow (m : Mesh Int) (p : Block) :
    (m.grow Triangle.above p).length = (m.rest p).length + (m.outline p).length := by
  rw [grow_eq, List.length_append, cone, List.length_map]
  rfl

/-- The corners of a mesh that has grown are those that stay and the new one. -/
theorem toFinset_corners_grow (h : m.Convex) (hsees : ¬m.Encloses p) :
    (corners (m.grow Triangle.above p)).toFinset =
      insert p (m.rest p).corners.toFinset := by
  ext c
  rw [Finset.mem_insert, List.mem_toFinset, List.mem_toFinset]
  constructor
  · intro hc
    obtain ⟨t, ht, hct⟩ := mem_corners_iff.1 hc
    rcases mem_grow_iff.1 ht with hkept | ⟨e, he, rfl⟩
    · exact Or.inr (mem_corners_iff.2 ⟨t, mem_rest.2 hkept, hct⟩)
    · obtain ⟨hstart, hstop⟩ := h.mem_corners_rest_of_outline he
      simp only [Edge.cone, Triangle.corners, List.mem_cons, List.not_mem_nil, or_false]
        at hct
      rcases hct with rfl | rfl | rfl
      · exact Or.inr hstart
      · exact Or.inr hstop
      · exact Or.inl rfl
  · rintro (rfl | hc)
    · obtain ⟨e, he⟩ := List.exists_mem_of_ne_nil _ (h.outline_ne_nil hsees)
      refine mem_corners_iff.2 ⟨e.cone c, mem_grow_iff.2 (Or.inr ⟨e, he, rfl⟩), ?_⟩
      simp [Edge.cone, Triangle.corners]
    · obtain ⟨t, ht, hct⟩ := mem_corners_iff.1 hc
      exact mem_corners_iff.2 ⟨t, mem_grow_iff.2 (Or.inl (mem_rest.1 ht)), hct⟩

theorem card_corners_grow (h : m.Convex) (hsees : ¬m.Encloses p) :
    (corners (m.grow Triangle.above p)).toFinset.card =
      (m.rest p).corners.toFinset.card + 1 := by
  rw [h.toFinset_corners_grow hsees, Finset.card_insert_of_notMem]
  rw [List.mem_toFinset]
  exact fun hp => h.apex_not_mem_corners hsees (corners_rest_subset m p hp)

theorem spherical_grow (h : m.Convex) (hne : m ≠ []) (hsees : ¬m.Encloses p)
    (hm : m.Spherical) :
    Spherical (m.grow Triangle.above p) := by
  have hsub : (m.rest p).corners.toFinset ⊆ m.corners.toFinset := by
    intro c hc
    exact List.mem_toFinset.2 (corners_rest_subset m p (List.mem_toFinset.1 hc))
  have hcorners := Finset.card_sdiff_add_card_eq_card hsub
  have htriangles := length_cap_add_length_rest m p
  have hcap := h.card_cap hsees
  have hlower := (h.grow hsees).two_mul_card_corners_le (h.grow_ne_nil hne p)
  rw [Spherical] at hm ⊢
  rw [h.card_corners_grow hsees, length_grow] at hlower ⊢
  omega

end Convex

/-! ### The first spheres -/

theorem spherical_flat {a b c : Block} (hnodup : [a, b, c].Nodup) :
    Spherical (flat a b c) := by
  have hcorners : (corners (flat a b c)).toFinset = [a, b, c].toFinset := by
    ext x
    simp only [corners, flat, Triangle.corners, List.flatMap_cons, List.flatMap_nil,
      List.append_nil, List.mem_toFinset, List.mem_append, List.mem_cons,
      List.not_mem_nil, or_false]
    tauto
  rw [Spherical, hcorners, List.toFinset_card_of_nodup hnodup]
  rfl

theorem spherical_tetrahedron {a b c d : Block} (h : 0 < Vec3.orient a b c d) :
    Spherical (tetrahedron a b c d) := by
  obtain ⟨hab, hac, had, hbc, hbd, hcd⟩ := ne_of_orient_pos h
  have hcorners : (corners (tetrahedron a b c d)).toFinset = [a, b, c, d].toFinset := by
    ext x
    rw [List.mem_toFinset, List.mem_toFinset, mem_corners_tetrahedron_iff]
    simp
  have hnodup : [a, b, c, d].Nodup := by simp [hab, hac, had, hbc, hbd, hcd]
  rw [Spherical, hcorners, List.toFinset_card_of_nodup hnodup]
  rfl

theorem spherical_grow_flat {a b c d : Block} (h : ¬Encloses (flat a b c) d) :
    Spherical ((flat a b c).grow Triangle.above d) := by
  rw [encloses_flat_iff] at h
  rcases lt_or_gt_of_ne h with hneg | hpos
  · rw [grow_flat_of_neg hneg]
    apply spherical_tetrahedron
    rw [(heights_tetrahedron a b c d).1]
    omega
  · rw [grow_flat_of_pos hpos]
    exact spherical_tetrahedron hpos

theorem Spherical.moveBy {m : Mesh Int} (hm : m.Spherical) (d : Block) :
    Spherical (m.moveBy d) := by
  have hcorners : (m.moveBy d).corners.toFinset = m.corners.toFinset.image (· + d) := by
    ext c
    simp only [List.mem_toFinset, mem_corners_moveBy_iff, Finset.mem_image]
  rw [Spherical, hcorners, Finset.card_image_of_injective _ (Vec3.add_left_injective d),
    Mesh.moveBy, List.length_map]
  exact hm

end Mesh
end LatticeHull
