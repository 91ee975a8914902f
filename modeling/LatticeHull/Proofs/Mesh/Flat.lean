import LatticeHull.Proofs.Mesh.Grow

/-!
# From a flat mesh to a solid one

The first three vertices make a flat mesh: two triangles back to back.  It encloses the
points of their plane, or every point if the three lie on a line.  A point off the plane
turns it into a tetrahedron, which is the first convex mesh.
-/

namespace LatticeHull

namespace Block

theorem nodup_iff {a b c : Block} : [a, b, c].Nodup ↔ a ≠ b ∧ a ≠ c ∧ b ≠ c := by
  simp [and_assoc]

theorem orient_eq_zero_of_between {a b c : Block} (h : Between a b c) (p : Block) :
    Vec3.orient a b c p = 0 := by
  have hlinear := orient_of_between h a b p
  rw [Vec3.orient_start, Vec3.orient_middle, mul_zero, mul_zero, add_zero] at hlinear
  obtain ⟨-, hpos, hlt⟩ := h
  have hzero : Vec3.orient a b p c = 0 :=
    (Int.mul_eq_zero.1 hlinear).resolve_left (by omega)
  have hswap := Vec3.orient_swap_last a b c p
  omega

end Block

namespace Triangle

/-- No corner of a triangle with a point below it lies on one of its edges. -/
theorem not_between {t : Triangle Int} {p : Block} (hp : t.height p < 0) {e : Edge Block}
    (he : e ∈ t.edges) {c : Block} (hc : c ∈ t.corners) :
    ¬Block.Between e.start e.stop c := by
  intro hbetween
  have hflat := Block.orient_eq_zero_of_between hbetween p
  have hstart : c ≠ e.start := by
    rintro rfl
    have hpos := hbetween.2.1
    simp [Vec3.dot_int] at hpos
  have hstop : c ≠ e.stop := by
    rintro rfl
    exact lt_irrefl _ hbetween.2.2
  have hfirst := Vec3.orient_rotate t.a t.b t.c p
  have hsecond := Vec3.orient_rotate t.b t.c t.a p
  simp only [edges, corners, List.mem_cons, List.not_mem_nil, or_false, height]
    at he hc hp
  rcases he with rfl | rfl | rfl
  · rcases hc with rfl | rfl | rfl
    · exact hstart rfl
    · exact hstop rfl
    · exact hp.ne hflat
  · rcases hc with rfl | rfl | rfl
    · exact hp.ne (hfirst ▸ hflat)
    · exact hstart rfl
    · exact hstop rfl
  · rcases hc with rfl | rfl | rfl
    · exact hstop rfl
    · exact hp.ne (hfirst ▸ hsecond ▸ hflat)
    · exact hstart rfl

end Triangle

namespace Mesh

theorem encloses_flat_iff {a b c p : Block} :
    Encloses (flat a b c) p ↔ Vec3.orient a b c p = 0 := by
  have hback : Vec3.orient a c b p = -Vec3.orient a b c p := by
    rw [← Vec3.orient_rotate a c b, Vec3.orient_swap b c a, Vec3.orient_rotate a b c]
  simp only [Encloses, flat, List.forall_mem_cons, List.not_mem_nil, false_imp_iff,
    implies_true, and_true, Triangle.height, hback]
  omega

def tetrahedron (a b c d : Block) : Mesh Int :=
  [⟨a, c, b⟩, ⟨a, b, d⟩, ⟨b, c, d⟩, ⟨c, a, d⟩]

section Tetrahedron

variable {a b c d : Block}

theorem heights_tetrahedron (a b c d : Block) :
    Vec3.orient a c b d = -Vec3.orient a b c d ∧
      Vec3.orient a b d c = -Vec3.orient a b c d ∧
      Vec3.orient b c d a = -Vec3.orient a b c d ∧
      Vec3.orient c a d b = -Vec3.orient a b c d := by
  simp only [Vec3.orient, Vec3.det, Vec3.sub_x, Vec3.sub_y, Vec3.sub_z]
  refine ⟨?_, ?_, ?_, ?_⟩ <;> ring

theorem mem_corners_tetrahedron_iff {v : Block} :
    v ∈ corners (tetrahedron a b c d) ↔ v = a ∨ v = b ∨ v = c ∨ v = d := by
  simp only [corners, tetrahedron, Triangle.corners, List.flatMap_cons, List.flatMap_nil,
    List.append_nil, List.mem_append, List.mem_cons, List.not_mem_nil, or_false]
  tauto

theorem tetrahedron_encloses (h : 0 < Vec3.orient a b c d) {v : Block}
    (hv : v ∈ corners (tetrahedron a b c d)) : Encloses (tetrahedron a b c d) v := by
  obtain ⟨hbase, hfirst, hsecond, hthird⟩ := heights_tetrahedron a b c d
  simp only [Encloses, tetrahedron, List.forall_mem_cons, List.not_mem_nil,
    false_imp_iff, implies_true, and_true, Triangle.height]
  rcases mem_corners_tetrahedron_iff.1 hv with rfl | rfl | rfl | rfl
  · simp only [Vec3.orient_start, Vec3.orient_middle, hsecond]
    omega
  · simp only [Vec3.orient_start, Vec3.orient_middle, Vec3.orient_last, hthird]
    omega
  · simp only [Vec3.orient_start, Vec3.orient_middle, hfirst]
    omega
  · simp only [Vec3.orient_last, hbase]
    omega

theorem tetrahedron_exists_below (h : 0 < Vec3.orient a b c d) :
    ∀ t ∈ tetrahedron a b c d, ∃ p, Encloses (tetrahedron a b c d) p ∧
      t.height p < 0 := by
  obtain ⟨hbase, hfirst, hsecond, hthird⟩ := heights_tetrahedron a b c d
  have henclosed : ∀ v, v = a ∨ v = b ∨ v = c ∨ v = d →
      Encloses (tetrahedron a b c d) v :=
    fun v hv => tetrahedron_encloses h (mem_corners_tetrahedron_iff.2 hv)
  intro t ht
  simp only [tetrahedron, List.mem_cons, List.not_mem_nil, or_false] at ht
  rcases ht with rfl | rfl | rfl | rfl
  · exact ⟨d, henclosed d (by simp), by simp only [Triangle.height]; omega⟩
  · exact ⟨c, henclosed c (by simp), by simp only [Triangle.height]; omega⟩
  · exact ⟨a, henclosed a (by simp), by simp only [Triangle.height]; omega⟩
  · exact ⟨b, henclosed b (by simp), by simp only [Triangle.height]; omega⟩

theorem ne_of_orient_pos (h : 0 < Vec3.orient a b c d) :
    a ≠ b ∧ a ≠ c ∧ a ≠ d ∧ b ≠ c ∧ b ≠ d ∧ c ≠ d := by
  refine ⟨?_, ?_, ?_, ?_, ?_, ?_⟩
  all_goals
    rintro rfl
    simp [Vec3.orient, Vec3.det] at h
  all_goals
    linarith [h]

theorem tetrahedron_convex (h : 0 < Vec3.orient a b c d) :
    Convex (tetrahedron a b c d) where
  edges_nodup := by
    obtain ⟨hab, hac, had, hbc, hbd, hcd⟩ := ne_of_orient_pos h
    simp [tetrahedron, edges, Triangle.edges, hab, hac, had, hbc, hbd, hcd, hab.symm,
      hac.symm, had.symm, hbc.symm, hbd.symm, hcd.symm]
  reverse_mem := by
    intro e he
    simp only [tetrahedron, edges, Triangle.edges, List.flatMap_cons, List.flatMap_nil,
      List.append_nil, List.cons_append, List.nil_append, List.mem_cons,
      List.not_mem_nil, or_false] at he ⊢
    rcases he with rfl | rfl | rfl | rfl | rfl | rfl | rfl | rfl | rfl | rfl |
        rfl | rfl <;>
      simp [Edge.reverse]
  encloses_corner _ hv := tetrahedron_encloses h hv
  exists_below := tetrahedron_exists_below h
  edge_free := by
    intro e he v hv
    have hshared : (∃ t ∈ tetrahedron a b c d, e ∈ t.edges ∧ v ∈ t.corners) ∨
        ∃ t ∈ tetrahedron a b c d, e.reverse ∈ t.edges ∧ v ∈ t.corners := by
      simp only [tetrahedron, edges, Triangle.edges, List.flatMap_cons, List.flatMap_nil,
        List.append_nil, List.cons_append, List.nil_append, List.mem_cons,
        List.not_mem_nil, or_false] at he
      rw [mem_corners_tetrahedron_iff] at hv
      rcases he with rfl | rfl | rfl | rfl | rfl | rfl | rfl | rfl | rfl | rfl |
        rfl | rfl <;>
        rcases hv with rfl | rfl | rfl | rfl <;>
        simp [tetrahedron, Triangle.edges, Triangle.corners, Edge.reverse]
    rcases hshared with ⟨t, ht, hedge, hcorner⟩ | ⟨t, ht, hedge, hcorner⟩
    · obtain ⟨p, -, hp⟩ := tetrahedron_exists_below h t ht
      exact Triangle.not_between hp hedge hcorner
    · obtain ⟨p, -, hp⟩ := tetrahedron_exists_below h t ht
      intro hbetween
      exact Triangle.not_between hp hedge hcorner (Block.between_comm hbetween)

end Tetrahedron

/-! ### The first point off the plane -/

theorem border_edges_triangle {a b c : Block} (hab : a ≠ b) (hac : a ≠ c) (hbc : b ≠ c) :
    Edge.border (Triangle.edges ⟨a, b, c⟩) = [⟨a, b⟩, ⟨b, c⟩, ⟨c, a⟩] := by
  apply Edge.border_eq_self
  · constructor
    · simp [Triangle.edges, hab, hac, hbc]
    · simp [Triangle.edges, Edge.reverse, hab, hab.symm, hac, hac.symm, hbc, hbc.symm]
  · simp [Triangle.edges, Edge.reverse, hab, hab.symm, hac, hac.symm, hbc, hbc.symm]

theorem grow_flat_of_pos {a b c d : Block} (h : 0 < Vec3.orient a b c d) :
    (flat a b c).grow Triangle.above d = tetrahedron a b c d := by
  obtain ⟨hab, hac, -, hbc, -, -⟩ := ne_of_orient_pos h
  have hfront : Triangle.above ⟨a, b, c⟩ d = true := (Triangle.above_iff _ _).2 h
  have hback : Triangle.above ⟨a, c, b⟩ d = false := by
    rw [Triangle.above_eq_false_iff, Triangle.height, (heights_tetrahedron a b c d).1]
    omega
  simp [grow_eq, outline, flat, hfront, hback, edges, border_edges_triangle hab hac hbc,
    cone, Edge.cone, tetrahedron]

theorem grow_flat_of_neg {a b c d : Block} (h : Vec3.orient a b c d < 0) :
    (flat a b c).grow Triangle.above d = tetrahedron a c b d := by
  have hpos : 0 < Vec3.orient a c b d := by
    rw [(heights_tetrahedron a b c d).1]
    omega
  obtain ⟨hac, hab, -, hcb, -, -⟩ := ne_of_orient_pos hpos
  have hfront : Triangle.above ⟨a, b, c⟩ d = false :=
    (Triangle.above_eq_false_iff _ _).2 h.le
  have hback : Triangle.above ⟨a, c, b⟩ d = true := (Triangle.above_iff _ _).2 hpos
  simp [grow_eq, outline, flat, hfront, hback, edges, border_edges_triangle hac hab hcb,
    cone, Edge.cone, tetrahedron]

/-- A point off the plane of a flat mesh makes it convex. -/
theorem convex_grow_flat {a b c d : Block} (h : ¬Encloses (flat a b c) d) :
    Convex ((flat a b c).grow Triangle.above d) ∧
      ∀ v, v ∈ corners ((flat a b c).grow Triangle.above d) ↔
        v = a ∨ v = b ∨ v = c ∨ v = d := by
  rw [encloses_flat_iff] at h
  rcases lt_or_gt_of_ne h with hneg | hpos
  · rw [grow_flat_of_neg hneg]
    refine ⟨tetrahedron_convex ?_, fun v => ?_⟩
    · rw [(heights_tetrahedron a b c d).1]
      omega
    · rw [mem_corners_tetrahedron_iff]
      tauto
  · rw [grow_flat_of_pos hpos]
    exact ⟨tetrahedron_convex hpos, fun v => mem_corners_tetrahedron_iff⟩

end Mesh
end LatticeHull
