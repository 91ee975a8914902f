import LatticeHull.Proofs.Collinear
import LatticeHull.Proofs.Hull.Membership

/-!
# The surface of a hull

In every reachable hull the mesh is a closed surface, and no triangle of it sees a
vertex.  This is shown for meshes over whole numbers and carried over to machine numbers,
which keep small blocks apart and see what whole numbers see.
-/

namespace LatticeHull

namespace Triangle

variable {α : Type} {t : Triangle α} {e : Edge (Vec3 α)}

theorem reverse_not_mem_edges (hne : ∀ e ∈ t.edges, e.start ≠ e.stop)
    (he : e ∈ t.edges) :
    e.reverse ∉ t.edges := by
  obtain ⟨hab, hbc, hca⟩ := forall_mem_edges.1 hne
  dsimp only at hab hbc hca
  simp only [edges, List.mem_cons, List.not_mem_nil, or_false] at he
  rcases he with rfl | rfl | rfl <;>
    simp [edges, Edge.reverse, hab, hbc, hca, hab.symm, hbc.symm, hca.symm]

end Triangle

namespace Mesh

/-- Whether an edge belongs to exactly two triangles, one that runs along it in its
direction and one that runs along it in the opposite direction. -/
def Shared {α : Type} [BEq α] (m : Mesh α) (e : Edge (Vec3 α)) : Prop :=
  ∃ (i j : Nat) (t u : Triangle α), i ≠ j ∧ m[i]? = some t ∧ m[j]? = some u ∧
    e ∈ t.edges ∧
    e.reverse ∈ u.edges ∧ ∀ (k : Nat) (s : Triangle α), m[k]? = some s → ∀ f ∈ s.edges,
      (f == e) = true → (k = i ∧ f = e) ∨ (k = j ∧ f = e.reverse)

variable {m : Mesh Int}

/-- No two triangles run along an edge in the same direction. -/
theorem index_eq_of_mem_edges (hnodup : m.edges.Nodup) {i j : Nat} {t u : Triangle Int}
    (hi : m[i]? = some t) (hj : m[j]? = some u) {e : Edge Block} (ht : e ∈ t.edges)
    (hu : e ∈ u.edges) : i = j := by
  have hpairs := (List.nodup_flatMap.1 hnodup).2
  rw [List.pairwise_iff_getElem] at hpairs
  obtain ⟨hilt, rfl⟩ := List.getElem?_eq_some_iff.1 hi
  obtain ⟨hjlt, rfl⟩ := List.getElem?_eq_some_iff.1 hj
  rcases lt_trichotomy i j with hlt | heq | hgt
  · exact absurd hu (hpairs i j hilt hjlt hlt ht)
  · exact heq
  · exact absurd ht (hpairs j i hjlt hilt hgt hu)

/-- A closed mesh whose edges fit together shares each of them between two triangles. -/
theorem shared_of_fit (hfit : Edge.Fit m.edges)
    (hreverse : ∀ e ∈ m.edges, e.reverse ∈ m.edges) {e : Edge Block} (he : e ∈ m.edges) :
    m.Shared e := by
  have hne : ∀ t ∈ m, ∀ e ∈ t.edges, e.start ≠ e.stop := by
    intro t ht f hf heq
    apply hfit.ne_reverse f (mem_edges_iff.2 ⟨t, ht, hf⟩)
    cases f
    simp_all [Edge.reverse]
  obtain ⟨t, ht, het⟩ := mem_edges_iff.1 he
  obtain ⟨u, hu, heu⟩ := mem_edges_iff.1 (hreverse e he)
  obtain ⟨i, hi⟩ := List.mem_iff_getElem?.1 ht
  obtain ⟨j, hj⟩ := List.mem_iff_getElem?.1 hu
  refine ⟨i, j, t, u, ?_, hi, hj, het, heu, ?_⟩
  · rintro rfl
    obtain rfl : t = u := Option.some_injective _ (hi.symm.trans hj)
    exact Triangle.reverse_not_mem_edges (hne t ht) het heu
  · intro k s hk f hf hsame
    rcases (Edge.beq_iff f e).1 hsame with rfl | rfl
    · exact Or.inl ⟨index_eq_of_mem_edges hfit.nodup hk hi hf het, rfl⟩
    · exact Or.inr ⟨index_eq_of_mem_edges hfit.nodup hk hj hf heu, rfl⟩

theorem Shared.machine (hrange : m.InRange) {e : Edge Block} (he : e ∈ m.edges)
    (hshared : m.Shared e) : m.machine.Shared e.machine := by
  obtain ⟨i, j, t, u, hij, hi, hj, het, heu, honly⟩ := hshared
  refine ⟨i, j, t.machine, u.machine, hij, ?_, ?_, ?_, ?_, ?_⟩
  · rw [Mesh.machine, List.getElem?_map, hi]
    rfl
  · rw [Mesh.machine, List.getElem?_map, hj]
    rfl
  · rw [Triangle.machine, Triangle.edges_map]
    exact List.mem_map_of_mem het
  · rw [Triangle.machine, Triangle.edges_map]
    exact List.mem_map_of_mem heu
  · intro k s hk f hf hsame
    rw [Mesh.machine, List.getElem?_map, Option.map_eq_some_iff] at hk
    obtain ⟨s, hk, rfl⟩ := hk
    rw [Triangle.machine, Triangle.edges_map, List.mem_map] at hf
    obtain ⟨f, hf, rfl⟩ := hf
    have hfm : f ∈ m.edges := mem_edges_iff.2 ⟨s, List.mem_of_getElem? hk, hf⟩
    have hsame' : (f == e) = true := by
      rw [← Edge.beq_machine (hrange.edge hfm) (hrange.edge he)]
      exact hsame
    rcases honly k s hk f hf hsame' with ⟨rfl, rfl⟩ | ⟨rfl, rfl⟩
    · exact Or.inl ⟨rfl, rfl⟩
    · exact Or.inr ⟨rfl, rfl⟩

theorem fit_flat {a b c : Block} (hnodup : [a, b, c].Nodup) :
    Edge.Fit (flat a b c).edges where
  nodup := by
    obtain ⟨hab, hac, hbc⟩ := Block.nodup_iff.1 hnodup
    simp [edges, flat, Triangle.edges, hab, hac, hbc, Ne.symm hab, Ne.symm hac,
      Ne.symm hbc]
  ne_reverse := by
    obtain ⟨hab, hac, hbc⟩ := Block.nodup_iff.1 hnodup
    simp [edges, flat, Triangle.edges, Edge.reverse, hab, hac, hbc, Ne.symm hab,
      Ne.symm hac, Ne.symm hbc]

theorem reverse_mem_edges_flat {a b c : Block} :
    ∀ e ∈ (flat a b c).edges, e.reverse ∈ (flat a b c).edges := by
  simp [edges, flat, Triangle.edges, Edge.reverse]

theorem Convex.not_collinear (h : m.Convex) {t : Triangle Int} (ht : t ∈ m) :
    ¬Collinear ℝ {t.a.real.place, t.b.real.place, t.c.real.place} := by
  intro hcollinear
  obtain ⟨p, -, hbelow⟩ := h.exists_below t ht
  have hzero : t.height p = 0 := Block.collinear_iff.1 hcollinear p
  omega

end Mesh

namespace Hull

theorem Phase.encloses {h : Hull Int} (hphase : h.Phase) {v : Block}
    (hv : v ∈ h.vertices) :
    h.faces.Encloses v := by
  rcases mem_vertices_iff.1 hv with haccepted | hpending
  · cases hphase with
    | sparse hsparse =>
        rw [hsparse.faces_eq]
        exact fun t ht => absurd ht List.not_mem_nil
    | flat a b c hflat =>
        rw [hflat.accepted_eq] at haccepted
        rw [hflat.faces_eq, Mesh.encloses_flat_iff]
        exact Triangle.height_corner (t := ⟨a, b, c⟩) haccepted
    | solid hsolid => exact hsolid.encloses v (Or.inl haccepted)
  · cases hphase with
    | sparse hsparse =>
        rw [hsparse.pending_eq] at hpending
        exact absurd hpending List.not_mem_nil
    | flat a b c hflat => exact hflat.settled v hpending
    | solid hsolid hsettled => exact hsettled v hpending

/-- In every reachable hull no triangle sees a vertex, be it accepted or pending. -/
theorem Reachable.not_above_vertex {h : Hull Float} (hreach : Reachable h) :
    ∀ t ∈ h.faces, ∀ v ∈ h.vertices, t.above (Vec3.ofBlock v) = false := by
  obtain ⟨g, hsound, rfl⟩ := hreach.exists_sound
  intro t ht v hv
  have hmisses : ∀ t ∈ g.faces, t.above v = false := by
    intro t htm
    rw [Triangle.above_eq_false_iff]
    exact hsound.phase.encloses hv t htm
  have hholds := Vec3.holds_ofBlock (hsound.inRange v hv)
  exact (hsound.above_machine_iff hholds).2 hmisses t ht

theorem not_above_vertex_square :
    Reachable (empty.addBlocks square).machine ∧
      (empty.addBlocks square).machine.pending = [⟨4, 4, 0⟩] ∧
        ∀ t ∈ (empty.addBlocks square).machine.faces,
          ∀ v ∈ (empty.addBlocks square).machine.vertices,
            t.above (Vec3.ofBlock v) = false := by
  have hreach : Reachable (empty.addBlocks square).machine :=
    reachable_blocks (by decide)
  exact ⟨hreach, by decide, hreach.not_above_vertex⟩

theorem Phase.shared {h : Hull Int} (hphase : h.Phase) {e : Edge Block}
    (he : e ∈ h.faces.edges) :
    h.faces.Shared e := by
  cases hphase with
  | sparse hsparse =>
      rw [hsparse.faces_eq] at he
      exact absurd he List.not_mem_nil
  | flat a b c hflat =>
      rw [hflat.faces_eq] at he ⊢
      exact Mesh.shared_of_fit (Mesh.fit_flat hflat.nodup) Mesh.reverse_mem_edges_flat he
  | solid hsolid =>
    exact Mesh.shared_of_fit hsolid.convex.fit hsolid.convex.reverse_mem he

/-- In every reachable hull each edge of the mesh is shared by two triangles that run
along it in opposite directions, all corners are accepted vertices, and once there are
more than two triangles none of them is degenerate. -/
theorem Reachable.closed_surface {h : Hull Float} (hreach : Reachable h) :
    (∀ e ∈ h.faces.edges, h.faces.Shared e) ∧
      ∀ t ∈ h.faces, ∃ a ∈ h.accepted, ∃ b ∈ h.accepted, ∃ c ∈ h.accepted,
        t = ⟨Vec3.ofBlock a, Vec3.ofBlock b, Vec3.ofBlock c⟩ ∧
          (2 < h.faces.length → ¬Collinear ℝ {a.real.place, b.real.place,
            c.real.place}) := by
  obtain ⟨g, hsound, rfl⟩ := hreach.exists_sound
  constructor
  · intro e he
    have hedges : g.machine.faces.edges = g.faces.edges.map Edge.machine :=
      Mesh.edges_map Vec3.ofBlock g.faces
    rw [hedges, List.mem_map] at he
    obtain ⟨e, he, rfl⟩ := he
    exact (hsound.phase.shared he).machine hsound.faces_inRange he
  · intro t ht
    obtain ⟨t, htm, rfl⟩ := List.mem_map.1 ht
    have hcorner : ∀ c ∈ t.corners, c ∈ g.accepted :=
      fun c hc => hsound.phase.corner_mem c (Mesh.mem_corners_iff.2 ⟨t, htm, hc⟩)
    obtain ⟨ha, hb, hc⟩ := Triangle.forall_mem_corners.1 hcorner
    refine ⟨t.a, ha, t.b, hb, t.c, hc, rfl, fun hlength => ?_⟩
    rw [length_faces_machine] at hlength
    exact (hsound.solid_of_two_lt hlength).1.convex.not_collinear htm

theorem closed_surface_pyramid :
    Reachable (empty.addBlocks pyramid).machine ∧
      2 < (empty.addBlocks pyramid).machine.faces.length ∧
        (∀ e ∈ (empty.addBlocks pyramid).machine.faces.edges,
          (empty.addBlocks pyramid).machine.faces.Shared e) ∧
        ∀ t ∈ (empty.addBlocks pyramid).machine.faces,
          ∃ a ∈ (empty.addBlocks pyramid).machine.accepted,
          ∃ b ∈ (empty.addBlocks pyramid).machine.accepted,
          ∃ c ∈ (empty.addBlocks pyramid).machine.accepted,
            t = ⟨Vec3.ofBlock a, Vec3.ofBlock b, Vec3.ofBlock c⟩ ∧
              ¬Collinear ℝ {a.real.place, b.real.place, c.real.place} := by
  have hreach : Reachable (empty.addBlocks pyramid).machine :=
    reachable_blocks (by decide)
  have hlength : (empty.addBlocks pyramid).faces.length = 6 := by cbv
  have hmachine : 2 < (empty.addBlocks pyramid).machine.faces.length := by
    rw [length_faces_machine, hlength]
    decide
  obtain ⟨hshared, hcorners⟩ := hreach.closed_surface
  refine ⟨hreach, hmachine, hshared, ?_⟩
  intro t ht
  obtain ⟨a, ha, b, hb, c, hc, heq, hcollinear⟩ := hcorners t ht
  exact ⟨a, ha, b, hb, c, hc, heq, hcollinear hmachine⟩

end Hull
end LatticeHull
