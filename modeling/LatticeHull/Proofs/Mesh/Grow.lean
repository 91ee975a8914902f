import LatticeHull.Proofs.Mesh.Convex

/-!
# A convex mesh stays convex when it grows

A point outside a convex mesh sees some of its triangles.  The border of what it
sees is joined to it.  That the new mesh is closed again comes down to one fact: at
most one border edge starts at any point, so that the new triangles fit together
side by side.  Two such edges would lie on one ray, and then one of them would run
through the end of the other.
-/

namespace LatticeHull
namespace Mesh

def outline (m : Mesh Int) (p : Block) : List (Edge Block) :=
  Edge.border (edges (m.filter (·.above p)))

theorem grow_eq (m : Mesh Int) (p : Block) :
    m.grow Triangle.above p =
      m.filter (fun t => !t.above p) ++ cone (m.outline p) p := by
  simp only [grow, outline, List.partition_eq_filter_filter]
  rfl

theorem mem_grow_iff {m : Mesh Int} {p : Block} {t : Triangle Int} :
    t ∈ m.grow Triangle.above p ↔
      (t ∈ m ∧ t.height p ≤ 0) ∨ ∃ e ∈ m.outline p, e.cone p = t := by
  simp [grow_eq, cone, Triangle.above_eq_false_iff]

theorem grow_eq_self {m : Mesh Int} {p : Block} (h : m.Encloses p) :
    m.grow Triangle.above p = m := by
  have hnone : m.filter (·.above p) = [] := by
    rw [List.filter_eq_nil_iff]
    intro t ht habove
    exact absurd (h t ht) (not_le.2 ((Triangle.above_iff t p).1 habove))
  have hall : m.filter (fun t => !t.above p) = m := by
    rw [List.filter_eq_self]
    intro t ht
    simpa [Triangle.above_eq_false_iff] using h t ht
  rw [grow_eq, outline, hnone, hall]
  simp [edges, cone, Edge.border]

/-- The edges of what a point sees and of what it does not see are all edges. -/
theorem edges_perm (m : Mesh Int) (p : Block) :
    (edges (m.filter (·.above p)) ++ edges (m.filter (fun t => !t.above p))).Perm
      m.edges := by
  simp only [edges, ← List.flatMap_append]
  exact (List.filter_append_perm _ m).flatMap_right _

/-- Each triangle has one edge that starts and one that stops at each of its corners. -/
theorem edges_balanced (m : Mesh Int) :
    (m.edges.map Edge.start).Perm (m.edges.map Edge.stop) := by
  induction m with
  | nil => exact List.Perm.refl _
  | cons t m ih =>
      have hturn : (t.edges.map Edge.start).Perm (t.edges.map Edge.stop) := by
        change ([t.a] ++ [t.b, t.c]).Perm ([t.b, t.c] ++ [t.a])
        exact List.perm_append_comm
      simpa [edges] using hturn.append ih

namespace Convex

variable {m : Mesh Int} {p : Block}

theorem fit_seen (h : m.Convex) : Edge.Fit (edges (m.filter (·.above p))) :=
  h.fit.of_sublist (List.filter_sublist.flatMap _)

theorem outline_nodup (h : m.Convex) : (m.outline p).Nodup :=
  (Edge.border_spec h.fit_seen).1

theorem mem_outline_iff (h : m.Convex) {e : Edge Block} :
    e ∈ m.outline p ↔ ∃ front back, m.Outlines p e front back := by
  have hnodup := (edges_perm m p).nodup_iff.2 h.edges_nodup
  rw [outline, Edge.mem_border_iff h.fit_seen]
  constructor
  · rintro ⟨hseen, hreverse⟩
    obtain ⟨front, hfront, hedge⟩ := mem_edges_iff.1 hseen
    obtain ⟨hmem, hsees⟩ := List.mem_filter.1 hfront
    have hback := h.reverse_mem e (mem_edges_iff.2 ⟨front, hmem, hedge⟩)
    obtain ⟨back, hbackmem, hbackedge⟩ := mem_edges_iff.1 hback
    refine ⟨front, back, hmem, hedge, (Triangle.above_iff _ _).1 hsees, hbackmem,
      hbackedge, ?_⟩
    by_contra hsees'
    apply hreverse
    apply mem_edges_iff.2
    exact ⟨back, List.mem_filter.2 ⟨hbackmem,
      (Triangle.above_iff _ _).2 (not_le.1 hsees')⟩, hbackedge⟩
  · rintro ⟨front, back, hout⟩
    have hseen : e ∈ edges (m.filter (·.above p)) := mem_edges_iff.2
      ⟨front, List.mem_filter.2 ⟨hout.front_mem,
      (Triangle.above_iff _ _).2 hout.front_sees⟩,
        hout.front_edge⟩
    have hunseen : e.reverse ∈ edges (m.filter (fun t => !t.above p)) := by
      refine mem_edges_iff.2 ⟨back, List.mem_filter.2 ⟨hout.back_mem, ?_⟩,
        hout.back_edge⟩
      simpa [Triangle.above_eq_false_iff] using hout.back_misses
    refine ⟨hseen, fun hreverse => ?_⟩
    exact (List.nodup_append.1 hnodup).2.2 _ hreverse _ hunseen rfl

theorem mem_edges_of_mem_outline (h : m.Convex) {e : Edge Block} (he : e ∈ m.outline p) :
    e ∈ m.edges := by
  obtain ⟨front, back, hout⟩ := h.mem_outline_iff.1 he
  exact mem_edges_iff.2 ⟨front, hout.front_mem, hout.front_edge⟩

/-! ### What the new mesh encloses -/

theorem encloses_grow (h : m.Convex) {v : Block} (hv : m.Encloses v) :
    Encloses (m.grow Triangle.above p) v := by
  intro t ht
  rcases mem_grow_iff.1 ht with ⟨hmem, -⟩ | ⟨e, he, rfl⟩
  · exact hv t hmem
  · obtain ⟨front, back, hout⟩ := h.mem_outline_iff.1 he
    exact hout.cone_height_nonpos h hv

theorem encloses_apex (m : Mesh Int) (p : Block) :
    Encloses (m.grow Triangle.above p) p := by
  intro t ht
  rcases mem_grow_iff.1 ht with ⟨-, hmiss⟩ | ⟨e, -, rfl⟩
  · exact hmiss
  · exact le_of_eq (Triangle.height_corner (by simp [Edge.cone, Triangle.corners]))

theorem corner_of_grow (h : m.Convex) {c : Block}
    (hc : c ∈ corners (m.grow Triangle.above p)) : c ∈ m.corners ∨ c = p := by
  obtain ⟨t, ht, hct⟩ := mem_corners_iff.1 hc
  rcases mem_grow_iff.1 ht with ⟨hmem, -⟩ | ⟨e, he, rfl⟩
  · exact Or.inl (mem_corners_iff.2 ⟨t, hmem, hct⟩)
  · have hedge := h.mem_edges_of_mem_outline he
    simp only [Edge.cone, Triangle.corners, List.mem_cons, List.not_mem_nil, or_false]
      at hct
    rcases hct with rfl | rfl | rfl
    · exact Or.inl (start_mem_corners hedge)
    · exact Or.inl (stop_mem_corners hedge)
    · exact Or.inr rfl

theorem encloses_corner_grow (h : m.Convex) :
    ∀ c ∈ corners (m.grow Triangle.above p), Encloses (m.grow Triangle.above p) c := by
  intro c hc
  rcases h.corner_of_grow hc with hold | rfl
  · exact h.encloses_grow (h.encloses_corner c hold)
  · exact encloses_apex m c

theorem exists_below_grow (h : m.Convex) :
    ∀ t ∈ m.grow Triangle.above p,
      ∃ q, Encloses (m.grow Triangle.above p) q ∧ t.height q < 0 := by
  intro t ht
  rcases mem_grow_iff.1 ht with ⟨hmem, -⟩ | ⟨e, he, rfl⟩
  · obtain ⟨q, hq, hbelow⟩ := h.exists_below t hmem
    exact ⟨q, h.encloses_grow hq, hbelow⟩
  · obtain ⟨front, back, hout⟩ := h.mem_outline_iff.1 he
    obtain ⟨q, hq, hbelow⟩ := h.exists_below back hout.back_mem
    exact ⟨q, h.encloses_grow hq, hout.cone_height_neg h hq hbelow⟩

/-! ### How the new edges fit together -/

theorem mem_edges_cone_iff {border : List (Edge Block)} {e : Edge Block} :
    e ∈ edges (cone border p) ↔
      e ∈ border ∨ ∃ f ∈ border, e = ⟨f.stop, p⟩ ∨ e = ⟨p, f.start⟩ := by
  simp only [edges, cone, Edge.cone, Triangle.edges, List.mem_flatMap, List.mem_map,
    exists_exists_and_eq_and, List.mem_cons, List.not_mem_nil, or_false]
  constructor
  · rintro ⟨f, hf, rfl | hnew⟩
    · exact Or.inl hf
    · exact Or.inr ⟨f, hf, hnew⟩
  · rintro (hf | ⟨f, hf, hnew⟩)
    · exact ⟨e, hf, Or.inl rfl⟩
    · exact ⟨f, hf, Or.inr hnew⟩

theorem mem_edges_grow_iff {e : Edge Block} :
    e ∈ edges (m.grow Triangle.above p) ↔
      e ∈ edges (m.filter (fun t => !t.above p)) ∨ e ∈ m.outline p ∨
        ∃ f ∈ m.outline p, e = ⟨f.stop, p⟩ ∨ e = ⟨p, f.start⟩ := by
  rw [grow_eq, edges, List.flatMap_append, List.mem_append]
  exact or_congr Iff.rfl mem_edges_cone_iff

/-- A point that sees a triangle is no corner. -/
theorem apex_not_mem_corners (h : m.Convex) (hsees : ¬m.Encloses p) : p ∉ m.corners :=
  fun hp => hsees (h.encloses_corner p hp)

theorem edge_free_grow (h : m.Convex) (hsees : ¬m.Encloses p) :
    ∀ e ∈ edges (m.grow Triangle.above p), ∀ c ∈ corners (m.grow Triangle.above p),
      ¬Block.Between e.start e.stop c := by
  have hold : ∀ e ∈ m.edges, ∀ c ∈ corners (m.grow Triangle.above p),
      ¬Block.Between e.start e.stop c := by
    intro e he c hc hbetween
    rcases h.corner_of_grow hc with hcorner | rfl
    · exact h.edge_free e he c hcorner hbetween
    · apply hsees
      intro t ht
      exact Block.orient_nonpos_of_between hbetween
        (h.encloses_corner _ (start_mem_corners he) t ht)
        (h.encloses_corner _ (stop_mem_corners he) t ht)
  have hspoke : ∀ t ∈ m, 0 < t.height p → ∀ v ∈ t.corners,
      ∀ c ∈ corners (m.grow Triangle.above p), ¬Block.Between v p c := by
    intro t ht hsees' v hv c hc hbetween
    rcases h.corner_of_grow hc with hcorner | rfl
    · have habove :=
        Block.orient_pos_of_between hbetween (Triangle.height_corner hv) hsees'
      exact absurd (h.encloses_corner c hcorner t ht) (not_le.2 habove)
    · exact lt_irrefl _ hbetween.2.2
  intro e he c hc
  rcases mem_edges_grow_iff.1 he with hkept | houtline | ⟨f, hf, rfl | rfl⟩
  · exact hold e ((edges_perm m p).mem_iff.1 (by simp [hkept])) c hc
  · exact hold e (h.mem_edges_of_mem_outline houtline) c hc
  · obtain ⟨front, back, hout⟩ := h.mem_outline_iff.1 hf
    exact hspoke front hout.front_mem hout.front_sees _
      (Triangle.stop_mem_corners hout.front_edge) c hc
  · obtain ⟨front, back, hout⟩ := h.mem_outline_iff.1 hf
    intro hbetween
    exact hspoke front hout.front_mem hout.front_sees _
      (Triangle.start_mem_corners hout.front_edge) c hc (Block.between_comm hbetween)

/-- At most one border edge starts at any point: neither of two ends would lie above the
cone over the other edge, so the two edges would run along one ray. -/
theorem eq_of_mem_outline (h : m.Convex) {e e' : Edge Block} (he : e ∈ m.outline p)
    (he' : e' ∈ m.outline p) (hstart : e.start = e'.start) : e = e' := by
  obtain ⟨front, back, hout⟩ := h.mem_outline_iff.1 he
  obtain ⟨front', back', hout'⟩ := h.mem_outline_iff.1 he'
  obtain ⟨v, a⟩ := e
  obtain ⟨v', b⟩ := e'
  obtain rfl : v = v' := hstart
  by_contra hne
  have hedge := h.mem_edges_of_mem_outline he
  have hedge' := h.mem_edges_of_mem_outline he'
  have ha := h.encloses_corner a (stop_mem_corners hedge)
  have hb := h.encloses_corner b (stop_mem_corners hedge')
  obtain ⟨f, -, hopposite⟩ := Triangle.exists_opposite hout.front_edge
  obtain ⟨g, -, hopposite'⟩ := Triangle.exists_opposite hout'.front_edge
  have hf : ∀ q, front.height q = Vec3.det (a - v) (f - v) (q - v) := hopposite
  have hg : ∀ q, front'.height q = Vec3.det (b - v) (g - v) (q - v) := hopposite'
  obtain ⟨q, hq, hbelow⟩ := h.exists_below back hout.back_mem
  obtain ⟨q', hq', hbelow'⟩ := h.exists_below back' hout'.back_mem
  have hdet_add : ∀ u : Block, Vec3.det u (p - v) ((q - v) + (q' - v)) =
      Vec3.det u (p - v) (q - v) + Vec3.det u (p - v) (q' - v) := by
    intro u
    simp only [Vec3.det, Vec3.add_x, Vec3.add_y, Vec3.add_z]
    ring
  have hcone : Vec3.det (a - v) (p - v) (q - v) < 0 := hout.cone_height_neg h hq hbelow
  have hcone' : Vec3.det (b - v) (p - v) (q' - v) < 0 :=
    hout'.cone_height_neg h hq' hbelow'
  have hother : Vec3.det (a - v) (p - v) (q' - v) ≤ 0 := hout.cone_height_nonpos h hq'
  have hother' : Vec3.det (b - v) (p - v) (q - v) ≤ 0 := hout'.cone_height_nonpos h hq
  have hpb : Vec3.det (a - v) (p - v) (b - v) ≤ 0 := hout.cone_height_nonpos h hb
  have hpa : Vec3.det (b - v) (p - v) (a - v) ≤ 0 := hout'.cone_height_nonpos h ha
  have hfp : 0 < Vec3.det (a - v) (f - v) (p - v) := hf p ▸ hout.front_sees
  have hfb : Vec3.det (a - v) (f - v) (b - v) ≤ 0 := hf b ▸ hb front hout.front_mem
  have hgp : 0 < Vec3.det (b - v) (g - v) (p - v) := hg p ▸ hout'.front_sees
  have hga : Vec3.det (b - v) (g - v) (a - v) ≤ 0 := hg a ▸ ha front' hout'.front_mem
  have hray := Block.same_ray_of_border hpb hpa hfp hfb hgp hga
    (by rw [hdet_add]; omega) (by rw [hdet_add]; omega)
  have hab : a ≠ b := fun heq => hne (by rw [heq])
  rcases Block.between_of_same_ray hab hray.1 hray.2 with hbetween | hbetween
  · exact h.edge_free _ hedge' a (stop_mem_corners hedge) hbetween
  · exact h.edge_free _ hedge b (stop_mem_corners hedge') hbetween

theorem outline_starts_nodup (h : m.Convex) : ((m.outline p).map Edge.start).Nodup := by
  apply List.Nodup.map_on
  · intro e he e' he' hstart
    exact h.eq_of_mem_outline he he' hstart
  · exact h.outline_nodup

/-- Border edges start where border edges stop. -/
theorem outline_balanced (h : m.Convex) :
    ((m.outline p).map Edge.start).Perm ((m.outline p).map Edge.stop) :=
  Edge.border_balanced h.fit_seen (edges_balanced _)

theorem eq_of_mem_outline_of_stop_eq (h : m.Convex) {e e' : Edge Block}
    (he : e ∈ m.outline p) (he' : e' ∈ m.outline p) (hstop : e.stop = e'.stop) :
    e = e' := by
  have hnodup : ((m.outline p).map Edge.stop).Nodup :=
    h.outline_balanced.nodup_iff.1 h.outline_starts_nodup
  exact List.inj_on_of_nodup_map hnodup he he' hstop

theorem edges_grow_nodup (h : m.Convex) (hsees : ¬m.Encloses p) :
    (edges (m.grow Triangle.above p)).Nodup := by
  have hp := h.apex_not_mem_corners hsees
  have hkept := (edges_perm m p).nodup_iff.2 h.edges_nodup
  have hends : ∀ e ∈ m.outline p, e.start ≠ p ∧ e.stop ≠ p ∧ e.start ≠ e.stop := by
    intro e he
    have hedge := h.mem_edges_of_mem_outline he
    refine ⟨?_, ?_, h.start_ne_stop hedge⟩
    · rintro rfl
      exact hp (start_mem_corners hedge)
    · rintro rfl
      exact hp (stop_mem_corners hedge)
  rw [grow_eq, edges, List.flatMap_append, List.nodup_append]
  refine ⟨(List.nodup_append.1 hkept).2.1, ?_, ?_⟩
  · rw [cone, List.flatMap_map, List.nodup_flatMap]
    constructor
    · intro e he
      obtain ⟨hstart, hstop, hne⟩ := hends e he
      simp [Edge.cone, Triangle.edges, hstart, hstop, hne, hstart.symm]
    · apply h.outline_nodup.pairwise_of_forall_ne
      intro e he e' he' hne x hx hx'
      obtain ⟨hstart, hstop, -⟩ := hends e he
      obtain ⟨hstart', hstop', -⟩ := hends e' he'
      simp only [Edge.cone, Triangle.edges, List.mem_cons, List.not_mem_nil, or_false]
        at hx hx'
      rcases hx with rfl | rfl | rfl
      · rcases hx' with heq | heq | heq
        · exact hne heq
        · exact hstop (congrArg Edge.stop heq)
        · exact hstart (congrArg Edge.start heq)
      · rcases hx' with heq | heq | heq
        · exact hstop' (congrArg Edge.stop heq).symm
        · exact hne (h.eq_of_mem_outline_of_stop_eq he he' (congrArg Edge.start heq))
        · exact hstop (congrArg Edge.start heq)
      · rcases hx' with heq | heq | heq
        · exact hstart' (congrArg Edge.start heq).symm
        · exact hstart (congrArg Edge.stop heq)
        · exact hne (h.eq_of_mem_outline he he' (congrArg Edge.stop heq))
  · rintro x hx y hy rfl
    have hmem : x ∈ m.edges := (edges_perm m p).mem_iff.1 (List.mem_append_right _ hx)
    rcases mem_edges_cone_iff.1 hy with houtline | ⟨f, -, rfl | rfl⟩
    · have hseen := ((Edge.mem_border_iff h.fit_seen).1 houtline).1
      exact (List.nodup_append.1 hkept).2.2 _ hseen _ hx rfl
    · exact hp (stop_mem_corners hmem)
    · exact hp (start_mem_corners hmem)

theorem reverse_mem_grow (h : m.Convex) :
    ∀ e ∈ edges (m.grow Triangle.above p), e.reverse ∈
      edges (m.grow Triangle.above p) := by
  intro e he
  rw [mem_edges_grow_iff]
  rcases mem_edges_grow_iff.1 he with hkept | houtline | ⟨f, hf, rfl | rfl⟩
  · obtain ⟨back, hback, hbackedge⟩ := mem_edges_iff.1 hkept
    obtain ⟨hbackmem, hmiss⟩ := List.mem_filter.1 hback
    have hreverse := h.reverse_mem e (mem_edges_iff.2 ⟨back, hbackmem, hbackedge⟩)
    obtain ⟨front, hfront, hfrontedge⟩ := mem_edges_iff.1 hreverse
    by_cases hsees : 0 < front.height p
    · right
      left
      apply h.mem_outline_iff.2
      refine ⟨front, back, hfront, hfrontedge, hsees, hbackmem, hbackedge, ?_⟩
      simpa [Triangle.above_eq_false_iff] using hmiss
    · left
      refine mem_edges_iff.2 ⟨front, List.mem_filter.2 ⟨hfront, ?_⟩, hfrontedge⟩
      simpa [Triangle.above_eq_false_iff] using hsees
  · obtain ⟨front, back, hout⟩ := h.mem_outline_iff.1 houtline
    left
    refine mem_edges_iff.2 ⟨back, List.mem_filter.2 ⟨hout.back_mem, ?_⟩, hout.back_edge⟩
    simpa [Triangle.above_eq_false_iff] using hout.back_misses
  · have hstop : f.stop ∈ (m.outline p).map Edge.start :=
      h.outline_balanced.mem_iff.2 (List.mem_map_of_mem hf)
    obtain ⟨g, hg, hgstart⟩ := List.mem_map.1 hstop
    exact Or.inr (Or.inr ⟨g, hg, Or.inr (by rw [hgstart]; rfl)⟩)
  · have hstart : f.start ∈ (m.outline p).map Edge.stop :=
      h.outline_balanced.mem_iff.1 (List.mem_map_of_mem hf)
    obtain ⟨g, hg, hgstop⟩ := List.mem_map.1 hstart
    exact Or.inr (Or.inr ⟨g, hg, Or.inl (by rw [hgstop]; rfl)⟩)

theorem grow (h : m.Convex) (hsees : ¬m.Encloses p) :
    Convex (m.grow Triangle.above p) where
  edges_nodup := h.edges_grow_nodup hsees
  reverse_mem := h.reverse_mem_grow
  encloses_corner := h.encloses_corner_grow
  exists_below := h.exists_below_grow
  edge_free := h.edge_free_grow hsees

end Convex

/-!
## Sums around a closed mesh

Every edge of a closed mesh is met once in either direction, so what changes its sign
with the direction cancels out in a sum over all edges.  In particular the heights of a
point above all triangles have the same sum wherever the point is.
-/

theorem sum_edges {R : Type} [AddCommMonoid R] (m : Mesh Int) (f : Edge Block → R) :
    (m.edges.map f).sum = (m.map fun t => (t.edges.map f).sum).sum := by
  induction m with
  | nil => rfl
  | cons t m ih =>
      have hcons : edges (t :: m) = t.edges ++ edges m := rfl
      rw [hcons, List.map_append, List.sum_append, ih, List.map_cons, List.sum_cons]

namespace Convex

variable {m : Mesh Int}

theorem edges_reverse_perm (h : m.Convex) : (m.edges.map Edge.reverse).Perm m.edges := by
  have hinj : Function.Injective (Edge.reverse (P := Block)) :=
    fun e f => Edge.reverse_inj.1
  rw [List.perm_ext_iff_of_nodup (h.edges_nodup.map hinj) h.edges_nodup]
  intro e
  rw [List.mem_map]
  constructor
  · rintro ⟨f, hf, rfl⟩
    exact h.reverse_mem f hf
  · intro he
    exact ⟨e.reverse, h.reverse_mem e he, e.reverse_reverse⟩

/-- What changes its sign with the direction of an edge cancels out around
a closed mesh. -/
theorem sum_edges_eq_zero {R : Type} [AddCommGroup R] [LinearOrder R]
    [IsOrderedAddMonoid R] (h : m.Convex) {f : Edge Block → R}
    (hf : ∀ e, f e.reverse = -f e) :
    (m.edges.map f).sum = 0 := by
  have hperm := (h.edges_reverse_perm.map f).sum_eq
  have hneg :
      ∀ l : List (Edge Block), ((l.map Edge.reverse).map f).sum = -(l.map f).sum := by
    intro l
    induction l with
    | nil => simp
    | cons e l ih => simp only [List.map_cons, List.sum_cons, ih, hf, neg_add]
  rw [hneg] at hperm
  exact self_eq_neg.1 hperm.symm

/-- Every triangle has a corner of the mesh below it.

If all corners lay in the plane of one triangle, the volumes over all triangles as seen
from a point below that plane would all have one sign, but they cancel out. -/
theorem exists_corner_below (h : m.Convex) {t : Triangle Int} (ht : t ∈ m) :
    ∃ c ∈ m.corners, t.height c < 0 := by
  by_contra hnone
  have hflat : ∀ c ∈ m.corners, t.height c = 0 := by
    intro c hc
    by_contra hne
    exact hnone ⟨c, hc, lt_of_le_of_ne (h.encloses_corner c hc t ht) hne⟩
  obtain ⟨p, hp, hbelow⟩ := h.exists_below t ht
  have hvolume : ∀ T ∈ m,
      (T.edges.map fun e => Vec3.det e.start e.stop (p - t.a)).sum = T.height p := by
    intro T hT
    have hcorner : ∀ c ∈ T.corners, Vec3.det (t.b - t.a) (t.c - t.a) (c - t.a) = 0 :=
      fun c hc => hflat c (mem_corners_iff.2 ⟨T, hT, hc⟩)
    have hproduct := Vec3.det_mul_det (t.b - t.a) (t.c - t.a) (p - t.a)
      (T.a - t.a) (T.b - t.a) (T.c - t.a)
    obtain ⟨ha, hb, hc⟩ := Triangle.forall_mem_corners.1 hcorner
    rw [ha, hb, hc, zero_mul, zero_mul, zero_mul, add_zero, add_zero] at hproduct
    have hplane := (Int.mul_eq_zero.1 hproduct).resolve_left hbelow.ne
    rw [Triangle.height, Vec3.orient_eq_add T.a T.b T.c p t.a, hplane]
    simp only [Triangle.edges, List.map_cons, List.map_nil, List.sum_cons, List.sum_nil]
    ring
  have hzero := h.sum_edges_eq_zero (f := fun e => Vec3.det e.start e.stop (p - t.a))
    (fun e => Vec3.det_swap _ _ _)
  rw [sum_edges, List.map_congr_left hvolume] at hzero
  have hneg : (m.map fun T => T.height p).sum < (m.map fun _ => (0 : Int)).sum :=
    List.sum_lt_sum _ _ hp ⟨t, ht, hbelow⟩
  simp only [List.map_const', List.sum_replicate, smul_zero] at hneg
  omega

/-- No point sees every triangle: the sum of its heights is that of the
heights of a corner. -/
theorem exists_misses (h : m.Convex) (hne : m ≠ []) (p : Block) :
    ∃ t ∈ m, t.height p ≤ 0 := by
  by_contra hnone
  have hsees : ∀ t ∈ m, 0 < t.height p := by
    intro t ht
    by_contra hmiss
    exact hnone ⟨t, ht, not_lt.1 hmiss⟩
  obtain ⟨t₀, ht₀⟩ := List.exists_mem_of_ne_nil m hne
  have hcorner := h.encloses_corner t₀.a (a_mem_corners ht₀)
  have hrise : ∀ T ∈ m, (T.edges.map fun e => Vec3.det e.start e.stop (p - t₀.a)).sum =
      T.height p - T.height t₀.a := by
    intro T _
    simp only [Triangle.edges, List.map_cons, List.map_nil, List.sum_cons, List.sum_nil]
    simp only [Triangle.height, Vec3.orient, Vec3.det, Vec3.sub_x, Vec3.sub_y,
      Vec3.sub_z]
    ring
  have hzero := h.sum_edges_eq_zero (f := fun e => Vec3.det e.start e.stop (p - t₀.a))
    (fun e => Vec3.det_swap _ _ _)
  rw [sum_edges, List.map_congr_left hrise] at hzero
  have hpos : (m.map fun _ => (0 : Int)).sum <
      (m.map fun T => T.height p - T.height t₀.a).sum := by
    apply List.sum_lt_sum
    · intro T hT
      have := hsees T hT
      have := hcorner T hT
      omega
    · have := hsees t₀ ht₀
      have := hcorner t₀ ht₀
      exact ⟨t₀, ht₀, by omega⟩
  simp only [List.map_const', List.sum_replicate, smul_zero] at hpos
  omega

theorem grow_ne_nil (h : m.Convex) (hne : m ≠ []) (p : Block) :
    m.grow Triangle.above p ≠ [] := by
  obtain ⟨t, ht, hmiss⟩ := h.exists_misses hne p
  exact List.ne_nil_of_mem (mem_grow_iff.2 (Or.inl ⟨ht, hmiss⟩))

/-!
## The outline of what a point sees

A point outside a convex mesh sees some of its triangles but never all of them, so what
it sees has a border.  If it had none, the triangles it sees would form a closed mesh
themselves, and no point sees all of such a mesh.  A border edge is followed by another
one, never by its own reverse, so there are at least three of them, and each is joined to
the point by a triangle of its own.
-/

variable {m : Mesh Int} {p : Block}

/-- What has no border is a closed mesh itself. -/
theorem seen_of_outline_eq_nil (h : m.Convex) (hnone : m.outline p = []) :
    Convex (m.filter (·.above p)) := by
  have htriangle : ∀ t ∈ m.filter (·.above p), t ∈ m :=
    fun t ht => List.mem_of_mem_filter ht
  have hedge : ∀ e ∈ edges (m.filter (·.above p)), e ∈ m.edges := by
    intro e he
    obtain ⟨t, ht, het⟩ := mem_edges_iff.1 he
    exact mem_edges_iff.2 ⟨t, htriangle t ht, het⟩
  have hcorner : ∀ c ∈ corners (m.filter (·.above p)), c ∈ m.corners := by
    intro c hc
    obtain ⟨t, ht, hct⟩ := mem_corners_iff.1 hc
    exact mem_corners_iff.2 ⟨t, htriangle t ht, hct⟩
  refine ⟨h.fit_seen.nodup, ?_, ?_, ?_, ?_⟩
  · intro e he
    by_contra hreverse
    have hborder : e ∈ m.outline p := (Edge.mem_border_iff h.fit_seen).2 ⟨he, hreverse⟩
    rw [hnone] at hborder
    exact List.not_mem_nil hborder
  · intro c hc t ht
    exact h.encloses_corner c (hcorner c hc) t (htriangle t ht)
  · intro t ht
    obtain ⟨q, hq, hbelow⟩ := h.exists_below t (htriangle t ht)
    exact ⟨q, fun s hs => hq s (htriangle s hs), hbelow⟩
  · intro e he c hc
    exact h.edge_free e (hedge e he) c (hcorner c hc)

/-- What a point outside sees has a border. -/
theorem outline_ne_nil (h : m.Convex) (hsees : ¬m.Encloses p) : m.outline p ≠ [] := by
  intro hnone
  have hclosed := h.seen_of_outline_eq_nil hnone
  have hsome : m.filter (·.above p) ≠ [] := by
    intro hempty
    apply hsees
    intro t ht
    rw [← Triangle.above_eq_false_iff, Bool.eq_false_iff]
    exact List.filter_eq_nil_iff.1 hempty t ht
  obtain ⟨t, ht, hmiss⟩ := hclosed.exists_misses hsome p
  have habove := (Triangle.above_iff t p).1 (List.mem_filter.1 ht).2
  omega

/-- A border edge is followed by another one, which is not its reverse. -/
theorem exists_next (h : m.Convex) {e : Edge Block} (he : e ∈ m.outline p) :
    ∃ f ∈ m.outline p, f.start = e.stop ∧ f.stop ≠ e.start := by
  have hstop : e.stop ∈ (m.outline p).map Edge.start :=
    h.outline_balanced.mem_iff.2 (List.mem_map_of_mem he)
  obtain ⟨f, hf, hstart⟩ := List.mem_map.1 hstop
  refine ⟨f, hf, hstart, fun hback => ?_⟩
  have hreverse : f = e.reverse := by
    cases f
    simp_all [Edge.reverse]
  have hseen := ((Edge.mem_border_iff h.fit_seen).1 hf).1
  rw [hreverse] at hseen
  exact ((Edge.mem_border_iff h.fit_seen).1 he).2 hseen

/-- The border of what a point outside sees has at least three edges. -/
theorem three_le_length_outline (h : m.Convex) (hsees : ¬m.Encloses p) :
    3 ≤ (m.outline p).length := by
  obtain ⟨e, he⟩ := List.exists_mem_of_ne_nil _ (h.outline_ne_nil hsees)
  obtain ⟨f, hf, hfe, hback⟩ := h.exists_next he
  obtain ⟨g, hg, hgf, -⟩ := h.exists_next hf
  have hne : ∀ x ∈ m.outline p, x.start ≠ x.stop :=
    fun x hx => h.start_ne_stop (h.mem_edges_of_mem_outline hx)
  have hef : e ≠ f := by
    rintro rfl
    exact hne e he hfe
  have hfg : f ≠ g := by
    rintro rfl
    exact hne f hf hgf
  have heg : e ≠ g := by
    rintro rfl
    exact hback hgf.symm
  have hnodup : [e, f, g].Nodup := by simp [hef, hfg, heg]
  have hsub : [e, f, g] ⊆ m.outline p := by simp [he, hf, hg]
  exact (List.subperm_of_subset hnodup hsub).length_le

/-- A point outside becomes a corner of at least three triangles. -/
theorem three_le_count_apex (h : m.Convex) (hsees : ¬m.Encloses p) :
    3 ≤ (m.grow Triangle.above p).countP (fun t => t.corners.contains p) := by
  have hcone : (cone (m.outline p) p).countP (fun t => t.corners.contains p) =
      (m.outline p).length := by
    have hall : ∀ t ∈ cone (m.outline p) p, (t.corners.contains p) = true := by
      intro t ht
      obtain ⟨e, -, rfl⟩ := List.mem_map.1 ht
      simp [Edge.cone, Triangle.corners]
    rw [List.countP_eq_length.2 hall, cone, List.length_map]
  have hthree := h.three_le_length_outline hsees
  rw [grow_eq, List.countP_append, hcone]
  omega

end Convex
end Mesh
end LatticeHull
