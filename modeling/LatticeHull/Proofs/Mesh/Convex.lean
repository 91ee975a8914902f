import LatticeHull.Mesh
import LatticeHull.Proofs.Border
import LatticeHull.Proofs.Orientation

/-!
# Convex meshes

A mesh is convex if its triangles fit together edge to edge and no triangle sees a
corner.  What is called convex here is a little more, so that it is kept when the mesh
grows: every triangle has a point below it that no triangle sees, which rules out meshes
folded flat, and no edge runs through a corner.

The section on border edges holds the one geometric fact that growing rests on.  A border
edge lies between a triangle that the new point sees and one that it does not.  The
triangle that joins the edge to the point turns its outer side away from everything that
neither of the two sees.
-/

namespace LatticeHull

/-!
## Meshes at other places

A function on points moves every corner of a mesh.  Translations are such functions, and
so are the embeddings of whole points into other kinds of points.
-/

variable {α β : Type}

/-! ### Lists under a function that keeps comparisons -/

section Lists

variable {A B : Type} [BEq A] [BEq B] {f : A → B}

theorem contains_map_of {l : List A} {a : A} (h : ∀ b ∈ l, (f a == f b) = (a == b)) :
    (l.map f).contains (f a) = l.contains a := by
  induction l with
  | nil => rfl
  | cons b l ih =>
      simp only [List.map_cons, List.contains_cons]
      rw [h b List.mem_cons_self, ih fun c hc => h c (List.mem_cons_of_mem b hc)]

theorem erase_map_of {l : List A} {a : A} (h : ∀ b ∈ l, (f b == f a) = (b == a)) :
    (l.map f).erase (f a) = (l.erase a).map f := by
  induction l with
  | nil => rfl
  | cons b l ih =>
      simp only [List.map_cons, List.erase_cons]
      rw [h b List.mem_cons_self, ih fun c hc => h c (List.mem_cons_of_mem b hc)]
      split <;> rfl

theorem findIdx?_map_of {A B : Type} {f : A → B} {p : B → Bool} {q : A → Bool}
    {l : List A} (h : ∀ a ∈ l, p (f a) = q a) : (l.map f).findIdx? p = l.findIdx? q := by
  induction l with
  | nil => rfl
  | cons b l ih =>
      simp only [List.map_cons, List.findIdx?_cons]
      rw [h b List.mem_cons_self, ih fun c hc => h c (List.mem_cons_of_mem b hc)]

end Lists

namespace Vec3

theorem map_injective {f : α → β} (hf : Function.Injective f) :
    Function.Injective (map f) := by
  intro u v h
  simp only [map, Vec3.mk.injEq] at h
  obtain ⟨hx, hy, hz⟩ := h
  exact Vec3.ext (hf hx) (hf hy) (hf hz)

theorem orient_map {R S : Type} [CommRing R] [CommRing S] (f : R →+* S)
    (a b c d : Vec3 R) :
    orient (a.map f) (b.map f) (c.map f) (d.map f) = f (orient a b c d) := by
  simp only [orient, det, map, sub_x, sub_y, sub_z, map_add, map_sub, map_mul]

end Vec3

namespace Edge

variable {P Q : Type}

def map (f : P → Q) (e : Edge P) : Edge Q :=
  ⟨f e.start, f e.stop⟩

theorem map_injective {f : P → Q} (hf : Function.Injective f) :
    Function.Injective (map f) := by
  rintro ⟨a, b⟩ ⟨c, d⟩ h
  simp only [map, Edge.mk.injEq] at h
  rw [hf h.1, hf h.2]

theorem mem_of_mem_toggle {P : Type} [BEq P] {border : List (Edge P)} {e f : Edge P}
    (hf : f ∈ toggle border e) : f ∈ border ∨ f = e := by
  unfold toggle at hf
  split at hf
  · exact Or.inl (List.mem_of_mem_erase hf)
  · simpa using hf

theorem border_subset {P : Type} [BEq P] (edges : List (Edge P)) :
    border edges ⊆ edges := by
  induction edges using List.reverseRecOn with
  | nil => simp [border]
  | append_singleton edges e ih =>
      rw [border_concat]
      intro f hf
      rcases mem_of_mem_toggle hf with hold | rfl
      · exact List.mem_append_left _ (ih hold)
      · simp

/-- A function that keeps the comparisons between some edges keeps their border. -/
theorem border_map_of [BEq P] [BEq Q] {f : P → Q} {edges : List (Edge P)}
    (h : ∀ e ∈ edges, ∀ g ∈ edges, (e.map f == g.map f) = (e == g)) :
    border (edges.map (map f)) = (border edges).map (map f) := by
  induction edges using List.reverseRecOn with
  | nil => rfl
  | append_singleton edges e ih =>
      have hlast : e ∈ edges ++ [e] := by simp
      have hborder : ∀ g ∈ border edges, g ∈ edges ++ [e] :=
        fun g hg => List.mem_append_left _ (border_subset edges hg)
      have hstart : ∀ g ∈ edges, ∀ g' ∈ edges, (g.map f == g'.map f) = (g == g') :=
        fun g hg g' hg' =>
          h g (List.mem_append_left _ hg) g' (List.mem_append_left _ hg')
      rw [List.map_append, List.map_singleton, border_concat, border_concat, ih hstart,
        toggle, toggle, contains_map_of fun g hg => h e hlast g (hborder g hg),
        erase_map_of fun g hg => h g (hborder g hg) e hlast]
      split <;> simp

theorem reverse_map (f : P → Q) (e : Edge P) : (e.map f).reverse = e.reverse.map f := rfl

end Edge

namespace Triangle

def map (f : Vec3 α → Vec3 β) (t : Triangle α) : Triangle β :=
  ⟨f t.a, f t.b, f t.c⟩

theorem corners_map (f : Vec3 α → Vec3 β) (t : Triangle α) :
    (t.map f).corners = t.corners.map f := rfl

theorem forall_mem_corners {t : Triangle α} {p : Vec3 α → Prop} :
    (∀ c ∈ t.corners, p c) ↔ p t.a ∧ p t.b ∧ p t.c := by
  simp [corners]

theorem forall_mem_edges {t : Triangle α} {p : Edge (Vec3 α) → Prop} :
    (∀ e ∈ t.edges, p e) ↔ p ⟨t.a, t.b⟩ ∧ p ⟨t.b, t.c⟩ ∧ p ⟨t.c, t.a⟩ := by
  simp [edges]

theorem edges_map (f : Vec3 α → Vec3 β) (t : Triangle α) :
    (t.map f).edges = t.edges.map (Edge.map f) := rfl

end Triangle

namespace Mesh

theorem edges_map (f : Vec3 α → Vec3 β) (m : Mesh α) :
    edges (m.map (Triangle.map f)) = (edges m).map (Edge.map f) := by
  simp only [edges, List.flatMap_map, List.map_flatMap, Triangle.edges_map]

/-- A function that keeps what a point sees, and the comparisons between edges, keeps the
way in which a mesh grows by the point. -/
theorem grow_map_of [BEq α] [BEq β] {f : Vec3 α → Vec3 β}
    {sees : Triangle α → Vec3 α → Bool} {sees' : Triangle β → Vec3 β → Bool} {m : Mesh α}
    {p : Vec3 α} (hsees : ∀ t ∈ m, sees' (t.map f) (f p) = sees t p)
    (hedges : ∀ e ∈ m.edges, ∀ g ∈ m.edges, (e.map f == g.map f) = (e == g)) :
    grow sees' (List.map (Triangle.map f) m) (f p) =
      List.map (Triangle.map f) (grow sees m p) := by
  have hremoved : (List.map (Triangle.map f) m).filter (sees' · (f p)) =
      List.map (Triangle.map f) (m.filter (sees · p)) := by
    rw [List.filter_map]
    congr 1
    exact List.filter_congr fun t ht => hsees t ht
  have hkept : (List.map (Triangle.map f) m).filter (not ∘ fun t => sees' t (f p)) =
      List.map (Triangle.map f) (m.filter (not ∘ fun t => sees t p)) := by
    rw [List.filter_map]
    congr 1
    refine List.filter_congr fun t ht => ?_
    simp only [Function.comp_apply, hsees t ht]
  have hsub : edges (m.filter (sees · p)) ⊆ m.edges := by
    intro e he
    obtain ⟨t, ht, het⟩ := List.mem_flatMap.1 he
    exact List.mem_flatMap.2 ⟨t, List.mem_of_mem_filter ht, het⟩
  simp only [grow, List.partition_eq_filter_filter]
  rw [hremoved, hkept, edges_map,
    Edge.border_map_of fun e he g hg => hedges e (hsub he) g (hsub hg)]
  simp only [cone, List.map_append, List.map_map]
  rfl

end Mesh

/-! ## Heights and convexity -/

namespace Triangle

/-- Over whole numbers the half-space test reads the sign of the height. -/
theorem above_iff (t : Triangle Int) (p : Block) : t.above p = true ↔ 0 < t.height p :=
  above_exact_iff t p

theorem above_eq_false_iff (t : Triangle Int) (p : Block) :
    t.above p = false ↔ t.height p ≤ 0 := by
  rw [Bool.eq_false_iff, Ne, above_iff, not_lt]

theorem height_corner {t : Triangle Int} {c : Block} (hc : c ∈ t.corners) :
    t.height c = 0 := by
  simp only [corners, List.mem_cons, List.not_mem_nil, or_false] at hc
  rcases hc with rfl | rfl | rfl
  · exact Vec3.orient_start ..
  · exact Vec3.orient_middle ..
  · exact Vec3.orient_last ..

theorem exists_opposite {t : Triangle Int} {e : Edge Block} (he : e ∈ t.edges) :
    ∃ f ∈ t.corners, ∀ q, t.height q = Vec3.orient e.start e.stop f q := by
  simp only [edges, List.mem_cons, List.not_mem_nil, or_false] at he
  rcases he with rfl | rfl | rfl
  · exact ⟨t.c, by simp [corners], fun q => rfl⟩
  · exact ⟨t.a, by simp [corners], fun q => (Vec3.orient_rotate ..).symm⟩
  · refine ⟨t.b, by simp [corners], fun q => ?_⟩
    have htwice :=
      (Vec3.orient_rotate t.b t.c t.a q).trans (Vec3.orient_rotate t.a t.b t.c q)
    exact htwice.symm

theorem start_mem_corners {α : Type} {t : Triangle α} {e : Edge (Vec3 α)}
    (he : e ∈ t.edges) :
    e.start ∈ t.corners := by
  simp only [edges, List.mem_cons, List.not_mem_nil, or_false] at he
  rcases he with rfl | rfl | rfl <;> simp [corners]

theorem stop_mem_corners {α : Type} {t : Triangle α} {e : Edge (Vec3 α)}
    (he : e ∈ t.edges) :
    e.stop ∈ t.corners := by
  simp only [edges, List.mem_cons, List.not_mem_nil, or_false] at he
  rcases he with rfl | rfl | rfl <;> simp [corners]

end Triangle

namespace Mesh

def corners {α : Type} (m : Mesh α) : List (Vec3 α) :=
  m.flatMap Triangle.corners

theorem mem_corners_iff {α : Type} {m : Mesh α} {c : Vec3 α} :
    c ∈ m.corners ↔ ∃ t ∈ m, c ∈ t.corners := by
  simp [corners]

theorem a_mem_corners {α : Type} {m : Mesh α} {t : Triangle α} (ht : t ∈ m) :
    t.a ∈ m.corners :=
  mem_corners_iff.2 ⟨t, ht, List.mem_cons_self⟩

theorem mem_edges_iff {α : Type} {m : Mesh α} {e : Edge (Vec3 α)} :
    e ∈ m.edges ↔ ∃ t ∈ m, e ∈ t.edges := by
  simp [edges]

theorem start_mem_corners {m : Mesh Int} {e : Edge Block} (he : e ∈ m.edges) :
    e.start ∈ m.corners := by
  obtain ⟨t, ht, het⟩ := mem_edges_iff.1 he
  exact mem_corners_iff.2 ⟨t, ht, Triangle.start_mem_corners het⟩

theorem stop_mem_corners {m : Mesh Int} {e : Edge Block} (he : e ∈ m.edges) :
    e.stop ∈ m.corners := by
  obtain ⟨t, ht, het⟩ := mem_edges_iff.1 he
  exact mem_corners_iff.2 ⟨t, ht, Triangle.stop_mem_corners het⟩

/-- No triangle sees the point. -/
def Encloses (m : Mesh Int) (p : Block) : Prop :=
  ∀ t ∈ m, t.height p ≤ 0

/-- A closed mesh around a solid that lies on the inner side of every triangle. -/
structure Convex (m : Mesh Int) : Prop where
  edges_nodup : m.edges.Nodup
  reverse_mem : ∀ e ∈ m.edges, e.reverse ∈ m.edges
  encloses_corner : ∀ c ∈ m.corners, m.Encloses c
  exists_below : ∀ t ∈ m, ∃ p, m.Encloses p ∧ t.height p < 0
  edge_free : ∀ e ∈ m.edges, ∀ c ∈ m.corners, ¬Block.Between e.start e.stop c

namespace Convex

variable {m : Mesh Int}

theorem start_ne_stop (h : m.Convex) {e : Edge Block} (he : e ∈ m.edges) :
    e.start ≠ e.stop := by
  intro heq
  obtain ⟨t, ht, het⟩ := mem_edges_iff.1 he
  obtain ⟨f, -, hf⟩ := Triangle.exists_opposite het
  obtain ⟨p, -, hp⟩ := h.exists_below t ht
  rw [hf, heq] at hp
  have hswap := Vec3.orient_swap e.stop e.stop f p
  omega

/-- The edges of a convex mesh fit together. -/
theorem fit (h : m.Convex) : Edge.Fit m.edges where
  nodup := h.edges_nodup
  ne_reverse _ he hloop := h.start_ne_stop he (congrArg Edge.stop hloop)

end Convex

/-! ### Border edges -/

/-- An edge between a triangle that a point sees and one that it does not. -/
structure Outlines (m : Mesh Int) (p : Block) (e : Edge Block)
    (front back : Triangle Int) :
    Prop where
  front_mem : front ∈ m
  front_edge : e ∈ front.edges
  front_sees : 0 < front.height p
  back_mem : back ∈ m
  back_edge : e.reverse ∈ back.edges
  back_misses : back.height p ≤ 0

namespace Outlines

variable {m : Mesh Int} {p : Block} {e : Edge Block} {front back : Triangle Int}

/-- The plane from the edge to the point is a combination of the planes on
its two sides. -/
theorem exchange (h : m.Outlines p e front back) :
    ∃ g ∈ back.corners, ∀ v,
      front.height g * (e.cone p).height v =
        front.height v * back.height p - front.height p * back.height v := by
  obtain ⟨f, -, hf⟩ := Triangle.exists_opposite h.front_edge
  obtain ⟨g, hg, hback⟩ := Triangle.exists_opposite h.back_edge
  refine ⟨g, hg, fun v => ?_⟩
  rw [hf, hf, hf, hback, hback]
  exact Vec3.orient_exchange e.start e.stop f g p v

/-- What the triangle behind the edge has strictly below it is on the side of the new
triangle on which the triangle before the edge has the corner behind it. -/
theorem mul_height_pos (h : m.Outlines p e front back) {g v : Block}
    (hexchange : front.height g * (e.cone p).height v =
      front.height v * back.height p - front.height p * back.height v)
    (hv : m.Encloses v) (hbelow : back.height v < 0) :
    0 < front.height g * (e.cone p).height v := by
  have hfirst := mul_nonneg_of_nonpos_of_nonpos (hv front h.front_mem) h.back_misses
  have hsecond := mul_neg_of_pos_of_neg h.front_sees hbelow
  rw [hexchange]
  omega

/-- What the triangle behind the edge has strictly below it, the new
triangle has below it too. -/
theorem cone_height_neg (h : m.Outlines p e front back) (hm : m.Convex) {v : Block}
    (hv : m.Encloses v) (hbelow : back.height v < 0) : (e.cone p).height v < 0 := by
  obtain ⟨g, hg, hexchange⟩ := h.exchange
  have hfront : front.height g ≤ 0 :=
    hm.encloses_corner g (mem_corners_iff.2 ⟨back, h.back_mem, hg⟩) front h.front_mem
  exact neg_of_mul_pos_right (h.mul_height_pos (hexchange v) hv hbelow) hfront

/-- The corner behind the edge lies strictly below the triangle before it. -/
theorem front_height_neg (h : m.Outlines p e front back) (hm : m.Convex) :
    ∃ g ∈ back.corners, front.height g < 0 ∧ ∀ v,
      front.height g * (e.cone p).height v =
        front.height v * back.height p - front.height p * back.height v := by
  obtain ⟨g, hg, hexchange⟩ := h.exchange
  obtain ⟨c, hc, hbelow⟩ := hm.exists_below back h.back_mem
  have hproduct := h.mul_height_pos (hexchange c) hc hbelow
  exact ⟨g, hg, neg_of_mul_pos_left hproduct (h.cone_height_neg hm hc hbelow).le,
    hexchange⟩

/-- The new triangle sees nothing that the mesh encloses. -/
theorem cone_height_nonpos (h : m.Outlines p e front back) (hm : m.Convex) {v : Block}
    (hv : m.Encloses v) : (e.cone p).height v ≤ 0 := by
  obtain ⟨g, -, hg, hexchange⟩ := h.front_height_neg hm
  exact Vec3.nonpos_of_exchange (hexchange v) hg (hv front h.front_mem)
    (hv back h.back_mem)
    h.front_sees.le h.back_misses

end Outlines
end Mesh

/-!
## Moving a convex mesh

A translation moves all corners alike.  It changes no height and no line, so a convex
mesh stays convex, and it encloses a moved point if it enclosed the point.  Moving a mesh
and growing it by a moved point is growing it by the point and moving it then.
-/

theorem Block.between_add_iff {a b c d : Block} :
    Between (a + d) (b + d) (c + d) ↔ Between a b c := by
  have hsub : ∀ u v : Block, u + d - (v + d) = u - v := by
    intro u v
    ext
    · exact add_sub_add_right_eq_sub ..
    · exact add_sub_add_right_eq_sub ..
    · exact add_sub_add_right_eq_sub ..
  simp only [Between, hsub]

theorem Vec3.add_left_injective (d : Block) :
    Function.Injective fun v : Block => v + d := by
  intro u v h
  simp only [Vec3.ext_iff, Vec3.add_x, Vec3.add_y, Vec3.add_z] at h ⊢
  omega

theorem Triangle.height_moveBy (t : Triangle Int) (d p : Block) :
    (t.moveBy d).height (p + d) = t.height p := by
  simp only [height, moveBy, Vec3.orient, Vec3.det, Vec3.sub_x, Vec3.sub_y, Vec3.sub_z,
    Vec3.add_x, Vec3.add_y, Vec3.add_z]
  ring

theorem Triangle.above_moveBy (t : Triangle Int) (d p : Block) :
    (t.moveBy d).above (p + d) = t.above p := by
  rw [Bool.eq_iff_iff, above_iff, above_iff, height_moveBy]

theorem Edge.beq_map_add (e f : Edge Block) (d : Block) :
    (e.map (· + d) == f.map (· + d)) = (e == f) := by
  have hinjective := map_injective (Vec3.add_left_injective d)
  rw [Bool.eq_iff_iff, beq_iff, beq_iff, reverse_map, hinjective.eq_iff,
    hinjective.eq_iff]

namespace Mesh

variable {m : Mesh Int} {d : Block}

theorem moveBy_eq_map (m : Mesh Int) (d : Block) :
    m.moveBy d = List.map (Triangle.map (· + d)) m := rfl

theorem encloses_moveBy_iff {p : Block} :
    Encloses (m.moveBy d) (p + d) ↔ m.Encloses p := by
  simp only [Encloses, moveBy, List.forall_mem_map, Triangle.height_moveBy]

theorem mem_corners_moveBy_iff {c : Block} :
    c ∈ corners (m.moveBy d) ↔ ∃ v ∈ m.corners, v + d = c := by
  simp only [moveBy_eq_map, corners, List.flatMap_map, Triangle.corners_map,
    List.mem_flatMap, List.mem_map]
  constructor
  · rintro ⟨t, ht, v, hv, rfl⟩
    exact ⟨v, ⟨t, ht, hv⟩, rfl⟩
  · rintro ⟨v, ⟨t, ht, hv⟩, rfl⟩
    exact ⟨t, ht, v, hv, rfl⟩

theorem grow_moveBy (m : Mesh Int) (d p : Block) :
    Mesh.grow Triangle.above (Mesh.moveBy m d) (p + d) =
      Mesh.moveBy (m.grow Triangle.above p) d :=
  grow_map_of (fun t _ => Triangle.above_moveBy t d p) fun e _ f _ =>
    Edge.beq_map_add e f d

/-- A translation keeps a mesh convex. -/
theorem Convex.moveBy (h : m.Convex) (d : Block) : Convex (Mesh.moveBy m d) where
  edges_nodup := by
    rw [moveBy_eq_map, edges_map]
    exact h.edges_nodup.map (Edge.map_injective (Vec3.add_left_injective d))
  reverse_mem := by
    rw [moveBy_eq_map, edges_map]
    intro e he
    obtain ⟨f, hf, rfl⟩ := List.mem_map.1 he
    rw [Edge.reverse_map]
    exact List.mem_map_of_mem (h.reverse_mem f hf)
  encloses_corner := by
    intro c hc
    obtain ⟨v, hv, rfl⟩ := mem_corners_moveBy_iff.1 hc
    exact encloses_moveBy_iff.2 (h.encloses_corner v hv)
  exists_below := by
    intro t ht
    obtain ⟨s, hs, rfl⟩ := List.mem_map.1 ht
    obtain ⟨p, hp, hbelow⟩ := h.exists_below s hs
    exact ⟨p + d, encloses_moveBy_iff.2 hp, by rwa [Triangle.height_moveBy]⟩
  edge_free := by
    rw [moveBy_eq_map, edges_map]
    intro e he c hc
    obtain ⟨f, hf, rfl⟩ := List.mem_map.1 he
    obtain ⟨v, hv, rfl⟩ := mem_corners_moveBy_iff.1 hc
    intro hbetween
    exact h.edge_free f hf v hv (Block.between_add_iff.1 hbetween)

end Mesh
end LatticeHull
