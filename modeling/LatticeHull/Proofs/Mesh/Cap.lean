import LatticeHull.Proofs.Mesh.Sweep

/-!
# What a point sees of a convex mesh

The triangles that a point outside sees form a cap.  Seen from the point, the cap is
swept by a plane that turns about a line through the point.  A corner inside the cap is
passed as any corner of a closed mesh is.  A corner on the border is passed from one
border edge to the next, except for the first one and the last one: seen from the point,
the border is the outline of a convex figure, so a corner from which both border edges
lead to the same side has all of the border on that side.

So a cap has at least two triangles for each corner inside and one for each on
the border, but for two.
-/

namespace LatticeHull

namespace Vec3

theorem combine_inner (u v w : Vec3 ℝ) (r s : ℝ) :
    (combine r u s v).inner w = r * u.inner w + s * v.inner w := by
  simp only [inner, combine]
  ring

/-- Cramer's rule, seen through an inner product. -/
theorem det_mul_inner {R : Type} [CommRing R] (a u v w x : Vec3 R) :
    det u v w * a.inner x =
      a.inner u * det x v w + a.inner v * det u x w + a.inner w * det u v x := by
  simp only [det, inner]
  ring

theorem det_rotate {R : Type} [CommRing R] (u v w : Vec3 R) : det v w u = det u v w := by
  simp only [det]
  ring

/-- The difference of heights over a triangle is an inner product. -/
theorem exists_depth (t : Triangle ℝ) (p : Vec3 ℝ) :
    ∃ k : Vec3 ℝ, ∀ c, k.inner (c - p) = t.height p - t.height c := by
  refine ⟨⟨-((t.b - t.a).y * (t.c - t.a).z - (t.b - t.a).z * (t.c - t.a).y),
    -((t.b - t.a).z * (t.c - t.a).x - (t.b - t.a).x * (t.c - t.a).z),
    -((t.b - t.a).x * (t.c - t.a).y - (t.b - t.a).y * (t.c - t.a).x)⟩, fun c => ?_⟩
  simp only [inner, Triangle.height, orient, det, sub_x, sub_y, sub_z]
  ring

end Vec3

namespace Mesh

def cap (m : Mesh Int) (p : Block) : Mesh Int :=
  m.filter (·.above p)

def rest (m : Mesh Int) (p : Block) : Mesh Int :=
  m.filter fun t => !t.above p

/-- The corners on the border of the cap. -/
def rim (m : Mesh Int) (p : Block) : Finset Block :=
  ((m.outline p).map Edge.start).toFinset

section Parts

variable {m : Mesh Int} {p : Block} {t : Triangle Int}

theorem mem_cap : t ∈ m.cap p ↔ t ∈ m ∧ 0 < t.height p := by
  rw [cap, List.mem_filter, Triangle.above_iff]

theorem mem_rest : t ∈ m.rest p ↔ t ∈ m ∧ t.height p ≤ 0 := by
  rw [rest, List.mem_filter, Bool.not_eq_true', Triangle.above_eq_false_iff]

theorem length_cap_add_length_rest (m : Mesh Int) (p : Block) :
    (m.cap p).length + (m.rest p).length = m.length := by
  rw [← List.length_append]
  exact (List.filter_append_perm _ m).length_eq

theorem mem_corners_cap {c : Block} (hc : c ∈ m.corners)
    (hrest : c ∉ (m.rest p).corners) :
    c ∈ (m.cap p).corners := by
  obtain ⟨t, ht, hct⟩ := mem_corners_iff.1 hc
  by_cases hsees : 0 < t.height p
  · exact mem_corners_iff.2 ⟨t, mem_cap.2 ⟨ht, hsees⟩, hct⟩
  · exact absurd (mem_corners_iff.2 ⟨t, mem_rest.2 ⟨ht, not_lt.1 hsees⟩, hct⟩) hrest

theorem corners_cap_subset (m : Mesh Int) (p : Block) :
    (m.cap p).corners ⊆ m.corners := by
  intro c hc
  obtain ⟨t, ht, hct⟩ := mem_corners_iff.1 hc
  exact mem_corners_iff.2 ⟨t, (mem_cap.1 ht).1, hct⟩

theorem mem_rim {v : Block} : v ∈ m.rim p ↔ ∃ e ∈ m.outline p, e.start = v := by
  simp [rim]

end Parts

/-! ### The view from a point -/

/-- Whether all that a mesh encloses lies ahead of a point along some vector. -/
def Ahead (m : Mesh Int) (p : Block) (k : Vec3 ℝ) : Prop :=
  ∀ c, m.Encloses c → 0 < k.inner (c.real - p.real)

/-- The vector that shows how far one block is turned from another, as seen from a point:
it is zero if they lie on one ray. -/
noncomputable def parallax (p : Block) (k : Vec3 ℝ) (v c : Block) : Vec3 ℝ :=
  Vec3.combine (k.inner (v.real - p.real)) (c.real - p.real)
    (-k.inner (c.real - p.real)) (v.real - p.real)

/-- The direction orthogonal to the plane through a point and a block in which a plane
that turns about a line through the point sweeps on. -/
noncomputable def sweepNormal (p : Block) (k n : Vec3 ℝ) (v : Block) : Vec3 ℝ :=
  Vec3.combine (k.inner (v.real - p.real)) n (-n.inner (v.real - p.real)) k

/-- The slope at which a block is seen. -/
noncomputable def slant (p : Block) (k n : Vec3 ℝ) (c : Block) : ℝ :=
  n.inner (c.real - p.real) / k.inner (c.real - p.real)

section View

variable {m : Mesh Int} {p : Block} {k n : Vec3 ℝ}

theorem sweepNormal_inner (p : Block) (k n : Vec3 ℝ) (v c : Block) :
    (sweepNormal p k n v).inner (c.real - p.real) = n.inner (parallax p k v c) := by
  rw [sweepNormal, Vec3.combine_inner, parallax, Vec3.inner_combine]
  ring

/-- The plane through a point and a block contains both. -/
theorem sweepNormal_inner_self (p : Block) (k n : Vec3 ℝ) (v : Block) :
    (sweepNormal p k n v).inner (v.real - p.real) = 0 := by
  rw [sweepNormal, Vec3.combine_inner]
  ring

theorem sweepNormal_inner_sub (p : Block) (k n : Vec3 ℝ) (v c : Block) :
    (sweepNormal p k n v).inner (c.real - v.real) = n.inner (parallax p k v c) := by
  have hself := sweepNormal_inner_self p k n v
  rw [← sweepNormal_inner]
  simp only [Vec3.inner, Vec3.sub_x, Vec3.sub_y, Vec3.sub_z] at hself ⊢
  linarith

/-- A block is seen on the side of another one to which it is turned. -/
theorem inner_parallax (hk : m.Ahead p k) {v c : Block} (hv : m.Encloses v)
    (hc : m.Encloses c) :
    n.inner (parallax p k v c) =
      k.inner (v.real - p.real) * k.inner (c.real - p.real) *
        (slant p k n c - slant p k n v) := by
  have hdv := (hk v hv).ne'
  have hdc := (hk c hc).ne'
  rw [parallax, Vec3.inner_combine, slant, slant]
  field_simp
  ring

theorem slant_lt_iff (hk : m.Ahead p k) {v c : Block} (hv : m.Encloses v)
    (hc : m.Encloses c) :
    slant p k n v < slant p k n c ↔ 0 < n.inner (parallax p k v c) := by
  rw [inner_parallax hk hv hc, mul_pos_iff_of_pos_left (mul_pos (hk v hv) (hk c hc)),
    sub_pos]

theorem lt_slant_iff (hk : m.Ahead p k) {v c : Block} (hv : m.Encloses v)
    (hc : m.Encloses c) :
    slant p k n c < slant p k n v ↔ n.inner (parallax p k v c) < 0 := by
  rw [inner_parallax hk hv hc, ← neg_pos, ← mul_neg, neg_sub,
    mul_pos_iff_of_pos_left (mul_pos (hk v hv) (hk c hc)), sub_pos]

end View

namespace Convex

variable {m : Mesh Int} {p : Block} {k n : Vec3 ℝ}

/-- A point that sees a triangle looks at the mesh through it. -/
theorem exists_ahead (hsees : ¬m.Encloses p) : ∃ k : Vec3 ℝ, m.Ahead p k := by
  simp only [Encloses, not_forall, not_le] at hsees
  obtain ⟨t, ht, hp⟩ := hsees
  obtain ⟨k, hk⟩ := Vec3.exists_depth t.real p.real
  refine ⟨k, fun c hc => ?_⟩
  rw [hk, Triangle.height_real, Triangle.height_real, sub_pos, Int.cast_lt]
  exact (hc t ht).trans_lt hp

/-- Of two blocks on a ray, the one that a triangle in sight has for its
corner is not farther. -/
theorem depth_le_of_parallax (hk : m.Ahead p k) {v c : Block}
    (hv : v ∈ (m.cap p).corners) (hencv : m.Encloses v) (hencc : m.Encloses c)
    (hray : (parallax p k v c).x = 0 ∧ (parallax p k v c).y = 0 ∧
      (parallax p k v c).z = 0) :
    k.inner (v.real - p.real) ≤ k.inner (c.real - p.real) := by
  obtain ⟨t, ht, hvt⟩ := mem_corners_iff.1 hv
  obtain ⟨hmem, hp⟩ := mem_cap.1 ht
  obtain ⟨d, hd⟩ := Vec3.exists_depth t.real p.real
  have hzero : d.inner (parallax p k v c) = 0 := by
    simp only [Vec3.inner, hray.1, hray.2.1, hray.2.2, mul_zero, add_zero]
  rw [parallax, Vec3.inner_combine, hd, hd, Triangle.height_real, Triangle.height_real,
    Triangle.height_real, Triangle.height_corner hvt] at hzero
  have hpos : (0 : ℝ) < t.height p := by exact_mod_cast hp
  have hnonpos : (t.height c : ℝ) ≤ 0 := by exact_mod_cast hencc t hmem
  have hproduct := mul_nonpos_of_nonneg_of_nonpos (hk v hencv).le hnonpos
  by_contra hfar
  have hless := mul_lt_mul_of_pos_right (not_le.1 hfar) hpos
  push_cast at hzero
  linarith

/-- No two corners of a cap lie on one ray from the point. -/
theorem eq_of_parallax (h : m.Convex) (hk : m.Ahead p k) {v c : Block}
    (hv : v ∈ (m.cap p).corners) (hc : c ∈ (m.cap p).corners)
    (hray : (parallax p k v c).x = 0 ∧ (parallax p k v c).y = 0 ∧
      (parallax p k v c).z = 0) :
    c = v := by
  have hencv := h.encloses_corner v (corners_cap_subset m p hv)
  have hencc := h.encloses_corner c (corners_cap_subset m p hc)
  have hback : (parallax p k c v).x = 0 ∧ (parallax p k c v).y = 0 ∧
      (parallax p k c v).z = 0 := by
    simp only [parallax, Vec3.combine] at hray ⊢
    exact ⟨by linarith [hray.1], by linarith [hray.2.1], by linarith [hray.2.2]⟩
  have hdepth : k.inner (c.real - p.real) = k.inner (v.real - p.real) :=
    le_antisymm (depth_le_of_parallax hk hc hencc hencv hback)
      (depth_le_of_parallax hk hv hencv hencc hray)
  have hpos := hk v hencv
  simp only [parallax, Vec3.combine, hdepth] at hray
  have hcoordinate : ∀ a b : ℝ, k.inner (v.real - p.real) * a +
      -k.inner (v.real - p.real) * b = 0 → a = b := by
    intro a b hab
    have hfactor : k.inner (v.real - p.real) * (a - b) = 0 := by linarith
    exact sub_eq_zero.1 ((mul_eq_zero.1 hfactor).resolve_left hpos.ne')
  apply Vec3.map_injective (Int.cast_injective (α := ℝ))
  exact Vec3.ext (sub_left_injective (hcoordinate _ _ hray.1))
    (sub_left_injective (hcoordinate _ _ hray.2.1))
    (sub_left_injective (hcoordinate _ _ hray.2.2))

/-! ### Corners of a cap -/

theorem encloses_of_mem_cap (h : m.Convex) {c : Block} (hc : c ∈ (m.cap p).corners) :
    m.Encloses c :=
  h.encloses_corner c (corners_cap_subset m p hc)

theorem start_ne_stop_cap (h : m.Convex) : ∀ e ∈ (m.cap p).edges, e.start ≠ e.stop := by
  intro e he
  obtain ⟨t, ht, het⟩ := mem_edges_iff.1 he
  exact h.start_ne_stop (mem_edges_iff.2 ⟨t, (mem_cap.1 ht).1, het⟩)

/-- A plane that is level with no two corners of the cap sweeps over it. -/
theorem sweeps_cap (h : m.Convex) (hk : m.Ahead p k)
    (hn : ∀ v ∈ (m.cap p).corners, ∀ c ∈ (m.cap p).corners, c ≠ v →
      n.inner (parallax p k v c) ≠ 0) {v : Block} (hv : v ∈ (m.cap p).corners) :
    Sweeps (slant p k n) (m.cap p) v (sweepNormal p k n v) where
  lower c hc _ hless := by
    rw [sweepNormal_inner_sub]
    exact (lt_slant_iff hk (h.encloses_of_mem_cap hv) (h.encloses_of_mem_cap hc)).1 hless
  upper c hc _ hless := by
    rw [sweepNormal_inner_sub]
    exact (slant_lt_iff hk (h.encloses_of_mem_cap hv) (h.encloses_of_mem_cap hc)).1 hless
  distinct c hc hcv heq := by
    apply hn v hv c hc hcv
    rw [inner_parallax hk (h.encloses_of_mem_cap hv) (h.encloses_of_mem_cap hc), heq,
      sub_self, mul_zero]

/-- What is left over after turning around a corner of the cap is left
over at the border. -/
theorem sum_turn_cap (h : m.Convex) (slope : Block → ℝ) (v : Block) :
    ((m.cap p).edges.map (turn slope v)).sum = ((m.outline p).map (turn slope v)).sum :=
  (Edge.sum_border h.fit_seen _ (turn_reverse slope v)).symm

theorem mem_corners_rest_of_outline (h : m.Convex) {e : Edge Block}
    (he : e ∈ m.outline p) :
    e.start ∈ (m.rest p).corners ∧ e.stop ∈ (m.rest p).corners := by
  obtain ⟨front, back, hout⟩ := h.mem_outline_iff.1 he
  have hback : back ∈ m.rest p := mem_rest.2 ⟨hout.back_mem, hout.back_misses⟩
  exact ⟨mem_corners_iff.2 ⟨back, hback, Triangle.stop_mem_corners hout.back_edge⟩,
    mem_corners_iff.2 ⟨back, hback, Triangle.start_mem_corners hout.back_edge⟩⟩

theorem mem_corners_cap_of_outline (h : m.Convex) {e : Edge Block}
    (he : e ∈ m.outline p) :
    e.start ∈ (m.cap p).corners ∧ e.stop ∈ (m.cap p).corners := by
  obtain ⟨front, back, hout⟩ := h.mem_outline_iff.1 he
  have hfront : front ∈ m.cap p := mem_cap.2 ⟨hout.front_mem, hout.front_sees⟩
  exact ⟨mem_corners_iff.2 ⟨front, hfront, Triangle.start_mem_corners hout.front_edge⟩,
    mem_corners_iff.2 ⟨front, hfront, Triangle.stop_mem_corners hout.front_edge⟩⟩

/-- A corner inside the cap is in the middle of two triangles. -/
theorem two_le_card_middles_cap (h : m.Convex) (hk : m.Ahead p k)
    (hn : ∀ v ∈ (m.cap p).corners, ∀ c ∈ (m.cap p).corners, c ≠ v →
      n.inner (parallax p k v c) ≠ 0) {v : Block} (hv : v ∈ m.corners)
    (hrest : v ∉ (m.rest p).corners) : 2 ≤ (middles (slant p k n) (m.cap p) v).card := by
  have hcap := mem_corners_cap hv hrest
  have hclosed : (m.cap p).ClosesAt v := by
    intro slope
    rw [h.sum_turn_cap]
    apply List.sum_eq_zero
    intro x hx
    obtain ⟨e, he, rfl⟩ := List.mem_map.1 hx
    obtain ⟨hstart, hstop⟩ := h.mem_corners_rest_of_outline he
    have hstart' : e.start ≠ v := fun heq => hrest (heq ▸ hstart)
    have hstop' : e.stop ≠ v := fun heq => hrest (heq ▸ hstop)
    simp [turn, hstart', hstop']
  have htwo : (2 : ℝ) + -1 = 1 := by norm_num
  refine two_le_card_middles h.start_ne_stop_cap (h.sweeps_cap hk hn hcap) hcap hclosed
    (q := Vec3.combine 2 v.real (-1) p.real) ?_ ?_
  · have hself := sweepNormal_inner_self p k n v
    rw [Vec3.inner_combine_sub _ _ _ _ htwo]
    simp only [Vec3.inner, Vec3.sub_x, Vec3.sub_y, Vec3.sub_z] at hself ⊢
    linarith
  · intro t ht hvt
    have hp : (0 : ℝ) < t.height p := by exact_mod_cast (mem_cap.1 ht).2
    rw [Triangle.height_combine _ _ _ htwo, Triangle.height_real, Triangle.height_real,
      Triangle.height_corner hvt]
    push_cast
    linarith

/-! ### Corners on the border -/

/-- Around a corner on the border, a slope has risen by what lies between
the two border edges. -/
theorem sum_turn_outline (h : m.Convex) (slope : Block → ℝ) {e f : Edge Block}
    (he : e ∈ m.outline p) (hf : f ∈ m.outline p) (hnext : f.stop = e.start) :
    ((m.outline p).map (turn slope e.start)).sum = slope f.start - slope e.stop := by
  have hstops :
      ∑ x ∈ (m.outline p).toFinset, (if x.stop = e.start then slope x.start else 0) =
      slope f.start := by
    rw [Finset.sum_eq_single f, if_pos hnext]
    · intro x hx hxf
      refine if_neg fun heq => hxf ?_
      exact h.eq_of_mem_outline_of_stop_eq (List.mem_toFinset.1 hx) hf
        (heq.trans hnext.symm)
    · exact fun hnot => absurd (List.mem_toFinset.2 hf) hnot
  have hstarts :
      ∑ x ∈ (m.outline p).toFinset, (if x.start = e.start then slope x.stop else 0) =
      slope e.stop := by
    rw [Finset.sum_eq_single e, if_pos rfl]
    · intro x hx hxe
      exact if_neg fun heq => hxe (h.eq_of_mem_outline (List.mem_toFinset.1 hx) he heq)
    · exact fun hnot => absurd (List.mem_toFinset.2 he) hnot
  rw [← List.sum_toFinset _ h.outline_nodup, ← hstops, ← hstarts]
  exact Finset.sum_sub_distrib _ _

/-- The height over a new triangle, as a volume seen from the point. -/
theorem det_eq_cone_height (e : Edge Block) (p x : Block) :
    Vec3.det (e.start.real - p.real) (e.stop.real - p.real) (x.real - p.real) =
      (((e.cone p).height x : Int) : ℝ) :=
  (Vec3.orient_real p e.start e.stop x).trans
    (congrArg Int.cast (Vec3.orient_rotate p e.start e.stop x).symm)

/-- Seen from the point, everything enclosed lies on one side of a border edge. -/
theorem det_outline_nonpos (h : m.Convex) {e : Edge Block} (he : e ∈ m.outline p)
    {x : Block} (hx : m.Encloses x) :
    Vec3.det (e.start.real - p.real) (e.stop.real - p.real) (x.real - p.real) ≤ 0 := by
  obtain ⟨front, back, hout⟩ := h.mem_outline_iff.1 he
  rw [det_eq_cone_height]
  exact_mod_cast hout.cone_height_nonpos h hx

/-- Something enclosed lies off the plane through the point and a border edge. -/
theorem exists_det_outline_neg (h : m.Convex) {e : Edge Block} (he : e ∈ m.outline p) :
    ∃ x, m.Encloses x ∧
      Vec3.det (e.start.real - p.real) (e.stop.real - p.real) (x.real - p.real) < 0 := by
  obtain ⟨front, back, hout⟩ := h.mem_outline_iff.1 he
  obtain ⟨x, hx, hbelow⟩ := h.exists_below back hout.back_mem
  refine ⟨x, hx, ?_⟩
  rw [det_eq_cone_height]
  exact_mod_cast hout.cone_height_neg h hx hbelow

/-- Seen from the point, a plane through a corner on the border that has both neighbours
on one side has everything on that side. -/
theorem inner_nonneg_of_outline (h : m.Convex) {e f : Edge Block} (he : e ∈ m.outline p)
    (hf : f ∈ m.outline p) (hnext : f.stop = e.start) {a : Vec3 ℝ}
    (hlevel : a.inner (e.start.real - p.real) = 0)
    (hstop : 0 < a.inner (e.stop.real - p.real))
    (hstart : 0 < a.inner (f.start.real - p.real)) {w : Block} (hw : m.Encloses w) :
    0 ≤ a.inner (w.real - p.real) := by
  let v := e.start.real - p.real
  let next := e.stop.real - p.real
  let previous := f.start.real - p.real
  have hafter : ∀ x, m.Encloses x → Vec3.det v next (x.real - p.real) ≤ 0 :=
    fun x hx => h.det_outline_nonpos he hx
  have hbefore : ∀ x, m.Encloses x → Vec3.det v (x.real - p.real) previous ≤ 0 := by
    intro x hx
    have hcone := h.det_outline_nonpos hf hx
    rw [hnext] at hcone
    rwa [Vec3.det_rotate previous v (x.real - p.real)]
  have hcramer : ∀ x : Block, Vec3.det v next previous * a.inner (x.real - p.real) =
      a.inner next * Vec3.det v (x.real - p.real) previous +
        a.inner previous * Vec3.det v next (x.real - p.real) := by
    intro x
    rw [Vec3.det_mul_inner a v next previous, hlevel, zero_mul, zero_add]
  have hvolume : Vec3.det v next previous < 0 := by
    have hstartmem := h.encloses_of_mem_cap (h.mem_corners_cap_of_outline hf).1
    refine lt_of_le_of_ne (hafter _ hstartmem) fun hzero => ?_
    obtain ⟨x, hx, hstrict⟩ := h.exists_det_outline_neg he
    have hsum := hcramer x
    rw [hzero, zero_mul] at hsum
    have := mul_nonpos_of_nonneg_of_nonpos hstop.le (hbefore x hx)
    have := mul_neg_of_pos_of_neg hstart hstrict
    linarith
  have hsum := hcramer w
  have := mul_nonpos_of_nonneg_of_nonpos hstop.le (hbefore w hw)
  have := mul_nonpos_of_nonneg_of_nonpos hstart.le (hafter w hw)
  exact nonneg_of_mul_nonpos_right (by linarith) hvolume

/-- The same on the other side: the plane is turned over. -/
theorem inner_nonpos_of_outline (h : m.Convex) {e f : Edge Block} (he : e ∈ m.outline p)
    (hf : f ∈ m.outline p) (hnext : f.stop = e.start) {a : Vec3 ℝ}
    (hlevel : a.inner (e.start.real - p.real) = 0)
    (hstop : a.inner (e.stop.real - p.real) < 0)
    (hstart : a.inner (f.start.real - p.real) < 0) {w : Block} (hw : m.Encloses w) :
    a.inner (w.real - p.real) ≤ 0 := by
  have hturned : ∀ x, (Vec3.combine (-1) a 0 a).inner x = -a.inner x := by
    intro x
    rw [Vec3.combine_inner]
    ring
  have hside := h.inner_nonneg_of_outline he hf hnext (a := Vec3.combine (-1) a 0 a)
    (by rw [hturned, hlevel, neg_zero]) (by rwa [hturned, neg_pos])
    (by rwa [hturned, neg_pos]) hw
  rwa [hturned, neg_nonneg] at hside

theorem card_rim (h : m.Convex) : (m.rim p).card = (m.outline p).length := by
  rw [rim, List.toFinset_card_of_nodup h.outline_starts_nodup, List.length_map]

theorem mem_corners_of_mem_rim (h : m.Convex) {v : Block} (hv : v ∈ m.rim p) :
    v ∈ (m.cap p).corners ∧ v ∈ (m.rest p).corners := by
  obtain ⟨e, he, rfl⟩ := mem_rim.1 hv
  exact ⟨(h.mem_corners_cap_of_outline he).1, (h.mem_corners_rest_of_outline he).1⟩

/-- A corner with both border edges on one side comes first or last on the border. -/
theorem extreme_of_side_eq (h : m.Convex) (hk : m.Ahead p k)
    (hn : ∀ v ∈ (m.cap p).corners, ∀ c ∈ (m.cap p).corners, c ≠ v →
      n.inner (parallax p k v c) ≠ 0) {e f : Edge Block} (he : e ∈ m.outline p)
    (hf : f ∈ m.outline p) (hnext : f.stop = e.start)
    (hside : side (slant p k n) e.start f.start = side (slant p k n) e.start e.stop) :
    Extreme (slant p k n) (m.rim p) e.start := by
  obtain ⟨hv, hstop⟩ := h.mem_corners_cap_of_outline he
  obtain ⟨hstart, -⟩ := h.mem_corners_cap_of_outline hf
  have hdistinct := (h.sweeps_cap hk hn hv).distinct
  have hstopne :=
    hdistinct e.stop hstop (h.start_ne_stop (h.mem_edges_of_mem_outline he)).symm
  have hstartne := hdistinct f.start hstart
    (hnext ▸ h.start_ne_stop (h.mem_edges_of_mem_outline hf))
  have hrim : ∀ w ∈ m.rim p, m.Encloses w :=
    fun w hw => h.encloses_of_mem_cap (h.mem_corners_of_mem_rim hw).1
  have hself := sweepNormal_inner_self p k n e.start
  have hahead : ∀ c, m.Encloses c → (slant p k n e.start < slant p k n c ↔
      0 < (sweepNormal p k n e.start).inner (c.real - p.real)) := by
    intro c hc
    rw [slant_lt_iff hk (h.encloses_of_mem_cap hv) hc, sweepNormal_inner]
  have hbehind : ∀ c, m.Encloses c → (slant p k n c < slant p k n e.start ↔
      (sweepNormal p k n e.start).inner (c.real - p.real) < 0) := by
    intro c hc
    rw [lt_slant_iff hk (h.encloses_of_mem_cap hv) hc, sweepNormal_inner]
  by_cases hup : slant p k n e.start < slant p k n e.stop
  · have hup' : slant p k n e.start < slant p k n f.start := by
      by_contra hdown
      simp [side, hup, hdown] at hside
    rw [hahead _ (h.encloses_of_mem_cap hstop)] at hup
    rw [hahead _ (h.encloses_of_mem_cap hstart)] at hup'
    refine Or.inl fun w hw => not_lt.1 fun hless => ?_
    rw [hbehind w (hrim w hw)] at hless
    exact hless.not_ge (h.inner_nonneg_of_outline he hf hnext hself hup hup' (hrim w hw))
  · have hdown : slant p k n e.stop < slant p k n e.start :=
      lt_of_le_of_ne (not_lt.1 hup) hstopne
    have hdown' : slant p k n f.start < slant p k n e.start := by
      refine lt_of_le_of_ne (not_lt.1 fun hup' => ?_) hstartne
      simp [side, hup, hup'] at hside
    rw [hbehind _ (h.encloses_of_mem_cap hstop)] at hdown
    rw [hbehind _ (h.encloses_of_mem_cap hstart)] at hdown'
    refine Or.inr fun w hw => not_lt.1 fun hless => ?_
    rw [hahead w (hrim w hw)] at hless
    exact hless.not_ge (h.inner_nonpos_of_outline he hf hnext hself hdown hdown'
      (hrim w hw))

/-- A corner on the border is in the middle of a triangle, unless it comes
first or last there. -/
theorem one_le_card_middles_rim (h : m.Convex) (hk : m.Ahead p k)
    (hn : ∀ v ∈ (m.cap p).corners, ∀ c ∈ (m.cap p).corners, c ≠ v →
      n.inner (parallax p k v c) ≠ 0) {v : Block} (hv : v ∈ m.rim p)
    (hinner : ¬Extreme (slant p k n) (m.rim p) v) :
    1 ≤ (middles (slant p k n) (m.cap p) v).card := by
  obtain ⟨e, he, rfl⟩ := mem_rim.1 hv
  obtain ⟨f, hf, hnext⟩ :=
    List.mem_map.1 (h.outline_balanced.mem_iff.1 (List.mem_map_of_mem he))
  have hsweeps := h.sweeps_cap hk hn (h.mem_corners_cap_of_outline he).1
  apply one_le_card_middles h.start_ne_stop_cap hsweeps.distinct
  rw [h.sum_turn_cap, h.sum_turn_outline _ he hf hnext]
  intro hzero
  exact hinner (h.extreme_of_side_eq hk hn he hf hnext (sub_eq_zero.1 hzero))

/-- A cap has at least two triangles for each corner inside and one for each on
the border, but for two. -/
theorem card_cap (h : m.Convex) (hsees : ¬m.Encloses p) :
    2 * (m.corners.toFinset \ (m.rest p).corners.toFinset).card + (m.outline p).length ≤
      (m.cap p).length + 2 := by
  obtain ⟨k, hk⟩ := exists_ahead hsees
  obtain ⟨n, hn⟩ :
      ∃ n : Vec3 ℝ, ∀ v ∈ (m.cap p).corners, ∀ c ∈ (m.cap p).corners, c ≠ v →
      n.inner (parallax p k v c) ≠ 0 :=
    Vec3.exists_generic_pair fun v hv c hc hcv hray =>
      hcv (h.eq_of_parallax hk hv hc hray)
  let inside := m.corners.toFinset \ (m.rest p).corners.toFinset
  have hinside : ∀ v ∈ inside, v ∈ m.corners ∧ v ∉ (m.rest p).corners := by
    intro v hv
    obtain ⟨hmem, hrest⟩ := Finset.mem_sdiff.1 hv
    exact ⟨List.mem_toFinset.1 hmem, fun hin => hrest (List.mem_toFinset.2 hin)⟩
  have hdisjoint : Disjoint inside (m.rim p) := by
    rw [Finset.disjoint_left]
    exact fun v hv hrim => (hinside v hv).2 (h.mem_corners_of_mem_rim hrim).2
  have hcap : ∀ v ∈ inside ∪ m.rim p, v ∈ (m.cap p).corners := by
    intro v hv
    rcases Finset.mem_union.1 hv with hin | hrim
    · exact mem_corners_cap (hinside v hin).1 (hinside v hin).2
    · exact (h.mem_corners_of_mem_rim hrim).1
  have hkey : ∀ v ∈ inside ∪ m.rim p, ∀ w ∈ inside ∪ m.rim p,
      slant p k n v = slant p k n w → v = w := by
    intro v hv w hw heq
    by_contra hvw
    exact (h.sweeps_cap hk hn (hcap w hw)).distinct v (hcap v hv) hvw heq
  let count : Block → Nat := fun v => (middles (slant p k n) (m.cap p) v).card
  have htotal : ∑ v ∈ inside, count v + ∑ v ∈ m.rim p, count v ≤ (m.cap p).length := by
    rw [← Finset.sum_union hdisjoint]
    exact sum_card_middles_le hkey
  have hborder : 1 * (m.rim p).card ≤ ∑ v ∈ m.rim p, count v + 1 * 2 :=
    mul_card_le_sum_add
      (fun v hv w hw => hkey v (Finset.mem_union_right _ hv) w
        (Finset.mem_union_right _ hw))
      (fun v hv hinner => h.one_le_card_middles_rim hk hn hv hinner)
  have hcore : inside.card • 2 ≤ ∑ v ∈ inside, count v :=
    Finset.card_nsmul_le_sum _ _ _ fun v hv =>
      h.two_le_card_middles_cap hk hn (hinside v hv).1 (hinside v hv).2
  rw [h.card_rim] at hborder
  rw [smul_eq_mul] at hcore
  change 2 * inside.card + _ ≤ _
  omega

end Convex
end Mesh
end LatticeHull
