import LatticeHull.Proofs.Mesh.Flat
import LatticeHull.Proofs.Mesh.Solid

/-!
# Collinear points, and points that span space

Three points are collinear if every point is in a plane with them.  Among points that
span space there are three that are not.
-/

namespace LatticeHull

namespace Vec3

/-- A point that is in a plane with two others and any third one is one of the two. -/
theorem eq_of_orient_eq_zero {a b : Vec3 ℝ} (h : ∀ c p, orient a b c p = 0) : b = a := by
  have hx := h ⟨a.x, a.y + 1, a.z⟩ ⟨a.x, a.y, a.z + 1⟩
  have hy := h ⟨a.x, a.y, a.z + 1⟩ ⟨a.x + 1, a.y, a.z⟩
  have hz := h ⟨a.x + 1, a.y, a.z⟩ ⟨a.x, a.y + 1, a.z⟩
  simp only [orient, det, sub_x, sub_y, sub_z] at hx hy hz
  ext
  · linarith
  · linarith
  · linarith

/-- A point that is in a plane with two others and any fourth one lies on their line. -/
theorem exists_eq_combine {a b c : Vec3 ℝ} (hab : b ≠ a)
    (hzero : ∀ p, orient a b c p = 0) :
    ∃ r, c = combine r (b - a) 1 a := by
  have hsquare : (b - a).inner (b - a) ≠ 0 := by
    intro hnone
    obtain ⟨hx, hy, hz⟩ := eq_zero_of_inner_self hnone.le
    exact hab (Vec3.ext (sub_eq_zero.1 hx) (sub_eq_zero.1 hy) (sub_eq_zero.1 hz))
  have hx := hzero ⟨a.x + 1, a.y, a.z⟩
  have hy := hzero ⟨a.x, a.y + 1, a.z⟩
  have hz := hzero ⟨a.x, a.y, a.z + 1⟩
  simp only [orient, det, sub_x, sub_y, sub_z] at hx hy hz
  refine ⟨(b - a).inner (c - a) / (b - a).inner (b - a), ?_⟩
  have hparts : (b - a).inner (c - a) / (b - a).inner (b - a) * (b - a).x = c.x - a.x ∧
      (b - a).inner (c - a) / (b - a).inner (b - a) * (b - a).y = c.y - a.y ∧
      (b - a).inner (c - a) / (b - a).inner (b - a) * (b - a).z = c.z - a.z := by
    refine ⟨?_, ?_, ?_⟩ <;> rw [div_mul_eq_mul_div, div_eq_iff hsquare] <;>
      simp only [inner, sub_x, sub_y, sub_z]
    · linear_combination (b.y - a.y) * hz - (b.z - a.z) * hy
    · linear_combination (b.z - a.z) * hx - (b.x - a.x) * hz
    · linear_combination (b.x - a.x) * hy - (b.y - a.y) * hx
  obtain ⟨hpx, hpy, hpz⟩ := hparts
  rw [combine, hpx, hpy, hpz]
  ext
  · ring
  · ring
  · ring

theorem collinear_iff {a b c : Vec3 ℝ} :
    Collinear ℝ {a.place, b.place, c.place} ↔ ∀ p, orient a b c p = 0 := by
  constructor
  · intro hcollinear p
    obtain ⟨x, hx⟩ := (collinear_iff_of_mem (Set.mem_insert a.place _)).1 hcollinear
    obtain ⟨u, rfl⟩ := place_surjective x
    have hline : ∀ q : Vec3 ℝ, q.place ∈ ({a.place, b.place, c.place} : Set _) →
        ∃ r, q = combine r u 1 a := by
      intro q hq
      obtain ⟨r, hr⟩ := hx _ hq
      refine ⟨r, place_injective ?_⟩
      rw [hr, place_combine, one_smul, vadd_eq_add]
    obtain ⟨r, rfl⟩ := hline b (by simp)
    obtain ⟨s, rfl⟩ := hline c (by simp)
    simp only [orient, det, combine, sub_x, sub_y, sub_z]
    ring
  · intro hzero
    by_cases hab : b = a
    · rw [hab]
      simpa using collinear_pair ℝ a.place c.place
    · obtain ⟨r, hr⟩ := exists_eq_combine hab hzero
      rw [collinear_iff_of_mem (Set.mem_insert a.place _)]
      refine ⟨(b - a).place, ?_⟩
      simp only [Set.mem_insert_iff, Set.mem_singleton_iff, forall_eq_or_imp, forall_eq,
        vadd_eq_add]
      refine ⟨⟨0, by simp⟩, ⟨1, ?_⟩, ⟨r, ?_⟩⟩
      · rw [one_smul, place_sub, sub_add_cancel]
      · have hplace := congrArg place hr
        rwa [place_combine, one_smul] at hplace

end Vec3

namespace Triangle

theorem height_smul_sub_add (t : Triangle ℝ) (p q o : Vec3 ℝ) (r : ℝ) :
    t.height (Vec3.combine r (p - q) 1 o) =
      r * (t.height p - t.height q) + t.height o := by
  simp only [height, Vec3.orient, Vec3.det, Vec3.combine, Vec3.sub_x, Vec3.sub_y,
    Vec3.sub_z]
  ring

/-- A plane that holds points which span space holds all points. -/
theorem height_eq_zero_of_span {t : Triangle ℝ} {s : Set (EuclideanSpace ℝ (Fin 3))}
    (hspan : affineSpan ℝ s = ⊤) (hzero : ∀ p : Vec3 ℝ, p.place ∈ s → t.height p = 0)
    (p : Vec3 ℝ) : t.height p = 0 := by
  have hmem : p.place ∈ affineSpan ℝ s := by
    rw [hspan]
    exact AffineSubspace.mem_top ℝ _ _
  have hall : ∀ q : Vec3 ℝ, q.place = p.place → t.height q = 0 := by
    refine affineSpan_induction (p := fun x => ∀ q : Vec3 ℝ, q.place = x →
      t.height q = 0) hmem
      ?_ ?_
    · rintro x hx q rfl
      exact hzero q hx
    · intro r x y z hx hy hz q hq
      obtain ⟨u, rfl⟩ := Vec3.place_surjective x
      obtain ⟨v, rfl⟩ := Vec3.place_surjective y
      obtain ⟨w, rfl⟩ := Vec3.place_surjective z
      have hcombine : q = Vec3.combine r (u - v) 1 w := by
        apply Vec3.place_injective
        rw [hq, Vec3.place_combine, Vec3.place_sub, one_smul]
        rfl
      rw [hcombine, height_smul_sub_add, hx u rfl, hy v rfl, hz w rfl]
      ring
  exact hall p rfl

end Triangle

namespace Block

/-- Whether no plane holds all of some blocks. -/
def Spanning (vs : List Block) : Prop :=
  affineSpan ℝ (places vs) = ⊤

theorem places_eq_of_mem_iff {vs ws : List Block} (hmem : ∀ v, v ∈ ws ↔ v ∈ vs) :
    places ws = places vs := by
  ext x
  simp only [places, Set.mem_ofPred_eq, hmem]

theorem solid_eq_of_mem_iff {vs ws : List Block} (hmem : ∀ v, v ∈ ws ↔ v ∈ vs) :
    solid ws = solid vs := by
  rw [solid, solid, places_eq_of_mem_iff hmem]

theorem Spanning.of_mem_iff {vs ws : List Block} (hspan : Spanning vs)
    (hmem : ∀ v, v ∈ ws ↔ v ∈ vs) : Spanning ws := by
  rw [Spanning, places_eq_of_mem_iff hmem]
  exact hspan

theorem collinear_iff {a b c : Block} :
    Collinear ℝ {a.real.place, b.real.place, c.real.place} ↔
      ∀ p : Block, Vec3.orient a b c p = 0 := by
  rw [Vec3.collinear_iff]
  constructor
  · intro hzero p
    have hreal := hzero p.real
    rw [Vec3.orient_real] at hreal
    exact_mod_cast hreal
  · intro hzero p
    have hx := hzero ⟨a.x + 1, a.y, a.z⟩
    have hy := hzero ⟨a.x, a.y + 1, a.z⟩
    have hz := hzero ⟨a.x, a.y, a.z + 1⟩
    simp only [Vec3.orient, Vec3.det, Vec3.sub_x, Vec3.sub_y, Vec3.sub_z,
      add_sub_cancel_left, sub_self, mul_one, mul_zero, add_zero, zero_add] at hx hy hz
    rify at hx hy hz
    simp only [Vec3.orient, Vec3.det, Vec3.sub_x, Vec3.sub_y, Vec3.sub_z, Vec3.real,
      Vec3.map, hx, hy, hz, zero_mul, add_zero]

theorem nodup_of_not_collinear {a b c : Block}
    (hnot : ¬Collinear ℝ {a.real.place, b.real.place, c.real.place}) :
    [a, b, c].Nodup := by
  have hab : a ≠ b := by
    rintro rfl
    rw [Set.insert_eq_of_mem (Set.mem_insert _ _)] at hnot
    exact hnot (collinear_pair ℝ _ _)
  have hac : a ≠ c := by
    rintro rfl
    rw [Set.insert_eq_of_mem (Set.mem_insert_of_mem _ (Set.mem_singleton _))] at hnot
    exact hnot (collinear_pair ℝ _ _)
  have hbc : b ≠ c := by
    rintro rfl
    rw [Set.pair_eq_singleton] at hnot
    exact hnot (collinear_pair ℝ _ _)
  exact nodup_iff.2 ⟨hab, hac, hbc⟩

/-- If blocks span space and lie in a plane with three others, then these
three are collinear. -/
theorem collinear_of_orient_eq_zero {vs : List Block} (hspan : Spanning vs)
    {a b c : Block} (hzero : ∀ v ∈ vs, Vec3.orient a b c v = 0) :
    Collinear ℝ {a.real.place, b.real.place, c.real.place} := by
  rw [Vec3.collinear_iff]
  apply Triangle.height_eq_zero_of_span (t := ⟨a.real, b.real, c.real⟩) hspan
  rintro p ⟨v, hv, hp⟩
  rw [Vec3.place_injective hp, Triangle.height, Vec3.orient_real, hzero v hv,
    Int.cast_zero]

theorem Spanning.exists_not_collinear {vs : List Block} (hspan : Spanning vs) :
    ∃ a ∈ vs, ∃ b ∈ vs, ∃ c ∈ vs,
      ¬Collinear ℝ {a.real.place, b.real.place, c.real.place} := by
  have hplane : ∀ t : Triangle ℝ, (∀ v ∈ vs, t.height v.real = 0) →
      ∀ p, t.height p = 0 := by
    intro t hzero
    apply Triangle.height_eq_zero_of_span hspan
    rintro p ⟨v, hv, hp⟩
    rw [Vec3.place_injective hp]
    exact hzero v hv
  have hne : vs ≠ [] := by
    rintro rfl
    have hempty : places [] = ∅ := by
      simp [places]
    rw [Spanning, hempty, AffineSubspace.span_empty] at hspan
    exact AffineSubspace.bot_ne_top ℝ _ _ hspan
  by_contra hnone
  push Not at hnone
  obtain ⟨a, ha⟩ := List.exists_mem_of_ne_nil vs hne
  have hsame : ∀ b ∈ vs, b.real = a.real := by
    intro b hb
    apply Vec3.eq_of_orient_eq_zero
    intro c
    apply hplane ⟨a.real, b.real, c⟩
    intro v hv
    have hzero := Vec3.collinear_iff.1 (hnone a ha b hb v hv) c
    rw [Triangle.height, Vec3.orient_swap_last, hzero, neg_zero]
  have hthrough := hplane ⟨a.real, ⟨a.real.x + 1, a.real.y, a.real.z⟩,
    ⟨a.real.x, a.real.y + 1, a.real.z⟩⟩ (by
      intro v hv
      rw [hsame v hv]
      exact Vec3.orient_start ..) ⟨a.real.x, a.real.y, a.real.z + 1⟩
  simp [Triangle.height, Vec3.orient, Vec3.det] at hthrough

theorem spanning_of_orient_ne_zero {vs : List Block} {a b c d : Block} (ha : a ∈ vs)
    (hb : b ∈ vs) (hc : c ∈ vs) (hd : d ∈ vs) (hne : Vec3.orient a b c d ≠ 0) :
    Spanning vs := by
  have hmem : ∀ v ∈ vs, v.real.place ∈ affineSpan ℝ (places vs) :=
    fun v hv => subset_affineSpan ℝ _ ⟨v, hv, rfl⟩
  have hvolume : Vec3.orient a.real b.real c.real d.real ≠ 0 := by
    rw [Vec3.orient_real]
    exact_mod_cast hne
  rw [Spanning, eq_top_iff]
  intro x _
  obtain ⟨p, rfl⟩ := Vec3.place_surjective x
  have hcramer : p = Vec3.combine
      (Vec3.orient a.real p c.real d.real / Vec3.orient a.real b.real c.real d.real)
      (b.real - a.real) 1 (Vec3.combine
        (Vec3.orient a.real b.real p d.real / Vec3.orient a.real b.real c.real d.real)
        (c.real - a.real) 1 (Vec3.combine
          (Vec3.orient a.real b.real c.real p / Vec3.orient a.real b.real c.real d.real)
          (d.real - a.real) 1 a.real)) := by
    ext
    · simp only [Vec3.combine, one_mul]
      field_simp
      simp only [Vec3.orient, Vec3.det, Vec3.sub_x, Vec3.sub_y, Vec3.sub_z]
      ring
    · simp only [Vec3.combine, one_mul]
      field_simp
      simp only [Vec3.orient, Vec3.det, Vec3.sub_x, Vec3.sub_y, Vec3.sub_z]
      ring
    · simp only [Vec3.combine, one_mul]
      field_simp
      simp only [Vec3.orient, Vec3.det, Vec3.sub_x, Vec3.sub_y, Vec3.sub_z]
      ring
  rw [hcramer]
  simp only [Vec3.place_combine, Vec3.place_sub, one_smul]
  apply AffineSubspace.smul_vsub_vadd_mem _ _ (hmem b hb) (hmem a ha)
  apply AffineSubspace.smul_vsub_vadd_mem _ _ (hmem c hc) (hmem a ha)
  exact AffineSubspace.smul_vsub_vadd_mem _ _ (hmem d hd) (hmem a ha) (hmem a ha)

end Block
end LatticeHull
