import LatticeHull.Proofs.Mesh.Solid

/-!
# Sweeping over a mesh

A plane that sweeps over a mesh meets its corners one after another, in the order
of a key.  Of the three corners of a triangle only one is the middle one in that
order, so a mesh has no fewer triangles than all its corners together have
triangles in whose middle they are.

How many these are at one corner is found by turning around it.  Where the triangles
close up around the corner, as many of them lead from corners below the plane to corners
above it as lead back.  There is at least one that does: otherwise the slopes of the
edges would rise all the way around.
-/

namespace LatticeHull

namespace Vec3

/-- Some direction is level with none of finitely many vectors. -/
theorem exists_generic (ws : List (Vec3 ℝ))
    (hws : ∀ w ∈ ws, ¬(w.x = 0 ∧ w.y = 0 ∧ w.z = 0)) :
    ∃ n : Vec3 ℝ, ∀ w ∈ ws, n.inner w ≠ 0 := by
  obtain ⟨x, hx⟩ := Module.Dual.exists_forall_ne_zero_of_forall_exists
    (fun i : Fin ws.length => (innerₗ (EuclideanSpace ℝ (Fin 3)) (ws.get i).place)) (by
      intro i
      refine ⟨(ws.get i).place, fun hzero => hws _ (List.get_mem ws i) ?_⟩
      rw [innerₗ_apply_apply, inner_place] at hzero
      exact eq_zero_of_inner_self hzero.le)
  obtain ⟨n, rfl⟩ := place_surjective x
  refine ⟨n, fun w hw => ?_⟩
  obtain ⟨i, rfl⟩ := List.get_of_mem hw
  have hne := hx i
  rw [innerₗ_apply_apply, inner_place] at hne
  intro hzero
  apply hne
  rw [← hzero]
  simp only [inner]
  ring

/-- Some direction is level with no vector that belongs to two different
blocks of a list. -/
theorem exists_generic_pair {vs : List Block} {f : Block → Block → Vec3 ℝ}
    (hf : ∀ v ∈ vs, ∀ c ∈ vs, c ≠ v → ¬((f v c).x = 0 ∧ (f v c).y = 0 ∧ (f v c).z = 0)) :
    ∃ n : Vec3 ℝ, ∀ v ∈ vs, ∀ c ∈ vs, c ≠ v → n.inner (f v c) ≠ 0 := by
  obtain ⟨n, hn⟩ := exists_generic
    (((vs ×ˢ vs).filter fun x => x.2 ≠ x.1).map fun x => f x.1 x.2) (by
      intro w hw
      obtain ⟨x, hx, rfl⟩ := List.mem_map.1 hw
      obtain ⟨hmem, hne⟩ := List.mem_filter.1 hx
      obtain ⟨hv, hc⟩ := List.mem_product.1 hmem
      exact hf x.1 hv x.2 hc (of_decide_eq_true hne))
  refine ⟨n, fun v hv c hc hcv => hn _ (List.mem_map.2 ⟨(v, c), ?_, rfl⟩)⟩
  exact List.mem_filter.2 ⟨List.mem_product.2 ⟨hv, hc⟩, decide_eq_true hcv⟩

/-- Slopes also rise from one edge to the next where all other corners are in front. -/
theorem slope_lt_of_pos {n u a b : Vec3 ℝ} (hu : n.inner u = 0) (ha : 0 < n.inner a)
    (hb : 0 < n.inner b) (hab : det a b u < 0) :
    det n u a / n.inner a < det n u b / n.inner b := by
  have hsquare : 0 < n.inner n := by
    by_contra hnot
    obtain ⟨hx, hy, hz⟩ := eq_zero_of_inner_self (not_lt.1 hnot)
    simp [inner, hx, hy, hz] at ha
  have hproduct := mul_neg_of_pos_of_neg hsquare hab
  rw [inner_self_mul_det_of_inner_eq_zero hu] at hproduct
  rw [div_lt_div_iff₀ ha hb]
  linarith

end Vec3

/-- Among numbers that cancel out, every one but zero has one of the other sign. -/
theorem exists_mul_neg_of_sum_eq_zero {A : Type} {l : List A} {f : A → ℝ}
    (hsum : (l.map f).sum = 0) {a : A} (ha : a ∈ l) (hne : f a ≠ 0) :
    ∃ b ∈ l, f b * f a < 0 := by
  by_contra hnone
  have hnonneg : ∀ b ∈ l, 0 ≤ f b * f a := by
    intro b hb
    by_contra hneg
    exact hnone ⟨b, hb, not_le.1 hneg⟩
  have hpos : (l.map fun _ => (0 : ℝ)).sum < (l.map fun b => f b * f a).sum :=
    List.sum_lt_sum _ _ hnonneg ⟨a, ha, mul_self_pos.2 hne⟩
  rw [List.sum_map_mul_right, hsum] at hpos
  simp at hpos

namespace Mesh

/-! ### Middle corners -/

/-- A corner of a triangle that lies between the two others in the order of a key. -/
structure Middle (key : Block → ℝ) (t : Triangle Int) (v : Block) : Prop where
  corner : v ∈ t.corners
  lower : ∃ a ∈ t.corners, key a < key v
  upper : ∃ b ∈ t.corners, key v < key b

section Counting

variable {key : Block → ℝ} {m : Mesh Int} {t : Triangle Int} {v w : Block}

theorem Middle.not_lt (hv : Middle key t v) (hw : Middle key t w) : ¬key v < key w := by
  intro hlt
  obtain ⟨a, ha, hav⟩ := hv.lower
  obtain ⟨b, hb, hwb⟩ := hw.upper
  have hnodup : [a, v, w, b].Nodup := by
    apply List.Nodup.of_map key
    have hsorted : [key a, key v, key w, key b].Pairwise (· < ·) := by
      simp only [List.pairwise_cons, List.mem_cons, List.not_mem_nil, or_false,
        forall_eq_or_imp, forall_eq, false_imp_iff, implies_true,
        List.Pairwise.nil, and_true]
      exact ⟨⟨hav, hav.trans hlt, (hav.trans hlt).trans hwb⟩, ⟨hlt, hlt.trans hwb⟩, hwb⟩
    exact hsorted.imp fun h => h.ne
  have hsub : [a, v, w, b] ⊆ t.corners := by simp [ha, hv.corner, hw.corner, hb]
  have hlength := (List.subperm_of_subset hnodup hsub).length_le
  simp [Triangle.corners] at hlength

open Classical in
/-- The triangles of a mesh in whose middle a corner is. -/
noncomputable def middles (key : Block → ℝ) (m : Mesh Int) (v : Block) :
    Finset (Triangle Int) :=
  m.toFinset.filter (Middle key · v)

theorem mem_middles : t ∈ middles key m v ↔ t ∈ m ∧ Middle key t v := by
  simp [middles]

/-- A mesh has a triangle for each of its corners and each triangle in
whose middle that is. -/
theorem sum_card_middles_le {vs : Finset Block}
    (hkey : ∀ v ∈ vs, ∀ w ∈ vs, key v = key w → v = w) :
    ∑ v ∈ vs, (middles key m v).card ≤ m.length := by
  classical
  calc ∑ v ∈ vs, (middles key m v).card
      = ∑ t ∈ m.toFinset, (vs.bipartiteBelow (fun v t => Middle key t v) t).card := by
        rw [← Finset.sum_card_bipartiteAbove_eq_sum_card_bipartiteBelow]
        refine Finset.sum_congr rfl fun v _ => congrArg Finset.card ?_
        ext t
        simp [mem_middles, Finset.mem_bipartiteAbove]
    _ ≤ ∑ _t ∈ m.toFinset, 1 := by
        refine Finset.sum_le_sum fun t _ => Finset.card_le_one.2 fun v hv w hw => ?_
        rw [Finset.mem_bipartiteBelow] at hv hw
        refine hkey v hv.1 w hw.1 (le_antisymm ?_ ?_)
        · exact not_lt.1 (hw.2.not_lt hv.2)
        · exact not_lt.1 (hv.2.not_lt hw.2)
    _ ≤ m.length := by
        rw [Finset.sum_const, smul_eq_mul, mul_one]
        exact m.toFinset_card_le

/-- Whether a corner comes first or last among some corners. -/
def Extreme (key : Block → ℝ) (vs : Finset Block) (v : Block) : Prop :=
  (∀ w ∈ vs, key v ≤ key w) ∨ ∀ w ∈ vs, key w ≤ key v

open Classical in
theorem card_extreme_le {vs : Finset Block}
    (hkey : ∀ v ∈ vs, ∀ w ∈ vs, key v = key w → v = w) :
    (vs.filter (Extreme key vs)).card ≤ 2 := by
  have hfirst : (vs.filter fun v => ∀ w ∈ vs, key v ≤ key w).card ≤ 1 := by
    refine Finset.card_le_one.2 fun v hv w hw => ?_
    rw [Finset.mem_filter] at hv hw
    exact hkey v hv.1 w hw.1 (le_antisymm (hv.2 w hw.1) (hw.2 v hv.1))
  have hlast : (vs.filter fun v => ∀ w ∈ vs, key w ≤ key v).card ≤ 1 := by
    refine Finset.card_le_one.2 fun v hv w hw => ?_
    rw [Finset.mem_filter] at hv hw
    exact hkey v hv.1 w hw.1 (le_antisymm (hw.2 v hv.1) (hv.2 w hw.1))
  have hunion : vs.filter (Extreme key vs) ⊆
      (vs.filter fun v => ∀ w ∈ vs, key v ≤ key w) ∪ vs.filter fun v =>
        ∀ w ∈ vs, key w ≤ key v := by
    intro v hv
    obtain ⟨hmem, hleft | hright⟩ := Finset.mem_filter.1 hv
    · exact Finset.mem_union_left _ (Finset.mem_filter.2 ⟨hmem, hleft⟩)
    · exact Finset.mem_union_right _ (Finset.mem_filter.2 ⟨hmem, hright⟩)
  exact (Finset.card_le_card hunion).trans ((Finset.card_union_le _ _).trans (by omega))

open Classical in
/-- A count that is at least `k` at every corner that comes neither first nor last. -/
theorem mul_card_le_sum_add {vs : Finset Block} {f : Block → Nat} {k : Nat}
    (hkey : ∀ v ∈ vs, ∀ w ∈ vs, key v = key w → v = w)
    (hf : ∀ v ∈ vs, ¬Extreme key vs v → k ≤ f v) :
    k * vs.card ≤ ∑ v ∈ vs, f v + k * 2 := by
  have hsplit := vs.card_filter_add_card_filter_not (Extreme key vs)
  have hextreme := Nat.mul_le_mul_left k (card_extreme_le hkey)
  have hrest : k * (vs.filter fun v => ¬Extreme key vs v).card ≤ ∑ v ∈ vs, f v := by
    calc k * (vs.filter fun v => ¬Extreme key vs v).card
        ≤ ∑ v ∈ vs.filter fun v => ¬Extreme key vs v, f v := by
          rw [mul_comm]
          refine Finset.card_nsmul_le_sum _ _ _ fun v hv => ?_
          obtain ⟨hmem, hinner⟩ := Finset.mem_filter.1 hv
          exact hf v hmem hinner
      _ ≤ ∑ v ∈ vs, f v := Finset.sum_le_sum_of_subset (Finset.filter_subset _ _)
  rw [← hsplit, mul_add]
  omega

end Counting

/-! ### Turning around a corner -/

/-- Triangles close up around a corner if no slope has risen after a full turn. -/
def ClosesAt (m : Mesh Int) (v : Block) : Prop :=
  ∀ slope : Block → ℝ, (m.edges.map (turn slope v)).sum = 0

theorem Convex.closesAt {m : Mesh Int} (h : m.Convex) (v : Block) : m.ClosesAt v :=
  fun slope => h.sum_edges_eq_zero (turn_reverse slope v)

/-- The side of a corner that another one is on: one above it and zero below it. -/
noncomputable def side (key : Block → ℝ) (v c : Block) : ℝ :=
  if key v < key c then 1 else 0

/-- The plane through a corner that sweeps over a mesh: the other corners are not in it,
and it is below those with a greater key. -/
structure Sweeps (key : Block → ℝ) (m : Mesh Int) (v : Block) (n : Vec3 ℝ) : Prop where
  lower : ∀ c ∈ m.corners, c ≠ v → key c < key v → n.inner (c.real - v.real) < 0
  upper : ∀ c ∈ m.corners, c ≠ v → key v < key c → 0 < n.inner (c.real - v.real)
  distinct : ∀ c ∈ m.corners, c ≠ v → key c ≠ key v

section Turning

variable {key : Block → ℝ} {m : Mesh Int} {v : Block} {n : Vec3 ℝ}
  (hne : ∀ e ∈ m.edges, e.start ≠ e.stop)

include hne

/-- A triangle that leads from one side of a corner to the other has it in the middle. -/
theorem mem_middles_of_turn_ne_zero (hkey : ∀ c ∈ m.corners, c ≠ v → key c ≠ key v)
    {t : Triangle Int} (ht : t ∈ m)
    (hturn : (t.edges.map (turn (side key v) v)).sum ≠ 0) :
    t ∈ middles key m v := by
  have hv : v ∈ t.corners := by
    by_contra hv
    exact hturn (sum_turn_of_not_mem _ hv)
  obtain ⟨a, ha, b, hb, hav, hbv, -, hsum⟩ :=
    exists_turn (fun e he => hne e (mem_edges_iff.2 ⟨t, ht, he⟩)) hv
  have hka := hkey a (mem_corners_iff.2 ⟨t, ht, ha⟩) hav
  have hkb := hkey b (mem_corners_iff.2 ⟨t, ht, hb⟩) hbv
  rw [hsum, side, side] at hturn
  rw [mem_middles]
  by_cases hup : key v < key b
  · by_cases hup' : key v < key a
    · simp [hup, hup'] at hturn
    · exact ⟨ht, hv, ⟨a, ha, lt_of_le_of_ne (not_lt.1 hup') hka⟩, ⟨b, hb, hup⟩⟩
  · by_cases hup' : key v < key a
    · exact ⟨ht, hv, ⟨b, hb, lt_of_le_of_ne (not_lt.1 hup) hkb⟩, ⟨a, ha, hup'⟩⟩
    · simp [hup, hup'] at hturn

/-- Where more triangles lead to one side of a corner than to the other, it is
in the middle of one. -/
theorem one_le_card_middles (hkey : ∀ c ∈ m.corners, c ≠ v → key c ≠ key v)
    (hturn : (m.edges.map (turn (side key v) v)).sum ≠ 0) :
    1 ≤ (middles key m v).card := by
  rw [sum_edges] at hturn
  obtain ⟨x, hx, hxne⟩ : ∃ t ∈ m, (t.edges.map (turn (side key v) v)).sum ≠ 0 := by
    by_contra hnone
    apply hturn
    apply List.sum_eq_zero
    intro x hx
    obtain ⟨t, ht, rfl⟩ := List.mem_map.1 hx
    by_contra hnonzero
    exact hnone ⟨t, ht, hnonzero⟩
  exact Finset.card_pos.2 ⟨x, mem_middles_of_turn_ne_zero hne hkey hx hxne⟩

/-- At a triangle that has a point of the sweeping plane behind it and stays on one side
of the plane, the slope towards that point rises. -/
theorem sum_turn_slope_pos (hsweeps : Sweeps key m v n) {q : Vec3 ℝ}
    (hlevel : n.inner (q - v.real) = 0) {t : Triangle Int} (ht : t ∈ m)
    (hvt : v ∈ t.corners) (hbehind : t.real.height q < 0)
    (hside : (t.edges.map (turn (side key v) v)).sum = 0) :
    0 < (t.edges.map (turn
      (fun c => Vec3.det n (q - v.real) (c.real - v.real) / n.inner (c.real - v.real))
      v)).sum := by
  obtain ⟨a, ha, b, hb, hav, hbv, hheight, hsum⟩ :=
    exists_turn (fun e he => hne e (mem_edges_iff.2 ⟨t, ht, he⟩)) hvt
  have ham := mem_corners_iff.2 ⟨t, ht, ha⟩
  have hbm := mem_corners_iff.2 ⟨t, ht, hb⟩
  have hdet : Vec3.det (a.real - v.real) (b.real - v.real) (q - v.real) < 0 := by
    rwa [hheight] at hbehind
  have hsame : side key v b = side key v a := by
    rw [hsum] at hside
    exact sub_eq_zero.1 hside
  rw [hsum, sub_pos]
  have hka := hsweeps.distinct a ham hav
  have hkb := hsweeps.distinct b hbm hbv
  by_cases hup : key v < key a
  · have hup' : key v < key b := by
      by_contra hdown
      simp [side, hup, hdown] at hsame
    exact Vec3.slope_lt_of_pos hlevel (hsweeps.upper a ham hav hup)
      (hsweeps.upper b hbm hbv hup') hdet
  · have hdown : ¬key v < key b := by
      intro hup'
      simp [side, hup, hup'] at hsame
    exact Vec3.slope_lt hlevel (hsweeps.lower a ham hav
      (lt_of_le_of_ne (not_lt.1 hup) hka))
      (hsweeps.lower b hbm hbv (lt_of_le_of_ne (not_lt.1 hdown) hkb)) hdet

/-- Around a corner that has a point behind all its triangles at its own level, some
triangle leads from one side to the other. -/
theorem exists_turn_ne_zero (hsweeps : Sweeps key m v n) (hv : v ∈ m.corners)
    (hclosed : m.ClosesAt v) {q : Vec3 ℝ} (hlevel : n.inner (q - v.real) = 0)
    (hbehind : ∀ t ∈ m, v ∈ t.corners → t.real.height q < 0) :
    ∃ t ∈ m, (t.edges.map (turn (side key v) v)).sum ≠ 0 := by
  by_contra hnone
  let slope : Block → ℝ := fun c =>
    Vec3.det n (q - v.real) (c.real - v.real) / n.inner (c.real - v.real)
  refine not_forall_turn_pos (hclosed slope) hv fun t ht hvt => ?_
  refine sum_turn_slope_pos hne hsweeps hlevel ht hvt (hbehind t ht hvt) ?_
  by_contra hside
  exact hnone ⟨t, ht, hside⟩

/-- Such a corner is in the middle of at least two triangles, one for each way across. -/
theorem two_le_card_middles (hsweeps : Sweeps key m v n) (hv : v ∈ m.corners)
    (hclosed : m.ClosesAt v) {q : Vec3 ℝ} (hlevel : n.inner (q - v.real) = 0)
    (hbehind : ∀ t ∈ m, v ∈ t.corners → t.real.height q < 0) :
    2 ≤ (middles key m v).card := by
  obtain ⟨t, ht, hcross⟩ := exists_turn_ne_zero hne hsweeps hv hclosed hlevel hbehind
  have hzero := hclosed (side key v)
  rw [sum_edges] at hzero
  obtain ⟨s, hs, hback⟩ := exists_mul_neg_of_sum_eq_zero hzero ht hcross
  have hst : s ≠ t := by
    rintro rfl
    exact absurd hback (not_lt.2 (mul_self_nonneg _))
  have hsne : (s.edges.map (turn (side key v) v)).sum ≠ 0 := by
    intro heq
    rw [heq, zero_mul] at hback
    exact lt_irrefl _ hback
  exact Finset.one_lt_card.2 ⟨s, mem_middles_of_turn_ne_zero hne hsweeps.distinct
    hs hsne, t, mem_middles_of_turn_ne_zero hne hsweeps.distinct ht hcross, hst⟩

end Turning
end Mesh
end LatticeHull
