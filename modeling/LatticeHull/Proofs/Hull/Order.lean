import LatticeHull.Proofs.Collinear
import LatticeHull.Proofs.Hull.Surface

/-!
# The order in which vertices are added

The answers of a hull depend on the order of its vertices, even if these span space.
A hull that starts with three vertices on a line stays flat for ever: its triangles
see nothing, so that all further vertices are put aside and the box of the first
three alone decides.  Every other order ends in a solid hull, which answers by the
convex hull of the vertices.
-/

namespace LatticeHull
namespace Hull

variable {h : Hull Int} {a b c : Block} {vs ws : List Block}

/-! ### Flat hulls -/

theorem Sparse.not_nodup (hsparse : h.Sparse)
    (hvertices : ∀ x ∈ [a, b, c], x ∈ h.vertices) :
    ¬[a, b, c].Nodup := by
  intro hnodup
  have hsub : [a, b, c] ⊆ h.accepted := by
    intro x hx
    have hmem := hvertices x hx
    rwa [vertices, hsparse.pending_eq, List.append_nil] at hmem
  have hlength := (List.subperm_of_subset hnodup hsub).length_le
  exact absurd hsparse.few (not_lt.2 hlength)

/-- Three different vertices make a flat hull. -/
theorem flat_addBlocks_start (hvs : ∀ v ∈ [a, b, c], v.InRange)
    (hnodup : [a, b, c].Nodup) :
    (empty.addBlocks [a, b, c]).Flat a b c := by
  have hrange : a.InRange ∧ b.InRange ∧ c.InRange := by simpa using hvs
  obtain ⟨ha, hb, hc⟩ := hrange
  have hab := (Block.nodup_iff.1 hnodup).1
  have hsparse : Sparse empty := ⟨Nat.zero_lt_succ 2, List.nodup_nil, rfl, rfl⟩
  obtain ⟨new₁, hadd₁⟩ := sound_empty.addBlock_eq ha
  have hsound₁ := sound_empty.addBlock ha hadd₁
  obtain ⟨hsparse₁, haccepted₁⟩ :=
    hsparse.addBlock_of_not_mem List.not_mem_nil (by decide) hadd₁
  have haccepted₁' : (empty.addBlock Triangle.above a).2.accepted = [a] := haccepted₁
  obtain ⟨new₂, hadd₂⟩ := hsound₁.addBlock_eq hb
  have hsound₂ := hsound₁.addBlock hb hadd₂
  obtain ⟨hsparse₂, haccepted₂⟩ := hsparse₁.addBlock_of_not_mem
    (by simp [haccepted₁', Ne.symm hab]) (by simp [haccepted₁']) hadd₂
  rw [haccepted₁', List.singleton_append] at haccepted₂
  obtain ⟨new₃, hadd₃⟩ := hsound₂.addBlock_eq hc
  rcases hsparse₂.addBlock hadd₃ with hsparse₃ | ⟨a', b', hstart, hflat⟩
  · have hmem : ∀ x ∈ [a, b, c], x ∈ (empty.addBlocks [a, b, c]).vertices :=
      fun x hx => (sound_empty.mem_vertices_addBlocks hvs).2 (Or.inr hx)
    exact absurd hnodup (hsparse₃.not_nodup hmem)
  · rw [haccepted₂, List.cons.injEq, List.cons.injEq] at hstart
    obtain ⟨rfl, rfl, -⟩ := hstart
    exact hflat

theorem Flat.addBlocks (hflat : h.Flat a b c) (hsound : h.Sound)
    (hvs : ∀ v ∈ vs, v.InRange) :
    (h.addBlocks vs).Flat a b c ∨
      ((∃ v, Vec3.orient a b c v ≠ 0) ∧ (h.addBlocks vs).Solid [] ∧
        (h.addBlocks vs).Settled) := by
  refine hsound.addBlocks_induction (P := fun g => g.Flat a b c ∨
    ((∃ v, Vec3.orient a b c v ≠ 0) ∧ g.Solid [] ∧ g.Settled)) (Or.inl hflat) hvs ?_
  intro g next v new _ hphase _ hadd
  rcases hphase with hstill | ⟨hoff, hsolid, hsettled⟩
  · rcases hstill.addBlock hadd with hstill' | ⟨hoff, hsolid⟩
    · exact Or.inl hstill'
    · exact Or.inr ⟨⟨v, hoff⟩, hsolid⟩
  · exact Or.inr ⟨hoff, hsolid.addBlock hsettled hadd⟩

theorem Flat.faces_ne_nil (hflat : h.Flat a b c) : h.faces ≠ [] := by
  rw [hflat.faces_eq]
  exact List.cons_ne_nil _ _

/-- The triangles of a flat hull on a line see nothing, so its box decides. -/
theorem Flat.containsPoint_iff_of_collinear (hflat : h.Flat a b c) (hbox : h.Boxed [])
    (hcollinear : ∀ p, Vec3.orient a b c p = 0) (q : Block) :
    (h.containsPoint Triangle.above q).1 = true ↔ q ∈ Block.box [a, b, c] := by
  have hmisses : ∀ t ∈ h.faces, t.above q = false := by
    intro t ht
    have hencloses : h.faces.Encloses q := by
      rw [hflat.faces_eq, Mesh.encloses_flat_iff]
      exact hcollinear q
    exact (Triangle.above_eq_false_iff t q).2 (hencloses t ht)
  obtain ⟨e, he, hbounds⟩ := hbox.exists_bounds (v := a) (by simp [hflat.accepted_eq])
  rw [hflat.accepted_eq] at hbounds
  rw [containsPoint_iff, he, Option.any_some, ← hbounds.covers_iff_mem_box,
    ← Extent.excludes_exact_iff]
  constructor
  · exact fun hpassed => hpassed.2.1
  · exact fun hbetween => ⟨hflat.faces_ne_nil, hbetween, hmisses⟩

/-! ### What becomes of vertices that span space -/

/-- A hull whose vertices span space is solid, or it is still flat because
it started on a line. -/
theorem Sound.solid_or_flat (hsound : h.Sound) (hspan : Block.Spanning vs)
    (hvertices : ∀ x, x ∈ h.vertices ↔ x ∈ vs) :
    (h.Solid [] ∧ h.Settled) ∨
      ∃ a b c, h.Flat a b c ∧ Collinear ℝ {a.real.place, b.real.place,
        c.real.place} := by
  cases hsound.phase with
  | sparse hsparse =>
      obtain ⟨a, ha, b, hb, c, hc, hnot⟩ := hspan.exists_not_collinear
      have hmem : ∀ x ∈ [a, b, c], x ∈ h.vertices := by
        simp [hvertices, ha, hb, hc]
      exact absurd (Block.nodup_of_not_collinear hnot) (hsparse.not_nodup hmem)
  | flat a b c hflat =>
      refine Or.inr ⟨a, b, c, hflat, Block.collinear_of_orient_eq_zero hspan ?_⟩
      intro v hv
      have hencloses := hsound.phase.encloses ((hvertices v).2 hv)
      rwa [hflat.faces_eq, Mesh.encloses_flat_iff] at hencloses
  | solid hsolid hsettled => exact Or.inl ⟨hsolid, hsettled⟩

/-! ### Hulls of lists -/

theorem mem_vertices_blocks (hvs : ∀ v ∈ vs, v.InRange) {x : Block} :
    x ∈ (empty.addBlocks vs).vertices ↔ x ∈ vs := by
  rw [sound_empty.mem_vertices_addBlocks hvs]
  simp [vertices, empty]

theorem addBlocks_append (h : Hull Int) (vs ws : List Block) :
    h.addBlocks (vs ++ ws) = (h.addBlocks vs).addBlocks ws :=
  List.foldl_append

/-- A list that starts with three vertices on a line leads to a flat hull. -/
theorem flat_of_collinear_start (hvs : ∀ v ∈ [a, b, c] ++ vs, v.InRange)
    (hnodup : [a, b, c].Nodup)
    (hcollinear : Collinear ℝ {a.real.place, b.real.place, c.real.place}) :
    (empty.addBlocks ([a, b, c] ++ vs)).Flat a b c := by
  obtain ⟨hstart, hrest⟩ := List.forall_mem_append.1 hvs
  rw [addBlocks_append]
  rcases (flat_addBlocks_start hstart hnodup).addBlocks (sound_empty.addBlocks hstart)
      hrest with
    hflat | ⟨⟨v, hoff⟩, -⟩
  · exact hflat
  · exact absurd (Block.collinear_iff.1 hcollinear v) hoff

/-- A list that spans space and starts with three vertices off a line
leads to a solid hull. -/
theorem solid_of_start (hvs : ∀ v ∈ [a, b, c] ++ vs, v.InRange)
    (hspan : Block.Spanning ([a, b, c] ++ vs))
    (hnot : ¬Collinear ℝ {a.real.place, b.real.place, c.real.place}) :
    (empty.addBlocks ([a, b, c] ++ vs)).Solid [] ∧
      (empty.addBlocks ([a, b, c] ++ vs)).Settled := by
  have hsound : (empty.addBlocks ([a, b, c] ++ vs)).Sound := sound_empty.addBlocks hvs
  obtain ⟨hstart, hrest⟩ := List.forall_mem_append.1 hvs
  rcases hsound.solid_or_flat hspan fun x => mem_vertices_blocks hvs with
    hsolid | ⟨a', b', c', hflat', hcollinear⟩
  · exact hsolid
  · have hnodup := Block.nodup_of_not_collinear hnot
    have haddBlocks := (flat_addBlocks_start hstart hnodup).addBlocks
      (sound_empty.addBlocks hstart) hrest
    rw [← addBlocks_append] at haddBlocks
    rcases haddBlocks with hflat | ⟨-, hsolid⟩
    · have haccepted := hflat.accepted_eq.symm.trans hflat'.accepted_eq
      simp only [List.cons.injEq, and_true] at haccepted
      obtain ⟨rfl, rfl, rfl⟩ := haccepted
      exact absurd hcollinear hnot
    · exact hsolid

/-- A solid hull of a list answers by the convex hull of the list. -/
theorem Solid.containsPoint_blocks_iff (hsolid : (empty.addBlocks vs).Solid [])
    (hsettled : (empty.addBlocks vs).Settled) (hvs : ∀ v ∈ vs, v.InRange) (q : Block) :
    ((empty.addBlocks vs).containsPoint Triangle.above q).1 = true ↔
      q.real.place ∈ Block.solid vs := by
  have hsound : (empty.addBlocks vs).Sound := sound_empty.addBlocks hvs
  rw [hsolid.containsPoint_iff hsettled hsound.boxed,
    Block.solid_eq_of_mem_iff fun x => mem_vertices_blocks hvs]

theorem exists_perm_start (hnodup : [a, b, c].Nodup) (ha : a ∈ vs) (hb : b ∈ vs)
    (hc : c ∈ vs) :
    ∃ rest, ([a, b, c] ++ rest).Perm vs := by
  have hsub : [a, b, c] ⊆ vs := by simp [ha, hb, hc]
  obtain ⟨start, hstart, hsublist⟩ := List.subperm_of_subset hnodup hsub
  obtain ⟨rest, hrest⟩ := hsublist.exists_perm_append
  exact ⟨rest, (hstart.symm.append_right rest).trans hrest.symm⟩

/-! ### Answers -/

/-- What the hull of some lattice points, added in order, answers about a
lattice point. -/
def answer (vs : List Block) (q : Block) : Except Fault Bool := do
  let h ← ofDatum (.list (vs.map Block.toDatum))
  (h.contains q.toDatum).1

theorem answer_of_faces (hvs : ∀ v ∈ vs, v.InRange)
    (hne : (empty.addBlocks vs).faces ≠ []) (q : Block) :
    answer vs q =
      if Point.isFinite (Vec3.ofBlock q) then
        .ok ((empty.addBlocks vs).containsPoint Triangle.above q).1
      else .error .tooLarge := by
  have hsound : (empty.addBlocks vs).Sound := sound_empty.addBlocks hvs
  have hdefined : (empty.addBlocks vs).machine.isDefined = true := by
    simpa [isDefined] using machine_faces_ne_nil hne
  have hanswer : answer vs q = ((empty.addBlocks vs).machine.contains q.toDatum).1 := by
    rw [answer, ofDatum_blocks hvs]
    rfl
  rw [hanswer, contains, hdefined, Block.pointOfDatum_toDatum]
  by_cases hfinite : Point.isFinite (Vec3.ofBlock q) = true
  · rw [if_pos hfinite, if_pos hfinite, ← hsound.containsPoint_ofBlock]
    simp only [Bool.not_true, Bool.false_eq_true, if_false, hfinite, if_true]
  · rw [if_neg hfinite, if_neg hfinite]
    rfl

/-- Two lists answer alike if their hulls over whole numbers do. -/
theorem answer_eq_iff (hvs : ∀ v ∈ vs, v.InRange) (hws : ∀ v ∈ ws, v.InRange)
    (hne : (empty.addBlocks vs).faces ≠ []) (hne' : (empty.addBlocks ws).faces ≠ [])
    (q : Block) :
    answer ws q = answer vs q ↔
      (((empty.addBlocks ws).containsPoint Triangle.above q).1 = true ↔
        ((empty.addBlocks vs).containsPoint Triangle.above q).1 = true) := by
  rw [answer_of_faces hvs hne, answer_of_faces hws hne']
  by_cases hfinite : Point.isFinite (Vec3.ofBlock q) = true
  · rw [if_pos hfinite, if_pos hfinite, Except.ok.injEq, Bool.eq_iff_iff]
  · have hout : ∀ us : List Block, (∀ v ∈ us, v.InRange) →
        ((empty.addBlocks us).containsPoint Triangle.above q).1 = true → False := by
      intro us hus hin
      have hsound : (empty.addBlocks us).Sound := sound_empty.addBlocks hus
      obtain ⟨hx, hy, hz⟩ := hsound.inRange_of_containsPoint hin
      exact hfinite (Block.isFinite_ofBlock (by omega) (by omega) (by omega))
    rw [if_neg hfinite, if_neg hfinite]
    exact iff_of_true rfl ⟨fun hin => (hout ws hws hin).elim,
      fun hin => (hout vs hvs hin).elim⟩

/-- The hull of blocks that span space answers by their convex hull, or by the box of
three of them that lie on a line. -/
theorem containsPoint_blocks_cases (hvs : ∀ v ∈ vs, v.InRange)
    (hspan : Block.Spanning vs) :
    (empty.addBlocks vs).faces ≠ [] ∧
      ((∀ q, ((empty.addBlocks vs).containsPoint Triangle.above q).1 = true ↔
          q.real.place ∈ Block.solid vs) ∨
        ∃ a ∈ vs, ∃ b ∈ vs, ∃ c ∈ vs, [a, b, c].Nodup ∧
          Collinear ℝ {a.real.place, b.real.place, c.real.place} ∧
            ∀ q, ((empty.addBlocks vs).containsPoint Triangle.above q).1 = true ↔
              q ∈ Block.box [a, b, c]) := by
  have hsound : (empty.addBlocks vs).Sound := sound_empty.addBlocks hvs
  rcases hsound.solid_or_flat hspan fun x => mem_vertices_blocks hvs with
    ⟨hsolid, hsettled⟩ | ⟨a, b, c, hflat, hcollinear⟩
  · exact ⟨hsolid.ne_nil, Or.inl (hsolid.containsPoint_blocks_iff hsettled hvs)⟩
  · have hmem : ∀ x ∈ [a, b, c], x ∈ vs := by
      intro x hx
      rw [← mem_vertices_blocks hvs, mem_vertices_iff, hflat.accepted_eq]
      exact Or.inl hx
    refine ⟨hflat.faces_ne_nil, Or.inr ⟨a, hmem a (by simp), b, hmem b (by simp), c,
      hmem c (by simp), hflat.nodup, hcollinear, ?_⟩⟩
    exact hflat.containsPoint_iff_of_collinear hsound.boxed
      (Block.collinear_iff.1 hcollinear)

/-- Some order of blocks that span space answers by their convex hull. -/
theorem exists_perm_solid (hvs : ∀ v ∈ vs, v.InRange) (hspan : Block.Spanning vs) :
    ∃ ws : List Block, ws.Perm vs ∧ ∀ q,
      ((empty.addBlocks ws).containsPoint Triangle.above q).1 = true ↔
        q.real.place ∈ Block.solid vs := by
  obtain ⟨a, ha, b, hb, c, hc, hnot⟩ := hspan.exists_not_collinear
  obtain ⟨rest, hperm⟩ := exists_perm_start (Block.nodup_of_not_collinear hnot) ha hb hc
  have hrange : ∀ v ∈ [a, b, c] ++ rest, v.InRange :=
    fun v hv => hvs v (hperm.mem_iff.1 hv)
  obtain ⟨hsolid, hsettled⟩ :=
    solid_of_start hrange (hspan.of_mem_iff fun v => hperm.mem_iff) hnot
  refine ⟨[a, b, c] ++ rest, hperm, fun q => ?_⟩
  rw [hsolid.containsPoint_blocks_iff hsettled hrange,
    Block.solid_eq_of_mem_iff fun v => hperm.mem_iff]

/-- Some order of blocks answers by the box of any three of them that lie on a line. -/
theorem exists_perm_box (hvs : ∀ v ∈ vs, v.InRange) (ha : a ∈ vs) (hb : b ∈ vs)
    (hc : c ∈ vs) (hnodup : [a, b, c].Nodup)
    (hcollinear : Collinear ℝ {a.real.place, b.real.place, c.real.place}) :
    ∃ ws : List Block, ws.Perm vs ∧ ∀ q,
      ((empty.addBlocks ws).containsPoint Triangle.above q).1 = true ↔
        q ∈ Block.box [a, b, c] := by
  obtain ⟨rest, hperm⟩ := exists_perm_start hnodup ha hb hc
  have hrange : ∀ v ∈ [a, b, c] ++ rest, v.InRange :=
    fun v hv => hvs v (hperm.mem_iff.1 hv)
  have hsound : (empty.addBlocks ([a, b, c] ++ rest)).Sound :=
    sound_empty.addBlocks hrange
  have hflat := flat_of_collinear_start hrange hnodup hcollinear
  exact ⟨[a, b, c] ++ rest, hperm, hflat.containsPoint_iff_of_collinear hsound.boxed
    (Block.collinear_iff.1 hcollinear)⟩

/-- The answers about blocks that span space do not depend on their order if and
only if the convex hull has the same lattice points as the box of any three of the
blocks that lie on a line. -/
theorem answer_perm_iff (hvs : ∀ v ∈ vs, v.InRange) (hspan : Block.Spanning vs) :
    (∀ ws : List Block, ws.Perm vs → ∀ q, answer ws q = answer vs q) ↔
      ∀ a ∈ vs, ∀ b ∈ vs, ∀ c ∈ vs, [a, b, c].Nodup →
        Collinear ℝ {a.real.place, b.real.place, c.real.place} →
          ∀ q, q ∈ Block.box [a, b, c] ↔ q.real.place ∈ Block.solid vs := by
  have hrange : ∀ ws : List Block, ws.Perm vs → ∀ v ∈ ws, v.InRange :=
    fun ws hperm v hv => hvs v (hperm.mem_iff.1 hv)
  have hcases := fun (ws : List Block) (hperm : ws.Perm vs) =>
    containsPoint_blocks_cases (hrange ws hperm) (hspan.of_mem_iff fun v =>
      hperm.mem_iff)
  have hanswer : ∀ ws : List Block, ws.Perm vs → ∀ q, answer ws q = answer vs q ↔
      (((empty.addBlocks ws).containsPoint Triangle.above q).1 = true ↔
        ((empty.addBlocks vs).containsPoint Triangle.above q).1 = true) := by
    intro ws hperm q
    exact answer_eq_iff hvs (hrange ws hperm) (hcases vs (List.Perm.refl vs)).1
      (hcases ws hperm).1 q
  constructor
  · intro hsame a ha b hb c hc hnodup hcollinear q
    obtain ⟨ws, hperm, hbox⟩ := exists_perm_box hvs ha hb hc hnodup hcollinear
    obtain ⟨ws', hperm', hsolid⟩ := exists_perm_solid hvs hspan
    rw [← hbox q, ← hsolid q, (hanswer ws hperm q).1 (hsame ws hperm q),
      (hanswer ws' hperm' q).1 (hsame ws' hperm' q)]
  · intro hbox ws hperm q
    have hconvex : ∀ us : List Block, us.Perm vs →
        (((empty.addBlocks us).containsPoint Triangle.above q).1 = true ↔
          q.real.place ∈ Block.solid vs) := by
      intro us hperm'
      obtain ⟨-, hsolid | ⟨a, ha, b, hb, c, hc, hnodup, hcollinear, hflat⟩⟩ :=
        hcases us hperm'
      · rw [hsolid q, Block.solid_eq_of_mem_iff fun v => hperm'.mem_iff]
      · rw [hflat q]
        exact hbox a (hperm'.mem_iff.1 ha) b (hperm'.mem_iff.1 hb) c
          (hperm'.mem_iff.1 hc) hnodup
          hcollinear q
    rw [hanswer ws hperm q, hconvex ws hperm, hconvex vs (List.Perm.refl vs)]

/-- A corner of a cube, which has no three blocks on a line. -/
def tripod : List Block :=
  [⟨0, 0, 0⟩, ⟨1, 0, 0⟩, ⟨0, 1, 0⟩, ⟨0, 0, 1⟩]

theorem answer_perm_tripod :
    (∀ v ∈ tripod, v.InRange) ∧ Block.Spanning tripod ∧
      ∀ ws : List Block, ws.Perm tripod → ∀ q, answer ws q = answer tripod q := by
  have hrange : ∀ v ∈ tripod, v.InRange := by decide
  have hspan : Block.Spanning tripod := by
    apply Block.spanning_of_orient_ne_zero (a := ⟨0, 0, 0⟩) (b := ⟨1, 0, 0⟩)
      (c := ⟨0, 1, 0⟩)
      (d := ⟨0, 0, 1⟩) <;> decide
  have hoff : ∀ a ∈ tripod, ∀ b ∈ tripod, ∀ c ∈ tripod, [a, b, c].Nodup →
      ∃ d ∈ tripod, Vec3.orient a b c d ≠ 0 := by decide
  refine ⟨hrange, hspan, (answer_perm_iff hrange hspan).2 ?_⟩
  intro a ha b hb c hc hnodup hcollinear
  obtain ⟨d, -, hd⟩ := hoff a ha b hb c hc hnodup
  exact absurd (Block.collinear_iff.1 hcollinear d) hd

/-- The corner of a cube and a block on one of its edges, which comes third or fourth. -/
theorem answer_ne_of_perm :
    (∀ v ∈ ([⟨0, 0, 0⟩, ⟨1, 0, 0⟩, ⟨0, 1, 0⟩, ⟨2, 0, 0⟩, ⟨0, 0, 1⟩] : List Block),
      v.InRange) ∧
      Block.Spanning [⟨0, 0, 0⟩, ⟨1, 0, 0⟩, ⟨0, 1, 0⟩, ⟨2, 0, 0⟩, ⟨0, 0, 1⟩] ∧
      List.Perm [⟨0, 0, 0⟩, ⟨1, 0, 0⟩, ⟨2, 0, 0⟩, ⟨0, 1, 0⟩, ⟨0, 0, 1⟩]
        ([⟨0, 0, 0⟩, ⟨1, 0, 0⟩, ⟨0, 1, 0⟩, ⟨2, 0, 0⟩, ⟨0, 0, 1⟩] : List Block) ∧
      answer [⟨0, 0, 0⟩, ⟨1, 0, 0⟩, ⟨0, 1, 0⟩, ⟨2, 0, 0⟩, ⟨0, 0, 1⟩] ⟨0, 1, 0⟩ =
        .ok true ∧
      answer [⟨0, 0, 0⟩, ⟨1, 0, 0⟩, ⟨2, 0, 0⟩, ⟨0, 1, 0⟩, ⟨0, 0, 1⟩] ⟨0, 1, 0⟩ =
        .ok false := by
  have hfinite : Point.isFinite (Vec3.ofBlock ⟨0, 1, 0⟩) = true := by decide
  refine ⟨by decide, ?_, by decide, ?_, ?_⟩
  · apply Block.spanning_of_orient_ne_zero (a := ⟨0, 0, 0⟩) (b := ⟨1, 0, 0⟩)
      (c := ⟨0, 1, 0⟩)
      (d := ⟨0, 0, 1⟩) <;> decide
  · rw [answer_of_faces (by decide) (by cbv; simp), if_pos hfinite]
    cbv
  · rw [answer_of_faces (by decide) (by cbv; simp), if_pos hfinite]
    cbv

end Hull
end LatticeHull
