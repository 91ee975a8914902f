import LatticeHull.Proofs.Binary.Nearest
import LatticeHull.Proofs.Hull.Backlog
import LatticeHull.Proofs.Hull.Membership
import LatticeHull.Proofs.Mesh.Grow
import LatticeHull.Proofs.Mesh.Indexed
import LatticeHull.Proofs.Mesh.Sphere

/-!
# What a new vertex does to the mesh

A solid hull has more than three accepted vertices, so a vertex that it does not know
is accepted at once and the mesh grows by it.  The replay that may follow brings back
vertices that the mesh encloses already, and they leave it as it is.  So the mesh
after an addition is the mesh grown by the one vertex: the same one, triangle by
triangle, if the vertex is inside, and otherwise one that has it for a corner of
three triangles at least.
-/

namespace LatticeHull
namespace Hull

section Steps

variable {h next last : Hull Int} {v : Block} {work : List Task} {outcome : Outcome}

/-- Vertices that the mesh encloses leave it as it is. -/
theorem Solid.faces_insertion (hsolid : h.Solid work) (hinside : h.faces.Encloses v)
    (hstep : Insertion Triangle.above h v (.ok outcome) next) :
    next.faces = h.faces := by
  have henough := hsolid.enough
  cases hstep with
  | known | queued | started => rfl
  | flattened w a b hv hword hstart => simp [hstart] at henough
  | grown => exact Mesh.grow_eq_self hinside

theorem Solid.faces_replay (hsolid : h.Solid work) (hsettled : h.Settled)
    (hinside : ∀ x, h.Waits work x → h.faces.Encloses x)
    (hend : h.replay Triangle.above work = (.ok (), last)) : last.faces = h.faces := by
  have hlast : (last.Solid [] ∧ last.Settled) ∧ last.faces = h.faces ∧
      ∀ x, last.Waits [] x → h.faces.Encloses x := by
    refine replay_induction (P := fun h' work' => (h'.Solid work' ∧ h'.Settled) ∧
      h'.faces = h.faces ∧ ∀ x, h'.Waits work' x → h.faces.Encloses x) ?_ ?_ ?_
      ⟨⟨hsolid, hsettled⟩, rfl, hinside⟩ hend
    · intro h' x work' ⟨⟨hsolid', hsettled'⟩, hfaces, hwaits⟩
      exact ⟨⟨hsolid'.restore, hsettled'.restore⟩, (faces_restore h' x).trans hfaces,
        fun y hy => hwaits y (waits_of_restore hy)⟩
    · intro h' x work' result next' ⟨⟨hsolid', hsettled'⟩, hfaces, hwaits⟩ hstep _
      have hx : h'.faces.Encloses x := hfaces ▸ hwaits x (waits_insert h' x work')
      exact ⟨hsolid'.of_insert.insertion hsettled' hstep,
        (hsolid'.faces_insertion hx hstep).trans hfaces,
        fun y hy => hwaits y (hstep.waits hy)⟩
    · intro h' x work' next' ⟨⟨hsolid', hsettled'⟩, hfaces, hwaits⟩ hstep _
      have hx : h'.faces.Encloses x := hfaces ▸ hwaits x (waits_insert h' x work')
      have hnext := (hsolid'.of_insert.insertion hsettled' hstep).1
      exact ⟨⟨hnext.suspend hstep.mem_accepted_of_grown (length_of_grown hstep),
          settled_suspend next' x⟩,
        (hsolid'.faces_insertion hx hstep).trans hfaces,
        fun y hy => hwaits y (hstep.waits (waits_of_round hy))⟩
  exact hlast.2.1

/-- The mesh of a solid hull grows by a new vertex and by nothing else. -/
theorem Solid.faces_addBlock (hsolid : h.Solid []) (hsettled : h.Settled)
    (hv : v ∉ h.vertices) {new : Bool}
    (hadd : h.addBlock Triangle.above v = (.ok new, last)) :
    last.faces = h.faces.grow Triangle.above v := by
  obtain ⟨result, next, hstep, -, hrest⟩ := addBlock_cases hadd
  obtain ⟨hnext, hsettled'⟩ := hsolid.insertion hsettled hstep
  have hlength := hsolid.three_lt
  have hgrown : result = .grown ∧ next.faces = h.faces.grow Triangle.above v := by
    cases hstep with
    | known hmem => exact absurd hmem hv
    | queued hmem hthree => omega
    | started w hmem hword hfew => omega
    | flattened w a b hmem hword hstart => simp [hstart] at hlength
    | grown => exact ⟨rfl, rfl⟩
  obtain ⟨rfl, hfaces⟩ := hgrown
  rcases hrest with ⟨-, rfl⟩ | ⟨-, final, hreplay, rfl⟩
  · exact hfaces
  · have hround := hnext.suspend hstep.mem_accepted_of_grown (length_of_grown hstep)
    rw [List.append_nil] at hround
    have hwaits : ∀ x, (next.suspend v).Waits (next.round v) x →
        next.faces.Encloses x := by
      intro x hx
      rw [← List.append_nil (next.round v)] at hx
      exact hsettled' x ((waits_of_round hx).resolve_right List.not_mem_nil)
    exact (hround.faces_replay (settled_suspend next v) hwaits hreplay).trans hfaces

theorem Solid.containsPoint_iff_encloses (hsolid : h.Solid []) (hsettled : h.Settled)
    (hbox : h.Boxed []) (q : Block) :
    (h.containsPoint Triangle.above q).1 = true ↔ h.faces.Encloses q := by
  rw [hsolid.containsPoint_iff hsettled hbox, ← hsolid.above_iff hsettled]
  exact forall₂_congr fun t _ => Triangle.above_eq_false_iff t q

end Steps

/-- A point that stands for a block in range is read as that block. -/
theorem ofDatum_of_holds {d : Datum} {p : Point} {q : Block}
    (hread : Point.ofDatum d = .ok p) (hp : p.Holds q (2 ^ 16)) :
    Block.ofDatum d = .ok q := by
  have hbind : Block.ofDatum d = Point.ofDatum d >>= Block.ofPoint := rfl
  have hfloor : p.map Binary.floor = q := by
    have hx := hp.x_le
    have hy := hp.y_le
    have hz := hp.z_le
    exact Vec3.ext (Binary.floor_of_holds hp.x (by omega))
      (Binary.floor_of_holds hp.y (by omega))
      (Binary.floor_of_holds hp.z (by omega))
  rw [hbind, hread]
  change Block.ofPoint p = _
  rw [Block.ofPoint, if_pos (isFinite_of_holds hp), hfloor]

theorem countP_corner_machine {m : Mesh Int} (hm : m.InRange) {q : Block}
    (hq : q.InRange) :
    m.machine.countP (fun t => t.corners.contains (Vec3.ofBlock q)) =
      m.countP (fun t => t.corners.contains q) := by
  rw [Mesh.machine, List.countP_map]
  refine List.countP_congr fun t ht => ?_
  have hcorner :
      ∀ c ∈ t.corners, ((Vec3.ofBlock q : Point) == Vec3.ofBlock c) = (q == c) :=
    fun c hc => Vec3.beq_ofBlock hq (hm t ht c hc)
  obtain ⟨ha, hb, hc⟩ := Triangle.forall_mem_corners.1 hcorner
  simp only [Function.comp_apply, Triangle.machine, Triangle.corners_map]
  simp only [Triangle.corners, List.map_cons, List.map_nil, List.contains_cons,
    List.contains_nil, ha, hb, hc]

/-- In a reachable hull with more than two triangles, a lattice point that is not yet a
vertex leaves the mesh as it is if it is inside.  If it is outside, it becomes a corner
of at least three triangles, and only triangles that see it disappear. -/
theorem Reachable.faces_add {h : Hull Float} (hreach : Reachable h)
    (hmesh : 2 < h.faces.length) {d : Datum} {p : Point} {q : Block}
    (hread : Point.ofDatum d = .ok p) (heq : (p == Vec3.ofBlock q) = true)
    (hq : q.InRange) (hnew : q ∉ h.vertices) :
    (h.add d).1 = .ok true ∧ ∃ inside, (h.contains d).1 = .ok inside ∧
      (inside = true → (h.add d).2.faces = h.faces) ∧
      (inside = false →
        3 ≤ (h.add d).2.faces.countP (fun t => t.corners.contains (Vec3.ofBlock q)) ∧
          ∀ t ∈ h.faces, t ∉ (h.add d).2.faces → t.above (Vec3.ofBlock q) = true) := by
  obtain ⟨g, hsound, rfl⟩ := hreach.exists_sound
  rw [length_faces_machine] at hmesh
  obtain ⟨hsolid, hsettled⟩ := hsound.solid_of_two_lt hmesh
  have hblock := ofDatum_of_holds hread (Vec3.holds_of_beq hq heq)
  obtain ⟨new, hadd⟩ := hsound.addBlock_eq hq
  obtain ⟨new', hmachine⟩ := hsound.add_eq hblock hq
  have hgrow := hsolid.faces_addBlock hsettled hnew hadd
  have hnext := (hsound.addBlock hq hadd).faces_inRange
  have hfaces : (g.machine.add d).2.faces = (g.faces.grow Triangle.above q).machine := by
    rw [hmachine, ← hgrow]
    rfl
  rw [hgrow] at hnext
  have hinside := hsolid.containsPoint_iff_encloses hsettled hsound.boxed q
  refine ⟨?_, _, hsound.contains_of_beq hsolid.ne_nil hread heq hq, ?_, ?_⟩
  · have hchanged : new' = true := by
      have hfull : g.machine.addBlock Triangle.above q =
          (.ok new', (g.addBlock Triangle.above q).2.machine) := by
        rw [← hmachine, Hull.add, hblock]
      exact (addBlock_new_iff hfull).2 hnew
    rw [hmachine, hchanged]
  · intro htrue
    rw [hfaces, Mesh.grow_eq_self (hinside.1 htrue)]
    rfl
  · intro hfalse
    have hout : ¬g.faces.Encloses q := by
      rw [← hinside, hfalse]
      exact Bool.false_ne_true
    rw [hfaces, countP_corner_machine hnext hq]
    refine ⟨hsolid.convex.three_le_count_apex hout, ?_⟩
    intro t ht hgone
    obtain ⟨s, hs, rfl⟩ := List.mem_map.1 ht
    rw [Triangle.above_machine (hsound.faces_inRange s hs) (Vec3.holds_ofBlock hq)]
    by_contra hmiss
    have hkept : s ∈ g.faces.grow Triangle.above q := by
      refine Mesh.mem_grow_iff.2 (Or.inl ⟨hs, ?_⟩)
      rwa [← Triangle.above_eq_false_iff, ← Bool.not_eq_true]
    exact hgone (List.mem_map_of_mem hkept)

/-- A point on an edge, and a point that sees one of the faces, while a
vertex is pending. -/
theorem faces_add_wedge :
    Reachable (empty.addBlocks wedge).machine ∧
      2 < (empty.addBlocks wedge).machine.faces.length ∧
      Point.ofDatum (Block.toDatum ⟨0, 1, 0⟩) = .ok (Vec3.ofBlock ⟨0, 1, 0⟩) ∧
      Point.ofDatum (Block.toDatum ⟨0, 0, -1⟩) = .ok (Vec3.ofBlock ⟨0, 0, -1⟩) ∧
      ⟨0, 1, 0⟩ ∉ (empty.addBlocks wedge).machine.vertices ∧
      ⟨0, 0, -1⟩ ∉ (empty.addBlocks wedge).machine.vertices ∧
      ((empty.addBlocks wedge).machine.contains (Block.toDatum ⟨0, 1, 0⟩)).1 = .ok true ∧
      ((empty.addBlocks wedge).machine.add (Block.toDatum ⟨0, 1, 0⟩)).2.faces =
        (empty.addBlocks wedge).machine.faces ∧
      ((empty.addBlocks wedge).machine.contains (Block.toDatum ⟨0, 0, -1⟩)).1 =
        .ok false ∧
      3 ≤ ((empty.addBlocks wedge).machine.add (Block.toDatum ⟨0, 0, -1⟩)).2.faces.countP
        (fun t => t.corners.contains (Vec3.ofBlock ⟨0, 0, -1⟩)) := by
  have hreach : Reachable (empty.addBlocks wedge).machine := reachable_blocks (by decide)
  have hsound : (empty.addBlocks wedge).Sound := sound_empty.addBlocks (by decide)
  have hlength : (empty.addBlocks wedge).faces.length = 4 := by cbv
  have hmesh : 2 < (empty.addBlocks wedge).machine.faces.length := by
    rw [length_faces_machine, hlength]
    decide
  have hne : (empty.addBlocks wedge).faces ≠ [] := List.ne_nil_of_length_pos (by omega)
  have hin : Point.ofDatum (Block.toDatum ⟨0, 1, 0⟩) = .ok (Vec3.ofBlock ⟨0, 1, 0⟩) := by
    rw [Block.pointOfDatum_toDatum, if_pos (by decide)]
  have hout :
      Point.ofDatum (Block.toDatum ⟨0, 0, -1⟩) = .ok (Vec3.ofBlock ⟨0, 0, -1⟩) := by
    rw [Block.pointOfDatum_toDatum, if_pos (by decide)]
  have hvertices : (empty.addBlocks wedge).vertices =
      [⟨0, 0, 0⟩, ⟨2, 0, 0⟩, ⟨0, 0, 2⟩, ⟨0, 2, 0⟩, ⟨1, 0, 1⟩] := by cbv
  have hnew : ∀ q : Block, q ∉ [⟨0, 0, 0⟩, ⟨2, 0, 0⟩, ⟨0, 0, 2⟩, ⟨0, 2, 0⟩, ⟨1, 0, 1⟩] →
      q ∉ (empty.addBlocks wedge).machine.vertices := by
    intro q hq
    rw [← hvertices] at hq
    exact hq
  have hinside : ((empty.addBlocks wedge).machine.contains (Block.toDatum ⟨0, 1, 0⟩)).1 =
      .ok true := by
    rw [hsound.contains_of_beq (q := ⟨0, 1, 0⟩) hne hin (by decide) (by decide)]
    cbv
  have houtside :
      ((empty.addBlocks wedge).machine.contains (Block.toDatum ⟨0, 0, -1⟩)).1 =
      .ok false := by
    rw [hsound.contains_of_beq (q := ⟨0, 0, -1⟩) hne hout (by decide) (by decide)]
    cbv
  obtain ⟨-, inside, hanswer, hsame, -⟩ :=
    hreach.faces_add (q := ⟨0, 1, 0⟩) hmesh hin (by decide) (by decide)
      (hnew _ (by decide))
  obtain ⟨-, outside, hanswer', -, hcorner⟩ :=
    hreach.faces_add (q := ⟨0, 0, -1⟩) hmesh hout (by decide) (by decide)
      (hnew _ (by decide))
  rw [hinside, Except.ok.injEq] at hanswer
  rw [houtside, Except.ok.injEq] at hanswer'
  exact ⟨hreach, hmesh, hin, hout, hnew _ (by decide), hnew _ (by decide), hinside,
    hsame hanswer.symm, houtside, (hcorner hanswer'.symm).1⟩

end Hull

/-!
## The mesh of a hull is a sphere

The flat start of a hull and the tetrahedron that follows it are spheres, and a convex
sphere stays one when it grows.  So every step of a replay leaves a sphere behind,
whatever vertices it brings back, and every reachable hull with a mesh has two triangles
for each corner, but for four.
-/

/-! ### Counting different points -/

section Distinct

variable {A B : Type} [BEq A] [BEq B]

theorem eraseDups_map_of {f : A → B} : {l : List A} →
    (∀ a ∈ l, ∀ b ∈ l, (f a == f b) = (a == b)) → (l.map f).eraseDups = l.eraseDups.map f
  | [], _ => rfl
  | a :: l, h => by
      have hrest :
          (l.map f).filter (fun y => !y == f a) = (l.filter fun b => !b == a).map f := by
        rw [List.filter_map]
        congr 1
        refine List.filter_congr fun b hb => ?_
        rw [Function.comp_apply, h b (List.mem_cons_of_mem a hb) a List.mem_cons_self]
      have hmem : ∀ b ∈ l.filter (fun b => !b == a), b ∈ a :: l :=
        fun b hb => List.mem_cons_of_mem a (List.mem_of_mem_filter hb)
      rw [List.map_cons, List.eraseDups_cons, List.eraseDups_cons, List.map_cons, hrest,
        eraseDups_map_of fun b hb c hc => h b (hmem b hb) c (hmem c hc)]
  termination_by l => l.length
  decreasing_by exact Nat.lt_succ_of_le (List.length_filter_le _ _)

end Distinct

theorem length_eraseDups_block (l : List Block) :
    l.eraseDups.length = l.toFinset.card := by
  have hset : l.eraseDups.toFinset = l.toFinset := by
    ext x
    rw [List.mem_toFinset, List.mem_toFinset, List.mem_eraseDups]
  rw [← hset, List.toFinset_card_of_nodup (nodup_eraseDups l)]

namespace Mesh

theorem length_corners_machine {m : Mesh Int} (hm : m.InRange) :
    m.machine.corners.eraseDups.length = m.corners.toFinset.card := by
  rw [corners_machine, eraseDups_map_of, List.length_map, length_eraseDups_block]
  exact fun a ha b hb => Vec3.beq_ofBlock (hm.corner ha) (hm.corner hb)

end Mesh

namespace Hull

section Steps

variable {h next last : Hull Int} {v : Block} {work : List Task} {outcome : Outcome}

theorem Solid.spherical_insertion (hsolid : h.Solid work) (hsphere : h.faces.Spherical)
    (hstep : Insertion Triangle.above h v (.ok outcome) next) :
    next.faces.Spherical := by
  by_cases hinside : h.faces.Encloses v
  · rw [hsolid.faces_insertion hinside hstep]
    exact hsphere
  · have henough := hsolid.enough
    cases hstep with
    | known | queued | started => exact hsphere
    | flattened w a b hv hword hstart => simp [hstart] at henough
    | grown => exact hsolid.convex.spherical_grow hsolid.ne_nil hinside hsphere

theorem Solid.spherical_replay (hsolid : h.Solid work) (hsettled : h.Settled)
    (hsphere : h.faces.Spherical)
    (hend : h.replay Triangle.above work = (.ok (), last)) :
    last.faces.Spherical := by
  have hlast : (last.Solid [] ∧ last.Settled) ∧ last.faces.Spherical := by
    refine replay_induction (P := fun h' work' => (h'.Solid work' ∧ h'.Settled) ∧
      h'.faces.Spherical) ?_ ?_ ?_ ⟨⟨hsolid, hsettled⟩, hsphere⟩ hend
    · intro h' x work' ⟨⟨hsolid', hsettled'⟩, hsphere'⟩
      rw [faces_restore]
      exact ⟨⟨hsolid'.restore, hsettled'.restore⟩, hsphere'⟩
    · intro h' x work' result next' ⟨⟨hsolid', hsettled'⟩, hsphere'⟩ hstep _
      exact ⟨hsolid'.of_insert.insertion hsettled' hstep,
        hsolid'.spherical_insertion hsphere' hstep⟩
    · intro h' x work' next' ⟨⟨hsolid', hsettled'⟩, hsphere'⟩ hstep _
      have hnext := (hsolid'.of_insert.insertion hsettled' hstep).1
      have hsphere'' : next'.faces.Spherical :=
        hsolid'.spherical_insertion hsphere' hstep
      exact ⟨⟨hnext.suspend hstep.mem_accepted_of_grown (length_of_grown hstep),
        settled_suspend next' x⟩, hsphere''⟩
  exact hlast.2

theorem Solid.spherical_recall (hsolid : next.Solid []) (hsphere : next.faces.Spherical)
    (hstep : Insertion Triangle.above h v (.ok .grown) next)
    (hreplay : (next.suspend v).replay Triangle.above (next.round v) = (.ok (), last)) :
    last.faces.Spherical := by
  have hround := hsolid.suspend hstep.mem_accepted_of_grown (length_of_grown hstep)
  rw [List.append_nil] at hround
  exact hround.spherical_replay (settled_suspend next v) hsphere hreplay

theorem Solid.spherical_addBlock (hsolid : h.Solid []) (hsettled : h.Settled)
    (hsphere : h.faces.Spherical) {new : Bool}
    (hadd : h.addBlock Triangle.above v = (.ok new, last)) : last.faces.Spherical := by
  obtain ⟨result, next, hstep, -, hrest⟩ := addBlock_cases hadd
  have hnext := hsolid.spherical_insertion hsphere hstep
  rcases hrest with ⟨-, rfl⟩ | ⟨⟨rfl, -⟩, final, hreplay, rfl⟩
  · exact hnext
  · have hsolid' := (hsolid.insertion hsettled hstep).1
    have hfinal : final.faces.Spherical := hsolid'.spherical_recall hnext hstep hreplay
    exact hfinal

/-- A flat hull stays a sphere, also by the vertex that makes it solid. -/
theorem Flat.spherical_addBlock {a b c : Block} (hflat : h.Flat a b c) {new : Bool}
    (hadd : h.addBlock Triangle.above v = (.ok new, last)) : last.faces.Spherical := by
  obtain ⟨result, next, hstep, -, hrest⟩ := addBlock_cases hadd
  rcases hflat.insertion hstep with ⟨hresult, hnext⟩ | ⟨rfl, hoff, hnext⟩
  · rcases hrest with ⟨-, rfl⟩ | ⟨hrecalls, -⟩
    · have hfaces : next.forget.faces = Mesh.flat a b c := hnext.faces_eq
      rw [hfaces]
      exact Mesh.spherical_flat hnext.nodup
    · exact absurd hrecalls.1 hresult
  · have hsphere : next.faces.Spherical := by
      cases hstep with
      | grown w hv hword hlength hsees =>
          have hout : ¬(Mesh.flat a b c).Encloses v :=
            fun hin => hoff (Mesh.encloses_flat_iff.1 hin)
          have hgrown := Mesh.spherical_grow_flat hout
          rwa [← hflat.faces_eq] at hgrown
    rcases hrest with ⟨-, rfl⟩ | ⟨-, final, hreplay, rfl⟩
    · exact hsphere
    · have hfinal : final.faces.Spherical := hnext.spherical_recall hsphere hstep hreplay
      exact hfinal

/-- Whether there is no mesh, or it is a sphere. -/
def Round (h : Hull Int) : Prop :=
  h.faces = [] ∨ h.faces.Spherical

theorem Phase.round_addBlock (hphase : h.Phase) (hround : h.Round) {new : Bool}
    (hadd : h.addBlock Triangle.above v = (.ok new, last)) : last.Round := by
  cases hphase with
  | sparse hsparse =>
      rcases hsparse.addBlock hadd with hstill | ⟨a, b, -, hflat⟩
      · exact Or.inl hstill.faces_eq
      · refine Or.inr ?_
        rw [hflat.faces_eq]
        exact Mesh.spherical_flat hflat.nodup
  | flat a b c hflat => exact Or.inr (hflat.spherical_addBlock hadd)
  | solid hsolid hsettled =>
      exact Or.inr (hsolid.spherical_addBlock hsettled
        (hround.resolve_left hsolid.ne_nil) hadd)

theorem Round.moveBy (hround : h.Round) (d : Words) : (h.moveBy d).Round := by
  rcases hround with hnone | hsphere
  · exact Or.inl (by simp [Hull.moveBy, Mesh.moveBy, hnone])
  · exact Or.inr (hsphere.moveBy d.toBlock)

end Steps

/-- In every reachable hull with a mesh, the triangles are twice as many as the different
corners, but for four. -/
theorem Reachable.length_faces_add_four {h : Hull Float} (hreach : Reachable h)
    (hmesh : h.faces ≠ []) :
    h.faces.length + 4 = 2 * h.faces.corners.eraseDups.length := by
  obtain ⟨g, hsound, hround, rfl⟩ := hreach.exists_sound_and (Q := Round) (Or.inl rfl)
    (fun h next v new hsound hround hv hadd => hsound.phase.round_addBlock hround hadd)
    (fun h w hsound hround hrange => hround.moveBy w)
    (fun h last hround => hround)
  have hsphere : g.faces.Spherical := by
    refine hround.resolve_left fun hnone => hmesh ?_
    simp [machine, Mesh.machine, hnone]
  rw [length_faces_machine]
  change _ = 2 * g.faces.machine.corners.eraseDups.length
  rw [Mesh.length_corners_machine hsound.faces_inRange]
  exact hsphere

theorem length_faces_add_four_pyramid :
    Reachable (empty.addBlocks pyramid).machine ∧
      (empty.addBlocks pyramid).machine.faces ≠ [] ∧
      (empty.addBlocks pyramid).machine.faces.length = 6 ∧
      (empty.addBlocks pyramid).machine.faces.corners.eraseDups.length = 5 := by
  have hreach : Reachable (empty.addBlocks pyramid).machine :=
    reachable_blocks (by decide)
  have hlength : (empty.addBlocks pyramid).machine.faces.length = 6 := by
    rw [length_faces_machine]
    cbv
  have hmesh : (empty.addBlocks pyramid).machine.faces ≠ [] := by
    apply List.ne_nil_of_length_pos
    omega
  have hcount := hreach.length_faces_add_four hmesh
  exact ⟨hreach, hmesh, hlength, by omega⟩

end Hull
end LatticeHull
