import LatticeHull.Proofs.Hull.Vertices
import LatticeHull.Proofs.Mesh.Convex
import LatticeHull.Proofs.Mesh.Flat
import LatticeHull.Proofs.Mesh.Grow

/-!
# The phases of a hull

A hull of whole coordinates is sparse while it has fewer than three vertices, flat while
its mesh consists of two triangles back to back, and solid afterwards.  In no phase does
a triangle see a vertex.  Between the step that makes a flat hull solid and the end of
the replay that it calls for this is not so: the pending vertices lie in the plane of the
flat mesh, but not all of them lie in the solid.  By then they are no longer pending but
left in the work of the replay.
-/

namespace LatticeHull
namespace Hull

/-- No triangle sees a pending vertex. -/
def Settled (h : Hull Int) : Prop :=
  ∀ v ∈ h.pending, h.faces.Encloses v

/-- A hull with fewer than three vertices, and without a mesh. -/
structure Sparse (h : Hull Int) : Prop where
  few : h.accepted.length < 3
  nodup : h.accepted.Nodup
  faces_eq : h.faces = []
  pending_eq : h.pending = []

/-- A hull whose mesh consists of two triangles back to back. -/
structure Flat (h : Hull Int) (a b c : Block) : Prop where
  accepted_eq : h.accepted = [a, b, c]
  nodup : [a, b, c].Nodup
  faces_eq : h.faces = Mesh.flat a b c
  settled : h.Settled

/-- A hull whose mesh is convex.  The vertices that a replay is to put
back count as well. -/
structure Solid (h : Hull Int) (work : List Task) : Prop where
  convex : h.faces.Convex
  ne_nil : h.faces ≠ []
  enough : 3 ≤ h.accepted.length
  corner_mem : ∀ c ∈ h.faces.corners, c ∈ h.counted work
  encloses : ∀ v ∈ h.counted work, h.faces.Encloses v

/-- The phases that a hull goes through. -/
inductive Phase (h : Hull Int) : Prop where
  | sparse (hsparse : h.Sparse)
  | flat (a b c : Block) (hflat : h.Flat a b c)
  | solid (hsolid : h.Solid []) (hsettled : h.Settled)

theorem phase_empty : Phase empty :=
  Phase.sparse ⟨Nat.zero_lt_succ 2, List.nodup_nil, rfl, rfl⟩

section Steps

variable {h next : Hull Int} {v : Block} {outcome : Outcome} {work : List Task}

theorem Solid.restore (hsolid : h.Solid (.restore v :: work)) :
    (h.restore v).Solid work := by
  have hfaces := faces_restore h v
  have hcounted := counted_restore h v work
  constructor
  · rw [hfaces]
    exact hsolid.convex
  · rw [hfaces]
    exact hsolid.ne_nil
  · have hlength : h.accepted.length ≤ (h.restore v).accepted.length := by
      unfold Hull.restore
      split <;> simp [record]
    exact hsolid.enough.trans hlength
  · rw [hfaces, hcounted]
    exact hsolid.corner_mem
  · rw [hfaces, hcounted]
    exact hsolid.encloses

theorem Solid.of_insert (hsolid : h.Solid (.insert v :: work)) : h.Solid work where
  convex := hsolid.convex
  ne_nil := hsolid.ne_nil
  enough := hsolid.enough
  corner_mem := counted_insert h v work ▸ hsolid.corner_mem
  encloses := counted_insert h v work ▸ hsolid.encloses

theorem Settled.restore (hsettled : h.Settled) : (h.restore v).Settled := by
  rw [Settled, pending_restore, faces_restore]
  exact hsettled

/-- A round starts from a hull that is solid again once nothing is pending. -/
theorem Solid.suspend (hsolid : h.Solid work) (hv : v ∈ h.accepted)
    (hlength : 3 < h.accepted.length) : (h.suspend v).Solid (h.round v ++ work) where
  convex := hsolid.convex
  ne_nil := hsolid.ne_nil
  enough := by
    have herase : (h.suspend v).accepted.length = h.accepted.length - 1 :=
      List.length_erase_of_mem hv
    omega
  corner_mem := by
    rw [counted_suspend hv]
    exact hsolid.corner_mem
  encloses := by
    rw [counted_suspend hv]
    exact hsolid.encloses

theorem settled_suspend (h : Hull Int) (v : Block) : (h.suspend v).Settled :=
  fun _ hx => absurd hx List.not_mem_nil

theorem length_of_grown (hstep : Insertion Triangle.above h v (.ok .grown) next) :
    3 < next.accepted.length := by
  cases hstep with
  | grown w hv hword hlength hsees =>
    simpa [adopt, record, measure, forget] using hlength

/-- The mesh of a solid hull grows by a vertex, unless it encloses the vertex already. -/
theorem Solid.grow (hsolid : h.Solid work) (hsettled : h.Settled) (w : Words) :
    Solid { h.adopt v w with faces := h.faces.grow Triangle.above v } work ∧
      Settled { h.adopt v w with faces := h.faces.grow Triangle.above v } := by
  have hkeep : ∀ x, h.faces.Encloses x → (h.faces.grow Triangle.above v).Encloses x :=
    fun x hx => hsolid.convex.encloses_grow hx
  have hconvex : (h.faces.grow Triangle.above v).Convex := by
    by_cases hinside : h.faces.Encloses v
    · rw [Mesh.grow_eq_self hinside]
      exact hsolid.convex
    · exact hsolid.convex.grow hinside
  have hcounted :
      ∀ x, x ∈ counted { h.adopt v w with faces := h.faces.grow Triangle.above v } work ↔
      x ∈ h.counted work ∨ x = v := by
    intro x
    simp [counted, adopt, record, measure, forget, or_assoc, or_comm]
  refine ⟨⟨hconvex, ?_, ?_, ?_, ?_⟩, ?_⟩
  · exact hsolid.convex.grow_ne_nil hsolid.ne_nil v
  · have := hsolid.enough
    simp [adopt, record, measure, forget]
    omega
  · intro c hc
    rw [hcounted]
    rcases hsolid.convex.corner_of_grow hc with hold | rfl
    · exact Or.inl (hsolid.corner_mem c hold)
    · exact Or.inr rfl
  · intro x hx
    rcases (hcounted x).1 hx with hold | rfl
    · exact hkeep x (hsolid.encloses x hold)
    · exact Mesh.Convex.encloses_apex h.faces x
  · intro x hx
    exact hkeep x (hsettled x hx)

theorem encloses_of_misses (hmiss : ∀ t ∈ h.faces, t.above (Vec3.ofBlock v) = false) :
    h.faces.Encloses v :=
  fun t ht => (Triangle.above_eq_false_iff t v).1 (hmiss t ht)

theorem Solid.insertion (hsolid : h.Solid work) (hsettled : h.Settled)
    (hstep : Insertion Triangle.above h v (.ok outcome) next) :
    next.Solid work ∧ next.Settled := by
  have henough := hsolid.enough
  cases hstep with
  | known =>
      exact ⟨⟨hsolid.convex, hsolid.ne_nil, henough, hsolid.corner_mem, hsolid.encloses⟩,
        hsettled⟩
  | queued hv hlength hmiss =>
      refine ⟨⟨hsolid.convex, hsolid.ne_nil, henough, hsolid.corner_mem,
        hsolid.encloses⟩, ?_⟩
      intro x hx
      rcases List.mem_append.1 hx with hold | hnew
      · exact hsettled x hold
      · rw [List.mem_singleton] at hnew
        rw [hnew]
        exact encloses_of_misses hmiss
  | started w hv hword hlength => omega
  | flattened w a b hv hword hstart => simp [hstart] at henough
  | grown w hv hword hlength hsees => exact hsolid.grow hsettled w

/-- A replay keeps a hull solid and ends with nothing pending that a triangle sees. -/
theorem Solid.replay (hsolid : h.Solid work) (hsettled : h.Settled)
    (hend : h.replay Triangle.above work = (.ok (), next)) :
    next.Solid [] ∧ next.Settled := by
  refine replay_induction (P := fun h' work' => h'.Solid work' ∧ h'.Settled) ?_ ?_ ?_
    ⟨hsolid, hsettled⟩ hend
  · intro h' x work' hold
    exact ⟨hold.1.restore, hold.2.restore⟩
  · intro h' x work' result next' hold hstep _
    exact hold.1.of_insert.insertion hold.2 hstep
  · intro h' x work' next' hold hstep _
    have hsolid' := (hold.1.of_insert.insertion hold.2 hstep).1
    exact ⟨hsolid'.suspend hstep.mem_accepted_of_grown (length_of_grown hstep),
      settled_suspend next' x⟩

theorem Sparse.insertion (hsparse : h.Sparse)
    (hstep : Insertion Triangle.above h v (.ok outcome) next) :
    outcome ≠ .grown ∧ (next.Sparse ∨ ∃ a b, h.accepted = [a, b] ∧ next.Flat a b v) := by
  have hfew := hsparse.few
  have hvertices : h.vertices = h.accepted := by
    rw [vertices, hsparse.pending_eq, List.append_nil]
  cases hstep with
  | known =>
      exact ⟨by decide, Or.inl ⟨hfew, hsparse.nodup, hsparse.faces_eq,
        hsparse.pending_eq⟩⟩
  | queued hv hlength => omega
  | started w hv hword hlength =>
      rw [hvertices] at hv
      refine ⟨by decide, Or.inl ⟨?_, ?_, hsparse.faces_eq, hsparse.pending_eq⟩⟩
      · simp only [adopt, record, measure, forget, List.length_append,
          List.length_singleton]
        omega
      · exact List.nodup_append.2 ⟨hsparse.nodup, List.nodup_singleton v, by
          rintro x hx y hy rfl
          rw [List.mem_singleton] at hy
          exact hv (hy ▸ hx)⟩
  | flattened w a b hv hword hstart =>
      rw [hvertices, hstart] at hv
      have hnodup := hsparse.nodup
      rw [hstart] at hnodup
      refine ⟨by decide, Or.inr ⟨a, b, hstart, ⟨?_, ?_, ?_, ?_⟩⟩⟩
      · simp [adopt, record, measure, forget, hstart]
      · simp only [List.mem_cons, List.not_mem_nil, or_false, not_or] at hv
        have hab : a ≠ b := by simpa using hnodup
        exact Block.nodup_iff.2 ⟨hab, Ne.symm hv.1, Ne.symm hv.2⟩
      · simp [hsparse.faces_eq]
      · intro x hx
        have hnone : x ∈ h.pending := hx
        rw [hsparse.pending_eq] at hnone
        exact absurd hnone List.not_mem_nil
  | grown w hv hword hlength => omega

theorem Flat.insertion {a b c : Block} (hflat : h.Flat a b c)
    (hstep : Insertion Triangle.above h v (.ok outcome) next) :
    (outcome ≠ .grown ∧ next.Flat a b c) ∨
      (outcome = .grown ∧ Vec3.orient a b c v ≠ 0 ∧ next.Solid []) := by
  have hlength : h.accepted.length = 3 := by
    rw [hflat.accepted_eq]
    rfl
  cases hstep with
  | known =>
      exact Or.inl ⟨by decide, hflat.accepted_eq, hflat.nodup, hflat.faces_eq,
        hflat.settled⟩
  | queued hv _ hmiss =>
      refine Or.inl ⟨by decide, hflat.accepted_eq, hflat.nodup, hflat.faces_eq, ?_⟩
      intro x hx
      rcases List.mem_append.1 hx with hold | hnew
      · exact hflat.settled x hold
      · rw [List.mem_singleton] at hnew
        rw [hnew]
        exact encloses_of_misses hmiss
  | started w hv hword hfew => omega
  | flattened w a b hv hword hstart =>
      rw [hstart] at hlength
      exact absurd hlength (by simp)
  | grown w hv hword _ hsees =>
      obtain ⟨t, ht, habove⟩ := hsees hlength
      have hout : ¬h.faces.Encloses v := by
        intro hin
        have hpos := (Triangle.above_iff t v).1 habove
        exact absurd (hin t ht) (not_le.2 hpos)
      rw [hflat.faces_eq] at hout
      obtain ⟨hconvex, hcorners⟩ := Mesh.convex_grow_flat hout
      have hmem : ∀ x, x ∈ (h.adopt v w).counted [] ↔ x = a ∨ x = b ∨ x = c ∨ x = v := by
        intro x
        simp [counted, adopt, record, measure, forget, hflat.accepted_eq]
      refine Or.inr ⟨rfl, fun hzero => hout (Mesh.encloses_flat_iff.2 hzero), ?_⟩
      rw [hflat.faces_eq]
      refine ⟨hconvex, ?_, ?_, ?_, ?_⟩
      · have hcorner := (hcorners v).2 (Or.inr (Or.inr (Or.inr rfl)))
        obtain ⟨s, hs, -⟩ := Mesh.mem_corners_iff.1 hcorner
        exact List.ne_nil_of_mem hs
      · simp [adopt, record, measure, forget, hflat.accepted_eq]
      · intro x hx
        exact (hmem x).2 ((hcorners x).1 hx)
      · intro x hx
        exact hconvex.encloses_corner x ((hcorners x).2 ((hmem x).1 hx))

/-! ### Whole additions and moves -/

/-- The replay that a new mesh calls for leaves nothing pending that a triangle sees. -/
theorem Solid.recall (hsolid : next.Solid [])
    (hstep : Insertion Triangle.above h v (.ok .grown) next) {final : Hull Int}
    (hreplay : (next.suspend v).replay Triangle.above (next.round v) = (.ok (), final)) :
    final.Solid [] ∧ final.Settled := by
  have hround := hsolid.suspend hstep.mem_accepted_of_grown (length_of_grown hstep)
  rw [List.append_nil] at hround
  exact hround.replay (settled_suspend next v) hreplay

/-! What a hull remembers of the last rejection does not count. -/

theorem Solid.remember (hsolid : h.Solid []) (last : Option Nat) :
    Solid { h with last := last } [] where
  convex := hsolid.convex
  ne_nil := hsolid.ne_nil
  enough := hsolid.enough
  corner_mem := hsolid.corner_mem
  encloses := hsolid.encloses

theorem Flat.remember {a b c : Block} (hflat : h.Flat a b c) (last : Option Nat) :
    Flat { h with last := last } a b c where
  accepted_eq := hflat.accepted_eq
  nodup := hflat.nodup
  faces_eq := hflat.faces_eq
  settled := hflat.settled

theorem Sparse.remember (hsparse : h.Sparse) (last : Option Nat) :
    Sparse { h with last := last } where
  few := hsparse.few
  nodup := hsparse.nodup
  faces_eq := hsparse.faces_eq
  pending_eq := hsparse.pending_eq

theorem Phase.remember (hphase : h.Phase) (last : Option Nat) :
    Phase { h with last := last } := by
  cases hphase with
  | sparse hsparse => exact Phase.sparse (hsparse.remember last)
  | flat a b c hflat => exact Phase.flat a b c (hflat.remember last)
  | solid hsolid hsettled => exact Phase.solid (hsolid.remember last) hsettled

theorem Solid.addBlock {new : Bool} (hsolid : h.Solid []) (hsettled : h.Settled)
    (hadd : h.addBlock Triangle.above v = (.ok new, next)) :
    next.Solid [] ∧ next.Settled := by
  obtain ⟨result, mid, hstep, -, hrest⟩ := addBlock_cases hadd
  obtain ⟨hmid, hsettled'⟩ := hsolid.insertion hsettled hstep
  rcases hrest with ⟨-, rfl⟩ | ⟨⟨rfl, -⟩, final, hreplay, rfl⟩
  · exact ⟨hmid.remember none, hsettled'⟩
  · obtain ⟨hfinal, hsettled''⟩ := hmid.recall hstep hreplay
    exact ⟨hfinal.remember none, hsettled''⟩

theorem Flat.addBlock {a b c : Block} {new : Bool} (hflat : h.Flat a b c)
    (hadd : h.addBlock Triangle.above v = (.ok new, next)) :
    next.Flat a b c ∨ (Vec3.orient a b c v ≠ 0 ∧ next.Solid [] ∧ next.Settled) := by
  obtain ⟨result, mid, hstep, -, hrest⟩ := addBlock_cases hadd
  rcases hflat.insertion hstep with ⟨hresult, hmid⟩ | ⟨rfl, hoff, hmid⟩
  · rcases hrest with ⟨-, rfl⟩ | ⟨hrecalls, -⟩
    · exact Or.inl (hmid.remember none)
    · exact absurd hrecalls.1 hresult
  · rcases hrest with ⟨hquiet, rfl⟩ | ⟨-, final, hreplay, rfl⟩
    · have hnone : mid.pending = [] := by
        by_contra hsome
        exact hquiet ⟨rfl, hsome⟩
      refine Or.inr ⟨hoff, hmid.remember none, ?_⟩
      intro x hx
      have hpending : x ∈ mid.pending := hx
      rw [hnone] at hpending
      exact absurd hpending List.not_mem_nil
    · obtain ⟨hfinal, hsettled⟩ := hmid.recall hstep hreplay
      exact Or.inr ⟨hoff, hfinal.remember none, hsettled⟩

theorem Sparse.addBlock {new : Bool} (hsparse : h.Sparse)
    (hadd : h.addBlock Triangle.above v = (.ok new, next)) :
    next.Sparse ∨ ∃ a b, h.accepted = [a, b] ∧ next.Flat a b v := by
  obtain ⟨result, mid, hstep, -, hrest⟩ := addBlock_cases hadd
  obtain ⟨hresult, hmid⟩ := hsparse.insertion hstep
  rcases hrest with ⟨-, rfl⟩ | ⟨hrecalls, -⟩
  · rcases hmid with hstill | ⟨a, b, haccepted, hflat⟩
    · exact Or.inl (hstill.remember none)
    · exact Or.inr ⟨a, b, haccepted, hflat.remember none⟩
  · exact absurd hrecalls.1 hresult

/-- A sparse hull with fewer than two vertices takes in a new one as the last. -/
theorem Sparse.addBlock_of_not_mem {new : Bool} (hsparse : h.Sparse)
    (hv : v ∉ h.accepted) (hlength : h.accepted.length < 2)
    (hadd : h.addBlock Triangle.above v = (.ok new, next)) :
    next.Sparse ∧ next.accepted = h.accepted ++ [v] := by
  obtain ⟨result, mid, hstep, -, hrest⟩ := addBlock_cases hadd
  have hmid : mid.accepted = h.accepted ++ [v] := by
    cases hstep with
    | known hmem =>
        rw [vertices, hsparse.pending_eq, List.append_nil] at hmem
        exact absurd hmem hv
    | queued hmem hthree => omega
    | started => rfl
    | flattened w a b hmem hword hstart => simp [hstart] at hlength
    | grown w hmem hword hthree => omega
  rcases hrest with ⟨-, rfl⟩ | ⟨hrecalls, -⟩
  · refine ⟨?_, hmid⟩
    rcases hsparse.addBlock hadd with hstill | ⟨a, b, hstart, -⟩
    · exact hstill
    · simp [hstart] at hlength
  · exact absurd hrecalls.1 (hsparse.insertion hstep).1

/-- Every addition that succeeds leads from one of the phases to one of them. -/
theorem Phase.addBlock {new : Bool} (hphase : h.Phase)
    (hadd : h.addBlock Triangle.above v = (.ok new, next)) : next.Phase := by
  cases hphase with
  | sparse hsparse =>
      rcases hsparse.addBlock hadd with hstill | ⟨a, b, -, hflat⟩
      · exact Phase.sparse hstill
      · exact Phase.flat a b v hflat
  | flat a b c hflat =>
      rcases hflat.addBlock hadd with hstill | ⟨-, hsolid, hsettled⟩
      · exact Phase.flat a b c hstill
      · exact Phase.solid hsolid hsettled
  | solid hsolid hsettled =>
      obtain ⟨hnext, hsettled'⟩ := hsolid.addBlock hsettled hadd
      exact Phase.solid hnext hsettled'

theorem Settled.moveBy (hsettled : h.Settled) (d : Words) : (h.moveBy d).Settled := by
  intro x hx
  obtain ⟨y, hy, rfl⟩ := List.mem_map.1 hx
  exact Mesh.encloses_moveBy_iff.2 (hsettled y hy)

theorem counted_moveBy_iff {d : Words} {x : Block} :
    x ∈ (h.moveBy d).counted [] ↔ ∃ y ∈ h.counted [], y + d.toBlock = x := by
  simp [counted, Hull.moveBy]

theorem Solid.moveBy (hsolid : h.Solid []) (d : Words) : (h.moveBy d).Solid [] where
  convex := hsolid.convex.moveBy d.toBlock
  ne_nil := by simpa [Hull.moveBy, Mesh.moveBy] using hsolid.ne_nil
  enough := by simpa [Hull.moveBy] using hsolid.enough
  corner_mem := by
    intro c hc
    obtain ⟨y, hy, rfl⟩ := Mesh.mem_corners_moveBy_iff.1 hc
    exact counted_moveBy_iff.2 ⟨y, hsolid.corner_mem y hy, rfl⟩
  encloses := by
    intro x hx
    obtain ⟨y, hy, rfl⟩ := counted_moveBy_iff.1 hx
    exact Mesh.encloses_moveBy_iff.2 (hsolid.encloses y hy)

theorem Phase.moveBy (hphase : h.Phase) (d : Words) : (h.moveBy d).Phase := by
  have hinjective := Vec3.add_left_injective d.toBlock
  cases hphase with
  | sparse hsparse =>
      refine Phase.sparse ⟨?_, hsparse.nodup.map hinjective, ?_, ?_⟩
      · simpa [Hull.moveBy] using hsparse.few
      · simp [Hull.moveBy, Mesh.moveBy, hsparse.faces_eq]
      · simp [Hull.moveBy, hsparse.pending_eq]
  | flat a b c hflat =>
      refine Phase.flat (a + d.toBlock) (b + d.toBlock) (c + d.toBlock)
        ⟨?_, hflat.nodup.map hinjective, ?_, hflat.settled.moveBy d⟩
      · simp [Hull.moveBy, hflat.accepted_eq]
      · simp only [Hull.moveBy, hflat.faces_eq]
        rfl
  | solid hsolid hsettled => exact Phase.solid (hsolid.moveBy d) (hsettled.moveBy d)

end Steps
end Hull
end LatticeHull
