import LatticeHull.Proofs.Hull.Membership
import LatticeHull.Proofs.Hull.Partition
import LatticeHull.Region

/-!
# Histories of calls that succeed

A hull is built by additions, moves, requests to grow or shrink, and fresh starts, none
of which fails, while all vertices satisfy some condition.  What the triangles answer to
the half-space tests is left open, and may differ from one addition to the next.

In every such hull each vertex stands in one place of the list of vertices.  An addition
appends to the accepted vertices, and a replay that it calls for demotes none of them.
-/

namespace LatticeHull
namespace Hull

/-- Adds the block that contains a point, with any half-space test. -/
def addSeen (sees : Triangle Float → Point → Bool) (h : Hull Float) (d : Datum) :
    Except Fault Bool × Hull Float :=
  match Block.ofDatum d with
  | .error fault => (.error fault, h)
  | .ok v => h.addBlock sees v

theorem addSeen_above (h : Hull Float) (d : Datum) :
    h.addSeen Triangle.above d = h.add d := rfl

/-- The hulls that calls which succeed lead to while all vertices satisfy a condition. -/
inductive Built (P : Block → Prop) : Hull Float → Prop where
  | start : Built P empty
  | add {h next : Hull Float} (hbuilt : Built P h) (sees : Triangle Float → Point → Bool)
      {d : Datum} {new : Bool} (hadd : h.addSeen sees d = (.ok new, next))
      (hnext : ∀ v ∈ next.vertices, P v) : Built P next
  | shift {h next : Hull Float} (hbuilt : Built P h) {d : Datum}
      (hshift : h.shift d = (.ok (), next)) (hnext : ∀ v ∈ next.vertices, P v) :
      Built P next
  | clear {h : Hull Float} (hbuilt : Built P h) : Built P empty
  | expand {h next : Hull Float} (hbuilt : Built P h) {changes : List Datum}
      (hexpand : Region.expand changes (.hull h) = (.ok (), .hull next)) : Built P next
  | contract {h next : Hull Float} (hbuilt : Built P h) {changes : List Datum}
      (hcontract : Region.contract changes (.hull h) = (.ok (), .hull next)) :
      Built P next

theorem addSeen_eq_ok {sees : Triangle Float → Point → Bool} {h next : Hull Float}
    {d : Datum} {new : Bool} (hadd : h.addSeen sees d = (.ok new, next)) :
    ∃ v, Block.ofDatum d = .ok v ∧ h.addBlock sees v = (.ok new, next) := by
  unfold addSeen at hadd
  split at hadd
  · cases hadd
  · rename_i v hread
    exact ⟨v, hread, hadd⟩

theorem shift_eq_ok {h next : Hull Float} {d : Datum}
    (hshift : h.shift d = (.ok (), next)) :
    ∃ c w, Block.ofDatum d = .ok c ∧ Block.toWords? c = some w ∧ next = h.moveBy w := by
  unfold Hull.shift at hshift
  split at hshift
  · cases hshift
  · rename_i c hread
    split at hshift
    · cases hshift
    · rename_i w hword
      cases hshift
      exact ⟨c, w, hread, hword, rfl⟩

/-- What no addition and no move breaks holds of every hull that is built. -/
theorem Built.induction {P : Block → Prop} {Q : Hull Float → Prop} (hstart : Q empty)
    (hadd : ∀ (h next : Hull Float) (sees : Triangle Float → Point → Bool) (v : Block)
      (new : Bool),
      Q h → h.addBlock sees v = (.ok new, next) → (∀ x ∈ next.vertices, P x) → Q next)
    (hmove : ∀ (h : Hull Float) (d : Datum) (c : Block) (w : Words), Q h →
      Block.ofDatum d = .ok c → Block.toWords? c = some w →
      (∀ x ∈ h.vertices, P x) → (∀ x ∈ (h.moveBy w).vertices, P x) → Q (h.moveBy w))
    {h : Hull Float} (hbuilt : Built P h) : Q h ∧ ∀ v ∈ h.vertices, P v := by
  induction hbuilt with
  | start => exact ⟨hstart, fun v hv => absurd hv List.not_mem_nil⟩
  | add hbuilt sees hcall hnext ih =>
      obtain ⟨v, -, hblock⟩ := addSeen_eq_ok hcall
      exact ⟨hadd _ _ sees v _ ih.1 hblock hnext, hnext⟩
  | shift hbuilt hcall hnext ih =>
      obtain ⟨c, w, hread, hword, rfl⟩ := shift_eq_ok hcall
      exact ⟨hmove _ _ c w ih.1 hread hword ih.2 hnext, hnext⟩
  | clear hbuilt ih => exact ⟨hstart, fun v hv => absurd hv List.not_mem_nil⟩
  | expand hbuilt hcall ih =>
      cases hcall
      exact ih
  | contract hbuilt hcall ih =>
      cases hcall
      exact ih

theorem nodup_vertices_moveBy {α : Type} [Scalar α] {h : Hull α}
    (hnodup : h.vertices.Nodup) (w : Words) : (h.moveBy w).vertices.Nodup := by
  have hmoved : (h.moveBy w).vertices = h.vertices.map (· + w.toBlock) :=
    List.map_append.symm
  rw [hmoved]
  exact hnodup.map (Vec3.add_left_injective w.toBlock)

/-- In a hull that is built, no vertex is accepted twice, pending twice, or both. -/
theorem Built.nodup_vertices {P : Block → Prop} {h : Hull Float} (hbuilt : Built P h) :
    h.vertices.Nodup := by
  refine (Built.induction (Q := fun h => h.vertices.Nodup) ?_ ?_ ?_ hbuilt).1
  · exact List.nodup_nil
  · intro h next sees v new hnodup hadd _
    exact addBlock_nodup hnodup hadd
  · intro h d c w hnodup _ _ _ _
    exact nodup_vertices_moveBy hnodup w

/-- Whatever the triangles answer, an addition that succeeds adds the block of its
point to the vertices and nothing else, tells whether the block is new, changes
nothing that can be seen if it is not, keeps the accepted vertices in front, and puts
a newly accepted one last. -/
theorem Built.addSeen_spec {P : Block → Prop} {h next : Hull Float} (hbuilt : Built P h)
    {sees : Triangle Float → Point → Bool} {d : Datum} {new : Bool}
    (hadd : h.addSeen sees d = (.ok new, next)) :
    ∃ v, Block.ofDatum d = .ok v ∧
      h.vertices.Nodup ∧ next.vertices.Nodup ∧
      (∀ x, x ∈ next.vertices ↔ x ∈ h.vertices ∨ x = v) ∧
      (new = true ↔ v ∉ h.vertices) ∧
      (new = false → next = { h with last := none }) ∧
      h.accepted <+: next.accepted ∧
      (v ∉ h.accepted → v ∈ next.accepted → next.accepted.getLast? = some v) := by
  obtain ⟨v, hread, hblock⟩ := addSeen_eq_ok hadd
  have hnodup := hbuilt.nodup_vertices
  obtain ⟨hfront, hnewest⟩ := addBlock_accepted hnodup hblock
  have hnew := addBlock_new_iff hblock
  refine ⟨v, hread, hnodup, addBlock_nodup hnodup hblock,
    fun x => addBlock_vertices hblock, hnew, ?_, hfront, hnewest⟩
  intro hfalse
  have hmem : v ∈ h.vertices := by
    by_contra hout
    rw [hnew.2 hout] at hfalse
    exact Bool.noConfusion hfalse
  rw [addBlock_of_mem hmem] at hblock
  cases hblock
  rfl

/-! ### Hulls of lists of lattice points -/

/-- A list of lattice points in range builds a hull. -/
theorem built_blocks {P : Block → Prop} (hP : ∀ v, v.InRange → P v) {vs : List Block}
    (hvs : ∀ v ∈ vs, v.InRange) : Built P (empty.addBlocks vs).machine := by
  have hstart : Built P (machine empty) := Built.start
  refine sound_empty.addBlocks_induction (P := fun g => Built P g.machine) hstart hvs ?_
  intro g next v new hg hbuilt hv hadd
  obtain ⟨new', hmachine⟩ := hg.add_toDatum hv
  rw [hadd] at hmachine
  exact hbuilt.add Triangle.above hmachine fun x hx =>
    hP x ((hg.addBlock hv hadd).inRange x hx)

theorem Sound.addSeen_of_not_mem {h : Hull Int} (hsound : h.Sound) {v : Block}
    (hv : v.InRange) (hnew : v ∉ h.vertices) :
    h.machine.addSeen Triangle.above v.toDatum =
      (.ok true, (h.addBlock Triangle.above v).2.machine) := by
  obtain ⟨new, hmachine⟩ := hsound.add_toDatum hv
  obtain rfl : new = true := by
    obtain ⟨u, hread, hblock⟩ := addSeen_eq_ok hmachine
    obtain ⟨hx, hy, hz⟩ := hv
    rw [Block.ofDatum_toDatum (by omega) (by omega) (by omega), Except.ok.injEq] at hread
    subst hread
    exact (addBlock_new_iff hblock).2 hnew
  exact hmachine

theorem addSeen_spec_pyramid :
    Built (fun _ => True) (empty.addBlocks square).machine ∧
      (empty.addBlocks square).machine.pending = [⟨4, 4, 0⟩] ∧
      (empty.addBlocks square).machine.addSeen Triangle.above (Block.toDatum ⟨0, 0, 4⟩) =
        (.ok true, (empty.addBlocks pyramid).machine) ∧
      (empty.addBlocks pyramid).machine.vertices.Nodup ∧
      (empty.addBlocks square).machine.accepted <+:
        (empty.addBlocks pyramid).machine.accepted ∧
      (empty.addBlocks pyramid).machine.accepted.getLast? = some ⟨0, 0, 4⟩ := by
  have hbuilt : Built (fun _ => True) (empty.addBlocks square).machine :=
    built_blocks (fun _ _ => trivial) (by decide)
  have hsound : (empty.addBlocks square).Sound := sound_empty.addBlocks (by decide)
  have hadd :
      (empty.addBlocks square).machine.addSeen Triangle.above (Block.toDatum ⟨0, 0, 4⟩) =
      (.ok true, (empty.addBlocks pyramid).machine) :=
    hsound.addSeen_of_not_mem (by decide) (by decide)
  have haccepted : (empty.addBlocks pyramid).accepted =
      [⟨0, 0, 0⟩, ⟨4, 0, 0⟩, ⟨0, 4, 0⟩, ⟨4, 4, 0⟩, ⟨0, 0, 4⟩] := by cbv
  have hmem : ⟨0, 0, 4⟩ ∈ (empty.addBlocks pyramid).accepted := by simp [haccepted]
  obtain ⟨v, hread, -, hnodup, -, -, -, hfront, hlast⟩ := hbuilt.addSeen_spec hadd
  have hv : Block.ofDatum (Block.toDatum ⟨0, 0, 4⟩) = .ok ⟨0, 0, 4⟩ :=
    Block.ofDatum_toDatum (by decide) (by decide) (by decide)
  rw [hv, Except.ok.injEq] at hread
  subst hread
  exact ⟨hbuilt, by decide, hadd, hnodup, hfront, hlast (by decide) hmem⟩

end Hull
end LatticeHull
