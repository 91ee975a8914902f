import LatticeHull.Proofs.Hull.Histories

/-!
# How long vertices stay pending

The replay that makes a flat hull solid takes the number of accepted vertices back to
three, and with three accepted vertices one that no triangle sees is put aside again.
The first vertex that a triangle does see is accepted as the fourth, and calls for a
round of its own: all that was put aside before it lies in the mesh and is put aside once
more, and the vertex itself is put back.  The next vertex is the fifth and calls for a
round in which four vertices are accepted already, so nothing is put aside any more.

A solid hull with pending vertices has therefore four or five accepted ones, and the next
new vertex takes all of them in.  From four accepted vertices on, no vertex is put aside.
-/

namespace LatticeHull
namespace Hull

/-! ### Hulls with more than three accepted vertices -/

section Drained

variable {α : Type} {sees : Triangle α → Vec3 α → Bool} {h next last : Hull α}
  {v : Block}
  {work : List Task}

/-- Whether more than three vertices are accepted and none is pending. -/
structure Drained (h : Hull α) : Prop where
  length : 3 < h.accepted.length
  pending : h.pending = []

theorem Drained.not_recalls (hdrained : h.Drained) {outcome : Outcome} :
    ¬Recalls outcome h :=
  fun hrecalls => hrecalls.2 hdrained.pending

theorem Drained.restore (hdrained : h.Drained) : (h.restore v).Drained where
  length := by
    have hlength := hdrained.length
    unfold Hull.restore
    split
    · exact hlength
    · simp only [record, List.length_append]
      omega
  pending := by
    rw [pending_restore]
    exact hdrained.pending

variable [Scalar α]

theorem Insertion.pending_of_three_lt {result : Except Fault Outcome}
    (hstep : Insertion sees h v result next) (hlength : 3 < h.accepted.length) :
    3 < next.accepted.length ∧ next.pending = h.pending := by
  cases hstep with
  | known => exact ⟨hlength, rfl⟩
  | queued hv hthree => omega
  | refused last hv hword =>
      refine ⟨?_, rfl⟩
      simp only [record, List.length_append]
      omega
  | started w hv hword hfew => omega
  | flattened w a b hv hword hstart =>
      rw [hstart] at hlength
      exact absurd hlength (by simp)
  | grown w hv hword hthree hsees =>
      refine ⟨?_, rfl⟩
      simp only [adopt, record, measure, forget, List.length_append]
      omega

theorem Drained.insertion {result : Except Fault Outcome} (hdrained : h.Drained)
    (hstep : Insertion sees h v result next) : next.Drained := by
  obtain ⟨hlength, hpending⟩ := hstep.pending_of_three_lt hdrained.length
  exact ⟨hlength, hpending.trans hdrained.pending⟩

/-- With more than three accepted vertices, a round leaves nothing pending. -/
theorem Insertion.drained_suspend (hstep : Insertion sees h v (.ok .grown) next)
    (hlength : 3 < h.accepted.length) : (next.suspend v).Drained where
  length := by
    rw [hstep.accepted_suspend]
    exact hlength
  pending := rfl

theorem Drained.replay (hdrained : h.Drained)
    (hend : h.replay sees work = (.ok (), last)) :
    last.Drained := by
  refine replay_induction (P := fun h' _ => h'.Drained) ?_ ?_ ?_ hdrained hend
  · intro h' x work' hold
    exact hold.restore
  · intro h' x work' outcome next hold hstep _
    exact hold.insertion hstep
  · intro h' x work' next hold hstep _
    exact hstep.drained_suspend hold.length

/-- Once nothing is pending, an addition puts nothing aside, whether it fails or not. -/
theorem Drained.addBlock (hdrained : h.Drained) : (h.addBlock sees v).2.Drained := by
  have hstep := Hull.insertion sees h v
  cases hinsert : h.insert sees v with
  | mk result next =>
      rw [hinsert] at hstep
      have hnext : next.Drained := hdrained.insertion hstep
      cases result with
      | error fault =>
          simp only [Hull.addBlock, hinsert]
          exact hnext
      | ok outcome =>
          rw [addBlock_of_ok hinsert]
          split
          · rename_i hrecalls
            exact absurd hrecalls hnext.not_recalls
          · exact ⟨hnext.length, hnext.pending⟩

/-- A new vertex takes in whatever is pending, if more than three vertices
are accepted. -/
theorem drained_addBlock (hlength : 3 < h.accepted.length) (hv : v ∉ h.vertices)
    {new : Bool} (hadd : h.addBlock sees v = (.ok new, last)) : last.Drained := by
  obtain ⟨outcome, next, hstep, -, hrest⟩ := addBlock_cases hadd
  have hgrown : outcome = .grown := by
    cases hstep with
    | known hmem => exact absurd hmem hv
    | queued hmem hthree => omega
    | started w hmem hword hfew => omega
    | flattened w a b hmem hword hstart => simp [hstart] at hlength
    | grown => rfl
  subst hgrown
  rcases hrest with ⟨hquiet, rfl⟩ | ⟨-, final, hreplay, rfl⟩
  · have hnone : next.pending = [] := by
      by_contra hsome
      exact hquiet ⟨rfl, hsome⟩
    exact ⟨(hstep.pending_of_three_lt hlength).1, hnone⟩
  · have hfinal := (hstep.drained_suspend hlength).replay hreplay
    exact ⟨hfinal.length, hfinal.pending⟩

theorem Drained.moveBy (hdrained : h.Drained) (d : Words) : (h.moveBy d).Drained where
  length := by simpa [Hull.moveBy] using hdrained.length
  pending := by simp [Hull.moveBy, hdrained.pending]

end Drained

/-- Nothing becomes pending by any call but a fresh start. -/
theorem Drained.after {h : Hull Float} (hdrained : h.Drained) {c : Call}
    (hc : c ≠ .clear) :
    (h.after c).Drained := by
  cases c with
  | add d =>
      rw [Hull.after, Hull.add]
      split
      · exact hdrained
      · exact hdrained.addBlock
  | shift d =>
      rw [Hull.after, Hull.shift]
      split
      · exact hdrained
      · split
        · exact hdrained
        · exact hdrained.moveBy _
  | clear => exact absurd rfl hc
  | ask d =>
      obtain ⟨last, heq⟩ := contains_eq h d
      rw [Hull.after, heq]
      exact ⟨hdrained.length, hdrained.pending⟩

theorem Drained.afterAll {h : Hull Float} (hdrained : h.Drained) {calls : List Call}
    (hcalls : .clear ∉ calls) : (h.afterAll calls).Drained := by
  refine List.foldlRecOn calls Hull.after hdrained fun g hg c hc => ?_
  exact hg.after fun heq => hcalls (heq ▸ hc)

/-! ### The replay that makes a flat hull solid -/

section Draining

variable {h next last : Hull Int} {v x : Block} {work : List Task}

/-- How far a replay has come that a vertex off the plane of a flat hull
has called for. -/
inductive Draining (v : Block) (h : Hull Int) (work : List Task) : Prop where
  /-- No vertex but those of the plane has been accepted. -/
  | searching (vs : List Block) (hlength : h.accepted.length = 3)
      (hwork : work = vs.map .insert ++ [.restore v])
  /-- A second vertex is out while those put aside before it, all of them in the
  mesh, have another try. -/
  | retrying (us : List Block) (u : Block) (vs : List Block)
      (hlength : h.accepted.length = 3)
      (hinside : ∀ x ∈ us, h.faces.Encloses x)
      (hwork : work = us.map .insert ++ .restore u :: (vs.map .insert ++ [.restore v]))
  /-- The second vertex is back. -/
  | resumed (vs : List Block) (hlength : h.accepted.length = 4)
      (hwork : work = vs.map .insert ++ [.restore v])
  /-- Nothing is put aside any more. -/
  | drained (hdrained : h.Drained)
  /-- The replay is over. -/
  | ended (hlength : h.accepted.length = 4 ∨ h.accepted.length = 5) (hwork : work = [])

theorem length_restore (hx : x ∉ h.accepted) :
    (h.restore x).accepted.length = h.accepted.length + 1 := by
  simp [restore_eq_record hx, record]

theorem Draining.restore (hdraining : Draining v h (.restore x :: work))
    (hx : x ∉ h.accepted) :
    Draining v (h.restore x) work := by
  have hrestored := length_restore hx
  cases hdraining with
  | searching vs hlength hwork =>
      cases vs with
      | nil =>
          simp only [List.map_nil, List.nil_append, List.cons.injEq] at hwork
          exact Draining.ended (by omega) hwork.2
      | cons y vs => simp at hwork
  | retrying us u vs hlength hinside hwork =>
      cases us with
      | nil =>
          simp only [List.map_nil, List.nil_append, List.cons.injEq] at hwork
          exact Draining.resumed vs (by omega) hwork.2
      | cons y us => simp at hwork
  | resumed vs hlength hwork =>
      cases vs with
      | nil =>
          simp only [List.map_nil, List.nil_append, List.cons.injEq] at hwork
          exact Draining.ended (by omega) hwork.2
      | cons y vs => simp at hwork
  | drained hdrained => exact Draining.drained hdrained.restore
  | ended hlength hwork => simp at hwork

/-- With three accepted vertices, one that the mesh encloses is put aside. -/
theorem Insertion.eq_queued {outcome : Outcome}
    (hstep : Insertion Triangle.above h x (.ok outcome) next) (hx : x ∉ h.vertices)
    (hlength : h.accepted.length = 3) (hinside : h.faces.Encloses x) :
    next = h.forget.enqueue x ∧ outcome = .queued := by
  cases hstep with
  | known hmem => exact absurd hmem hx
  | queued => exact ⟨rfl, rfl⟩
  | started w hmem hword hfew => omega
  | flattened w a b hmem hword hstart => simp [hstart] at hlength
  | grown w hmem hword hthree hsees =>
      obtain ⟨t, ht, habove⟩ := hsees hlength
      have hmiss := (Triangle.above_eq_false_iff t x).2 (hinside t ht)
      exact absurd (habove.symm.trans hmiss) (by simp)

/-- The accepted vertices are those that were there and the vertex that was inserted,
unless it was put aside. -/
theorem Insertion.length_of_three_le {outcome : Outcome}
    (hstep : Insertion Triangle.above h x (.ok outcome) next) (hx : x ∉ h.vertices)
    (hlength : 3 ≤ h.accepted.length) :
    (h.accepted.length = 3 ∧ outcome = .queued ∧ next.accepted = h.accepted) ∨
      (outcome = .grown ∧ next.accepted.length = h.accepted.length + 1) := by
  cases hstep with
  | known hmem => exact absurd hmem hx
  | queued hmem hthree => exact Or.inl ⟨hthree, rfl, rfl⟩
  | started w hmem hword hfew => omega
  | flattened w a b hmem hword hstart => simp [hstart] at hlength
  | grown => exact Or.inr ⟨rfl, by simp [adopt, record, measure, forget]⟩

theorem Draining.insertion {outcome : Outcome}
    (hdraining : Draining v h (.insert x :: work)) (hx : x ∉ h.vertices)
    (hstep : Insertion Triangle.above h x (.ok outcome) next)
    (hquiet : ¬Recalls outcome next) : Draining v next work := by
  have hgrown : 3 ≤ h.accepted.length → outcome = .grown → next.Drained := by
    rintro hthree rfl
    refine ⟨length_of_grown hstep, ?_⟩
    by_contra hsome
    exact hquiet ⟨rfl, hsome⟩
  cases hdraining with
  | searching vs hlength hwork =>
      rcases hstep.length_of_three_le hx hlength.ge with ⟨-, rfl, hsame⟩ | ⟨rfl, -⟩
      · cases vs with
        | nil => simp at hwork
        | cons y vs =>
            simp only [List.map_cons, List.cons_append, List.cons.injEq] at hwork
            exact Draining.searching vs (by rw [hsame, hlength]) hwork.2
      · exact Draining.drained (hgrown hlength.ge rfl)
  | retrying us u vs hlength hinside hwork =>
      cases us with
      | nil => simp at hwork
      | cons y us =>
          simp only [List.map_cons, List.cons_append, List.cons.injEq, Task.insert.injEq]
            at hwork
          obtain ⟨rfl, hwork⟩ := hwork
          obtain ⟨rfl, rfl⟩ := hstep.eq_queued hx hlength (hinside x List.mem_cons_self)
          exact Draining.retrying us u vs hlength
            (fun z hz => hinside z (List.mem_cons_of_mem x hz)) hwork
  | resumed vs hlength hwork =>
      rcases hstep.length_of_three_le hx (by omega) with ⟨hthree, -⟩ | ⟨rfl, -⟩
      · omega
      · exact Draining.drained (hgrown (by omega) rfl)
  | drained hdrained => exact Draining.drained (hdrained.insertion hstep)
  | ended hlength hwork => simp at hwork

theorem Draining.round (hdraining : Draining v h (.insert x :: work))
    (hx : x ∉ h.vertices) (hstep : Insertion Triangle.above h x (.ok .grown) next)
    (hsettled : next.Settled) :
    Draining v (next.suspend x) (next.round x ++ work) := by
  cases hdraining with
  | searching vs hlength hwork =>
      cases vs with
      | nil => simp at hwork
      | cons y vs =>
          simp only [List.map_cons, List.cons_append, List.cons.injEq] at hwork
          refine Draining.retrying next.pending x vs ?_ hsettled ?_
          · rw [hstep.accepted_suspend, hlength]
          · rw [hwork.2, Hull.round, List.append_assoc, List.singleton_append]
  | retrying us u vs hlength hinside hwork =>
      cases us with
      | nil => simp at hwork
      | cons y us =>
          simp only [List.map_cons, List.cons_append, List.cons.injEq, Task.insert.injEq]
            at hwork
          obtain ⟨rfl, -⟩ := hwork
          have hqueued := hstep.eq_queued hx hlength (hinside x List.mem_cons_self)
          exact absurd hqueued.2 (by decide)
  | resumed vs hlength hwork => exact Draining.drained (hstep.drained_suspend (by omega))
  | drained hdrained => exact Draining.drained (hstep.drained_suspend hdrained.length)
  | ended hlength hwork => simp at hwork

/-- A replay that a flat hull calls for ends with nothing pending or with at most
five accepted vertices. -/
theorem Draining.replay {front : List Block} (hdraining : Draining v h work)
    (hrun : Replaying front v h work) (hsolid : h.Solid work) (hsettled : h.Settled)
    (hend : h.replay Triangle.above work = (.ok (), last)) :
    last.pending = [] ∨ last.accepted.length = 4 ∨ last.accepted.length = 5 := by
  have hlast : Draining v last [] ∧ Replaying front v last [] ∧ last.Solid [] ∧
      last.Settled := by
    refine replay_induction (P := fun h' work' => Draining v h' work' ∧
      Replaying front v h' work' ∧ h'.Solid work' ∧ h'.Settled) ?_ ?_ ?_
      ⟨hdraining, hrun, hsolid, hsettled⟩ hend
    · intro h' x work' ⟨hdraining', hrun', hsolid', hsettled'⟩
      exact ⟨hdraining'.restore hrun'.not_mem_accepted, hrun'.restore, hsolid'.restore,
        hsettled'.restore⟩
    · intro h' x work' outcome next ⟨hdraining', hrun', hsolid', hsettled'⟩ hstep hquiet
      exact ⟨hdraining'.insertion hrun'.not_mem_vertices hstep hquiet,
        hrun'.insertion hstep, hsolid'.of_insert.insertion hsettled' hstep⟩
    · intro h' x work' next ⟨hdraining', hrun', hsolid', hsettled'⟩ hstep _
      obtain ⟨hnext, hsettled''⟩ := hsolid'.of_insert.insertion hsettled' hstep
      exact ⟨hdraining'.round hrun'.not_mem_vertices hstep hsettled'', hrun'.round hstep,
        hnext.suspend hstep.mem_accepted_of_grown (length_of_grown hstep),
        settled_suspend next x⟩
  cases hlast.1 with
  | searching vs hlength hwork => simp at hwork
  | retrying us u vs hlength hinside hwork => simp at hwork
  | resumed vs hlength hwork => simp at hwork
  | drained hdrained => exact Or.inl hdrained.pending
  | ended hlength hwork => exact Or.inr hlength

end Draining

/-! ### Reachable hulls -/

section Reaching

variable {h next : Hull Int} {v : Block}

/-- Whether a vertex is pending only while at most five are accepted. -/
def Brief (h : Hull Int) : Prop :=
  h.pending = [] ∨ h.accepted.length ≤ 5

theorem Solid.three_lt (hsolid : h.Solid []) : 3 < h.accepted.length := by
  obtain ⟨t, ht⟩ := List.exists_mem_of_ne_nil _ hsolid.ne_nil
  obtain ⟨p, hp, hbelow⟩ := hsolid.convex.exists_corner_below ht
  have hnodup : (p :: t.corners).Nodup := by
    refine List.nodup_cons.2 ⟨fun hmem => ?_, ?_⟩
    · rw [Triangle.height_corner hmem] at hbelow
      exact absurd hbelow (lt_irrefl 0)
    · have hne : ∀ e ∈ t.edges, e.start ≠ e.stop := fun e he =>
        hsolid.convex.start_ne_stop (Mesh.mem_edges_iff.2 ⟨t, ht, he⟩)
      obtain ⟨hab, hbc, hca⟩ := Triangle.forall_mem_edges.1 hne
      exact Block.nodup_iff.2 ⟨hab, hca.symm, hbc⟩
  have hsub : p :: t.corners ⊆ h.accepted := by
    intro c hc
    have hcorner : c ∈ h.faces.corners := by
      rcases List.mem_cons.1 hc with rfl | hc
      · exact hp
      · exact Mesh.mem_corners_iff.2 ⟨t, ht, hc⟩
    simpa [counted] using hsolid.corner_mem c hcorner
  exact (List.subperm_of_subset hnodup hsub).length_le

theorem brief_of_three_lt (hbrief : h.Brief) (hlength : 3 < h.accepted.length)
    {new : Bool} (hadd : h.addBlock Triangle.above v = (.ok new, next)) :
    next.Brief := by
  by_cases hv : v ∈ h.vertices
  · rw [addBlock_of_mem hv] at hadd
    cases hadd
    exact hbrief
  · exact Or.inl (drained_addBlock hlength hv hadd).pending

/-- A hull that becomes solid has nothing pending or at most five accepted vertices. -/
theorem Flat.brief_addBlock {a b c : Block} (hflat : h.Flat a b c)
    (hnodup : h.vertices.Nodup) {new : Bool}
    (hadd : h.addBlock Triangle.above v = (.ok new, next)) : next.Brief := by
  have hthree : h.accepted.length = 3 := by
    rw [hflat.accepted_eq]
    rfl
  obtain ⟨outcome, mid, hstep, -, hrest⟩ := addBlock_cases hadd
  rcases hrest with ⟨-, rfl⟩ | ⟨⟨rfl, hpending⟩, final, hreplay, rfl⟩
  · have hlength : mid.accepted.length ≤ 4 := by
      cases hstep with
      | known | queued => exact hthree.le.trans (by decide)
      | started | flattened | grown =>
          simp [adopt, record, measure, forget, hthree]
    exact Or.inr (hlength.trans (by decide))
  · obtain ⟨hgrown, -⟩ | ⟨-, -, hsolid⟩ := hflat.insertion hstep
    · exact absurd rfl hgrown
    · have hv : v ∉ h.vertices := hstep.changed_iff.1 rfl
      have hround := hsolid.suspend hstep.mem_accepted_of_grown (length_of_grown hstep)
      rw [List.append_nil] at hround
      have hsearching : Draining v (mid.suspend v) (mid.round v) :=
        Draining.searching mid.pending (by rw [hstep.accepted_suspend, hthree]) rfl
      rcases hsearching.replay (hstep.replaying hnodup hv) hround
        (settled_suspend mid v) hreplay
        with hnone | hlength
      · exact Or.inl hnone
      · exact Or.inr (show final.accepted.length ≤ 5 by omega)

theorem Phase.brief_addBlock (hphase : h.Phase) (hnodup : h.vertices.Nodup)
    (hbrief : h.Brief) {new : Bool}
    (hadd : h.addBlock Triangle.above v = (.ok new, next)) : next.Brief := by
  cases hphase with
  | sparse hsparse =>
      rcases hsparse.addBlock hadd with hstill | ⟨a, b, -, hflat⟩
      · exact Or.inl hstill.pending_eq
      · exact Or.inr (by simp [hflat.accepted_eq])
  | flat a b c hflat => exact hflat.brief_addBlock hnodup hadd
  | solid hsolid => exact brief_of_three_lt hbrief hsolid.three_lt hadd

end Reaching

/-- In a reachable hull with more than two triangles, vertices are pending only while
four or five are accepted.  A new vertex takes them all in, and from then on none is put
aside by any calls, whether they fail or not, until a fresh start. -/
theorem Reachable.pending_drained {h : Hull Float} (hreach : Reachable h)
    (hlength : 2 < h.faces.length) :
    (h.pending ≠ [] → h.accepted.length = 4 ∨ h.accepted.length = 5) ∧
      ∀ (d : Datum) (v : Block), Block.ofDatum d = .ok v → (Block.toWords? v).isSome →
        v ∉ h.vertices → (h.add d).1 = .ok true ∧
          ∀ calls : List Call, .clear ∉ calls →
            ((h.add d).2.afterAll calls).pending = [] := by
  obtain ⟨g, hsound, ⟨hnodup, hbrief⟩, rfl⟩ :=
    hreach.exists_sound_and (Q := fun g => g.vertices.Nodup ∧ g.Brief)
      ⟨List.nodup_nil, Or.inl rfl⟩
      (fun h next v new hsound hold hv hadd =>
        ⟨addBlock_nodup hold.1 hadd, hsound.phase.brief_addBlock hold.1 hold.2 hadd⟩)
      (fun h w hsound hold hrange =>
        ⟨nodup_vertices_moveBy hold.1 w, by simpa [Brief, Hull.moveBy] using hold.2⟩)
      (fun h last hold => hold)
  rw [length_faces_machine] at hlength
  obtain ⟨hsolid, -⟩ := hsound.solid_of_two_lt hlength
  have hfour : 3 < g.accepted.length := hsolid.three_lt
  constructor
  · intro hpending
    have hfive := hbrief.resolve_left hpending
    have hlengths : g.accepted.length = 4 ∨ g.accepted.length = 5 := by omega
    exact hlengths
  · intro d v hread hword hv
    have hfit : ∀ x ∈ g.machine.pending, (Block.toWords? x).isSome :=
      fun x hx =>
        toWords?_isSome_of_inRange (hsound.inRange x (mem_vertices_iff.2 (Or.inr hx)))
    obtain ⟨new, last, hadd⟩ :
        ∃ new last, g.machine.addBlock Triangle.above v = (.ok new, last) :=
      addBlock_ok hword hfit
    have hnew : new = true := (addBlock_new_iff hadd).2 hv
    have hadd' : g.machine.add d = (.ok new, last) := by
      rw [Hull.add, hread]
      exact hadd
    rw [hadd', hnew]
    have hdrained : last.Drained := drained_addBlock hfour hv hadd
    exact ⟨rfl, fun calls hcalls => (hdrained.afterAll hcalls).pending⟩

/-- Three corners of a square, a point between two of them that is pending while the hull
is flat, and a point off their plane. -/
def wedge : List Block :=
  [⟨0, 0, 0⟩, ⟨2, 0, 0⟩, ⟨0, 0, 2⟩, ⟨1, 0, 1⟩, ⟨0, 2, 0⟩]

theorem pending_drained_wedge :
    Reachable (empty.addBlocks wedge).machine ∧
      2 < (empty.addBlocks wedge).machine.faces.length ∧
      (empty.addBlocks wedge).machine.pending = [⟨1, 0, 1⟩] ∧
      (empty.addBlocks wedge).machine.accepted.length = 4 ∧
      Block.ofDatum (Block.toDatum ⟨2, 2, 2⟩) = .ok ⟨2, 2, 2⟩ ∧
      (Block.toWords? ⟨2, 2, 2⟩).isSome ∧
      ⟨2, 2, 2⟩ ∉ (empty.addBlocks wedge).machine.vertices ∧
      .clear ∉ [Call.add (Block.toDatum ⟨3, 0, 0⟩),
        Call.shift (Block.toDatum ⟨0, 1, 0⟩)] ∧
      ((((empty.addBlocks wedge).machine.add (Block.toDatum ⟨2, 2, 2⟩)).2).afterAll
        [.add (Block.toDatum ⟨3, 0, 0⟩), .shift (Block.toDatum ⟨0, 1, 0⟩)]).pending =
          [] := by
  have hreach : Reachable (empty.addBlocks wedge).machine := reachable_blocks (by decide)
  have hfaces : (empty.addBlocks wedge).faces.length = 4 := by cbv
  have hlength : 2 < (empty.addBlocks wedge).machine.faces.length := by
    rw [length_faces_machine, hfaces]
    decide
  have haccepted : (empty.addBlocks wedge).accepted =
      [⟨0, 0, 0⟩, ⟨2, 0, 0⟩, ⟨0, 0, 2⟩, ⟨0, 2, 0⟩] := by cbv
  have hpending : (empty.addBlocks wedge).pending = [⟨1, 0, 1⟩] := by cbv
  have hread : Block.ofDatum (Block.toDatum ⟨2, 2, 2⟩) = .ok ⟨2, 2, 2⟩ :=
    Block.ofDatum_toDatum (by decide) (by decide) (by decide)
  have hnew : ⟨2, 2, 2⟩ ∉ (empty.addBlocks wedge).vertices := by
    rw [vertices, haccepted, hpending]
    decide
  have hcalls : .clear ∉
      [Call.add (Block.toDatum ⟨3, 0, 0⟩), .shift (Block.toDatum ⟨0, 1, 0⟩)] := by
    simp
  obtain ⟨-, hdrains⟩ := hreach.pending_drained hlength
  exact ⟨hreach, hlength, hpending, congrArg List.length haccepted, hread, by decide,
    hnew, hcalls, (hdrains _ _ hread (by decide) hnew).2 _ hcalls⟩

end Hull
end LatticeHull
