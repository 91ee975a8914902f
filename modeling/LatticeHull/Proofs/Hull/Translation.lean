import LatticeHull.Proofs.Hull.Ledger
import LatticeHull.Proofs.Hull.Membership

/-!
# Runs at a distance

A run of calls whose added vertices are all moved by one vector leads to the hull of
the run as it was, moved by that vector at its end.  The two runs take the same steps,
and between two calls the vertices determine the bounding box and the sum, so the two
hulls agree in everything.
-/

namespace LatticeHull
namespace Hull

/-!
## Two hulls at a distance

A hull of whole coordinates follows another one at some distance if its vertices and its
mesh are those of the other one moved by that distance, in the same order.  Adding a
vertex to the one and the moved vertex to the other keeps it so: they find the same
vertices known, see them with the same triangles, put aside and grow alike, and go
through the same replays.

The boxes and the sums are left out of this.  They need no step by step comparison, since
the vertices determine them between two calls.
-/

/-- Whether one hull has the vertices and the mesh of another, moved by a vector. -/
structure Follows (d : Block) (h g : Hull Int) : Prop where
  accepted : g.accepted = h.accepted.map (· + d)
  pending : g.pending = h.pending.map (· + d)
  faces : g.faces = h.faces.moveBy d

def Task.moveBy (d : Block) : Task → Task
  | .insert v => .insert (v + d)
  | .restore v => .restore (v + d)

/-- Whether words hold a block, both where it is and moved by a vector. -/
def FitsTwice (d v : Block) : Prop :=
  (Block.toWords? v).isSome ∧ (Block.toWords? (v + d)).isSome

section Steps

variable {d v : Block} {h g : Hull Int} {work : List Task}

namespace Follows

theorem empty : Follows d empty empty :=
  ⟨rfl, rfl, rfl⟩

theorem forget (hf : Follows d h g) : Follows d h.forget g.forget :=
  ⟨hf.accepted, hf.pending, hf.faces⟩

theorem record (hf : Follows d h g) : Follows d (h.record v) (g.record (v + d)) :=
  ⟨by simp [Hull.record, hf.accepted], hf.pending, hf.faces⟩

theorem measure (hf : Follows d h g) (w w' : Words) :
    Follows d (h.measure w) (g.measure w') :=
  ⟨hf.accepted, hf.pending, hf.faces⟩

theorem enqueue (hf : Follows d h g) : Follows d (h.enqueue v) (g.enqueue (v + d)) :=
  ⟨hf.accepted, by simp [Hull.enqueue, hf.pending], hf.faces⟩

theorem contains_map_add (vs : List Block) (v d : Block) :
    (vs.map (· + d)).contains (v + d) = vs.contains v :=
  contains_map_of fun u _ => by
    rw [Bool.eq_iff_iff, beq_iff_eq, beq_iff_eq, (Vec3.add_left_injective d).eq_iff]

theorem restore (hf : Follows d h g) : Follows d (h.restore v) (g.restore (v + d)) := by
  have hcontains : g.accepted.contains (v + d) = h.accepted.contains v := by
    rw [hf.accepted, contains_map_add]
  unfold Hull.restore
  rw [hcontains]
  split
  · exact hf
  · exact hf.record

theorem suspend (hf : Follows d h g) : Follows d (h.suspend v) (g.suspend (v + d)) where
  accepted := by
    have herase :
        (h.accepted.map (· + d)).erase (v + d) = (h.accepted.erase v).map (· + d) :=
      erase_map_of fun u _ => by
        rw [Bool.eq_iff_iff, beq_iff_eq, beq_iff_eq, (Vec3.add_left_injective d).eq_iff]
    simp only [Hull.suspend, hf.accepted, herase]
  pending := rfl
  faces := hf.faces

theorem round (hf : Follows d h g) :
    g.round (v + d) = (h.round v).map (Task.moveBy d) := by
  simp [Hull.round, hf.pending, Task.moveBy, Function.comp_def]

theorem pending_eq_nil_iff (hf : Follows d h g) : g.pending = [] ↔ h.pending = [] := by
  rw [hf.pending, List.map_eq_nil_iff]

theorem knows (hf : Follows d h g) : g.knows (v + d) = h.knows v := by
  simp only [Hull.knows, hf.accepted, hf.pending, contains_map_add]

theorem scan_fst (hf : Follows d h g) :
    (g.scan Triangle.above (v + d)).1 = (h.scan Triangle.above v).1 := by
  rw [Bool.eq_iff_iff, scan_fst_iff, scan_fst_iff, hf.faces, Mesh.moveBy]
  simp only [List.forall_mem_map, Triangle.above_moveBy]

theorem scan_snd (hf : Follows d h g) :
    Follows d (h.scan Triangle.above v).2 (g.scan Triangle.above (v + d)).2 := by
  have hsame : ∀ (h : Hull Int) (q : Block), ∃ last, (h.scan Triangle.above q).2 =
      { h with last := last } := by
    intro h q
    unfold scan
    split
    · exact ⟨_, rfl⟩
    · exact ⟨h.last, rfl⟩
  obtain ⟨last, heq⟩ := hsame h v
  obtain ⟨last', heq'⟩ := hsame g (v + d)
  rw [heq, heq']
  exact ⟨hf.accepted, hf.pending, hf.faces⟩

theorem extendMesh (hf : Follows d h g) :
    (g.extendMesh Triangle.above (v + d)).1 = (h.extendMesh Triangle.above v).1 ∧
      Follows d (h.extendMesh Triangle.above v).2
        (g.extendMesh Triangle.above (v + d)).2 := by
  obtain ⟨accepted, pending, faces, extent, total, last⟩ := h
  obtain ⟨accepted', pending', faces', extent', total', last'⟩ := g
  obtain ⟨haccepted, hpending, hfaces⟩ := hf
  dsimp only at haccepted hpending hfaces
  subst haccepted hpending hfaces
  match accepted with
  | [] | [a] | [a, b] => exact ⟨rfl, rfl, rfl, rfl⟩
  | [a, b, c] =>
      have hflat : Mesh.moveBy (faces ++ Mesh.flat a b c) d =
          Mesh.moveBy faces d ++ Mesh.flat (a + d) (b + d) (c + d) := List.map_append
      exact ⟨rfl, rfl, rfl, hflat.symm⟩
  | a :: b :: c :: e :: rest => exact ⟨rfl, rfl, rfl, Mesh.grow_moveBy faces d v⟩

theorem accept (hf : Follows d h g) (hfits : FitsTwice d v) :
    (g.accept Triangle.above (v + d)).1 = (h.accept Triangle.above v).1 ∧
      Follows d (h.accept Triangle.above v).2 (g.accept Triangle.above (v + d)).2 := by
  obtain ⟨w, hword⟩ := Option.isSome_iff_exists.1 hfits.1
  obtain ⟨w', hword'⟩ := Option.isSome_iff_exists.1 hfits.2
  have hextended := ((hf.record (v := v)).measure w w').extendMesh (v := v)
  simp only [Hull.accept, hword, hword']
  exact ⟨congrArg Except.ok hextended.1, hextended.2⟩

theorem insert (hf : Follows d h g) (hfits : FitsTwice d v) :
    (g.insert Triangle.above (v + d)).1 = (h.insert Triangle.above v).1 ∧
      Follows d (h.insert Triangle.above v).2 (g.insert Triangle.above (v + d)).2 := by
  have hlength : g.accepted.length = h.accepted.length := by
    rw [hf.accepted, List.length_map]
  have hscan : (g.forget.scan Triangle.above (Vec3.ofBlock (v + d))).1 =
      (h.forget.scan Triangle.above (Vec3.ofBlock v)).1 := hf.forget.scan_fst
  have hscanned : Follows d (h.forget.scan Triangle.above (Vec3.ofBlock v)).2
      (g.forget.scan Triangle.above (Vec3.ofBlock (v + d))).2 := hf.forget.scan_snd
  unfold Hull.insert
  rw [hf.knows, hlength]
  dsimp only
  rw [hscan]
  split
  · exact ⟨rfl, hf.forget⟩
  · split
    · split
      · exact ⟨rfl, hscanned.enqueue⟩
      · exact hscanned.accept hfits
    · exact hf.forget.accept hfits

theorem exists_insert (hf : Follows d h g) (hfits : FitsTwice d v) {outcome : Outcome}
    {next : Hull Int} (hinserted : h.insert Triangle.above v = (.ok outcome, next)) :
    ∃ next', g.insert Triangle.above (v + d) = (.ok outcome, next') ∧
      Follows d next next' ∧
      (Recalls outcome next' ↔ Recalls outcome next) := by
  obtain ⟨hsame, hfollows⟩ := hf.insert hfits
  rw [hinserted] at hsame hfollows
  have hnext : Follows d next (g.insert Triangle.above (v + d)).2 := hfollows
  exact ⟨(g.insert Triangle.above (v + d)).2, Prod.ext hsame rfl, hnext,
    and_congr_right' (not_congr hnext.pending_eq_nil_iff)⟩

theorem replay (hf : Follows d h g) (hfits : ∀ x, h.Waits work x → FitsTwice d x) :
    (g.replay Triangle.above (work.map (Task.moveBy d))).1 =
      (h.replay Triangle.above work).1 ∧
      Follows d (h.replay Triangle.above work).2
        (g.replay Triangle.above (work.map (Task.moveBy d))).2 := by
  fun_induction Hull.replay Triangle.above h work generalizing g with
  | case1 h =>
      rw [List.map_nil, Hull.replay]
      exact ⟨rfl, hf⟩
  | case2 h v work ih =>
      rw [List.map_cons, Task.moveBy, replay_restore]
      exact ih hf.restore fun x hx => hfits x (waits_of_restore hx)
  | case3 h v work fault next hinserted =>
      have hv : FitsTwice d v := hfits v (waits_insert h v work)
      obtain ⟨outcome, next', hok⟩ := exists_insert_eq Triangle.above h hv.1
      rw [hok] at hinserted
      cases hinserted
  | case4 h v work outcome next hinserted hrecalls ih =>
      have hstep := insertion_of_eq hinserted
      obtain ⟨next', hinserted', hnext, hiff⟩ :=
        hf.exists_insert (hfits v (waits_insert h v work)) hinserted
      have hreplay :
          g.replay Triangle.above (.insert (v + d) :: work.map (Task.moveBy d)) =
          (next'.suspend (v + d)).replay Triangle.above
            (next'.round (v + d) ++ work.map (Task.moveBy d)) :=
        (replay_insert_of_ok hinserted').trans (if_pos (hiff.2 hrecalls))
      rw [List.map_cons, Task.moveBy, hreplay, hnext.round, ← List.map_append]
      exact ih hnext.suspend fun x hx => hfits x (hstep.waits (waits_of_round hx))
  | case5 h v work outcome next hinserted hrecalls ih =>
      have hstep := insertion_of_eq hinserted
      obtain ⟨next', hinserted', hnext, hiff⟩ :=
        hf.exists_insert (hfits v (waits_insert h v work)) hinserted
      have hreplay :
          g.replay Triangle.above (.insert (v + d) :: work.map (Task.moveBy d)) =
          next'.replay Triangle.above (work.map (Task.moveBy d)) :=
        (replay_insert_of_ok hinserted').trans (if_neg (mt hiff.1 hrecalls))
      rw [List.map_cons, Task.moveBy, hreplay]
      exact ih hnext fun x hx => hfits x (hstep.waits hx)

/-- Adding a vertex to the one and the moved vertex to the other does the same. -/
theorem addBlock (hf : Follows d h g) (hv : FitsTwice d v)
    (hfits : ∀ x ∈ h.pending, FitsTwice d x) :
    (g.addBlock Triangle.above (v + d)).1 = (h.addBlock Triangle.above v).1 ∧
      Follows d (h.addBlock Triangle.above v).2
        (g.addBlock Triangle.above (v + d)).2 := by
  obtain ⟨outcome, next, hinserted⟩ := exists_insert_eq Triangle.above h hv.1
  obtain ⟨next', hinserted', hnext, hiff⟩ := hf.exists_insert hv hinserted
  rw [addBlock_of_ok hinserted, addBlock_of_ok hinserted']
  by_cases hrecalls : outcome = .grown ∧ next.pending ≠ []
  · have hrecalls' : outcome = .grown ∧ next'.pending ≠ [] := hiff.2 hrecalls
    have hround : ∀ x, (next.suspend v).Waits (next.round v) x → FitsTwice d x := by
      intro x hx
      rw [← List.append_nil (next.round v)] at hx
      have hpending := (waits_of_round hx).resolve_right List.not_mem_nil
      rcases (insertion_of_eq hinserted).mem_pending hpending with hold | rfl
      · exact hfits x hold
      · exact hv
    obtain ⟨hsame, hfinal⟩ := hnext.suspend.replay hround
    rw [← hnext.round] at hsame hfinal
    rw [if_pos hrecalls, if_pos hrecalls']
    generalize (next.suspend v).replay Triangle.above (next.round v) = run
      at hsame hfinal ⊢
    generalize (next'.suspend (v + d)).replay Triangle.above (next'.round (v + d)) = run'
      at hsame hfinal ⊢
    obtain ⟨result, final⟩ := run
    obtain ⟨result', final'⟩ := run'
    obtain rfl : result' = result := hsame
    cases result' with
    | error fault => exact ⟨rfl, hfinal⟩
    | ok _ => exact ⟨rfl, hfinal.forget⟩
  · have hquiet : ¬(outcome = .grown ∧ next'.pending ≠ []) := mt hiff.1 hrecalls
    rw [if_neg hrecalls, if_neg hquiet]
    exact ⟨rfl, hnext.forget⟩

end Follows
end Steps
end Hull

/-! ## Boxes of the same vertices -/

namespace Extent

theorem Spans.unique {low high low' high' : Int64} {ns : Set Int} (h : Spans low high ns)
    (h' : Spans low' high' ns) : low = low' ∧ high = high' :=
  ⟨Int64.toInt_inj.1 (h.1.unique h'.1), Int64.toInt_inj.1 (h.2.unique h'.2)⟩

theorem Bounds.unique {e e' : Extent} {vs : Set Block} (h : e.Bounds vs)
    (h' : e'.Bounds vs) :
    e = e' := by
  obtain ⟨⟨lx, ly, lz⟩, ⟨ux, uy, uz⟩⟩ := e
  obtain ⟨⟨lx', ly', lz'⟩, ⟨ux', uy', uz'⟩⟩ := e'
  obtain ⟨rfl, rfl⟩ := h.x.unique h'.x
  obtain ⟨rfl, rfl⟩ := h.y.unique h'.y
  obtain ⟨rfl, rfl⟩ := h.z.unique h'.z
  rfl

theorem Around.unique {e e' : Option Extent} {vs : Set Block} (h : Around e vs)
    (h' : Around e' vs) : e = e' := by
  cases he : e' with
  | none =>
      rw [h.eq_none_iff, ← h'.eq_none_iff]
      exact he
  | some e' =>
      rw [he] at h'
      cases hsome : e with
      | none =>
          have hempty := h.eq_none_iff.1 hsome
          have hnone := (Around.eq_none_iff (e := some e') h').2 hempty
          cases hnone
      | some e =>
          rw [hsome] at h
          exact congrArg some (Bounds.unique h h')

end Extent

namespace Hull

/-! ### Hulls between two calls -/

/-- What is known between two calls of a hull that has not been asked about any point. -/
structure Clean (h : Hull Int) : Prop where
  sound : h.Sound
  booked : h.Booked
  forgotten : h.last = none

section Clean

variable {h next : Hull Int} {v : Block} {w : Words}

theorem clean_empty : Clean empty :=
  ⟨sound_empty, booked_empty, rfl⟩

theorem Clean.addBlock (hclean : h.Clean) (hv : v.InRange) {new : Bool}
    (hadd : h.addBlock Triangle.above v = (.ok new, next)) : next.Clean where
  sound := hclean.sound.addBlock hv hadd
  booked := hclean.booked.addBlock hadd
  forgotten := by
    obtain ⟨outcome, mid, -, -, ⟨-, rfl⟩ | ⟨-, final, -, rfl⟩⟩ := addBlock_cases hadd
    · rfl
    · rfl

theorem Clean.moveBy (hclean : h.Clean) (hrange : (h.moveBy w).InRange) :
    (h.moveBy w).Clean where
  sound := hclean.sound.moveBy hrange
  booked := hclean.booked.moveBy fun v hv => fitsWord_of_inRange (hrange v hv)
  forgotten := rfl

/-- Between two calls the vertices and the mesh determine everything else. -/
theorem Clean.eq_of (hclean : h.Clean) (hclean' : next.Clean)
    (haccepted : h.accepted = next.accepted) (hpending : h.pending = next.pending)
    (hfaces : h.faces = next.faces) : h = next := by
  have hextent : h.extent = next.extent := by
    have hboxed := hclean.booked.boxed
    have hboxed' := hclean'.booked.boxed
    rw [Boxed, counted_nil, haccepted] at hboxed
    rw [Boxed, counted_nil] at hboxed'
    exact hboxed.unique hboxed'
  have htotal : h.total = next.total := by
    have htally := hclean.booked.tallied
    have htally' := hclean'.booked.tallied
    rw [Tallied, haccepted] at htally
    exact htally.trans htally'.symm
  have hlast : h.last = next.last := hclean.forgotten.trans hclean'.forgotten.symm
  cases h
  cases next
  simp_all

theorem Clean.eq_empty (hclean : h.Clean) (hnone : h.vertices = []) : h = empty := by
  obtain ⟨haccepted, hpending⟩ := List.append_eq_nil_iff.1 hnone
  refine hclean.eq_of clean_empty haccepted hpending ?_
  exact (hclean.booked.unmeshed (by simp [haccepted])).1

end Clean

/-! ### Two runs -/

/-- Whether a call is another one, moved by a vector: what it adds is moved, and what it
moves the hull by is the same. -/
inductive Carried (d : Block) : Call → Call → Prop where
  | add {x y : Datum} (hread : ∀ v, Block.ofDatum x = .ok v ↔
      Block.ofDatum y = .ok (v + d)) :
      Carried d (.add x) (.add y)
  | shift (x : Datum) : Carried d (.shift x) (.shift x)
  | clear : Carried d .clear .clear

/-- Whether all vertices stay in range at every moment while calls are made. -/
def Confined (h : Hull Float) (calls : List Call) : Prop :=
  ∀ done, done <+: calls → (h.afterAll done).InRange

theorem Confined.tail {h : Hull Float} {c : Call} {calls : List Call}
    (hconfined : h.Confined (c :: calls)) : (h.after c).Confined calls :=
  fun done hdone => hconfined (c :: done) (List.cons_prefix_cons.2 ⟨rfl, hdone⟩)

theorem Confined.start {h : Hull Float} {calls : List Call}
    (hconfined : h.Confined calls) :
    h.InRange :=
  hconfined [] List.nil_prefix

/-- Whether two hulls, each between two calls, are at a distance. -/
structure Parallel (d : Block) (h g : Hull Int) : Prop where
  clean : h.Clean
  clean' : g.Clean
  follows : Follows d h g

namespace Parallel

variable {d v : Block} {h g : Hull Int} {x y : Datum}

theorem empty : Parallel d empty empty :=
  ⟨clean_empty, clean_empty, Follows.empty⟩

theorem mem_vertices (hp : Parallel d h g) (hv : v ∈ h.vertices) :
    v + d ∈ g.vertices := by
  have hvertices : g.vertices = h.vertices.map (· + d) := by
    rw [vertices, vertices, hp.follows.accepted, hp.follows.pending, List.map_append]
  rw [hvertices]
  exact List.mem_map_of_mem hv

/-- Two hulls with a vertex in range are at a distance that words hold. -/
theorem exists_words (hp : Parallel d h g) (hne : h.vertices ≠ []) :
    (d.x.natAbs ≤ 2 ^ 17 ∧ d.y.natAbs ≤ 2 ^ 17 ∧ d.z.natAbs ≤ 2 ^ 17) ∧
      ∃ w, Block.toWords? d = some w := by
  obtain ⟨v, hv⟩ := List.exists_mem_of_ne_nil _ hne
  obtain ⟨hx, hy, hz⟩ := hp.clean.sound.inRange v hv
  obtain ⟨hx', hy', hz'⟩ := hp.clean'.sound.inRange (v + d) (hp.mem_vertices hv)
  simp only [Vec3.add_x, Vec3.add_y, Vec3.add_z] at hx' hy' hz'
  have hd : d.x.natAbs ≤ 2 ^ 17 ∧ d.y.natAbs ≤ 2 ^ 17 ∧ d.z.natAbs ≤ 2 ^ 17 := by omega
  have hall : d.all fitsWord = true := by
    simp only [Vec3.all, Bool.and_eq_true, fitsWord_iff]
    omega
  exact ⟨hd, _, if_pos hall⟩

/-- One of two hulls at a distance is the other one, moved. -/
theorem eq_moveBy (hp : Parallel d h g) {w : Words} (hw : w.toBlock = d) :
    g = h.moveBy w := by
  subst hw
  have hvertices : (h.moveBy w).vertices = g.vertices := by
    simp only [vertices, Hull.moveBy, hp.follows.accepted, hp.follows.pending]
  have hrange : (h.moveBy w).InRange := by
    rw [InRange, hvertices]
    exact hp.clean'.sound.inRange
  exact hp.clean'.eq_of (hp.clean.moveBy hrange) hp.follows.accepted hp.follows.pending
    hp.follows.faces

/-! ### Calls on both -/

theorem add (hp : Parallel d h g) (hread : Block.ofDatum x = .ok v)
    (hread' : Block.ofDatum y = .ok (v + d)) (hrange : (h.machine.add x).2.InRange)
    (hrange' : (g.machine.add y).2.InRange) :
    ∃ (new : Bool) (next next' : Hull Int), Parallel d next next' ∧
      h.machine.add x = (.ok new, next.machine) ∧
      g.machine.add y = (.ok new, next'.machine) := by
  obtain ⟨hv, new, next, hblock, hadd⟩ := hp.clean.sound.add_of_read hread hrange
  obtain ⟨hv', new', next', hblock', hadd'⟩ := hp.clean'.sound.add_of_read hread' hrange'
  have hfits : ∀ u ∈ h.vertices, FitsTwice d u := fun u hu =>
    ⟨toWords?_isSome_of_inRange (hp.clean.sound.inRange u hu),
      toWords?_isSome_of_inRange (hp.clean'.sound.inRange _ (hp.mem_vertices hu))⟩
  obtain ⟨hsame, hnext⟩ := hp.follows.addBlock
    ⟨toWords?_isSome_of_inRange hv, toWords?_isSome_of_inRange hv'⟩
    fun u hu => hfits u (mem_vertices_iff.2 (Or.inr hu))
  rw [hblock, hblock'] at hsame hnext
  obtain rfl : new' = new := Except.ok.inj hsame
  exact ⟨new', next, next', ⟨hp.clean.addBlock hv hblock, hp.clean'.addBlock hv' hblock',
    hnext⟩, hadd, hadd'⟩

theorem moveBy (hp : Parallel d h g) {w : Words} (hrange : (h.moveBy w).InRange)
    (hrange' : (g.moveBy w).InRange) : Parallel d (h.moveBy w) (g.moveBy w) where
  clean := hp.clean.moveBy hrange
  clean' := hp.clean'.moveBy hrange'
  follows := by
    have hcomm : ∀ u : Block, u + d + w.toBlock = u + w.toBlock + d := fun u =>
      Vec3.ext (add_right_comm ..) (add_right_comm ..) (add_right_comm ..)
    refine ⟨?_, ?_, ?_⟩
    · simp [Hull.moveBy, hp.follows.accepted, hcomm]
    · simp [Hull.moveBy, hp.follows.pending, hcomm]
    · simp [Hull.moveBy, hp.follows.faces, Mesh.moveBy, Triangle.moveBy, hcomm]

theorem after (hp : Parallel d h g) {c c' : Call} (hcarried : Carried d c c')
    (hrange : (h.machine.after c).InRange) (hrange' : (g.machine.after c').InRange) :
    ∃ next next' : Hull Int, Parallel d next next' ∧ h.machine.after c = next.machine ∧
      g.machine.after c' = next'.machine := by
  cases hcarried with
  | @add x y hread =>
      rw [Hull.after] at hrange hrange' ⊢
      rw [Hull.after]
      cases hx : Block.ofDatum x with
      | ok v =>
          obtain ⟨new, next, next', hnext, hadd, hadd'⟩ :=
            hp.add hx ((hread v).1 hx) hrange hrange'
          exact ⟨next, next', hnext, by rw [hadd], by rw [hadd']⟩
      | error fault =>
          cases hy : Block.ofDatum y with
          | ok u =>
              have hback : u - d + d = u :=
                Vec3.ext (sub_add_cancel ..) (sub_add_cancel ..)
                  (sub_add_cancel ..)
              have hok := (hread (u - d)).2 (by rw [hback, hy])
              rw [hx] at hok
              cases hok
          | error fault' =>
              exact ⟨h, g, hp, by rw [Hull.add, hx], by rw [Hull.add, hy]⟩
  | shift x =>
      rw [Hull.after] at hrange hrange' ⊢
      rw [Hull.after]
      cases hx : Block.ofDatum x with
      | error fault => exact ⟨h, g, hp, by rw [Hull.shift, hx], by rw [Hull.shift, hx]⟩
      | ok c =>
          cases hword : Block.toWords? c with
          | none =>
              exact ⟨h, g, hp, by simp only [Hull.shift, hx, hword],
                by simp only [Hull.shift, hx, hword]⟩
          | some w =>
              simp only [Hull.shift, hx, hword] at hrange hrange' ⊢
              have hmoved : (h.moveBy w).InRange := hrange
              have hmoved' : (g.moveBy w).InRange := hrange'
              exact ⟨h.moveBy w, g.moveBy w, hp.moveBy hmoved hmoved',
                hp.clean.sound.moveBy_machine hmoved,
                hp.clean'.sound.moveBy_machine hmoved'⟩
  | clear => exact ⟨Hull.empty, Hull.empty, empty, rfl, rfl⟩

/-- Runs of calls keep two hulls at the distance. -/
theorem afterAll (hp : Parallel d h g) {calls moved : List Call}
    (hcarried : List.Forall₂ (Carried d) calls moved) (hcalls : h.machine.Confined calls)
    (hmoved : g.machine.Confined moved) :
    ∃ next next' : Hull Int, Parallel d next next' ∧
      h.machine.afterAll calls = next.machine ∧
      g.machine.afterAll moved = next'.machine := by
  induction hcarried generalizing h g with
  | nil => exact ⟨h, g, hp, rfl, rfl⟩
  | @cons c c' calls moved hc hrest ih =>
      obtain ⟨next, next', hnext, heq, heq'⟩ :=
        hp.after hc hcalls.tail.start hmoved.tail.start
      have htail := hcalls.tail
      have htail' := hmoved.tail
      rw [heq] at htail
      rw [heq'] at htail'
      obtain ⟨last, last', hlast, hlasteq, hlasteq'⟩ := ih hnext htail htail'
      refine ⟨last, last', hlast, ?_, ?_⟩
      · rw [← hlasteq, ← heq]
        rfl
      · rw [← hlasteq', ← heq']
        rfl

/-- The last move bridges the distance. -/
theorem shift (hp : Parallel d h g) (hx : Block.ofDatum x = .ok d) :
    (h.machine.shift x).2 = g.machine ∧
      (h.vertices ≠ [] → (h.machine.shift x).1 = .ok ()) := by
  cases hword : Block.toWords? d with
  | none =>
      have hnone : h.vertices = [] := by
        by_contra hne
        obtain ⟨-, w, hw⟩ := hp.exists_words hne
        rw [hword] at hw
        cases hw
      have hnone' : g.vertices = [] := by
        obtain ⟨haccepted, hpending⟩ := List.append_eq_nil_iff.1 hnone
        rw [vertices, hp.follows.accepted, hp.follows.pending, haccepted, hpending]
        rfl
      refine ⟨?_, fun hne => absurd hnone hne⟩
      rw [hp.clean.eq_empty hnone, hp.clean'.eq_empty hnone']
      simp only [Hull.shift, hx, hword]
  | some w =>
      have heq := hp.eq_moveBy (Block.toWords?_eq_some_iff.1 hword)
      have hrange : (h.moveBy w).InRange := by
        rw [← heq]
        exact hp.clean'.sound.inRange
      simp only [Hull.shift, hx, hword]
      rw [heq]
      exact ⟨hp.clean.sound.moveBy_machine hrange, fun _ => trivial⟩

/-! ### Questions to both -/

theorem covers_iff (hp : Parallel d h g) {e e' : Extent} (he : h.extent = some e)
    (he' : g.extent = some e') {q : Block} : e'.Covers (q + d) ↔ e.Covers q := by
  rw [(hp.clean.booked.boxed.bounds he).covers_iff_mem_box,
    (hp.clean'.booked.boxed.bounds he').covers_iff_mem_box, hp.follows.accepted]
  simp [Block.box]

theorem containsPoint (hp : Parallel d h g) (q : Block) :
    (g.containsPoint Triangle.above (q + d)).1 =
      (h.containsPoint Triangle.above q).1 := by
  have hempty : g.faces ≠ [] ↔ h.faces ≠ [] := by
    rw [hp.follows.faces, Mesh.moveBy, Ne, List.map_eq_nil_iff]
  have hsees : (∀ t ∈ g.faces, t.above (q + d) = false) ↔
      ∀ t ∈ h.faces, t.above q = false := by
    rw [hp.follows.faces, Mesh.moveBy]
    simp only [List.forall_mem_map, Triangle.above_moveBy]
  rw [Bool.eq_iff_iff, containsPoint_iff, containsPoint_iff, hempty, hsees]
  refine and_congr_right fun hne => and_congr_left' ?_
  obtain ⟨e, he, -⟩ := hp.clean.sound.exists_extent hne
  obtain ⟨e', he', -⟩ := hp.clean'.sound.exists_extent (hempty.2 hne)
  rw [he, he', Option.any_some, Option.any_some]
  exact (Extent.excludes_exact_iff e' (q + d)).trans
    ((hp.covers_iff he he').trans (Extent.excludes_exact_iff e q).symm)

theorem contains (hp : Parallel d h g) {p p' : Point} {q : Block}
    (hread : Point.ofDatum x = .ok p) (heq : (p == Vec3.ofBlock q) = true)
    (hread' : Point.ofDatum y = .ok p') (heq' : (p' == Vec3.ofBlock (q + d)) = true)
    (hq : q.InRange) :
    (g.machine.contains y).1 = (h.machine.contains x).1 := by
  by_cases hne : h.faces = []
  · have hne' : g.faces = [] := by
      rw [hp.follows.faces, hne]
      rfl
    simp [Hull.contains, isDefined, machine, Mesh.machine, hne, hne']
  · have hne' : g.faces ≠ [] := by
      rw [hp.follows.faces, Mesh.moveBy, Ne, List.map_eq_nil_iff]
      exact hne
    have hvertices : h.vertices ≠ [] := by
      obtain ⟨t, ht⟩ := List.exists_mem_of_ne_nil _ hne
      have hmem := hp.clean.sound.phase.corner_mem t.a (Mesh.a_mem_corners ht)
      exact List.ne_nil_of_mem (mem_vertices_iff.2 (Or.inl hmem))
    obtain ⟨⟨hdx, hdy, hdz⟩, -⟩ := hp.exists_words hvertices
    obtain ⟨hqx, hqy, hqz⟩ := hq
    have hholds' : p'.Holds (q + d) (2 ^ 18) := by
      refine Vec3.holds_of_beq_of_le (by norm_num) ?_ heq'
      simp only [Vec3.add_x, Vec3.add_y, Vec3.add_z]
      omega
    rw [hp.clean.sound.contains_of_beq hne hread heq ⟨hqx, hqy, hqz⟩,
      contains_of_read hne' hread' (isFinite_of_holds hholds'),
      hp.clean'.sound.containsPoint_of_holds_of_lt hholds' (by norm_num),
      hp.containsPoint q]

end Parallel

/-- A run and the same run with all added vertices moved by one vector lead to the
same hull once the first one is moved by the vector.  So the moved hull answers for a
moved point as the hull did for the point, and a further vertex may be added before
the move or, moved, after it. -/
theorem shift_afterAll {calls moved : List Call} {d : Block} {x : Datum}
    (hcarried : List.Forall₂ (Carried d) calls moved) (hcalls : empty.Confined calls)
    (hmoved : empty.Confined moved) (hx : Block.ofDatum x = .ok d) :
    ((empty.afterAll calls).shift x).2 = empty.afterAll moved ∧
      ((empty.afterAll calls).vertices ≠ [] →
        ((empty.afterAll calls).shift x).1 = .ok ()) ∧
      (∀ (a b : Datum) (p p' : Point) (q : Block), Point.ofDatum a = .ok p →
        (p == Vec3.ofBlock q) = true → Point.ofDatum b = .ok p' →
        (p' == Vec3.ofBlock (q + d)) = true → q.InRange →
          (((empty.afterAll calls).shift x).2.contains b).1 =
            ((empty.afterAll calls).contains a).1) ∧
      ∀ (a b : Datum) (v : Block), Block.ofDatum a = .ok v →
        Block.ofDatum b = .ok (v + d) →
        v.InRange → (v + d).InRange →
          (((empty.afterAll calls).shift x).2.add b).1 =
            ((empty.afterAll calls).add a).1 ∧
            (((empty.afterAll calls).shift x).2.add b).2 =
              (((empty.afterAll calls).add a).2.shift x).2 := by
  obtain ⟨h, g, hp, heq, heq'⟩ :=
    (Parallel.empty (d := d)).afterAll hcarried hcalls hmoved
  have hstart : (empty : Hull Float).afterAll calls = h.machine := heq
  have hstart' : (empty : Hull Float).afterAll moved = g.machine := heq'
  rw [hstart, hstart']
  obtain ⟨hshift, hok⟩ := hp.shift hx
  rw [hshift]
  refine ⟨rfl, hok, ?_, ?_⟩
  · intro a b p p' q hread hpq hread' hpq' hq
    exact hp.contains hread hpq hread' hpq' hq
  · intro a b v hread hread' hv hv'
    obtain ⟨new, next, next', hnext, hadd, hadd'⟩ := hp.add hread hread'
      (hp.clean.sound.add_inRange hread hv) (hp.clean'.sound.add_inRange hread' hv')
    rw [hadd, hadd']
    exact ⟨rfl, (hnext.shift hx).1.symm⟩

/-- The corners of a square at some distance, the last of which is put
aside, and a move. -/
def strides (d : Block) : List Call :=
  square.map (fun v => .add (Block.toDatum (v + d))) ++
    [.shift (Block.toDatum ⟨1, 2, 3⟩)]

theorem shift_afterAll_strides :
    List.Forall₂ (Carried ⟨5, -6, 7⟩) (strides ⟨0, 0, 0⟩) (strides ⟨5, -6, 7⟩) ∧
      empty.Confined (strides ⟨0, 0, 0⟩) ∧ empty.Confined (strides ⟨5, -6, 7⟩) ∧
      Block.ofDatum (Block.toDatum ⟨5, -6, 7⟩) = .ok ⟨5, -6, 7⟩ ∧
      (empty.afterAll (strides ⟨0, 0, 0⟩)).pending = [⟨5, 6, 3⟩] ∧
      ((empty.afterAll (strides ⟨0, 0, 0⟩)).shift (Block.toDatum ⟨5, -6, 7⟩)).2 =
        empty.afterAll (strides ⟨5, -6, 7⟩) := by
  have hread : ∀ v : Block, v.InRange → Block.ofDatum v.toDatum = .ok v := by
    rintro v ⟨hx, hy, hz⟩
    exact Block.ofDatum_toDatum (by omega) (by omega) (by omega)
  have hadd : ∀ v : Block, v.InRange → (v + ⟨5, -6, 7⟩).InRange →
      Carried ⟨5, -6, 7⟩ (.add v.toDatum) (.add (v + ⟨5, -6, 7⟩ : Block).toDatum) := by
    intro v hv hv'
    refine Carried.add fun u => ?_
    rw [hread v hv, hread _ hv', Except.ok.injEq, Except.ok.injEq,
      (Vec3.add_left_injective _).eq_iff]
  have hcarried :
      List.Forall₂ (Carried ⟨5, -6, 7⟩) (strides ⟨0, 0, 0⟩) (strides ⟨5, -6, 7⟩) :=
    .cons (hadd ⟨0, 0, 0⟩ (by decide) (by decide)) <|
    .cons (hadd ⟨4, 0, 0⟩ (by decide) (by decide)) <|
    .cons (hadd ⟨0, 4, 0⟩ (by decide) (by decide)) <|
    .cons (hadd ⟨4, 4, 0⟩ (by decide) (by decide)) <|
    .cons (.shift _) .nil
  have hconfined : ∀ d ∈ [(⟨0, 0, 0⟩ : Block), ⟨5, -6, 7⟩], ∀ done ∈ (strides d).inits,
      ∀ v ∈ (empty.afterAll done).vertices, v.InRange := by decide +kernel
  have hstart : (empty : Hull Float).Confined (strides ⟨0, 0, 0⟩) := fun done hdone =>
    hconfined _ (by decide) done ((List.mem_inits _ _).2 hdone)
  have hmoved : (empty : Hull Float).Confined (strides ⟨5, -6, 7⟩) := fun done hdone =>
    hconfined _ (by decide) done ((List.mem_inits _ _).2 hdone)
  have hx := hread ⟨5, -6, 7⟩ (by decide)
  exact ⟨hcarried, hstart, hmoved, hx, by decide +kernel,
    (shift_afterAll hcarried hstart hmoved hx).1⟩

end Hull
end LatticeHull
