import LatticeHull.Proofs.Hull.Membership
import LatticeHull.Region

/-!
# The memory of a hull

A hull remembers the triangle that rejected the last point and tries it first the next
time.  Both queries and insertions write this memory, copies of a hull inherit it, and a
call that fails may leave something in it.

Whatever is asked of a hull and of its copies, the remembered triangle is one of the
mesh, and a hull with a mesh has a box.  What a call does depends on a hull without its
memory only.  So the answers are those of a hull that remembers nothing, and earlier
queries have no influence on them.
-/

namespace LatticeHull

def Region.hull? : Region → Option (Hull Float)
  | .hull h => some h
  | _ => none

namespace Hull

/-! ### What every call keeps -/

section Coherence

variable {α : Type} {sees : Triangle α → Vec3 α → Bool} {h : Hull α}

/-- What holds before and after every call, also one that fails: the remembered triangle
is one of the mesh, and a hull with a mesh has a box. -/
structure Coherent (h : Hull α) : Prop where
  last_lt : ∀ i, h.last = some i → i < h.faces.length
  extent_ne : h.faces ≠ [] → h.extent ≠ none

theorem rejecting_lt {q : Vec3 α} {i : Nat} (hi : h.rejecting sees q = some i) :
    i < h.faces.length := by
  rw [rejecting, Option.orElse_eq_orElse, Option.orElse_eq_or, Option.or_eq_some_iff]
    at hi
  rcases hi with hremembered | ⟨-, hfound⟩
  · obtain ⟨-, hsees⟩ := Option.filter_eq_some_iff.1 hremembered
    obtain ⟨t, hface, -⟩ := (Option.any_eq_true _ _).1 hsees
    exact (List.getElem?_eq_some_iff.1 hface).1
  · obtain ⟨hlength, -⟩ := List.findIdx?_eq_some_iff_getElem.1 hfound
    exact hlength

namespace Coherent

theorem empty : Coherent (empty : Hull α) where
  last_lt i hi := absurd hi (Option.some_ne_none i).symm
  extent_ne hfaces := absurd rfl hfaces

theorem forget (hcoherent : h.Coherent) : h.forget.Coherent where
  last_lt i hi := absurd hi (Option.some_ne_none i).symm
  extent_ne := hcoherent.extent_ne

theorem scan (hcoherent : h.Coherent) (sees : Triangle α → Vec3 α → Bool) (q : Vec3 α) :
    (h.scan sees q).2.Coherent := by
  unfold Hull.scan
  split
  · rename_i i hrejecting
    refine ⟨fun j hj => ?_, hcoherent.extent_ne⟩
    obtain rfl : i = j := Option.some.inj hj
    have hlt : i < h.faces.length := rejecting_lt hrejecting
    exact hlt
  · exact hcoherent

theorem restore (hcoherent : h.Coherent) (v : Block) : (h.restore v).Coherent := by
  unfold Hull.restore
  split
  · exact hcoherent
  · exact ⟨hcoherent.last_lt, hcoherent.extent_ne⟩

theorem suspend (hcoherent : h.Coherent) (v : Block) : (h.suspend v).Coherent :=
  ⟨hcoherent.last_lt, hcoherent.extent_ne⟩

variable [Scalar α]

theorem extendMesh (hcoherent : h.Coherent) (hextent : h.extent ≠ none) (v : Block) :
    (h.extendMesh sees v).2.Coherent := by
  unfold Hull.extendMesh
  split
  · refine ⟨fun i hi => ?_, fun _ => hextent⟩
    have hlt := hcoherent.last_lt i hi
    simp only [List.length_append]
    omega
  · exact ⟨fun i hi => absurd hi (Option.some_ne_none i).symm, fun _ => hextent⟩
  · exact hcoherent

/-- A vertex that is refused has changed neither the mesh nor the memory. -/
theorem accept (hcoherent : h.Coherent) (v : Block) : (h.accept sees v).2.Coherent := by
  unfold Hull.accept
  split
  · exact ⟨hcoherent.last_lt, hcoherent.extent_ne⟩
  · rename_i w hword
    have hextent : ((h.record v).measure w).extent ≠ none := Option.some_ne_none _
    have hmeasured : ((h.record v).measure w).Coherent :=
      ⟨hcoherent.last_lt, fun _ => hextent⟩
    exact hmeasured.extendMesh hextent v

theorem insert (hcoherent : h.Coherent) (sees : Triangle α → Vec3 α → Bool) (v : Block) :
    (h.insert sees v).2.Coherent := by
  have hscanned := hcoherent.forget.scan sees (Vec3.ofBlock v)
  unfold Hull.insert
  split
  · exact hcoherent.forget
  · split
    · dsimp only
      split
      · exact ⟨hscanned.last_lt, hscanned.extent_ne⟩
      · exact hscanned.accept v
    · exact hcoherent.forget.accept v

theorem replay (hcoherent : h.Coherent) (sees : Triangle α → Vec3 α → Bool)
    (work : List Task) :
    (h.replay sees work).2.Coherent := by
  fun_induction Hull.replay sees h work with
  | case1 h => exact hcoherent
  | case2 h v work ih => exact ih (hcoherent.restore v)
  | case3 h v work fault next hinserted =>
      have hnext := hcoherent.insert sees v
      rwa [hinserted] at hnext
  | case4 h v work outcome next hinserted hrecalls ih =>
      have hnext := hcoherent.insert sees v
      rw [hinserted] at hnext
      exact ih (hnext.suspend v)
  | case5 h v work outcome next hinserted hrecalls ih =>
      have hnext := hcoherent.insert sees v
      rw [hinserted] at hnext
      exact ih hnext

theorem addBlock (hcoherent : h.Coherent) (v : Block) :
    (h.addBlock sees v).2.Coherent := by
  have hnext := hcoherent.insert sees v
  unfold Hull.addBlock
  split
  · rename_i fault next hinserted
    rwa [hinserted] at hnext
  · rename_i outcome next hinserted
    rw [hinserted] at hnext
    have hround := (hnext.suspend v).replay sees (next.round v)
    split
    · split
      · rename_i fault final hreplay
        rwa [hreplay] at hround
      · rename_i final hreplay
        rw [hreplay] at hround
        exact hround.forget
    · exact hnext.forget

theorem moveBy (hcoherent : h.Coherent) (d : Words) : (h.moveBy d).Coherent where
  last_lt i hi := absurd hi (Option.some_ne_none i).symm
  extent_ne hfaces := by
    have hmesh : h.faces ≠ [] := by
      intro hnil
      exact hfaces (by simp [Hull.moveBy, Mesh.moveBy, hnil])
    simpa [Hull.moveBy] using hcoherent.extent_ne hmesh

theorem containsPoint (hcoherent : h.Coherent) (q : Vec3 α) :
    (h.containsPoint sees q).2.Coherent := by
  unfold Hull.containsPoint
  split
  · exact hcoherent
  · exact hcoherent.scan sees q

end Coherent

end Coherence

section Calls

variable {h : Hull Float}

theorem Coherent.add (hcoherent : h.Coherent) (d : Datum) : (h.add d).2.Coherent := by
  unfold Hull.add
  split
  · exact hcoherent
  · exact hcoherent.addBlock _

theorem Coherent.shift (hcoherent : h.Coherent) (d : Datum) :
    (h.shift d).2.Coherent := by
  unfold Hull.shift
  split
  · exact hcoherent
  · split
    · exact hcoherent
    · exact hcoherent.moveBy _

theorem Coherent.contains (hcoherent : h.Coherent) (d : Datum) :
    (h.contains d).2.Coherent := by
  unfold Hull.contains
  split
  · exact hcoherent
  · split
    · exact hcoherent
    · split
      · exact hcoherent.containsPoint _
      · exact hcoherent

theorem Coherent.after (hcoherent : h.Coherent) (c : Call) : (h.after c).Coherent := by
  cases c with
  | add d => exact hcoherent.add d
  | shift d => exact hcoherent.shift d
  | clear => exact Coherent.empty
  | ask d => exact hcoherent.contains d

end Calls

/-! ### Calls without the memory -/

theorem insert_forget {α : Type} [Scalar α] (sees : Triangle α → Vec3 α → Bool)
    (h : Hull α) (v : Block) : h.forget.insert sees v = h.insert sees v := rfl

theorem addBlock_forget {α : Type} [Scalar α] (sees : Triangle α → Vec3 α → Bool)
    (h : Hull α) (v : Block) : h.forget.addBlock sees v = h.addBlock sees v := by
  rw [addBlock, addBlock, insert_forget]

/-- What a call leaves behind, apart from the memory, depends on the hull
without its memory. -/
theorem forget_after_forget (h : Hull Float) (c : Call) :
    (h.forget.after c).forget = (h.after c).forget := by
  cases c with
  | add d =>
      simp only [after, add, addBlock_forget]
      split <;> rfl
  | shift d =>
      simp only [after, shift]
      split
      · rfl
      · split <;> rfl
  | clear => rfl
  | ask d =>
      obtain ⟨last, hasked⟩ := contains_eq h d
      obtain ⟨last', hasked'⟩ := contains_eq h.forget d
      rw [after, after, hasked, hasked']
      rfl

theorem forget_after_ask (h : Hull Float) (d : Datum) :
    (h.after (.ask d)).forget = h.forget := by
  obtain ⟨last, hasked⟩ := contains_eq h d
  rw [after, hasked]
  rfl

/-- The answer of a hull that remembers nothing: without a mesh, or if it is not
finite, a point is not inside; otherwise it is inside if the box does not exclude it
and no triangle sees it. -/
def inspect (h : Hull Float) (d : Datum) : Except Fault Bool :=
  if !h.isDefined then .ok false
  else do
    let q ← Point.ofDatum d
    return q.isFinite && !h.extent.any (·.excludes q) && h.faces.all fun t => !t.above q

theorem contains_eq_inspect (h : Hull Float) (d : Datum) :
    (h.contains d).1 = h.inspect d := by
  unfold contains inspect
  split
  · rfl
  · rename_i hdefined
    have hfaces : h.faces ≠ [] := by simpa [isDefined] using hdefined
    cases Point.ofDatum d with
    | error fault => rfl
    | ok q =>
        have hanswer : (h.containsPoint Triangle.above q).1 =
            (!h.extent.any (·.excludes q) && h.faces.all fun t => !t.above q) := by
          rw [Bool.eq_iff_iff, containsPoint_iff]
          simp [hfaces]
        change _ = Except.ok
          (q.isFinite && !h.extent.any (·.excludes q) && h.faces.all fun t => !t.above q)
        cases hfinite : q.isFinite with
        | false => simp [hfinite]
        | true => simp [hfinite, hanswer]

/-! ### Hulls and their copies -/

/-- A request to one of several hulls. -/
inductive Request where
  /-- Add a vertex, move the hull, start again, or ask whether a point is inside. -/
  | call (k : Nat) (c : Call)
  /-- Grow the hull. -/
  | expand (k : Nat) (changes : List Datum)
  /-- Shrink the hull. -/
  | contract (k : Nat) (changes : List Datum)
  /-- Copy the hull. -/
  | clone (k : Nat)

def Request.acts : Request → Bool
  | .call _ (.ask _) => false
  | _ => true

/-- The hulls that a request leaves behind, whether it fails or not.  A
copy comes last. -/
def serve (hulls : List (Hull Float)) : Request → List (Hull Float)
  | .call k c => hulls.modify k (·.after c)
  | .expand k changes =>
    hulls.modify k fun h => (Region.expand changes (.hull h)).2.hull?.getD h
  | .contract k changes =>
    hulls.modify k fun h => (Region.contract changes (.hull h)).2.hull?.getD h
  | .clone k =>
    hulls ++ (hulls[k]?.bind fun h =>
      (Region.clone (.hull h)).toOption.bind Region.hull?).toList

/-- A hull and its copies after some requests. -/
def served (requests : List Request) : List (Hull Float) :=
  requests.foldl serve [empty]

theorem serve_expand (hulls : List (Hull Float)) (k : Nat) (changes : List Datum) :
    serve hulls (.expand k changes) = hulls :=
  List.modify_id k hulls

theorem serve_contract (hulls : List (Hull Float)) (k : Nat) (changes : List Datum) :
    serve hulls (.contract k changes) = hulls :=
  List.modify_id k hulls

theorem serve_clone (hulls : List (Hull Float)) (k : Nat) :
    serve hulls (.clone k) = hulls ++ hulls[k]?.toList := by
  rw [serve]
  cases hulls[k]? <;> rfl

theorem coherent_serve {hulls : List (Hull Float)} (hcoherent : ∀ h ∈ hulls, h.Coherent)
    (request : Request) : ∀ h ∈ serve hulls request, h.Coherent := by
  intro h hmem
  cases request with
  | call k c =>
      obtain ⟨j, hj⟩ := List.mem_iff_getElem?.1 hmem
      rw [serve, List.getElem?_modify] at hj
      obtain ⟨g, hg, rfl⟩ := Option.map_eq_some_iff.1 hj
      have hold := hcoherent g (List.mem_of_getElem? hg)
      split
      · exact hold.after c
      · exact hold
  | expand k changes =>
      rw [serve_expand] at hmem
      exact hcoherent h hmem
  | contract k changes =>
      rw [serve_contract] at hmem
      exact hcoherent h hmem
  | clone k =>
      rw [serve_clone] at hmem
      rcases List.mem_append.1 hmem with hold | hcopy
      · exact hcoherent h hold
      · rw [Option.mem_toList] at hcopy
        exact hcoherent h (List.mem_of_getElem? hcopy)

theorem coherent_served (requests : List Request) :
    ∀ h ∈ served requests, h.Coherent := by
  refine List.foldlRecOn (motive := fun hulls => ∀ h ∈ hulls, Coherent h) requests
    serve ?_ ?_
  · intro h hmem
    rw [List.mem_singleton.1 hmem]
    exact Coherent.empty
  · intro hulls hcoherent request _
    exact coherent_serve hcoherent request

theorem forget_modify {f g : Hull Float → Hull Float}
    (hfg : ∀ h, (f h).forget = g h.forget) (hulls : List (Hull Float)) (k : Nat) :
    (hulls.modify k f).map forget = (hulls.map forget).modify k g := by
  apply List.ext_getElem?
  intro j
  rw [List.getElem?_map, List.getElem?_modify, List.getElem?_modify, List.getElem?_map]
  cases hulls[j]? with
  | none => rfl
  | some h =>
      simp only [Option.map_eq_map, Option.map_some]
      split
      · rw [hfg]
      · rfl

/-- What a request leaves behind, apart from the memory, depends on the
hulls without it. -/
theorem forget_serve {hulls others : List (Hull Float)}
    (hsame : hulls.map forget = others.map forget) (request : Request) :
    (serve hulls request).map forget = (serve others request).map forget := by
  cases request with
  | call k c =>
      have hmodify := forget_modify (g := fun h => (h.after c).forget)
        fun h => (forget_after_forget h c).symm
      rw [serve, serve, hmodify, hmodify, hsame]
  | expand k changes => rw [serve_expand, serve_expand, hsame]
  | contract k changes => rw [serve_contract, serve_contract, hsame]
  | clone k =>
      have hcopy := congrArg (fun hulls => hulls[k]?) hsame
      simp only [List.getElem?_map] at hcopy
      rw [serve_clone, serve_clone, List.map_append, List.map_append, hsame,
        ← Option.toList_map, ← Option.toList_map, hcopy]

theorem forget_serve_query {hulls : List (Hull Float)} {request : Request}
    (hquery : request.acts = false) :
    (serve hulls request).map forget = hulls.map forget := by
  cases request with
  | call k c =>
      cases c with
      | ask d => rw [serve, forget_modify (g := id) (fun h => forget_after_ask h d),
        List.modify_id]
      | add d | shift d | clear => cases hquery
  | expand k changes | contract k changes | clone k => cases hquery

/-- Without the queries, the same requests lead to the same hulls, apart
from the memory. -/
theorem forget_served (requests : List Request) :
    (served requests).map forget =
      (served (requests.filter Request.acts)).map forget := by
  have hkept : ∀ hulls others : List (Hull Float), hulls.map forget = others.map forget →
      (requests.foldl serve hulls).map forget =
        ((requests.filter Request.acts).foldl serve others).map forget := by
    induction requests with
    | nil => exact fun hulls others hsame => hsame
    | cons request requests ih =>
        intro hulls others hsame
        cases hacts : request.acts with
        | true =>
            rw [List.filter_cons_of_pos hacts]
            exact ih _ _ (forget_serve hsame request)
        | false =>
            rw [List.filter_cons_of_neg (by simp [hacts])]
            exact ih _ _ ((forget_serve_query hacts).trans hsame)
  exact hkept _ _ rfl

/-- Whatever is requested of a hull and its copies, the remembered triangle is one of
the mesh, every answer is that of a hull which remembers nothing, and earlier queries
have no influence on it. -/
theorem served_contains_eq (requests : List Request) :
    (∀ h ∈ served requests, (∀ i, h.last = some i → i < h.faces.length) ∧
        (h.faces ≠ [] → h.extent ≠ none) ∧ ∀ d, (h.contains d).1 = h.inspect d) ∧
      (served requests).map forget = (served (requests.filter Request.acts)).map forget ∧
      ∀ (k : Nat) (d : Datum), (served requests)[k]?.map (fun h : Hull Float =>
        (h.contains d).1) =
        (served (requests.filter Request.acts))[k]?.map (fun h : Hull Float =>
          (h.contains d).1) := by
  have hsame := forget_served requests
  refine ⟨fun h hmem => ?_, hsame, fun k d => ?_⟩
  · have hcoherent := coherent_served requests h hmem
    exact ⟨hcoherent.last_lt, hcoherent.extent_ne, h.contains_eq_inspect⟩
  · have hk :=
      congrArg (fun hulls : List (Hull Float) => hulls[k]?.map (·.inspect d)) hsame
    simp only [List.getElem?_map, Option.map_map] at hk
    simp only [contains_eq_inspect]
    exact hk

theorem serve_blocks {h : Hull Int} (hsound : h.Sound) {vs : List Block}
    (hvs : ∀ v ∈ vs, v.InRange) :
    (vs.map fun v => Request.call 0 (.add v.toDatum)).foldl serve [h.machine] =
      [(h.addBlocks vs).machine] := by
  induction vs generalizing h with
  | nil => rfl
  | cons v vs ih =>
      obtain ⟨hv, hrest⟩ := List.forall_mem_cons.1 hvs
      obtain ⟨new, hadd⟩ := hsound.addBlock_eq hv
      obtain ⟨new', hmachine⟩ := hsound.add_toDatum hv
      have hserve : serve [h.machine] (.call 0 (.add v.toDatum)) =
          [(h.addBlock Triangle.above v).2.machine] :=
        congrArg (fun outcome : Except Fault Bool × Hull Float => [outcome.2]) hmachine
      rw [List.map_cons, List.foldl_cons, hserve]
      exact ih (hsound.addBlock hv hadd) hrest

def visits : List Request :=
  (pyramid.map fun v => .call 0 (.add v.toDatum)) ++
    [.call 0 (.ask (Block.toDatum ⟨3, 3, 3⟩)), .clone 0]

/-- The pyramid that remembers the triangle between the point and itself. -/
def visited : Hull Int :=
  ((empty.addBlocks pyramid).containsPoint Triangle.above ⟨3, 3, 3⟩).2

theorem served_contains_eq_visits :
    served visits = [visited.machine, visited.machine] ∧
      visited.machine.last = some 4 ∧ 4 < visited.machine.faces.length ∧
      (visited.machine.contains (Block.toDatum ⟨3, 3, 3⟩)).1 =
        visited.machine.inspect (Block.toDatum ⟨3, 3, 3⟩) ∧
      (served visits).map forget = (served (visits.filter Request.acts)).map forget := by
  have hsound : (empty.addBlocks pyramid).Sound := sound_empty.addBlocks (by decide)
  have hlength : (empty.addBlocks pyramid).faces.length = 6 := by cbv
  have hne : (empty.addBlocks pyramid).faces ≠ [] := List.ne_nil_of_length_pos (by omega)
  have hread :
      Point.ofDatum (Block.toDatum ⟨3, 3, 3⟩) = .ok (Vec3.ofBlock ⟨3, 3, 3⟩) := by
    rw [Block.pointOfDatum_toDatum, if_pos (by decide)]
  have hasked :=
    hsound.contains_machine (q := ⟨3, 3, 3⟩) hne hread (by decide) (by decide)
  have hcall : serve [(empty.addBlocks pyramid).machine]
      (.call 0 (.ask (Block.toDatum ⟨3, 3, 3⟩))) = [visited.machine] :=
    congrArg (fun outcome : Except Fault Bool × Hull Float => [outcome.2]) hasked
  have hbuilt : served (pyramid.map fun v => .call 0 (.add v.toDatum)) =
      [(empty.addBlocks pyramid).machine] := serve_blocks sound_empty (by decide)
  have hserved : served visits = [visited.machine, visited.machine] := by
    rw [served, visits, List.foldl_append, ← served, hbuilt, List.foldl_cons, hcall]
    rfl
  have hlast : visited.machine.last = some 4 := by
    change visited.last = some 4
    cbv
  obtain ⟨hall, hsame, -⟩ := served_contains_eq visits
  obtain ⟨hvalid, -, hanswer⟩ := hall visited.machine (by simp [hserved])
  exact ⟨hserved, hlast, hvalid 4 hlast, hanswer _, hsame⟩

end Hull
end LatticeHull
