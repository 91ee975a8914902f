import LatticeHull.Hull
import LatticeHull.Hull.Saving
import LatticeHull.Proofs.Exact
import LatticeHull.Proofs.Hull.Phases
import LatticeHull.Proofs.Hull.Vertices

/-!
# Runs of calls

A hull is reached by calls in any order, some of which may fail, as long as its vertices
stay in range.  Whatever the order, the hull is the image of a hull over whole numbers,
which is in one of its phases.
-/

namespace LatticeHull
namespace Hull

/-!
## Exact hulls of small blocks

While all vertices are in range, a hull over machine numbers goes through the same states
as the hull over whole numbers.
-/

def machine (h : Hull Int) : Hull Float :=
  { h with faces := h.faces.machine }

/-- Whether everything that is there or left to be done is in range. -/
structure Ranged (h : Hull Int) (work : List Task) : Prop where
  carried : ∀ x, h.Carries work x → x.InRange
  faces : h.faces.InRange

variable {h : Hull Int} {v : Block} {work : List Task}

theorem length_faces_machine (h : Hull Int) : h.machine.faces.length = h.faces.length :=
  List.length_map _

theorem fitsWord_of_inRange (hv : v.InRange) : v.all fitsWord = true := by
  have hfits : ∀ n : Int, n.natAbs ≤ 2 ^ 16 → fitsWord n = true := by
    intro n hn
    rw [fitsWord_iff]
    omega
  simp [Vec3.all, hfits _ hv.1, hfits _ hv.2.1, hfits _ hv.2.2]

theorem toWords?_isSome_of_inRange (hv : v.InRange) : (Block.toWords? v).isSome := by
  simp [Block.toWords?, fitsWord_of_inRange hv]

/-! ### Steps keep the range -/

theorem Ranged.restore (hr : h.Ranged (.restore v :: work)) :
    (h.restore v).Ranged work where
  carried x hx := hr.carried x (carries_restore_iff.1 hx)
  faces := by
    rw [faces_restore]
    exact hr.faces

theorem Ranged.insertion (hr : h.Ranged (.insert v :: work)) {outcome : Outcome}
    {next : Hull Int} (hstep : Insertion Triangle.above h v (.ok outcome) next) :
    next.Ranged work := by
  refine ⟨fun x hx => hr.carried x ((carries_of_insertion hstep).1 hx), ?_⟩
  have hv : v.InRange := hr.carried v (Or.inr ⟨.insert v, List.mem_cons_self, rfl⟩)
  cases hstep with
  | known | queued | started => exact hr.faces
  | flattened w a b hmem hword hstart =>
      have haccepted : ∀ x ∈ h.accepted, x.InRange :=
        fun x hx => hr.carried x (Or.inl (mem_vertices_iff.2 (Or.inl hx)))
      have ha := haccepted a (by simp [hstart])
      have hb := haccepted b (by simp [hstart])
      intro t ht
      rcases List.mem_append.1 ht with hold | hnew
      · exact hr.faces t hold
      · simp only [Mesh.flat, Vec3.ofBlock_int, List.mem_cons, List.not_mem_nil,
          or_false] at hnew
        rcases hnew with rfl | rfl <;>
          simp [Triangle.InRange, Triangle.corners, ha, hb, hv]
  | grown => exact hr.faces.grow hv

theorem Ranged.suspend (hr : h.Ranged work) (hv : v ∈ h.accepted) :
    (h.suspend v).Ranged (h.round v ++ work) where
  carried x hx := hr.carried x ((carries_round_iff hv).1 hx)
  faces := hr.faces

/-! ### Steps agree -/

theorem rejecting_machine (hfaces : h.faces.InRange) {p : Point}
    (hp : p.Holds v (2 ^ 16)) :
    h.machine.rejecting Triangle.above p = h.rejecting Triangle.above v := by
  have hsees : ∀ t ∈ h.faces, t.machine.above p = t.above v :=
    fun t ht => Triangle.above_machine (hfaces t ht) hp
  have hindex : ∀ i : Nat, (h.machine.faces[i]?.any (Triangle.above · p)) =
      h.faces[i]?.any (Triangle.above · v) := by
    intro i
    have hmap : h.machine.faces[i]? = h.faces[i]?.map Triangle.machine :=
      List.getElem?_map ..
    rw [hmap]
    cases hface : h.faces[i]? with
    | none => rfl
    | some t => simp [hsees t (List.mem_of_getElem? hface)]
  have hfind : h.machine.faces.findIdx? (Triangle.above · p) =
      h.faces.findIdx? (Triangle.above · v) := findIdx?_map_of hsees
  simp only [rejecting, hindex, hfind]
  rfl

theorem scan_machine (hfaces : h.faces.InRange) {p : Point} (hp : p.Holds v (2 ^ 16)) :
    h.machine.scan Triangle.above p =
      ((h.scan Triangle.above v).1, (h.scan Triangle.above v).2.machine) := by
  rw [scan, scan, rejecting_machine hfaces hp]
  cases h.rejecting Triangle.above v <;> rfl

theorem extendMesh_machine (hfaces : h.faces.InRange) (hv : v.InRange) :
    h.machine.extendMesh Triangle.above v =
      ((h.extendMesh Triangle.above v).1,
        (h.extendMesh Triangle.above v).2.machine) := by
  have haccepted : h.machine.accepted = h.accepted := rfl
  have hgrow : h.machine.faces.grow Triangle.above (Vec3.ofBlock v) =
      (h.faces.grow Triangle.above v).machine := Mesh.grow_machine hfaces hv
  unfold extendMesh
  rw [haccepted]
  split
  · simp [machine, Mesh.machine, Mesh.flat, Triangle.machine, Triangle.map]
  · rw [hgrow]
    rfl
  · rfl

theorem accept_machine (hfaces : h.faces.InRange) (hv : v.InRange) :
    h.machine.accept Triangle.above v =
      ((h.accept Triangle.above v).1, (h.accept Triangle.above v).2.machine) := by
  unfold accept
  split
  · rfl
  · rename_i w hword
    have hmachine : (h.machine.record v).measure w = ((h.record v).measure w).machine :=
      rfl
    have hfaces' : ((h.record v).measure w).faces.InRange := hfaces
    rw [hmachine, extendMesh_machine hfaces' hv]

theorem insert_machine (hfaces : h.faces.InRange) (hv : v.InRange) :
    h.machine.insert Triangle.above v =
      ((h.insert Triangle.above v).1, (h.insert Triangle.above v).2.machine) := by
  have hknows : h.machine.knows v = h.knows v := rfl
  have haccepted : h.machine.accepted = h.accepted := rfl
  have hforget : h.machine.forget = h.forget.machine := rfl
  have hfaces' : h.forget.faces.InRange := hfaces
  have hscan : h.forget.machine.scan Triangle.above (Vec3.ofBlock v) =
      ((h.forget.scan Triangle.above (Vec3.ofBlock v)).1,
        (h.forget.scan Triangle.above (Vec3.ofBlock v)).2.machine) :=
    scan_machine hfaces' (Vec3.holds_ofBlock hv)
  have hscanned : (h.forget.scan Triangle.above (Vec3.ofBlock v)).2.faces.InRange := by
    unfold scan
    split <;> exact hfaces
  unfold insert
  rw [hknows, haccepted, hforget, hscan, accept_machine hfaces' hv]
  simp only [accept_machine hscanned hv]
  split
  · rfl
  · split
    · by_cases hpassed : (h.forget.scan Triangle.above (Vec3.ofBlock v)).1 = true
      · rw [if_pos hpassed, if_pos hpassed]
        rfl
      · rw [if_neg hpassed, if_neg hpassed]
    · rfl

/-! ### Whole replays -/

section Equations

variable {α : Type} [Scalar α] {sees : Triangle α → Vec3 α → Bool} {g next : Hull α}

theorem replay_restore (g : Hull α) (v : Block) (work : List Task) :
    g.replay sees (.restore v :: work) = (g.restore v).replay sees work := by
  rw [replay]

theorem replay_insert_of_error {fault : Fault}
    (hinsert : g.insert sees v = (.error fault, next)) :
    g.replay sees (.insert v :: work) = (.error fault, next) := by
  rw [replay]
  split
  · rename_i heq
    rw [hinsert] at heq
    cases heq
    rfl
  · rename_i heq
    rw [hinsert] at heq
    cases heq

theorem replay_insert_of_ok {outcome : Outcome}
    (hinsert : g.insert sees v = (.ok outcome, next)) :
    g.replay sees (.insert v :: work) =
      if outcome = .grown ∧ next.pending ≠ [] then
        (next.suspend v).replay sees (next.round v ++ work)
      else next.replay sees work := by
  rw [replay]
  split
  · rename_i heq
    rw [hinsert] at heq
    cases heq
  · rename_i heq
    rw [hinsert] at heq
    cases heq
    rfl

theorem addBlock_of_ok {outcome : Outcome}
    (hinsert : g.insert sees v = (.ok outcome, next)) :
    g.addBlock sees v =
      if outcome = .grown ∧ next.pending ≠ [] then
        match (next.suspend v).replay sees (next.round v) with
        | (.error fault, final) => (.error fault, final)
        | (.ok (), final) => (.ok outcome.changed, final.forget)
      else (.ok outcome.changed, next.forget) := by
  rw [addBlock]
  split
  · rename_i heq
    rw [hinsert] at heq
    cases heq
  · rename_i heq
    rw [hinsert] at heq
    cases heq
    rfl

end Equations

theorem replay_machine (hr : h.Ranged work) :
    h.machine.replay Triangle.above work =
      ((h.replay Triangle.above work).1, (h.replay Triangle.above work).2.machine) := by
  fun_induction replay Triangle.above h work with
  | case1 h =>
      rw [replay]
  | case2 h v work ih =>
      have hrestore : h.machine.restore v = (h.restore v).machine := by
        unfold Hull.restore
        have haccepted : h.machine.accepted = h.accepted := rfl
        rw [haccepted]
        split <;> rfl
      rw [replay_restore, hrestore]
      exact ih hr.restore
  | case3 h v work fault next hinserted =>
      have hv : v.InRange := hr.carried v (Or.inr ⟨.insert v, List.mem_cons_self, rfl⟩)
      have hmachine := insert_machine hr.faces hv
      rw [hinserted] at hmachine
      exact replay_insert_of_error hmachine
  | case4 h v work outcome next hinserted hrecalls ih =>
      have hv : v.InRange := hr.carried v (Or.inr ⟨.insert v, List.mem_cons_self, rfl⟩)
      have hmachine := insert_machine hr.faces hv
      have hstep := insertion Triangle.above h v
      rw [hinserted] at hmachine
      rw [hinserted, hrecalls.1] at hstep
      refine (replay_insert_of_ok hmachine).trans ((if_pos hrecalls).trans ?_)
      exact ih ((hr.insertion hstep).suspend hstep.mem_accepted_of_grown)
  | case5 h v work outcome next hinserted hrecalls ih =>
      have hv : v.InRange := hr.carried v (Or.inr ⟨.insert v, List.mem_cons_self, rfl⟩)
      have hmachine := insert_machine hr.faces hv
      have hstep := insertion Triangle.above h v
      rw [hinserted] at hmachine hstep
      refine (replay_insert_of_ok hmachine).trans ((if_neg hrecalls).trans ?_)
      exact ih (hr.insertion hstep)

/-- A hull over machine numbers takes a vertex in as the hull over whole numbers does. -/
theorem addBlock_machine (hr : h.Ranged [.insert v]) :
    h.machine.addBlock Triangle.above v =
      ((h.addBlock Triangle.above v).1, (h.addBlock Triangle.above v).2.machine) := by
  have hv : v.InRange := hr.carried v (Or.inr ⟨.insert v, List.mem_cons_self, rfl⟩)
  have hmachine := insert_machine hr.faces hv
  have hstep := insertion Triangle.above h v
  cases hinserted : h.insert Triangle.above v with
  | mk result next =>
      rw [hinserted] at hmachine hstep
      cases result with
      | error fault => simp only [addBlock, hmachine, hinserted]
      | ok outcome =>
          have hinserted' :
              h.machine.insert Triangle.above v = (.ok outcome, next.machine) := hmachine
          rw [addBlock_of_ok hinserted, addBlock_of_ok hinserted']
          by_cases hrecalls : outcome = .grown ∧ next.pending ≠ []
          · have hrange := (hr.insertion hstep).suspend
              (Insertion.mem_accepted_of_grown (hrecalls.1 ▸ hstep))
            rw [List.append_nil] at hrange
            have hreplay : (next.machine.suspend v).replay Triangle.above
                (next.machine.round v) = _ :=
              replay_machine hrange
            have hrecalls' : outcome = .grown ∧ next.machine.pending ≠ [] := hrecalls
            rw [if_pos hrecalls, if_pos hrecalls', hreplay]
            cases (next.suspend v).replay Triangle.above (next.round v) with
            | mk result final => cases result <;> rfl
          · have hrecalls' : ¬(outcome = .grown ∧ next.machine.pending ≠ []) := hrecalls
            rw [if_neg hrecalls, if_neg hrecalls']
            rfl

end Hull

/-! ## Calls in any order -/

namespace Hull

inductive Call where
  /-- Add a vertex. -/
  | add (d : Datum)
  /-- Move the hull. -/
  | shift (d : Datum)
  /-- Start again with no vertices. -/
  | clear
  /-- Ask whether a point is inside. -/
  | ask (d : Datum)

def after (h : Hull Float) : Call → Hull Float
  | .add d => (h.add d).2
  | .shift d => (h.shift d).2
  | .clear => empty
  | .ask d => (h.contains d).2

def afterAll (h : Hull Float) (calls : List Call) : Hull Float :=
  calls.foldl after h

def InRange {α : Type} (h : Hull α) : Prop :=
  ∀ v ∈ h.vertices, v.InRange

/-- The hulls that calls lead to while all vertices stay in range. -/
inductive Reachable : Hull Float → Prop where
  | start : Reachable empty
  | call {h : Hull Float} (hreach : Reachable h) (c : Call)
      (hrange : (h.after c).InRange) :
      Reachable (h.after c)

/-! ### Faults leave a vertex that no word holds -/

section Faults

variable {α : Type} [Scalar α] {sees : Triangle α → Vec3 α → Bool} {h last : Hull α}
  {fault : Fault}

theorem Insertion.exists_unfit {v : Block}
    (hstep : Insertion sees h v (.error fault) last) :
    ∃ x ∈ last.vertices, Block.toWords? x = none := by
  cases hstep with
  | refused i hv hword => exact ⟨v, by simp [vertices, record], hword⟩

theorem addBlock_exists_unfit {v : Block}
    (hadd : h.addBlock sees v = (.error fault, last)) :
    ∃ x ∈ last.vertices, Block.toWords? x = none := by
  rcases addBlock_fault hadd with hstep | ⟨next, -, -, hreplay⟩
  · exact hstep.exists_unfit
  · obtain ⟨mid, x, rest, -, hstep⟩ := replay_fault (P := fun _ _ => True)
      (fun _ _ _ _ => trivial) (fun _ _ _ _ _ _ _ _ => trivial)
      (fun _ _ _ _ _ _ _ => trivial)
      trivial hreplay
    exact hstep.exists_unfit

/-- If all vertices are in range after an addition, the addition succeeded. -/
theorem addBlock_ok_of_inRange {v : Block} (hrange : (h.addBlock sees v).2.InRange) :
    ∃ new last, h.addBlock sees v = (.ok new, last) := by
  cases hadd : h.addBlock sees v with
  | mk result last =>
      cases result with
      | ok new => exact ⟨new, last, rfl⟩
      | error fault =>
          obtain ⟨x, hx, hword⟩ := addBlock_exists_unfit hadd
          rw [hadd] at hrange
          have hsome := toWords?_isSome_of_inRange (hrange x hx)
          rw [hword] at hsome
          exact absurd hsome (by simp)

end Faults

/-! ### Hulls over whole numbers -/

/-- A hull over whole numbers in one of its phases, with an exact box and
all vertices in range. -/
structure Sound (h : Hull Int) : Prop where
  phase : h.Phase
  boxed : h.Boxed []
  inRange : h.InRange

variable {h : Hull Int}

theorem Phase.corner_mem (hphase : h.Phase) : ∀ c ∈ h.faces.corners, c ∈ h.accepted := by
  intro c hc
  cases hphase with
  | sparse hsparse =>
      rw [hsparse.faces_eq] at hc
      exact absurd hc List.not_mem_nil
  | flat a b c hflat =>
      rw [hflat.faces_eq] at hc
      rw [hflat.accepted_eq]
      simp only [Mesh.corners, Mesh.flat, Triangle.corners, List.flatMap_cons,
        List.flatMap_nil, List.append_nil, List.mem_append, List.mem_cons,
        List.not_mem_nil, or_false] at hc ⊢
      tauto
  | solid hsolid hsettled => simpa [counted] using hsolid.corner_mem c hc

theorem Sound.faces_inRange (hsound : h.Sound) : h.faces.InRange := by
  intro t ht c hc
  apply hsound.inRange
  exact mem_vertices_iff.2 (Or.inl
    (hsound.phase.corner_mem c (Mesh.mem_corners_iff.2 ⟨t, ht, hc⟩)))

theorem Sound.ranged_insert (hsound : h.Sound) {v : Block} (hv : v.InRange) :
    h.Ranged [.insert v] where
  carried := by
    rintro x (hx | ⟨task, htask, rfl⟩)
    · exact hsound.inRange x hx
    · rw [List.mem_singleton] at htask
      rw [htask]
      exact hv
  faces := hsound.faces_inRange

theorem sound_empty : Sound empty where
  phase := phase_empty
  boxed := boxed_empty
  inRange _ hv := absurd hv List.not_mem_nil

theorem Sound.addBlock (hsound : h.Sound) {v : Block} (hv : v.InRange) {new : Bool}
    {last : Hull Int} (hadd : h.addBlock Triangle.above v = (.ok new, last)) :
    last.Sound where
  phase := hsound.phase.addBlock hadd
  boxed := addBlock_boxed hsound.boxed hadd
  inRange := by
    intro x hx
    rcases (addBlock_vertices hadd).1 hx with hold | rfl
    · exact hsound.inRange x hold
    · exact hv

theorem mem_vertices_moveBy_iff {α : Type} [Scalar α] {h : Hull α} {d : Words}
    {x : Block} :
    x ∈ (h.moveBy d).vertices ↔ ∃ v ∈ h.vertices, v + d.toBlock = x := by
  simp only [vertices, moveBy, List.mem_append, List.mem_map]
  constructor
  · rintro (⟨v, hv, rfl⟩ | ⟨v, hv, rfl⟩)
    · exact ⟨v, Or.inl hv, rfl⟩
    · exact ⟨v, Or.inr hv, rfl⟩
  · rintro ⟨v, hv | hv, rfl⟩
    · exact Or.inl ⟨v, hv, rfl⟩
    · exact Or.inr ⟨v, hv, rfl⟩

theorem Sound.moveBy (hsound : h.Sound) {d : Words} (hrange : (h.moveBy d).InRange) :
    (h.moveBy d).Sound where
  phase := hsound.phase.moveBy d
  boxed := by
    apply boxed_moveBy hsound.boxed
    intro v hv
    apply fitsWord_of_inRange
    apply hrange
    exact mem_vertices_moveBy_iff.2 ⟨v, mem_vertices_iff.2 (Or.inl hv), rfl⟩
  inRange := hrange

theorem Sound.moveBy_machine (hsound : h.Sound) {d : Words}
    (hrange : (h.moveBy d).InRange) :
    h.machine.moveBy d = (h.moveBy d).machine := by
  have hcoordinate : ∀ a b : Int, a.natAbs ≤ 2 ^ 16 → (a + b).natAbs ≤ 2 ^ 16 →
      Float.ofInt a + Float.ofInt b = Float.ofInt (a + b) :=
    fun a b ha hab => Binary.ofInt_add (by omega) (by omega) (by omega)
  have hcorner : ∀ c ∈ h.faces.corners,
      (Vec3.ofBlock c + Vec3.ofBlock d.toBlock : Point) =
        Vec3.ofBlock (c + d.toBlock) := by
    intro c hc
    have hmem : c ∈ h.vertices :=
      mem_vertices_iff.2 (Or.inl (hsound.phase.corner_mem c hc))
    have hold := hsound.inRange c hmem
    have hnew := hrange _ (mem_vertices_moveBy_iff.2 ⟨c, hmem, rfl⟩)
    exact Vec3.ext (hcoordinate _ _ hold.1 hnew.1) (hcoordinate _ _ hold.2.1 hnew.2.1)
      (hcoordinate _ _ hold.2.2 hnew.2.2)
  have hfaces : h.machine.faces.moveBy (Vec3.ofBlock d.toBlock) =
      (h.faces.moveBy (Vec3.ofBlock d.toBlock)).machine := by
    simp only [machine, Mesh.machine, Mesh.moveBy, List.map_map]
    apply List.map_congr_left
    intro t ht
    have hmem : ∀ c ∈ t.corners, c ∈ h.faces.corners :=
      fun c hc => Mesh.mem_corners_iff.2 ⟨t, ht, hc⟩
    simp only [Function.comp_apply, Triangle.moveBy, Triangle.machine, Triangle.map,
      Triangle.mk.injEq]
    exact Triangle.forall_mem_corners.1 fun c hc => hcorner c (hmem c hc)
  simp only [Hull.moveBy, hfaces]
  rfl

/-! ### Calls -/

theorem containsPoint_eq {α : Type} [Scalar α] (sees : Triangle α → Vec3 α → Bool)
    (h : Hull α) (q : Vec3 α) :
    ∃ last, (h.containsPoint sees q).2 = { h with last := last } := by
  unfold containsPoint scan
  split
  · exact ⟨h.last, rfl⟩
  · split
    · rename_i i hrejecting
      exact ⟨some i, rfl⟩
    · exact ⟨h.last, rfl⟩

theorem contains_eq (h : Hull Float) (d : Datum) :
    ∃ last, (h.contains d).2 = { h with last := last } := by
  unfold contains
  split
  · exact ⟨h.last, rfl⟩
  · split
    · exact ⟨h.last, rfl⟩
    · rename_i q hread
      split
      · exact containsPoint_eq Triangle.above h q
      · exact ⟨h.last, rfl⟩

/-- An addition that reads a block, and after which all vertices are in range, succeeds
and does what it does over whole numbers. -/
theorem Sound.add_of_read (hsound : h.Sound) {d : Datum} {v : Block}
    (hread : Block.ofDatum d = .ok v) (hrange : (h.machine.add d).2.InRange) :
    v.InRange ∧ ∃ (new : Bool) (next : Hull Int), h.addBlock Triangle.above v =
      (.ok new, next) ∧
      h.machine.add d = (.ok new, next.machine) := by
  have hadd : h.machine.add d = h.machine.addBlock Triangle.above v := by
    rw [Hull.add, hread]
  rw [hadd] at hrange ⊢
  obtain ⟨new, last, hblock⟩ := addBlock_ok_of_inRange hrange
  rw [hblock] at hrange
  have hv : v.InRange := hrange v ((addBlock_vertices hblock).2 (Or.inr rfl))
  have hmachine := addBlock_machine (hsound.ranged_insert hv)
  cases hblock' : h.addBlock Triangle.above v with
  | mk result next =>
      rw [hblock', hblock] at hmachine
      simp only [Prod.mk.injEq] at hmachine
      obtain ⟨rfl, rfl⟩ := hmachine
      exact ⟨hv, new, next, rfl, hblock⟩

/-- An addition after which all vertices are in range does what it does over whole
numbers, or, if it reads no block, nothing. -/
theorem Sound.add_cases (hsound : h.Sound) {d : Datum}
    (hrange : (h.machine.add d).2.InRange) :
    (h.machine.add d).2 = h.machine ∨ ∃ (v : Block) (new : Bool) (next : Hull Int),
      v.InRange ∧ h.addBlock Triangle.above v = (.ok new, next) ∧
        (h.machine.add d).2 = next.machine := by
  cases hread : Block.ofDatum d with
  | error fault => exact Or.inl (by rw [Hull.add, hread])
  | ok v =>
      obtain ⟨hv, new, next, hblock, hadd⟩ := hsound.add_of_read hread hrange
      exact Or.inr ⟨v, new, next, hv, hblock, by rw [hadd]⟩

/-- A move after which all vertices are in range does what it does over whole numbers,
or, if it reads no vector, nothing. -/
theorem Sound.shift_cases (hsound : h.Sound) {d : Datum}
    (hrange : (h.machine.shift d).2.InRange) :
    (h.machine.shift d).2 = h.machine ∨ ∃ w : Words,
      (h.moveBy w).InRange ∧ (h.machine.shift d).2 = (h.moveBy w).machine := by
  unfold Hull.shift at hrange ⊢
  split at hrange
  · exact Or.inl rfl
  · rename_i change hread
    split at hrange
    · exact Or.inl rfl
    · rename_i w hword
      have hmoved : (h.moveBy w).InRange := by
        intro x hx
        obtain ⟨v, hv, rfl⟩ := mem_vertices_moveBy_iff.1 hx
        exact hrange _ (mem_vertices_moveBy_iff.2 ⟨v, hv, rfl⟩)
      exact Or.inr ⟨w, hmoved, hsound.moveBy_machine hmoved⟩

theorem Sound.remember (hsound : h.Sound) (last : Option Nat) :
    Sound { h with last := last } where
  phase := hsound.phase.remember last
  boxed := hsound.boxed
  inRange := hsound.inRange

/-- Every hull that calls lead to is the image of a hull over whole numbers.  What
holds of the hull of no vertices and is broken by no addition, no move and no
question holds of that hull. -/
theorem Reachable.exists_sound_and {Q : Hull Int → Prop} (hstart : Q empty)
    (hadd : ∀ (h next : Hull Int) (v : Block) (new : Bool), h.Sound → Q h → v.InRange →
      h.addBlock Triangle.above v = (.ok new, next) → Q next)
    (hmove : ∀ (h : Hull Int) (w : Words), h.Sound → Q h → (h.moveBy w).InRange →
      Q (h.moveBy w))
    (hask : ∀ (h : Hull Int) (last : Option Nat), Q h → Q { h with last := last })
    {g : Hull Float} (hreach : Reachable g) :
    ∃ h : Hull Int, h.Sound ∧ Q h ∧ g = h.machine := by
  induction hreach with
  | start => exact ⟨empty, sound_empty, hstart, rfl⟩
  | call hreach c hrange ih =>
      obtain ⟨h, hsound, hold, rfl⟩ := ih
      cases c with
      | add d =>
          rcases hsound.add_cases hrange with hsame | ⟨v, new, next, hv, hblock, heq⟩
          · exact ⟨h, hsound, hold, hsame⟩
          · exact ⟨next, hsound.addBlock hv hblock,
              hadd h next v new hsound hold hv hblock, heq⟩
      | shift d =>
          rcases hsound.shift_cases hrange with hsame | ⟨w, hmoved, heq⟩
          · exact ⟨h, hsound, hold, hsame⟩
          · exact ⟨h.moveBy w, hsound.moveBy hmoved, hmove h w hsound hold hmoved, heq⟩
      | clear => exact ⟨empty, sound_empty, hstart, rfl⟩
      | ask d =>
          obtain ⟨last, heq⟩ := contains_eq h.machine d
          exact ⟨{ h with last := last }, hsound.remember last, hask h last hold, heq⟩

/-- Every hull that calls lead to is the image of a sound hull over whole numbers. -/
theorem Reachable.exists_sound {g : Hull Float} (hreach : Reachable g) :
    ∃ h : Hull Int, h.Sound ∧ g = h.machine := by
  obtain ⟨h, hsound, -, heq⟩ := hreach.exists_sound_and (Q := fun _ => True) trivial
    (fun _ _ _ _ _ _ _ _ => trivial) (fun _ _ _ _ _ => trivial) (fun _ _ _ => trivial)
  exact ⟨h, hsound, heq⟩

end Hull
end LatticeHull
