import LatticeHull.Proofs.Hull.Histories

/-!
# Additions that fail

A point that cannot be read as a block is refused before the hull is touched.  A vertex
that no word holds is refused too late: by then it has been written into the list of
accepted vertices, and if a replay refuses it, the vertex that called for the replay has
been taken out and the pending ones have been dropped.  So an addition is all or nothing
exactly if it accepts no vertex that no word holds.
-/

namespace LatticeHull
namespace Hull

section Refusals

variable {α : Type} [Scalar α] {sees : Triangle α → Vec3 α → Bool} {h next last : Hull α}
  {front : List Block} {v : Block} {work : List Task} {fault : Fault}

/-! ### What is accepted when no step fails -/

/-- Whether words hold all vertices that count, but for some that may have
been there before. -/
def Fitted (front : List Block) (h : Hull α) (work : List Task) : Prop :=
  ∀ x ∈ h.counted work, x ∈ front ∨ (Block.toWords? x).isSome

theorem Insertion.fitted {outcome : Outcome}
    (hstep : Insertion sees h v (.ok outcome) next)
    (hold : Fitted front h (.insert v :: work)) : Fitted front next work := by
  rw [Fitted, counted_insert] at hold
  cases hstep with
  | known | queued => exact hold
  | started w hv hword | flattened w a b hv hword | grown w hv hword =>
      intro x hx
      have hadopted : x ∈ (h.adopt v w).counted work := hx
      rw [counted_adopt] at hadopted
      rcases hadopted with rfl | hcounted
      · exact Or.inr (Option.isSome_of_eq_some hword)
      · exact hold x hcounted

theorem replay_fitted (hold : Fitted front h work)
    (hend : h.replay sees work = (.ok (), last)) : Fitted front last [] := by
  refine replay_induction (P := Fitted front) ?_ ?_ ?_ hold hend
  · intro h' v work' hold
    rw [Fitted, counted_restore]
    exact hold
  · intro h' v work' outcome next hold hstep _
    exact hstep.fitted hold
  · intro h' v work' next hold hstep _
    rw [Fitted, counted_suspend hstep.mem_accepted_of_grown]
    exact hstep.fitted hold

theorem addBlock_fitted {new : Bool} (hadd : h.addBlock sees v = (.ok new, last)) :
    ∀ x ∈ last.accepted, x ∈ h.accepted ∨ (Block.toWords? x).isSome := by
  have hold : Fitted h.accepted h [.insert v] := by
    rw [Fitted, counted_insert, counted_nil]
    exact fun x hx => Or.inl hx
  have hlast : Fitted h.accepted last [] := by
    obtain ⟨outcome, next, hstep, -, ⟨-, rfl⟩ | ⟨⟨rfl, -⟩, final, hreplay, rfl⟩⟩ :=
      addBlock_cases hadd
    · exact hstep.fitted hold
    · have hround : Fitted h.accepted (next.suspend v) (next.round v) := by
        rw [← List.append_nil (next.round v), Fitted,
          counted_suspend hstep.mem_accepted_of_grown]
        exact hstep.fitted hold
      have hfinal : Fitted h.accepted final [] := replay_fitted hround hreplay
      exact hfinal
  exact fun x hx => hlast x (Or.inl hx)

/-! ### What is accepted when a step fails -/

theorem Insertion.mem_accepted_of_fault
    (hstep : Insertion sees h v (.error fault) last) :
    v ∈ last.accepted ∧ Block.toWords? v = none := by
  cases hstep with
  | refused i hv hword => exact ⟨by simp [record], hword⟩

/-- A replay that fails has accepted a vertex that no word holds. -/
theorem Replaying.exists_refused (hrun : Replaying front v h work)
    (hend : h.replay sees work = (.error fault, last)) :
    ∃ x ∈ last.accepted, x ∉ front ∧ Block.toWords? x = none := by
  obtain ⟨mid, x, rest, hmid, hstep⟩ := replay_fault (P := Replaying front v)
    (fun _ _ _ hrun' => hrun'.restore) (fun _ _ _ _ _ hrun' hstep _ =>
      hrun'.insertion hstep)
    (fun _ _ _ _ hrun' hstep _ => hrun'.round hstep) hrun hend
  obtain ⟨hmem, hword⟩ := hstep.mem_accepted_of_fault
  exact ⟨x, hmem, fun hx => hmid.not_mem_accepted (hmid.front.subset hx), hword⟩

theorem addBlock_exists_refused (hnodup : h.vertices.Nodup)
    (hadd : h.addBlock sees v = (.error fault, last)) :
    ∃ x ∈ last.accepted, x ∉ h.accepted ∧ Block.toWords? x = none := by
  rcases addBlock_fault hadd with hstep | ⟨next, hstep, -, hreplay⟩
  · obtain ⟨hmem, hword⟩ := hstep.mem_accepted_of_fault
    refine ⟨v, hmem, fun hv => ?_, hword⟩
    cases hstep with
    | refused i hnew => exact hnew (mem_vertices_iff.2 (Or.inl hv))
  · exact (hstep.replaying hnodup (hstep.changed_iff.1 rfl)).exists_refused hreplay

/-- An addition succeeds if and only if words hold every vertex that it accepts. -/
theorem addBlock_ok_iff_fitted (hnodup : h.vertices.Nodup) :
    (∃ new last, h.addBlock sees v = (.ok new, last)) ↔
      ∀ x ∈ (h.addBlock sees v).2.accepted, x ∈ h.accepted ∨
        (Block.toWords? x).isSome := by
  constructor
  · rintro ⟨new, last, hadd⟩
    rw [hadd]
    exact addBlock_fitted hadd
  · intro hfitted
    cases hadd : h.addBlock sees v with
    | mk result last =>
        cases result with
        | ok new => exact ⟨new, last, rfl⟩
        | error fault =>
            obtain ⟨x, hx, hnew, hword⟩ := addBlock_exists_refused hnodup hadd
            rw [hadd] at hfitted
            have hsome := (hfitted x hx).resolve_left hnew
            rw [hword] at hsome
            exact absurd hsome (by simp)

/-- An addition that leaves the accepted vertices as they were has not failed. -/
theorem addBlock_ok_of_accepted_eq (hnodup : h.vertices.Nodup)
    (hsame : (h.addBlock sees v).2.accepted = h.accepted) :
    ∃ new last, h.addBlock sees v = (.ok new, last) := by
  rw [addBlock_ok_iff_fitted hnodup, hsame]
  exact fun x hx => Or.inl hx

/-! ### When an addition fails -/

def SetsAside (sees : Triangle α → Vec3 α → Bool) (h : Hull α) (v : Block) : Prop :=
  h.accepted.length = 3 ∧ ∀ t ∈ h.faces, sees t (Vec3.ofBlock v) = false

theorem addBlock_of_setsAside (hv : v ∉ h.vertices) (haside : h.SetsAside sees v) :
    h.addBlock sees v = (.ok true, h.forget.enqueue v) := by
  obtain ⟨hlength, hmiss⟩ := haside
  have hunknown : ¬h.knows v = true := fun hknown => hv (knows_iff.1 hknown)
  have hinsert : h.insert sees v = (.ok .queued, h.forget.enqueue v) := by
    rw [insert, if_neg hunknown, if_pos hlength, scan_of_forall (h := h.forget) hmiss]
    rfl
  rw [addBlock_of_ok hinsert, if_neg (by simp)]
  rfl

/-- A new vertex that no word holds and that is not put aside is refused, but stays. -/
theorem addBlock_of_unfit (hv : v ∉ h.vertices) (hword : Block.toWords? v = none)
    (haside : ¬h.SetsAside sees v) :
    ∃ i, h.addBlock sees v = (.error .vertexRange, { h.record v with last := i }) := by
  have hstep := insertion sees h v
  cases hinsert : h.insert sees v with
  | mk result next =>
      rw [hinsert] at hstep
      cases hstep with
      | known hmem => exact absurd hmem hv
      | queued hmem hlength hmiss => exact absurd ⟨hlength, hmiss⟩ haside
      | refused i hmem hnone => exact ⟨i, by simp only [addBlock, hinsert]⟩
      | started w hmem hsome | flattened w a b hmem hsome | grown w hmem hsome =>
          rw [hword] at hsome
          cases hsome

/-- If words hold the pending vertices, an addition fails only for a new vertex that no
word holds and that is not put aside. -/
theorem addBlock_ok_iff (hfit : ∀ x ∈ h.pending, (Block.toWords? x).isSome) :
    (∃ new last, h.addBlock sees v = (.ok new, last)) ↔
      (Block.toWords? v).isSome ∨ v ∈ h.vertices ∨ h.SetsAside sees v := by
  constructor
  · rintro ⟨new, last, hadd⟩
    by_contra hnone
    rw [not_or, not_or, Option.not_isSome_iff_eq_none] at hnone
    obtain ⟨i, hrefused⟩ := addBlock_of_unfit hnone.2.1 hnone.1 hnone.2.2
    rw [hadd] at hrefused
    cases hrefused
  · intro hcases
    by_cases hv : v ∈ h.vertices
    · exact ⟨false, _, addBlock_of_mem hv⟩
    · rcases hcases with hword | hmem | haside
      · exact addBlock_ok hword hfit
      · exact absurd hmem hv
      · exact ⟨true, _, addBlock_of_setsAside hv haside⟩

end Refusals

/-! ### Whole calls -/

/-- Whether adding a point succeeds or leaves the vertices, the mesh, the box and
the sum as they were. -/
def Atomic (h : Hull Float) (d : Datum) : Prop :=
  (∃ new, (h.add d).1 = .ok new) ∨ (h.add d).2.forget = h.forget

/-- A point that is read as a block is added as a whole only if this succeeds. -/
theorem atomic_iff_of_read {h : Hull Float} (hnodup : h.vertices.Nodup) {d : Datum}
    {v : Block} (hread : Block.ofDatum d = .ok v) :
    h.Atomic d ↔ ∃ new last, h.addBlock Triangle.above v = (.ok new, last) := by
  have hadd : h.add d = h.addBlock Triangle.above v := by rw [Hull.add, hread]
  rw [Atomic, hadd]
  constructor
  · rintro (⟨new, hok⟩ | hsame)
    · exact ⟨new, _, Prod.ext hok rfl⟩
    · have haccepted :
          (h.addBlock Triangle.above v).2.forget.accepted = h.forget.accepted := by
        rw [hsame]
      exact addBlock_ok_of_accepted_eq hnodup haccepted
  · rintro ⟨new, last, hblock⟩
    exact Or.inl ⟨new, congrArg Prod.fst hblock⟩

/-- An addition is all or nothing if and only if every vertex that it accepts is held by
words.  If words hold the pending vertices, this is the case unless it reads a new vertex
that no word holds and does not put it aside. -/
theorem Built.atomic_iff {P : Block → Prop} {h : Hull Float} (hbuilt : Built P h)
    (d : Datum) :
    (h.Atomic d ↔ ∀ x ∈ (h.add d).2.accepted, x ∈ h.accepted ∨
      (Block.toWords? x).isSome) ∧
      ((∀ x ∈ h.pending, (Block.toWords? x).isSome) →
        (h.Atomic d ↔ ∀ v, Block.ofDatum d = .ok v →
          (Block.toWords? v).isSome ∨ v ∈ h.vertices ∨
            h.SetsAside Triangle.above v)) := by
  cases hread : Block.ofDatum d with
  | error fault =>
      have hadd : h.add d = (.error fault, h) := by rw [Hull.add, hread]
      have hatomic : h.Atomic d := by
        refine Or.inr ?_
        rw [hadd]
      refine ⟨iff_of_true hatomic ?_, fun _ => iff_of_true hatomic ?_⟩
      · rw [hadd]
        exact fun x hx => Or.inl hx
      · intro v hv
        cases hv
  | ok v =>
      have hnodup := hbuilt.nodup_vertices
      have hadd : h.add d = h.addBlock Triangle.above v := by rw [Hull.add, hread]
      rw [atomic_iff_of_read hnodup hread, hadd]
      refine ⟨addBlock_ok_iff_fitted hnodup, fun hfit => ?_⟩
      rw [addBlock_ok_iff hfit]
      constructor
      · rintro hcases u hu
        cases hu
        exact hcases
      · exact fun hcases => hcases v rfl

theorem atomic_iff_square :
    Built (fun _ => True) (empty.addBlocks square).machine ∧
      (empty.addBlocks square).machine.pending = [⟨4, 4, 0⟩] ∧
      (∀ x ∈ (empty.addBlocks square).machine.pending, (Block.toWords? x).isSome) ∧
      (empty.addBlocks square).machine.Atomic (Block.toDatum ⟨0, 0, 4⟩) ∧
      ∀ x ∈ ((empty.addBlocks square).machine.add (Block.toDatum ⟨0, 0, 4⟩)).2.accepted,
        x ∈ (empty.addBlocks square).machine.accepted ∨ (Block.toWords? x).isSome := by
  have hbuilt : Built (fun _ => True) (empty.addBlocks square).machine :=
    built_blocks (fun _ _ => trivial) (by decide)
  have hfit : ∀ x ∈ (empty.addBlocks square).machine.pending,
    (Block.toWords? x).isSome := by decide
  have hread : Block.ofDatum (Block.toDatum ⟨0, 0, 4⟩) = .ok ⟨0, 0, 4⟩ :=
    Block.ofDatum_toDatum (by decide) (by decide) (by decide)
  obtain ⟨haccepts, hatomic⟩ := hbuilt.atomic_iff (Block.toDatum ⟨0, 0, 4⟩)
  have hwhole : (empty.addBlocks square).machine.Atomic (Block.toDatum ⟨0, 0, 4⟩) := by
    rw [hatomic hfit, hread]
    rintro v hv
    cases hv
    exact Or.inl (by decide)
  exact ⟨hbuilt, by decide, hfit, hwhole, haccepts.1 hwhole⟩

/-- A block whose first coordinate is the least positive number that no word holds. -/
def beyond : Block :=
  ⟨2 ^ 63, 0, 0⟩

theorem ofDatum_beyond : Block.ofDatum beyond.toDatum = .ok beyond := by
  have hfinite : Point.isFinite (Vec3.ofBlock beyond) = true := by decide +kernel
  have hfloor : (Vec3.ofBlock beyond : Point).map Binary.floor = beyond := by
    decide +kernel
  rw [Block.ofDatum, Block.pointOfDatum_toDatum, if_pos hfinite]
  change Block.ofPoint (Vec3.ofBlock beyond) = _
  rw [Block.ofPoint, if_pos hfinite, hfloor]

/-- The hull of no vertices refuses a vertex that no word holds, and has
accepted it afterwards. -/
theorem not_atomic_beyond :
    Built (fun _ => True) empty ∧
      (∃ next : Hull Float, empty.add beyond.toDatum = (.error .vertexRange, next) ∧
        (empty : Hull Float).accepted = [] ∧ next.accepted = [beyond]) ∧
      ¬Atomic empty beyond.toDatum := by
  have hadd : (empty : Hull Float).add beyond.toDatum =
      (.error .vertexRange, Hull.record empty beyond) := by
    rw [Hull.add, ofDatum_beyond]
    rfl
  refine ⟨Built.start, ⟨_, hadd, rfl, rfl⟩, ?_⟩
  rw [Atomic, hadd]
  rintro (⟨new, hok⟩ | hsame)
  · cases hok
  · have haccepted : [beyond] = [] := congrArg accepted hsame
    cases haccepted

end Hull
end LatticeHull
