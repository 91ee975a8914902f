import LatticeHull.Hull
import Mathlib

/-!
# What one insertion does, and what a replay keeps

Inserting a vertex ends in one of six ways, listed here once with everything that is
known in each.  A replay is a sequence of insertions and restorations, so a property of
the hull and of the work that is left holds at the end if no step breaks it.
-/

namespace LatticeHull
namespace Hull

variable {α : Type}

theorem rejecting_eq_none_iff {sees : Triangle α → Vec3 α → Bool} {h : Hull α}
    {q : Vec3 α} :
    h.rejecting sees q = none ↔ ∀ t ∈ h.faces, sees t q = false := by
  simp only [rejecting, Option.orElse_eq_orElse, Option.orElse_eq_or,
    Option.or_eq_none_iff, List.findIdx?_eq_none_iff, Option.filter_eq_none_iff]
  constructor
  · exact fun hnone => hnone.2
  · intro hmiss
    refine ⟨fun i _ => ?_, hmiss⟩
    cases hface : h.faces[i]? with
    | none => simp
    | some t => simp [hmiss t (List.mem_of_getElem? hface)]

theorem scan_of_forall {sees : Triangle α → Vec3 α → Bool} {h : Hull α} {q : Vec3 α}
    (hmiss : ∀ t ∈ h.faces, sees t q = false) : h.scan sees q = (true, h) := by
  rw [scan, rejecting_eq_none_iff.2 hmiss]

theorem scan_of_exists {sees : Triangle α → Vec3 α → Bool} {h : Hull α} {q : Vec3 α}
    (hsees : ∃ t ∈ h.faces, sees t q = true) :
    ∃ i, h.scan sees q = (false, { h with last := some i }) := by
  cases hrejecting : h.rejecting sees q with
  | none =>
      obtain ⟨t, ht, hseen⟩ := hsees
      rw [rejecting_eq_none_iff.1 hrejecting t ht] at hseen
      exact absurd hseen Bool.false_ne_true
  | some i => exact ⟨i, by rw [scan, hrejecting]⟩

theorem scan_fst_iff {sees : Triangle α → Vec3 α → Bool} {h : Hull α} {q : Vec3 α} :
    (h.scan sees q).1 = true ↔ ∀ t ∈ h.faces, sees t q = false := by
  rw [← rejecting_eq_none_iff, scan]
  split <;> simp_all

def adopt (h : Hull α) (v : Block) (w : Words) : Hull α :=
  (h.forget.record v).measure w

variable [Scalar α] {sees : Triangle α → Vec3 α → Bool}

/-- The ways in which an insertion ends. -/
inductive Insertion (sees : Triangle α → Vec3 α → Bool) (h : Hull α) (v : Block) :
    Except Fault Outcome → Hull α → Prop where
  | known (hv : v ∈ h.vertices) : Insertion sees h v (.ok .known) h.forget
  | queued (hv : v ∉ h.vertices) (hlength : h.accepted.length = 3)
      (hmiss : ∀ t ∈ h.faces, sees t (Vec3.ofBlock v) = false) :
      Insertion sees h v (.ok .queued) (h.forget.enqueue v)
  | refused (last : Option Nat) (hv : v ∉ h.vertices) (hword : Block.toWords? v = none) :
      Insertion sees h v (.error .vertexRange) { h.record v with last := last }
  | started (w : Words) (hv : v ∉ h.vertices) (hword : Block.toWords? v = some w)
      (hlength : h.accepted.length < 2) :
      Insertion sees h v (.ok .accepted) (h.adopt v w)
  | flattened (w : Words) (a b : Block) (hv : v ∉ h.vertices)
      (hword : Block.toWords? v = some w)
      (hstart : h.accepted = [a, b]) :
      Insertion sees h v (.ok .accepted)
        { h.adopt v w with
          faces :=
            h.faces ++ Mesh.flat (Vec3.ofBlock a) (Vec3.ofBlock b) (Vec3.ofBlock v) }
  | grown (w : Words) (hv : v ∉ h.vertices) (hword : Block.toWords? v = some w)
      (hlength : 3 ≤ h.accepted.length)
      (hsees : h.accepted.length = 3 → ∃ t ∈ h.faces, sees t (Vec3.ofBlock v) = true) :
      Insertion sees h v (.ok .grown)
        { h.adopt v w with faces := Mesh.grow sees h.faces (Vec3.ofBlock v) }

theorem insertion (sees : Triangle α → Vec3 α → Bool) (h : Hull α) (v : Block) :
    Insertion sees h v (h.insert sees v).1 (h.insert sees v).2 := by
  have haccept : ∀ last, v ∉ h.vertices → (h.accepted.length < 3 → last = none) →
      (h.accepted.length = 3 → ∃ t ∈ h.faces, sees t (Vec3.ofBlock v) = true) →
      Insertion sees h v (accept sees { h with last := last } v).1
        (accept sees { h with last := last } v).2 := by
    intro last hv hlast hsees
    cases hword : Block.toWords? v with
    | none =>
        simp only [accept, hword]
        exact Insertion.refused last hv hword
    | some w =>
        simp only [accept, hword]
        match haccepted : h.accepted with
        | [] =>
            obtain rfl := hlast (by simp [haccepted])
            have hstarted : Insertion sees h v _ _ :=
              Insertion.started w hv hword (by simp [haccepted])
            simpa [extendMesh, adopt, forget, record, measure, haccepted] using hstarted
        | [a] =>
            obtain rfl := hlast (by simp [haccepted])
            have hstarted : Insertion sees h v _ _ :=
              Insertion.started w hv hword (by simp [haccepted])
            simpa [extendMesh, adopt, forget, record, measure, haccepted] using hstarted
        | [a, b] =>
            obtain rfl := hlast (by simp [haccepted])
            have hflattened : Insertion sees h v _ _ :=
              Insertion.flattened w a b hv hword haccepted
            simpa [extendMesh, adopt, forget, record, measure, haccepted]
              using hflattened
        | a :: b :: c :: rest =>
            have hlength : 3 ≤ h.accepted.length := by simp [haccepted]
            have hgrown : Insertion sees h v _ _ :=
              Insertion.grown w hv hword hlength hsees
            cases rest with
            | nil =>
              simpa [extendMesh, adopt, forget, record, measure, haccepted] using hgrown
            | cons d rest =>
                simpa [extendMesh, adopt, forget, record, measure, haccepted]
                  using hgrown
  by_cases hknown : h.knows v = true
  · rw [insert_of_knows sees hknown]
    exact Insertion.known (knows_iff.1 hknown)
  · have hv : v ∉ h.vertices := fun hmem => hknown (knows_iff.2 hmem)
    by_cases hlength : h.accepted.length = 3
    · simp only [insert, hknown, hlength, if_true]
      by_cases hmiss : ∀ t ∈ h.faces, sees t (Vec3.ofBlock v) = false
      · rw [scan_of_forall (h := h.forget) hmiss]
        exact Insertion.queued hv hlength hmiss
      · have hsees : ∃ t ∈ h.faces, sees t (Vec3.ofBlock v) = true := by
          simpa using hmiss
        obtain ⟨i, hscan⟩ := scan_of_exists (h := h.forget) hsees
        rw [hscan]
        exact haccept (some i) hv (by omega) (fun _ => hsees)
    · simp only [insert, hknown, hlength, if_false]
      exact haccept none hv (fun _ => rfl) (fun heq => absurd heq hlength)

theorem insertion_of_eq {h next : Hull α} {v : Block} {outcome : Outcome}
    (hinsert : h.insert sees v = (.ok outcome, next)) :
    Insertion sees h v (.ok outcome) next := by
  have hstep := insertion sees h v
  rwa [hinsert] at hstep

theorem exists_insert_eq (sees : Triangle α → Vec3 α → Bool) (h : Hull α) {v : Block}
    (hv : (Block.toWords? v).isSome) :
    ∃ outcome next, h.insert sees v = (.ok outcome, next) := by
  have hstep := insertion sees h v
  generalize h.insert sees v = run at hstep
  obtain ⟨result, next⟩ := run
  cases result with
  | ok outcome => exact ⟨outcome, next, rfl⟩
  | error fault =>
      cases hstep with
      | refused last hnew hword => simp [hword] at hv

/-! ### Replays -/

/-- Whether an insertion calls for a round over the pending vertices. -/
def Recalls (outcome : Outcome) (h : Hull α) : Prop :=
  outcome = .grown ∧ h.pending ≠ []

/-- What no step of a replay breaks holds at its end. -/
theorem replay_induction {P : Hull α → List Task → Prop}
    (hrestore : ∀ h v work, P h (.restore v :: work) → P (h.restore v) work)
    (hinsert : ∀ h v work outcome next, P h (.insert v :: work) →
      Insertion sees h v (.ok outcome) next → ¬Recalls outcome next → P next work)
    (hround : ∀ h v work next, P h (.insert v :: work) →
      Insertion sees h v (.ok .grown) next → next.pending ≠ [] →
        P (next.suspend v) (next.round v ++ work))
    {h : Hull α} {work : List Task} (hstart : P h work) {last : Hull α}
    (hend : h.replay sees work = (.ok (), last)) : P last [] := by
  fun_induction replay sees h work with
  | case1 h =>
      cases hend
      exact hstart
  | case2 h v work ih => exact ih (hrestore h v work hstart) hend
  | case3 h v work fault next hinserted => cases hend
  | case4 h v work outcome next hinserted hrecalls ih =>
      have hstep := insertion sees h v
      rw [hinserted, hrecalls.1] at hstep
      exact ih (hround h v work next hstart hstep hrecalls.2) hend
  | case5 h v work outcome next hinserted hrecalls ih =>
      have hstep := insertion sees h v
      rw [hinserted] at hstep
      exact ih (hinsert h v work outcome next hstart hstep hrecalls) hend

/-- A replay that fails does so in an insertion.  What no step before it
breaks holds there. -/
theorem replay_fault {P : Hull α → List Task → Prop}
    (hrestore : ∀ h v work, P h (.restore v :: work) → P (h.restore v) work)
    (hinsert : ∀ h v work outcome next, P h (.insert v :: work) →
      Insertion sees h v (.ok outcome) next → ¬Recalls outcome next → P next work)
    (hround : ∀ h v work next, P h (.insert v :: work) →
      Insertion sees h v (.ok .grown) next → next.pending ≠ [] →
        P (next.suspend v) (next.round v ++ work))
    {h : Hull α} {work : List Task} (hstart : P h work) {last : Hull α} {fault : Fault}
    (hend : h.replay sees work = (.error fault, last)) :
    ∃ mid v rest, P mid (.insert v :: rest) ∧
      Insertion sees mid v (.error fault) last := by
  fun_induction replay sees h work with
  | case1 h => cases hend
  | case2 h v work ih => exact ih (hrestore h v work hstart) hend
  | case3 h v work fault' next hinserted =>
      have hstep := insertion sees h v
      rw [hinserted] at hstep
      cases hend
      exact ⟨h, v, work, hstart, hstep⟩
  | case4 h v work outcome next hinserted hrecalls ih =>
      have hstep := insertion sees h v
      rw [hinserted, hrecalls.1] at hstep
      exact ih (hround h v work next hstart hstep hrecalls.2) hend
  | case5 h v work outcome next hinserted hrecalls ih =>
      have hstep := insertion sees h v
      rw [hinserted] at hstep
      exact ih (hinsert h v work outcome next hstart hstep hrecalls) hend

/-- A vertex is added by one insertion, and by a replay of the pending
ones if it calls for it. -/
theorem addBlock_cases {h : Hull α} {v : Block} {new : Bool} {last : Hull α}
    (hadd : h.addBlock sees v = (.ok new, last)) :
    ∃ outcome next, Insertion sees h v (.ok outcome) next ∧ new = outcome.changed ∧
      ((¬Recalls outcome next ∧ last = next.forget) ∨
        (Recalls outcome next ∧ ∃ final,
          (next.suspend v).replay sees (next.round v) = (.ok (), final) ∧
            last = final.forget)) := by
  have hstep := insertion sees h v
  rw [addBlock] at hadd
  split at hadd
  · cases hadd
  · rename_i outcome next hinserted
    rw [hinserted] at hstep
    refine ⟨outcome, next, hstep, ?_⟩
    split at hadd
    · rename_i hrecalls
      split at hadd
      · cases hadd
      · rename_i final hreplay
        cases hadd
        exact ⟨rfl, Or.inr ⟨hrecalls, final, hreplay, rfl⟩⟩
    · rename_i hrecalls
      cases hadd
      exact ⟨rfl, Or.inl ⟨hrecalls, rfl⟩⟩

theorem addBlock_fault {h : Hull α} {v : Block} {fault : Fault} {last : Hull α}
    (hadd : h.addBlock sees v = (.error fault, last)) :
    Insertion sees h v (.error fault) last ∨
      ∃ next, Insertion sees h v (.ok .grown) next ∧ next.pending ≠ [] ∧
        (next.suspend v).replay sees (next.round v) = (.error fault, last) := by
  have hstep := insertion sees h v
  rw [addBlock] at hadd
  split at hadd
  · rename_i fault' next hinserted
    rw [hinserted] at hstep
    cases hadd
    exact Or.inl hstep
  · rename_i outcome next hinserted
    rw [hinserted] at hstep
    split at hadd
    · rename_i hrecalls
      rw [hrecalls.1] at hstep
      split at hadd
      · rename_i fault' final hreplay
        cases hadd
        exact Or.inr ⟨next, hstep, hrecalls.2, hreplay⟩
      · cases hadd
    · cases hadd

end Hull
end LatticeHull
