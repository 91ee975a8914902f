import LatticeHull.Proofs.Hull.Membership
import LatticeHull.Proofs.Hull.Partition

/-!
# A replay as a recursion

A vertex that grows the mesh while others are pending is taken out, the pending
ones are inserted one after another, each of them with all that it calls for in
turn, and then the vertex is put back.  Said like this, adding a vertex is a
recursion.  A replay does the same with one list of tasks, in which the rounds of
several vertices lie one upon another.

A replay ends because no turn of it adds to the vertices that are pending or left to be
inserted, and every turn that keeps their number shortens the list of tasks.  It ends in
the state that the recursion ends in, whatever the triangles answer.
-/

namespace LatticeHull
namespace Hull

variable {α : Type} [Scalar α] {sees : Triangle α → Vec3 α → Bool}

/-- One hull comes from another by inserting the vertices of a list in order.  A vertex
that grows the mesh while others are pending is taken out until these have been inserted
in the same way, and is put back as the last accepted one. -/
inductive Inserts (sees : Triangle α → Vec3 α → Bool) :
    Hull α → List Block → Hull α → Prop where
  | nil (h : Hull α) : Inserts sees h [] h
  | settled {h next last : Hull α} {v : Block} {vs : List Block} {outcome : Outcome}
      (hinsert : h.insert sees v = (.ok outcome, next)) (hquiet : ¬Recalls outcome next)
      (hrest : Inserts sees next vs last) : Inserts sees h (v :: vs) last
  | recalled {h next mid last : Hull α} {v : Block} {vs : List Block}
      (hinsert : h.insert sees v = (.ok .grown, next)) (hpending : next.pending ≠ [])
      (hround : Inserts sees (next.suspend v) next.pending mid)
      (hrest : Inserts sees (mid.record v) vs last) : Inserts sees h (v :: vs) last

/-- One turn of a replay: the first task is done, and a round may take its place. -/
inductive Turn (sees : Triangle α → Vec3 α → Bool) :
    Hull α × List Task → Hull α × List Task → Prop where
  | restore (h : Hull α) (v : Block) (work : List Task) :
      Turn sees (h, .restore v :: work) (h.restore v, work)
  | settled {h next : Hull α} {v : Block} {outcome : Outcome}
      (hinsert : h.insert sees v = (.ok outcome, next)) (hquiet : ¬Recalls outcome next)
      (work : List Task) : Turn sees (h, .insert v :: work) (next, work)
  | recalled {h next : Hull α} {v : Block}
      (hinsert : h.insert sees v = (.ok .grown, next))
      (hpending : next.pending ≠ []) (work : List Task) :
      Turn sees (h, .insert v :: work) (next.suspend v, next.round v ++ work)

theorem length_pending_of_grown {h next : Hull α} {v : Block}
    (hinsert : h.insert sees v = (.ok .grown, next)) :
    next.pending.length = h.pending.length := by
  have hsame := pending_insert_of_grown sees h v (by rw [hinsert])
  rw [hinsert] at hsame
  exact congrArg List.length hsame

theorem length_pending_le_of_insert {h next : Hull α} {v : Block} {outcome : Outcome}
    (hinsert : h.insert sees v = (.ok outcome, next)) :
    next.pending.length ≤ h.pending.length + 1 := by
  have hle := length_pending_insert_le sees h v
  rwa [hinsert] at hle

theorem Insertion.word_of_grown {h next : Hull α} {v : Block}
    (hstep : Insertion sees h v (.ok .grown) next) : (Block.toWords? v).isSome := by
  cases hstep with
  | grown w hnew hword => exact Option.isSome_of_eq_some hword

/-! ### Replays end -/

def effort (state : Hull α × List Task) : ℕ ×ₗ ℕ :=
  toLex (insertions state.2 + state.1.pending.length, state.2.length)

/-- Every turn leaves less effort. -/
theorem Turn.effort_lt {s t : Hull α × List Task} (hturn : Turn sees s t) :
    effort t < effort s := by
  rw [effort, effort, Prod.Lex.toLex_lt_toLex]
  cases hturn with
  | restore h v work => simp [insertions, pending_restore]
  | settled hinsert hquiet work =>
      have hle := length_pending_le_of_insert hinsert
      simp only [insertions, List.length_cons]
      omega
  | recalled hinsert hpending work =>
      have hlength := length_pending_of_grown hinsert
      left
      simp only [insertions_append, insertions_round, suspend, insertions,
        List.length_nil]
      omega

theorem wellFounded_turn : WellFounded fun s t : Hull α × List Task => Turn sees t s :=
  Subrelation.wf (fun hturn => hturn.effort_lt) (InvImage.wf effort wellFounded_lt)

/-- A replay that succeeds takes turns until no task is left. -/
theorem turns_of_replay {h last : Hull α} {work : List Task}
    (hend : h.replay sees work = (.ok (), last)) :
    Relation.ReflTransGen (Turn sees) (h, work) (last, []) := by
  fun_induction replay sees h work with
  | case1 h =>
      cases hend
      exact Relation.ReflTransGen.refl
  | case2 h v work ih => exact (ih hend).head (Turn.restore h v work)
  | case3 h v work fault next hinserted => cases hend
  | case4 h v work outcome next hinserted hrecalls ih =>
      obtain ⟨rfl, hpending⟩ := hrecalls
      exact (ih hend).head (Turn.recalled hinserted hpending work)
  | case5 h v work outcome next hinserted hrecalls ih =>
      exact (ih hend).head (Turn.settled hinserted hrecalls work)

/-! ### The recursion ends -/

theorem Insertion.mem_pending_or {h next : Hull α} {v x : Block} {vs : List Block}
    {outcome : Outcome} (hstep : Insertion sees h v (.ok outcome) next)
    (hx : x ∈ next.pending ∨ x ∈ vs) : x ∈ h.pending ∨ x ∈ v :: vs := by
  rcases hx with hx | hx
  · rcases hstep.mem_pending hx with hold | rfl
    · exact Or.inl hold
    · exact Or.inr List.mem_cons_self
  · exact Or.inr (List.mem_cons_of_mem _ hx)

theorem Inserts.mem_pending {h last : Hull α} {vs : List Block}
    (hinserts : Inserts sees h vs last) {x : Block} (hx : x ∈ last.pending) :
    x ∈ h.pending ∨ x ∈ vs := by
  induction hinserts with
  | nil h => exact Or.inl hx
  | settled hinsert hquiet hrest ih =>
    exact (insertion_of_eq hinsert).mem_pending_or (ih hx)
  | recalled hinsert hpending hround hrest ihround ihrest =>
      apply (insertion_of_eq hinsert).mem_pending_or
      rcases ihrest hx with hmid | hvs
      · rcases ihround hmid with hnone | hnext
        · exact absurd hnone List.not_mem_nil
        · exact Or.inl hnext
      · exact Or.inr hvs

/-- The recursion leaves no more vertices pending than were pending or to be inserted. -/
theorem Inserts.length_pending_le {h last : Hull α} {vs : List Block}
    (hinserts : Inserts sees h vs last) :
    last.pending.length ≤ h.pending.length + vs.length := by
  induction hinserts with
  | nil h => exact Nat.le_refl _
  | settled hinsert hquiet hrest ih =>
      have hnext := length_pending_le_of_insert hinsert
      rw [List.length_cons]
      omega
  | recalled hinsert hpending hround hrest ihround ihrest =>
      have hnext := length_pending_of_grown hinsert
      simp only [suspend, record, List.length_nil, List.length_cons] at ihround ihrest ⊢
      omega

/-- If words hold what is pending or to be inserted, the recursion comes to an end: what
is pending after a round was pending before it, so each entry has less to do. -/
theorem exists_inserts (sees : Triangle α → Vec3 α → Bool) (h : Hull α) (vs : List Block)
    (hfit : ∀ x, x ∈ h.pending ∨ x ∈ vs → (Block.toWords? x).isSome) :
    ∃ last, Inserts sees h vs last := by
  match vs with
  | [] => exact ⟨h, Inserts.nil h⟩
  | v :: vs =>
      obtain ⟨outcome, next, hinsert⟩ := exists_insert_eq sees h
        (hfit v (Or.inr List.mem_cons_self))
      have hnext : ∀ x, x ∈ next.pending ∨ x ∈ vs → (Block.toWords? x).isSome :=
        fun x hx => hfit x ((insertion_of_eq hinsert).mem_pending_or hx)
      by_cases hrecalls : Recalls outcome next
      · obtain ⟨rfl, hpending⟩ := hrecalls
        have hlength := length_pending_of_grown hinsert
        have hround : ∀ x, x ∈ (next.suspend v).pending ∨ x ∈ next.pending →
            (Block.toWords? x).isSome := by
          rintro x (hx | hx)
          · exact absurd hx List.not_mem_nil
          · exact hnext x (Or.inl hx)
        obtain ⟨mid, hmid⟩ := exists_inserts sees (next.suspend v) next.pending hround
        have hmidlength := hmid.length_pending_le
        have hrest : ∀ x, x ∈ (mid.record v).pending ∨ x ∈ vs →
            (Block.toWords? x).isSome := by
          rintro x (hx | hx)
          · exact hround x (hmid.mem_pending hx)
          · exact hnext x (Or.inr hx)
        obtain ⟨last, hlast⟩ := exists_inserts sees (mid.record v) vs hrest
        exact ⟨last, Inserts.recalled hinsert hpending hmid hlast⟩
      · have hlength := length_pending_le_of_insert hinsert
        obtain ⟨last, hlast⟩ := exists_inserts sees next vs hnext
        exact ⟨last, Inserts.settled hinsert hrecalls hlast⟩
termination_by (h.pending.length + vs.length, vs.length)
decreasing_by
  · refine Prod.Lex.left _ _ ?_
    simp only [suspend, List.length_nil, List.length_cons]
    omega
  · refine Prod.Lex.left _ _ ?_
    simp only [suspend, record, List.length_nil, List.length_cons] at hmidlength ⊢
    omega
  · rw [Prod.lex_def]
    simp only [List.length_cons]
    omega

/-! ### One ends where the other does -/

/-- Inserting a list by recursion is what a replay does with the tasks in front. -/
theorem Inserts.replay_eq {h last : Hull α} {vs : List Block}
    (hinserts : Inserts sees h vs last) {work : List Task}
    (hnodup : (h.held (vs.map .insert ++ work)).Nodup) :
    h.replay sees (vs.map .insert ++ work) = last.replay sees work ∧
      (last.held work).Nodup := by
  induction hinserts generalizing work with
  | nil h => exact ⟨rfl, hnodup⟩
  | @settled h next last v vs outcome hinsert hquiet hrest ih =>
      have hperm := (insertion_of_eq hinsert).held_perm (not_mem_of_nodup_held hnodup)
        (vs.map .insert ++ work)
      obtain ⟨hreplay, hlast⟩ := ih (hperm.nodup_iff.2 hnodup)
      refine ⟨?_, hlast⟩
      rw [← hreplay]
      exact (replay_insert_of_ok hinsert).trans (if_neg hquiet)
  | @recalled h next mid last v vs hinsert hpending hround hrest ihround ihrest =>
      have hstep := insertion_of_eq hinsert
      have hperm := (held_round_perm hstep.mem_accepted_of_grown _).trans
        (hstep.held_perm (not_mem_of_nodup_held hnodup) (vs.map .insert ++ work))
      have hwork : next.round v ++ (vs.map .insert ++ work) =
          next.pending.map .insert ++ (.restore v :: (vs.map .insert ++ work)) :=
        List.append_assoc ..
      rw [hwork] at hperm
      obtain ⟨hreplay, hmid⟩ := ihround (hperm.nodup_iff.2 hnodup)
      have hv : v ∉ mid.accepted := fun hmem =>
        not_mem_of_nodup_held hmid (List.mem_append_left _ hmem)
      have hrestored := (held_restore_perm hv).nodup_iff.2 hmid
      rw [restore_eq_record hv] at hrestored
      obtain ⟨hreplay', hlast⟩ := ihrest hrestored
      refine ⟨?_, hlast⟩
      calc h.replay sees (.insert v :: (vs.map .insert ++ work))
          = (next.suspend v).replay sees (next.round v ++ (vs.map .insert ++ work)) :=
            (replay_insert_of_ok hinsert).trans (if_pos ⟨rfl, hpending⟩)
        _ = mid.replay sees (.restore v :: (vs.map .insert ++ work)) := by
          rw [hwork, hreplay]
        _ = (mid.record v).replay sees (vs.map .insert ++ work) := by
            rw [replay_restore, restore_eq_record hv]
        _ = last.replay sees work := hreplay'

/-- Whatever the triangles answer, a replay that a vertex calls for cannot go on for
ever, and takes turns until no task is left.  The hull that it ends in is the one in
which the recursion ends, and the recursion does end. -/
theorem replay_eq_recursion {h next : Hull α} {v : Block} (hnodup : h.vertices.Nodup)
    (hfit : ∀ x ∈ h.pending, (Block.toWords? x).isSome)
    (hgrown : h.insert sees v = (.ok .grown, next)) (hpending : next.pending ≠ []) :
    Acc (fun s t => Turn sees t s) (next.suspend v, next.round v) ∧
      ∃ last, Relation.ReflTransGen (Turn sees) (next.suspend v, next.round v)
        (last, []) ∧
        (next.suspend v).replay sees (next.round v) = (.ok (), last) ∧
        h.addBlock sees v = (.ok true, last.forget) ∧
        ∀ g, Inserts sees h [v] g ↔ g = last := by
  have hv : v ∉ h.vertices := (insertion_of_eq hgrown).changed_iff.1 rfl
  have hheld : (h.held ([v].map .insert ++ [])).Nodup := by
    have hperm : (h.held [.insert v]).Perm (v :: h.vertices) :=
      List.perm_append_singleton ..
    exact hperm.nodup_iff.2 (List.nodup_cons.2 ⟨hv, hnodup⟩)
  have hend : ∀ g, Inserts sees h [v] g →
      (next.suspend v).replay sees (next.round v) = (.ok (), g) := by
    intro g hg
    calc (next.suspend v).replay sees (next.round v)
        = (next.suspend v).replay sees (next.round v ++ []) := by rw [List.append_nil]
      _ = h.replay sees [.insert v] :=
          ((replay_insert_of_ok hgrown).trans (if_pos ⟨rfl, hpending⟩)).symm
      _ = g.replay sees [] := (hg.replay_eq hheld).1
      _ = (.ok (), g) := by rw [replay]
  have hword : (Block.toWords? v).isSome := (insertion_of_eq hgrown).word_of_grown
  obtain ⟨last, hlast⟩ := exists_inserts sees h [v] (by
    rintro x (hx | hx)
    · exact hfit x hx
    · rwa [List.mem_singleton.1 hx])
  have hreplay := hend last hlast
  refine ⟨wellFounded_turn.apply _, last, turns_of_replay hreplay, hreplay, ?_,
    fun g => ⟨?_, ?_⟩⟩
  · rw [addBlock_of_ok hgrown, if_pos ⟨rfl, hpending⟩, hreplay]
    rfl
  · intro hg
    have hsame := (hend g hg).symm.trans hreplay
    rw [Prod.mk.injEq] at hsame
    exact hsame.2
  · rintro rfl
    exact hlast

/-- A square and a point inside it, pending while the hull is flat. -/
def paved : Hull Int :=
  empty.addBlocks [⟨0, 0, 0⟩, ⟨4, 0, 0⟩, ⟨0, 4, 0⟩, ⟨1, 1, 0⟩, ⟨4, 4, 0⟩]

theorem replay_eq_recursion_paved :
    paved.vertices.Nodup ∧ (∀ x ∈ paved.pending, (Block.toWords? x).isSome) ∧
      ∃ next last, paved.insert Triangle.above ⟨0, 0, 4⟩ = (.ok .grown, next) ∧
        next.pending = [⟨1, 1, 0⟩, ⟨4, 4, 0⟩] ∧
        (next.suspend ⟨0, 0, 4⟩).replay Triangle.above (next.round ⟨0, 0, 4⟩) =
          (.ok (), last) ∧
        Inserts Triangle.above paved [⟨0, 0, 4⟩] last ∧
        last.accepted = [⟨0, 0, 0⟩, ⟨4, 0, 0⟩, ⟨0, 4, 0⟩, ⟨4, 4, 0⟩, ⟨0, 0, 4⟩] ∧
        last.pending = [⟨1, 1, 0⟩] := by
  have hnodup : paved.vertices.Nodup := by decide
  have hfit : ∀ x ∈ paved.pending, (Block.toWords? x).isSome := by decide
  have hgrown : paved.insert Triangle.above ⟨0, 0, 4⟩ =
      (.ok .grown, (paved.insert Triangle.above ⟨0, 0, 4⟩).2) := Prod.ext (by cbv) rfl
  have hpending :
      (paved.insert Triangle.above ⟨0, 0, 4⟩).2.pending = [⟨1, 1, 0⟩, ⟨4, 4, 0⟩] := by
    decide
  obtain ⟨-, last, -, hreplay, -, hinserts⟩ :=
    replay_eq_recursion hnodup hfit hgrown (by simp [hpending])
  obtain rfl : _ = last := congrArg Prod.snd hreplay
  exact ⟨hnodup, hfit, _, _, hgrown, hpending, hreplay, (hinserts _).2 rfl,
    by cbv, by cbv⟩

end Hull
end LatticeHull
