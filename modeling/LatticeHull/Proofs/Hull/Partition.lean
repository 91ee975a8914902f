import LatticeHull.Proofs.Hull.Vertices

/-!
# One place for each vertex

While a replay runs, a vertex is accepted, pending, or the subject of a task that is
left.  No step puts a vertex into two of these places or drops it, so a replay ends with
a rearrangement of what it started from.  The vertices that were accepted before stay in
front in their order, and the vertex that called for the replay comes last.

None of this depends on what the triangles answer.
-/

namespace LatticeHull
namespace Hull

variable {α : Type}

/-- The vertices that are accepted, pending, or left in the work. -/
def held (h : Hull α) (work : List Task) : List Block :=
  h.vertices ++ work.map Task.vertex

theorem held_nil (h : Hull α) : h.held [] = h.vertices :=
  List.append_nil _

theorem not_mem_of_nodup_held {h : Hull α} {task : Task} {work : List Task}
    (hnodup : (h.held (task :: work)).Nodup) : task.vertex ∉ h.vertices := by
  intro hmem
  have hdisjoint := List.disjoint_of_nodup_append hnodup
  exact hdisjoint hmem (by simp)

/-! ### Rearrangement by single steps -/

theorem restore_eq_record {h : Hull α} {v : Block} (hv : v ∉ h.accepted) :
    h.restore v = h.record v := by
  rw [restore, if_neg]
  simpa using hv

theorem held_restore_perm {h : Hull α} {v : Block} {work : List Task}
    (hv : v ∉ h.accepted) :
    ((h.restore v).held work).Perm (h.held (.restore v :: work)) := by
  rw [restore_eq_record hv, List.perm_iff_count]
  intro x
  simp only [held, vertices, record, List.map_cons, Task.vertex, List.count_append,
    List.count_cons, List.count_nil]
  omega

theorem held_round_perm {h : Hull α} {v : Block} (hv : v ∈ h.accepted)
    (work : List Task) :
    ((h.suspend v).held (h.round v ++ work)).Perm (h.held work) := by
  have herase := List.perm_iff_count.1 (List.perm_cons_erase hv)
  have hround : (h.round v).map Task.vertex = h.pending ++ [v] := by
    simp [round, Task.vertex, Function.comp_def]
  rw [List.perm_iff_count]
  intro x
  have hx := herase x
  simp only [held, vertices, suspend, List.map_append, hround, List.count_append,
    List.count_cons, List.count_nil] at hx ⊢
  omega

/-! ### What a replay preserves -/

/-- What a replay preserves: no vertex is in two places, some vertices stay in
front of the accepted ones, and one vertex is left to be put back at the end or
has been put back last. -/
structure Replaying (front : List Block) (v : Block) (h : Hull α) (work : List Task) :
    Prop where
  nodup : (h.held work).Nodup
  front : front <+: h.accepted
  closing : work.getLast? = some (.restore v) ∨ work = [] ∧ h.accepted.getLast? = some v

namespace Replaying

variable {front : List Block} {h next : Hull α} {u v : Block} {work : List Task}

theorem not_mem_vertices {task : Task} (hrun : Replaying front v h (task :: work)) :
    task.vertex ∉ h.vertices :=
  not_mem_of_nodup_held hrun.nodup

theorem not_mem_accepted {task : Task} (hrun : Replaying front v h (task :: work)) :
    task.vertex ∉ h.accepted :=
  fun hmem => hrun.not_mem_vertices (List.mem_append_left _ hmem)

theorem restore (hrun : Replaying front v h (.restore u :: work)) :
    Replaying front v (h.restore u) work := by
  have hu : u ∉ h.accepted := hrun.not_mem_accepted
  refine ⟨(held_restore_perm hu).nodup_iff.2 hrun.nodup, ?_, ?_⟩
  · rw [restore_eq_record hu]
    exact hrun.front.trans (List.prefix_append _ _)
  · rcases hrun.closing with hlast | ⟨hnil, -⟩
    · cases work with
      | nil =>
          obtain rfl : u = v := by simpa using hlast
          exact Or.inr ⟨rfl, by simp [restore_eq_record hu, record]⟩
      | cons task work => exact Or.inl (by simpa using hlast)
    · simp at hnil

theorem getLast_work (hrun : Replaying front v h (.insert u :: work)) :
    work.getLast? = some (.restore v) := by
  rcases hrun.closing with hlast | ⟨hnil, -⟩
  · cases work with
    | nil => simp at hlast
    | cons task work => simpa using hlast
  · simp at hnil

theorem getLast_accepted (hrun : Replaying front v h []) :
    h.accepted.getLast? = some v := by
  rcases hrun.closing with hwork | ⟨-, hlast⟩
  · simp at hwork
  · exact hlast

end Replaying

/-! ### Insertions -/

variable [Scalar α] {sees : Triangle α → Vec3 α → Bool}

namespace Insertion

variable {h next : Hull α} {v : Block} {outcome : Outcome}

theorem changed_iff (hstep : Insertion sees h v (.ok outcome) next) :
    outcome.changed = true ↔ v ∉ h.vertices := by
  cases hstep with
  | known hv => simp [Outcome.changed, hv]
  | queued hnew | started w hnew | flattened w a b hnew | grown w hnew =>
      simp [Outcome.changed, hnew]

theorem vertices_perm (hstep : Insertion sees h v (.ok outcome) next)
    (hv : v ∉ h.vertices) :
    next.vertices.Perm (v :: h.vertices) := by
  rw [List.perm_iff_count]
  intro x
  cases hstep with
  | known hmem => exact absurd hmem hv
  | queued =>
      simp only [vertices, enqueue, forget, List.count_append, List.count_cons,
        List.count_nil]
      omega
  | started | flattened | grown =>
      simp only [vertices, adopt, record, measure, forget, List.count_append,
        List.count_cons, List.count_nil]
      omega

theorem held_perm (hstep : Insertion sees h v (.ok outcome) next) (hv : v ∉ h.vertices)
    (work : List Task) : (next.held work).Perm (h.held (.insert v :: work)) :=
  ((hstep.vertices_perm hv).append_right _).trans List.perm_middle.symm

theorem accepted_extends (hstep : Insertion sees h v (.ok outcome) next) :
    h.accepted <+: next.accepted := by
  cases hstep with
  | known | queued => exact List.prefix_refl _
  | started | flattened | grown => exact List.prefix_append _ _

theorem getLast_accepted (hstep : Insertion sees h v (.ok outcome) next)
    (hold : v ∉ h.accepted) (hnew : v ∈ next.accepted) :
    next.accepted.getLast? = some v := by
  cases hstep with
  | known | queued => exact absurd hnew hold
  | started | flattened | grown => simp [adopt, record, measure]

/-- Taking out the vertex that grew the mesh leaves the vertices that were
accepted before it. -/
theorem accepted_suspend (hstep : Insertion sees h v (.ok .grown) next) :
    (next.suspend v).accepted = h.accepted := by
  cases hstep with
  | grown w hv =>
      have hold : v ∉ h.accepted := fun hmem => hv (List.mem_append_left _ hmem)
      simp [suspend, adopt, record, measure, forget, List.erase_append_right _ hold]

end Insertion

/-! ### Whole replays -/

namespace Replaying

variable {front : List Block} {h next : Hull α} {u v : Block} {work : List Task}

theorem insertion {outcome : Outcome} (hrun : Replaying front v h (.insert u :: work))
    (hstep : Insertion sees h u (.ok outcome) next) : Replaying front v next work where
  nodup := (hstep.held_perm hrun.not_mem_vertices work).nodup_iff.2 hrun.nodup
  front := hrun.front.trans hstep.accepted_extends
  closing := Or.inl hrun.getLast_work

theorem round (hrun : Replaying front v h (.insert u :: work))
    (hstep : Insertion sees h u (.ok .grown) next) :
    Replaying front v (next.suspend u) (next.round u ++ work) where
  nodup := (held_round_perm hstep.mem_accepted_of_grown work).nodup_iff.2
    (hrun.insertion hstep).nodup
  front := by
    rw [hstep.accepted_suspend]
    exact hrun.front
  closing := by
    left
    rw [List.getLast?_append, hrun.getLast_work]
    rfl

/-- A replay loses no vertex, keeps the front of the accepted ones, and puts back the
vertex that called for it last. -/
theorem replay {last : Hull α} (hrun : Replaying front v h work)
    (hend : h.replay sees work = (.ok (), last)) :
    Replaying front v last [] ∧ last.vertices.Perm (h.held work) := by
  have hkept : Replaying front v last [] ∧ (last.held []).Perm (h.held work) := by
    refine replay_induction (P := fun h' work' => Replaying front v h' work' ∧
      (h'.held work').Perm (h.held work)) ?_ ?_ ?_ ⟨hrun, List.Perm.refl _⟩ hend
    · intro h' u work' hold
      exact ⟨hold.1.restore, (held_restore_perm hold.1.not_mem_accepted).trans hold.2⟩
    · intro h' u work' outcome next hold hstep _
      exact ⟨hold.1.insertion hstep,
        (hstep.held_perm hold.1.not_mem_vertices work').trans hold.2⟩
    · intro h' u work' next hold hstep _
      exact ⟨hold.1.round hstep,
        ((held_round_perm hstep.mem_accepted_of_grown work').trans
          (hstep.held_perm hold.1.not_mem_vertices work')).trans hold.2⟩
  rwa [held_nil] at hkept

end Replaying

/-- The replay that a new vertex calls for starts with every vertex in one place. -/
theorem Insertion.replaying {h next : Hull α} {v : Block}
    (hstep : Insertion sees h v (.ok .grown) next) (hnodup : h.vertices.Nodup)
    (hv : v ∉ h.vertices) : Replaying h.accepted v (next.suspend v) (next.round v) where
  nodup := by
    have hround := held_round_perm hstep.mem_accepted_of_grown []
    rw [List.append_nil, held_nil] at hround
    rw [hround.nodup_iff, (hstep.vertices_perm hv).nodup_iff]
    exact List.nodup_cons.2 ⟨hv, hnodup⟩
  front := by rw [hstep.accepted_suspend]
  closing := Or.inl (by simp [round])

/-! ### Whole additions -/

section Adding

variable {h last : Hull α} {v : Block} {new : Bool}

theorem addBlock_of_mem (hv : v ∈ h.vertices) :
    h.addBlock sees v = (.ok false, h.forget) := by
  rw [addBlock, insert_of_knows sees (knows_iff.2 hv)]
  rfl

/-- A vertex that is added is new if and only if it was not there before. -/
theorem addBlock_new_iff (hadd : h.addBlock sees v = (.ok new, last)) :
    new = true ↔ v ∉ h.vertices := by
  obtain ⟨outcome, next, hstep, rfl, -⟩ := addBlock_cases hadd
  exact hstep.changed_iff

theorem addBlock_vertices_perm (hnodup : h.vertices.Nodup) (hv : v ∉ h.vertices)
    (hadd : h.addBlock sees v = (.ok new, last)) :
    last.vertices.Perm (v :: h.vertices) := by
  obtain ⟨outcome, next, hstep, -, ⟨-, rfl⟩ | ⟨⟨rfl, -⟩, final, hreplay, rfl⟩⟩ :=
    addBlock_cases hadd
  · exact hstep.vertices_perm hv
  · have hfinal := ((hstep.replaying hnodup hv).replay hreplay).2
    have hround := held_round_perm hstep.mem_accepted_of_grown []
    rw [List.append_nil, held_nil] at hround
    exact (hfinal.trans hround).trans (hstep.vertices_perm hv)

theorem addBlock_nodup (hnodup : h.vertices.Nodup)
    (hadd : h.addBlock sees v = (.ok new, last)) :
    last.vertices.Nodup := by
  by_cases hv : v ∈ h.vertices
  · rw [addBlock_of_mem hv] at hadd
    cases hadd
    exact hnodup
  · rw [(addBlock_vertices_perm hnodup hv hadd).nodup_iff]
    exact List.nodup_cons.2 ⟨hv, hnodup⟩

/-- The accepted vertices stay in front, and one that is newly accepted is the last. -/
theorem addBlock_accepted (hnodup : h.vertices.Nodup)
    (hadd : h.addBlock sees v = (.ok new, last)) :
    h.accepted <+: last.accepted ∧
      (v ∉ h.accepted → v ∈ last.accepted → last.accepted.getLast? = some v) := by
  obtain ⟨outcome, next, hstep, -, ⟨-, rfl⟩ | ⟨⟨rfl, -⟩, final, hreplay, rfl⟩⟩ :=
    addBlock_cases hadd
  · exact ⟨hstep.accepted_extends, hstep.getLast_accepted⟩
  · have hv : v ∉ h.vertices := hstep.changed_iff.1 rfl
    have hfinal := ((hstep.replaying hnodup hv).replay hreplay).1
    exact ⟨hfinal.front, fun _ _ => hfinal.getLast_accepted⟩

end Adding

end Hull
end LatticeHull
