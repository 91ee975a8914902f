import LatticeHull.Hull
import LatticeHull.Proofs.Hull.Insertion
import LatticeHull.Vec3
import Mathlib

/-!
# No vertex is lost

Whatever the triangles answer, a vertex that is added joins the vertices and no other one
comes or goes.  While a replay runs, a vertex may be accepted, pending, or left in the
work.  If words hold all of them, no step of the replay fails.
-/

namespace LatticeHull

/-!
## Exact bounding boxes

A bounding box is exact if on every axis its two ends are the least and the greatest
coordinate of the blocks it was made from.  Words wrap around, so a box that is moved
stays exact only as long as words hold the moved blocks.
-/

theorem fitsWord_iff {n : Int} : fitsWord n = true ↔ -2 ^ 63 ≤ n ∧ n < 2 ^ 63 := by
  have hmin : Int64.minValue.toInt = -2 ^ 63 := by decide
  have hmax : Int64.maxValue.toInt = 2 ^ 63 - 1 := by decide
  simp only [fitsWord, decide_eq_true_eq, hmin, hmax]
  omega

theorem toInt_add_of_fitsWord {a b : Int64} (h : fitsWord (a.toInt + b.toInt) = true) :
    (a + b).toInt = a.toInt + b.toInt := by
  rw [fitsWord_iff] at h
  rw [Int64.toInt_add]
  apply Int.bmod_eq_of_le <;> omega

namespace Block

theorem toWords?_eq_some_iff {v : Block} {w : Words} :
    toWords? v = some w ↔ w.toBlock = v := by
  have hround : ∀ n, fitsWord n = true → (Int64.ofInt n).toInt = n := by
    intro n hn
    rw [fitsWord_iff] at hn
    exact Int64.toInt_ofInt_of_le hn.1 hn.2
  have hfits : ∀ a : Int64, fitsWord a.toInt = true := by
    intro a
    rw [fitsWord_iff]
    exact ⟨a.le_toInt, a.toInt_lt⟩
  constructor
  · intro h
    rw [toWords?] at h
    split at h
    · rename_i hall
      cases h
      simp only [Vec3.all, Bool.and_eq_true] at hall
      ext
      · exact hround _ hall.1.1
      · exact hround _ hall.1.2
      · exact hround _ hall.2
    · cases h
  · rintro rfl
    simp [toWords?, Words.toBlock, Vec3.all, Vec3.map, hfits]

end Block

namespace Extent

theorem toInt_min (a b : Int64) : (min a b).toInt = min a.toInt b.toInt := by
  change (if a ≤ b then a else b).toInt = _
  rw [Int.min_def]
  simp only [Int64.le_iff_toInt_le]
  split <;> rfl

theorem toInt_max (a b : Int64) : (max a b).toInt = max a.toInt b.toInt := by
  change (if a ≤ b then b else a).toInt = _
  rw [Int.max_def]
  simp only [Int64.le_iff_toInt_le]
  split <;> rfl

/-- Whether two words are the least and the greatest of some numbers. -/
def Spans (low high : Int64) (ns : Set Int) : Prop :=
  IsLeast ns low.toInt ∧ IsGreatest ns high.toInt

namespace Spans

variable {low high : Int64} {ns : Set Int}

theorem single (a : Int64) : Spans a a {a.toInt} :=
  ⟨isLeast_singleton, isGreatest_singleton⟩

theorem insert (h : Spans low high ns) (a : Int64) :
    Spans (min low a) (max high a) (insert a.toInt ns) := by
  rw [Spans, toInt_min, toInt_max, min_comm, max_comm]
  exact ⟨h.1.insert _, h.2.insert _⟩

theorem moveBy (h : Spans low high ns) {d : Int64}
    (hfits : ∀ n ∈ ns, fitsWord (n + d.toInt) = true) :
    Spans (low + d) (high + d) ((· + d.toInt) '' ns) := by
  have hmono : Monotone fun n : Int => n + d.toInt := by
    intro n m hnm
    exact Int.add_le_add_right hnm _
  constructor
  · rw [toInt_add_of_fitsWord (hfits _ h.1.1)]
    exact hmono.map_isLeast h.1
  · rw [toInt_add_of_fitsWord (hfits _ h.2.1)]
    exact hmono.map_isGreatest h.2

end Spans

/-- Whether a box is the exact bounding box of some blocks. -/
structure Bounds (e : Extent) (vs : Set Block) : Prop where
  x : Spans e.lower.x e.upper.x (Vec3.x '' vs)
  y : Spans e.lower.y e.upper.y (Vec3.y '' vs)
  z : Spans e.lower.z e.upper.z (Vec3.z '' vs)

namespace Bounds

variable {e : Extent} {vs : Set Block}

theorem single (w : Words) : Bounds (Extent.single w) {w.toBlock} := by
  constructor <;> rw [Set.image_singleton] <;> exact Spans.single _

theorem extend (h : Bounds e vs) (w : Words) :
    Bounds (e.extend w) (insert w.toBlock vs) := by
  constructor
  · rw [Set.image_insert_eq]
    exact h.x.insert w.x
  · rw [Set.image_insert_eq]
    exact h.y.insert w.y
  · rw [Set.image_insert_eq]
    exact h.z.insert w.z

theorem moveBy (h : Bounds e vs) {d : Words}
    (hfits : ∀ v ∈ vs, (v + d.toBlock).all fitsWord = true) :
    Bounds (e.moveBy d) ((· + d.toBlock) '' vs) := by
  simp only [Vec3.all, Bool.and_eq_true] at hfits
  constructor
  · have himage :
        Vec3.x '' ((· + d.toBlock) '' vs) = (· + d.x.toInt) '' (Vec3.x '' vs) := by
      simp only [Set.image_image]
      rfl
    rw [himage]
    apply h.x.moveBy
    rintro n ⟨v, hv, rfl⟩
    exact (hfits v hv).1.1
  · have himage :
        Vec3.y '' ((· + d.toBlock) '' vs) = (· + d.y.toInt) '' (Vec3.y '' vs) := by
      simp only [Set.image_image]
      rfl
    rw [himage]
    apply h.y.moveBy
    rintro n ⟨v, hv, rfl⟩
    exact (hfits v hv).1.2
  · have himage :
        Vec3.z '' ((· + d.toBlock) '' vs) = (· + d.z.toInt) '' (Vec3.z '' vs) := by
      simp only [Set.image_image]
      rfl
    rw [himage]
    apply h.z.moveBy
    rintro n ⟨v, hv, rfl⟩
    exact (hfits v hv).2

end Bounds

/-- Whether a box, if there is one, is the exact bounding box of some blocks. -/
def Around (e : Option Extent) (vs : Set Block) : Prop :=
  match e with
  | none => vs = ∅
  | some e => e.Bounds vs

theorem Around.eq_none_iff {e : Option Extent} {vs : Set Block} (h : Around e vs) :
    e = none ↔ vs = ∅ := by
  cases e with
  | none => exact iff_of_true rfl h
  | some e =>
      have hbounds : e.Bounds vs := h
      obtain ⟨v, hv, -⟩ := hbounds.x.1.1
      exact iff_of_false (Option.some_ne_none e) (Set.nonempty_of_mem hv).ne_empty

theorem Around.including {e : Option Extent} {vs : Set Block} (h : Around e vs)
    (w : Words) :
    Around (some (including e w)) (insert w.toBlock vs) := by
  cases e with
  | none =>
      obtain rfl : vs = ∅ := h
      rw [insert_empty_eq]
      exact Bounds.single w
  | some e => exact Bounds.extend h w

end Extent

/-! ## Accepted and pending vertices -/

namespace Hull

variable {α : Type}

def Task.vertex : Task → Block
  | .insert v => v
  | .restore v => v

theorem mem_vertices_iff {h : Hull α} {x : Block} :
    x ∈ h.vertices ↔ x ∈ h.accepted ∨ x ∈ h.pending :=
  List.mem_append

theorem mem_round_iff {h : Hull α} {v : Block} {task : Task} :
    task ∈ h.round v ↔ (∃ x ∈ h.pending, .insert x = task) ∨ task = .restore v := by
  simp [round]

theorem insert_mem_round_iff {h : Hull α} {v x : Block} :
    .insert x ∈ h.round v ↔ x ∈ h.pending := by
  simp [round]

theorem faces_restore (h : Hull α) (v : Block) : (h.restore v).faces = h.faces := by
  unfold restore
  split <;> rfl

theorem mem_accepted_restore_iff {h : Hull α} {v x : Block} :
    x ∈ (h.restore v).accepted ↔ x ∈ h.accepted ∨ x = v := by
  unfold restore
  split
  · rename_i hv
    rw [List.contains_iff_mem] at hv
    constructor
    · exact Or.inl
    · rintro (hx | rfl)
      · exact hx
      · exact hv
  · simp [record]

/-- Taking a vertex out of the accepted ones and counting it separately
changes nothing. -/
theorem mem_accepted_suspend_iff {h : Hull α} {v x : Block} (hv : v ∈ h.accepted) :
    x ∈ (h.suspend v).accepted ∨ x = v ↔ x ∈ h.accepted := by
  by_cases hx : x = v
  · simp [hx, hv]
  · simp [suspend, hx, List.mem_erase_of_ne hx]

def Carries (h : Hull α) (work : List Task) (x : Block) : Prop :=
  x ∈ h.vertices ∨ ∃ task ∈ work, task.vertex = x

theorem carries_restore_iff {h : Hull α} {v : Block} {work : List Task} {x : Block} :
    (h.restore v).Carries work x ↔ h.Carries (.restore v :: work) x := by
  simp only [Carries, mem_vertices_iff, mem_accepted_restore_iff, pending_restore,
    List.exists_mem_cons_iff, Task.vertex, eq_comm (a := v)]
  tauto

theorem carries_round_iff {h : Hull α} {v : Block} (hv : v ∈ h.accepted)
    {work : List Task} {x : Block} :
    (h.suspend v).Carries (h.round v ++ work) x ↔ h.Carries work x := by
  have hpending : (h.suspend v).pending = [] := rfl
  have hround : (∃ task ∈ h.round v ++ work, task.vertex = x) ↔
      (x ∈ h.pending ∨ x = v) ∨ ∃ task ∈ work, task.vertex = x := by
    constructor
    · rintro ⟨task, hmem, rfl⟩
      rcases List.mem_append.1 hmem with hround | hwork
      · rcases mem_round_iff.1 hround with ⟨y, hy, rfl⟩ | rfl
        · exact Or.inl (Or.inl hy)
        · exact Or.inl (Or.inr rfl)
      · exact Or.inr ⟨task, hwork, rfl⟩
    · rintro ((hx | rfl) | ⟨task, hmem, rfl⟩)
      · exact ⟨.insert x, List.mem_append_left _ (mem_round_iff.2 (Or.inl ⟨x, hx, rfl⟩)),
          rfl⟩
      · exact ⟨.restore x, List.mem_append_left _ (mem_round_iff.2 (Or.inr rfl)), rfl⟩
      · exact ⟨task, List.mem_append_right _ hmem, rfl⟩
  simp only [Carries, mem_vertices_iff, hround, hpending, List.not_mem_nil, or_false,
    ← mem_accepted_suspend_iff hv]
  tauto

/-- A vertex that is pending or left to be inserted. -/
def Waits (h : Hull α) (work : List Task) (x : Block) : Prop :=
  x ∈ h.pending ∨ .insert x ∈ work

theorem waits_insert (h : Hull α) (v : Block) (work : List Task) :
    h.Waits (.insert v :: work) v :=
  Or.inr List.mem_cons_self

theorem waits_of_restore {h : Hull α} {v x : Block} {work : List Task}
    (hx : (h.restore v).Waits work x) : h.Waits (.restore v :: work) x := by
  rw [Waits, pending_restore] at hx
  exact hx.imp_right (List.mem_cons_of_mem _)

theorem waits_of_round {h : Hull α} {v x : Block} {work : List Task}
    (hx : (h.suspend v).Waits (h.round v ++ work) x) : h.Waits work x := by
  rcases hx with hx | hx
  · exact absurd hx List.not_mem_nil
  · rcases List.mem_append.1 hx with hround | hwork
    · exact Or.inl (insert_mem_round_iff.1 hround)
    · exact Or.inr hwork

section Runs

variable [Scalar α] {sees : Triangle α → Vec3 α → Bool}

namespace Insertion

variable {h next : Hull α} {v : Block} {outcome : Outcome}

theorem mem_accepted_of_grown (hstep : Insertion sees h v (.ok .grown) next) :
    v ∈ next.accepted := by
  cases hstep
  simp [adopt, record, measure]

theorem mem_vertices_iff (hstep : Insertion sees h v (.ok outcome) next) {x : Block} :
    x ∈ next.vertices ↔ x ∈ h.vertices ∨ x = v := by
  cases hstep with
  | known hv =>
      constructor
      · exact Or.inl
      · rintro (hx | rfl)
        · exact hx
        · exact hv
  | queued hv => simp [Hull.mem_vertices_iff, enqueue, forget, or_assoc]
  | started w hv | flattened w a b hv | grown w hv =>
      simp [Hull.mem_vertices_iff, adopt, record, measure, forget, or_assoc, or_comm]

end Insertion

theorem carries_of_insertion {h next : Hull α} {v : Block} {outcome : Outcome}
    (hstep : Insertion sees h v (.ok outcome) next) {work : List Task} {x : Block} :
    next.Carries work x ↔ h.Carries (.insert v :: work) x := by
  simp only [Carries, hstep.mem_vertices_iff, List.exists_mem_cons_iff, Task.vertex,
    eq_comm (a := v)]
  tauto

/-- A replay ends with the vertices that it started from and those that it was to
insert or to put back. -/
theorem replay_vertices {h last : Hull α} {work : List Task}
    (hend : h.replay sees work = (.ok (), last)) {x : Block} :
    x ∈ last.vertices ↔ h.Carries work x := by
  have hkept : last.Carries [] x ↔ h.Carries work x := by
    refine replay_induction (P := fun h' work' => h'.Carries work' x ↔ h.Carries work x)
      ?_ ?_ ?_ Iff.rfl hend
    · intro h' v work' hold
      exact carries_restore_iff.trans hold
    · intro h' v work' outcome next hold hstep _
      exact (carries_of_insertion hstep).trans hold
    · intro h' v work' next hold hstep _
      exact (carries_round_iff hstep.mem_accepted_of_grown).trans
        ((carries_of_insertion hstep).trans hold)
  rw [← hkept]
  simp [Carries]

/-- A vertex that is added joins the vertices, and no other one comes or goes. -/
theorem addBlock_vertices {h last : Hull α} {v : Block} {new : Bool}
    (hadd : h.addBlock sees v = (.ok new, last)) {x : Block} :
    x ∈ last.vertices ↔ x ∈ h.vertices ∨ x = v := by
  obtain ⟨outcome, next, hstep, -, ⟨-, rfl⟩ | ⟨hrecalls, final, hreplay, rfl⟩⟩ :=
    addBlock_cases hadd
  · exact hstep.mem_vertices_iff
  · obtain ⟨rfl, -⟩ := hrecalls
    have hround := replay_vertices hreplay (x := x)
    rw [← List.append_nil (next.round v), carries_round_iff hstep.mem_accepted_of_grown,
      carries_of_insertion hstep] at hround
    have hforget : x ∈ final.forget.vertices ↔ x ∈ final.vertices := Iff.rfl
    rw [hforget, hround]
    simp [Carries, Task.vertex, eq_comm]

/-! ### Faults -/

theorem Insertion.mem_pending {h next : Hull α} {v x : Block} {outcome : Outcome}
    (hstep : Insertion sees h v (.ok outcome) next) (hx : x ∈ next.pending) :
    x ∈ h.pending ∨ x = v := by
  cases hstep with
  | known | started | flattened | grown => exact Or.inl hx
  | queued =>
      rcases List.mem_append.1 hx with hold | hnew
      · exact Or.inl hold
      · exact Or.inr (List.mem_singleton.1 hnew)

theorem Insertion.waits {h next : Hull α} {v x : Block} {outcome : Outcome}
    (hstep : Insertion sees h v (.ok outcome) next) {work : List Task}
    (hx : next.Waits work x) :
    h.Waits (.insert v :: work) x := by
  rcases hx with hx | hx
  · rcases hstep.mem_pending hx with hold | rfl
    · exact Or.inl hold
    · exact waits_insert h x work
  · exact Or.inr (List.mem_cons_of_mem _ hx)

/-- If words hold all vertices that are pending or left to be inserted, a
replay does not fail. -/
theorem replay_ok {h : Hull α} {work : List Task}
    (hfit : ∀ x, h.Waits work x → (Block.toWords? x).isSome) :
    (h.replay sees work).1 = .ok () := by
  fun_induction replay sees h work with
  | case1 h => rfl
  | case2 h v work ih => exact ih fun x hx => hfit x (waits_of_restore hx)
  | case3 h v work fault next hinserted =>
      have hstep := insertion sees h v
      rw [hinserted] at hstep
      cases hstep with
      | refused last hv hword =>
          have hsome := hfit v (waits_insert h v work)
          rw [hword] at hsome
          exact absurd hsome (by simp)
  | case4 h v work outcome next hinserted hrecalls ih =>
      have hstep := insertion sees h v
      rw [hinserted] at hstep
      exact ih fun x hx => hfit x (hstep.waits (waits_of_round hx))
  | case5 h v work outcome next hinserted hrecalls ih =>
      have hstep := insertion sees h v
      rw [hinserted] at hstep
      exact ih fun x hx => hfit x (hstep.waits hx)

/-- Adding a vertex does not fail if words hold it and all pending ones. -/
theorem addBlock_ok {h : Hull α} {v : Block} (hv : (Block.toWords? v).isSome)
    (hfit : ∀ x ∈ h.pending, (Block.toWords? x).isSome) :
    ∃ new last, h.addBlock sees v = (.ok new, last) := by
  cases hadd : h.addBlock sees v with
  | mk result last =>
      cases result with
      | ok new => exact ⟨new, last, rfl⟩
      | error fault =>
          rcases addBlock_fault hadd with hstep | ⟨next, hstep, -, hreplay⟩
          · cases hstep with
            | refused last hmem hword =>
                rw [hword] at hv
                exact absurd hv (by simp)
          · have hround : ∀ x, (next.suspend v).Waits (next.round v ++ []) x →
                (Block.toWords? x).isSome := by
              intro x hx
              rcases hstep.mem_pending
                  ((waits_of_round hx).resolve_right List.not_mem_nil) with
                hold | rfl
              · exact hfit x hold
              · exact hv
            have hok : ((next.suspend v).replay sees (next.round v ++ [])).1 = .ok () :=
              replay_ok hround
            rw [List.append_nil, hreplay] at hok
            cases hok

end Runs

/-!
## The bounding box of a hull

The box of a hull is the exact bounding box of its accepted vertices.  A vertex
that a round takes out of the accepted ones stays in the box, since it is put back
at the end of the round.
-/

/-- The accepted vertices and those that are to be put back. -/
def counted (h : Hull α) (work : List Task) : Set Block :=
  {x | x ∈ h.accepted ∨ .restore x ∈ work}

/-- Whether the box is exact for the vertices that count. -/
def Boxed (h : Hull α) (work : List Task) : Prop :=
  Extent.Around h.extent (h.counted work)

theorem counted_nil (h : Hull α) : h.counted [] = {v | v ∈ h.accepted} := by
  ext x
  simp [counted]

theorem counted_restore (h : Hull α) (v : Block) (work : List Task) :
    (h.restore v).counted work = h.counted (.restore v :: work) := by
  ext x
  simp only [counted, Set.mem_ofPred_eq, mem_accepted_restore_iff, List.mem_cons,
    Task.restore.injEq, or_assoc]

theorem counted_suspend {h : Hull α} {v : Block} (hv : v ∈ h.accepted)
    (work : List Task) :
    (h.suspend v).counted (h.round v ++ work) = h.counted work := by
  ext x
  simp only [counted, Set.mem_ofPred_eq, List.mem_append, mem_round_iff,
    Task.restore.injEq, reduceCtorEq, and_false, exists_false, false_or,
    ← mem_accepted_suspend_iff hv, or_assoc]

theorem counted_insert (h : Hull α) (v : Block) (work : List Task) :
    h.counted (.insert v :: work) = h.counted work := by
  ext x
  simp [counted]

theorem counted_adopt (h : Hull α) (v : Block) (w : Words) (work : List Task) :
    (h.adopt v w).counted work = Insert.insert v (h.counted work) := by
  ext x
  simp [counted, adopt, record, measure, forget, or_assoc, or_left_comm]

theorem boxed_empty : Boxed (empty : Hull α) [] := by
  simp [Boxed, Extent.Around, empty, counted]

theorem Boxed.bounds {h : Hull α} (hbox : h.Boxed []) {e : Extent}
    (he : h.extent = some e) :
    e.Bounds {v | v ∈ h.accepted} := by
  rw [Boxed, he, counted_nil] at hbox
  exact hbox

theorem Boxed.extent_eq_none_iff {h : Hull α} (hbox : h.Boxed []) :
    h.extent = none ↔ h.accepted = [] := by
  rw [hbox.eq_none_iff, counted_nil, Set.eq_empty_iff_forall_notMem,
    List.eq_nil_iff_forall_not_mem]
  exact Iff.rfl

theorem boxed_restore {h : Hull α} {v : Block} {work : List Task}
    (hbox : h.Boxed (.restore v :: work)) : (h.restore v).Boxed work := by
  have hextent : (h.restore v).extent = h.extent := by
    unfold restore
    split <;> rfl
  rw [Boxed, hextent, counted_restore]
  exact hbox

theorem boxed_suspend {h : Hull α} {v : Block} (hv : v ∈ h.accepted) {work : List Task}
    (hbox : h.Boxed work) : (h.suspend v).Boxed (h.round v ++ work) := by
  rw [Boxed, counted_suspend hv]
  exact hbox

theorem boxed_moveBy [Scalar α] {h : Hull α} (hbox : h.Boxed []) {d : Words}
    (hfits : ∀ v ∈ h.accepted, (v + d.toBlock).all fitsWord = true) :
    (h.moveBy d).Boxed [] := by
  have hcounted : (h.moveBy d).counted [] = (· + d.toBlock) '' h.counted [] := by
    ext x
    simp [counted, moveBy]
  rw [Boxed, hcounted]
  cases hextent : h.extent with
  | none =>
      rw [Boxed, hextent] at hbox
      have hnone : h.counted [] = ∅ := hbox
      simp [moveBy, hextent, Extent.Around, hnone]
  | some e =>
      rw [Boxed, hextent] at hbox
      have hbounds : e.Bounds (h.counted []) := hbox
      simp only [moveBy, hextent, Option.map_some, Extent.Around]
      apply hbounds.moveBy
      intro v hv
      exact hfits v (by simpa [counted] using hv)

section Adding

variable [Scalar α] {sees : Triangle α → Vec3 α → Bool}

theorem Insertion.boxed {h next : Hull α} {v : Block} {outcome : Outcome}
    (hstep : Insertion sees h v (.ok outcome) next) {work : List Task}
    (hbox : h.Boxed (.insert v :: work)) : next.Boxed work := by
  rw [Boxed, counted_insert] at hbox
  cases hstep with
  | known | queued => exact hbox
  | started w hv hword | flattened w a b hv hword | grown w hv hword =>
      obtain rfl := Block.toWords?_eq_some_iff.1 hword
      have hincluding := hbox.including w
      rw [← counted_adopt h w.toBlock w] at hincluding
      exact hincluding

theorem replay_boxed {h last : Hull α} {work : List Task} (hbox : h.Boxed work)
    (hend : h.replay sees work = (.ok (), last)) : last.Boxed [] := by
  refine replay_induction (P := Boxed) ?_ ?_ ?_ hbox hend
  · intro h' v work' hold
    exact boxed_restore hold
  · intro h' v work' outcome next hold hstep _
    exact hstep.boxed hold
  · intro h' v work' next hold hstep _
    exact boxed_suspend hstep.mem_accepted_of_grown (hstep.boxed hold)

/-- Adding a vertex keeps the box exact, whatever the triangles answer. -/
theorem addBlock_boxed {h last : Hull α} {v : Block} {new : Bool} (hbox : h.Boxed [])
    (hadd : h.addBlock sees v = (.ok new, last)) : last.Boxed [] := by
  obtain ⟨outcome, next, hstep, -, ⟨-, rfl⟩ | ⟨hrecalls, final, hreplay, rfl⟩⟩ :=
    addBlock_cases hadd
  · exact hstep.boxed (by simpa [Boxed, counted] using hbox)
  · obtain ⟨rfl, -⟩ := hrecalls
    have hnext : next.Boxed [] := hstep.boxed (by simpa [Boxed, counted] using hbox)
    have hround := boxed_suspend hstep.mem_accepted_of_grown hnext
    rw [List.append_nil] at hround
    have hfinal : final.Boxed [] := replay_boxed hround hreplay
    exact hfinal

end Adding
end Hull
end LatticeHull
