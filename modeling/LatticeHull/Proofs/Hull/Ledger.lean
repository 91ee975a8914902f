import LatticeHull.Proofs.Binary.Reading
import LatticeHull.Proofs.Hull.Histories

/-!
# The books of a hull

Beside its mesh a hull keeps the bounding box and the wrapped sum of its accepted
vertices.  A vertex that a round takes out of the accepted ones stays in both, since it
is put back; so while a replay runs, the books are about the accepted vertices and those
that are to be put back.

With fewer than three accepted vertices there is neither a mesh nor a pending vertex.
With three, the mesh consists of two triangles back to back.  A move rounds the corners
of a mesh, but not as long as they stay below `2 ^ 53`: what a hull is moved by is the
floor of a machine number.
-/

namespace LatticeHull

namespace Vec3

def Representable (b : Block) : Prop :=
  b.x.natAbs < 2 ^ 53 ∧ b.y.natAbs < 2 ^ 53 ∧ b.z.natAbs < 2 ^ 53

theorem representable_of_inRange {b : Block} (hb : b.InRange) : b.Representable := by
  obtain ⟨hx, hy, hz⟩ := hb
  exact ⟨by omega, by omega, by omega⟩

theorem Representable.all_fitsWord {b : Block} (hb : b.Representable) :
    b.all fitsWord = true := by
  obtain ⟨hx, hy, hz⟩ := hb
  simp only [Vec3.all, Bool.and_eq_true, fitsWord_iff]
  exact ⟨⟨by omega, by omega⟩, by omega⟩

/-- A corner that is moved by the floor of a point is not rounded. -/
theorem ofBlock_add_floor {b : Block} {p : Point} (hb : b.Representable)
    (hsum : (b + p.map Binary.floor).Representable) :
    (ofBlock b + ofBlock (p.map Binary.floor) : Point) =
      ofBlock (b + p.map Binary.floor) :=
  Vec3.ext (Binary.ofInt_add_floor hb.1 hsum.1) (Binary.ofInt_add_floor hb.2.1 hsum.2.1)
    (Binary.ofInt_add_floor hb.2.2 hsum.2.2)

end Vec3

theorem Block.exists_floor_of_ofDatum {d : Datum} {b : Block}
    (hread : Block.ofDatum d = .ok b) :
    ∃ p : Point, b = p.map Binary.floor := by
  have hbind : Block.ofDatum d = Point.ofDatum d >>= Block.ofPoint := rfl
  rw [hbind] at hread
  cases hpoint : Point.ofDatum d with
  | error fault =>
      rw [hpoint] at hread
      cases hread
  | ok p =>
      rw [hpoint] at hread
      change Block.ofPoint p = .ok b at hread
      rw [Block.ofPoint] at hread
      split at hread
      · cases hread
        exact ⟨p, rfl⟩
      · cases hread

namespace Hull

variable {α : Type}

/-! ### The wrapped sum -/

def wrappedSum (vs : List Block) : Words :=
  ⟨Int64.ofInt (vs.map Vec3.x).sum, Int64.ofInt (vs.map Vec3.y).sum,
    Int64.ofInt (vs.map Vec3.z).sum⟩

theorem wrappedSum_perm {vs us : List Block} (hperm : vs.Perm us) :
    wrappedSum vs = wrappedSum us := by
  rw [wrappedSum, wrappedSum, (hperm.map Vec3.x).sum_eq, (hperm.map Vec3.y).sum_eq,
    (hperm.map Vec3.z).sum_eq]

theorem wrappedSum_cons {v : Block} {w : Words} (hword : Block.toWords? v = some w)
    (vs : List Block) : wrappedSum (v :: vs) = wrappedSum vs + w := by
  obtain rfl := Block.toWords?_eq_some_iff.1 hword
  have hcoordinate :
      ∀ (a : Int64) (n : Int), Int64.ofInt (a.toInt + n) = Int64.ofInt n + a := by
    intro a n
    rw [Int64.ofInt_add, Int64.ofInt_toInt, Int64.add_comm]
  simp only [wrappedSum, List.map_cons, List.sum_cons]
  exact Vec3.ext (hcoordinate _ _) (hcoordinate _ _) (hcoordinate _ _)

theorem wrappedSum_map_add (vs : List Block) (d : Words) :
    wrappedSum (vs.map (· + d.toBlock)) =
      wrappedSum vs + d.map (· * Int64.ofNat vs.length) := by
  have hcoordinate : ∀ (f : Block → Int) (a : Int64),
      Int64.ofInt (vs.map fun v => f v + a.toInt).sum =
        Int64.ofInt (vs.map f).sum + a * Int64.ofNat vs.length := by
    intro f a
    rw [List.sum_map_add, List.map_const', List.sum_replicate, nsmul_eq_mul,
      Int64.ofInt_add, Int64.ofInt_mul, Int64.ofInt_toInt, Int64.ofInt_eq_ofNat,
      Int64.mul_comm]
  simp only [wrappedSum, List.map_map]
  exact Vec3.ext (hcoordinate Vec3.x d.x) (hcoordinate Vec3.y d.y)
    (hcoordinate Vec3.z d.z)

def owed : List Task → List Block
  | [] => []
  | .insert _ :: work => owed work
  | .restore v :: work => v :: owed work

theorem owed_round (h : Hull α) (v : Block) (work : List Task) :
    owed (h.round v ++ work) = v :: owed work := by
  have hinserts : ∀ (vs : List Block) (rest : List Task),
      owed (vs.map .insert ++ rest) = owed rest := by
    intro vs rest
    induction vs with
    | nil => rfl
    | cons u vs ih => exact ih
  rw [round, List.append_assoc, hinserts]
  rfl

def Tallied (h : Hull α) (work : List Task) : Prop :=
  h.total = wrappedSum (h.accepted ++ owed work)

theorem Tallied.restore {h : Hull α} {v : Block} {work : List Task} (hv : v ∉ h.accepted)
    (htally : h.Tallied (.restore v :: work)) : (h.restore v).Tallied work := by
  have hperm :
      (h.accepted ++ v :: owed work).Perm ((h.accepted ++ [v]) ++ owed work) := by
    rw [List.append_assoc]
    rfl
  rw [restore_eq_record hv, Tallied]
  exact htally.trans (wrappedSum_perm hperm)

theorem Tallied.suspend {h : Hull α} {v : Block} {work : List Task} (hv : v ∈ h.accepted)
    (htally : h.Tallied work) : (h.suspend v).Tallied (h.round v ++ work) := by
  have hperm : (h.accepted ++ owed work).Perm (h.accepted.erase v ++ v :: owed work) :=
    ((List.perm_cons_erase hv).append_right _).trans List.perm_middle.symm
  rw [Tallied, owed_round]
  exact htally.trans (wrappedSum_perm hperm)

section Adding

variable [Scalar α] {sees : Triangle α → Vec3 α → Bool} {h next last : Hull α}
  {v : Block}

theorem Insertion.tallied {outcome : Outcome}
    (hstep : Insertion sees h v (.ok outcome) next) {work : List Task}
    (htally : h.Tallied work) : next.Tallied work := by
  cases hstep with
  | known | queued => exact htally
  | started w hv hword | flattened w a b hv hword | grown w hv hword =>
      have hperm :
          ((h.accepted ++ [v]) ++ owed work).Perm (v :: (h.accepted ++ owed work)) := by
        rw [List.append_assoc]
        exact List.perm_middle
      have hsum := (wrappedSum_perm hperm).trans (wrappedSum_cons hword _)
      rw [← htally] at hsum
      exact hsum.symm

theorem Replaying.tallied {front : List Block} {u : Block} {work : List Task}
    (hrun : Replaying front u h work) (htally : h.Tallied work)
    (hend : h.replay sees work = (.ok (), last)) : last.Tallied [] := by
  refine (replay_induction (P := fun h' work' => Replaying front u h' work' ∧
    h'.Tallied work')
    ?_ ?_ ?_ ⟨hrun, htally⟩ hend).2
  · intro h' x work' hold
    exact ⟨hold.1.restore, hold.2.restore hold.1.not_mem_accepted⟩
  · intro h' x work' outcome next' hold hstep _
    exact ⟨hold.1.insertion hstep, hstep.tallied hold.2⟩
  · intro h' x work' next' hold hstep _
    exact ⟨hold.1.round hstep,
      Tallied.suspend hstep.mem_accepted_of_grown (hstep.tallied hold.2)⟩

theorem addBlock_tallied {new : Bool} (hnodup : h.vertices.Nodup) (htally : h.Tallied [])
    (hadd : h.addBlock sees v = (.ok new, last)) : last.Tallied [] := by
  obtain ⟨outcome, next, hstep, -, ⟨-, rfl⟩ | ⟨⟨rfl, -⟩, final, hreplay, rfl⟩⟩ :=
    addBlock_cases hadd
  · exact hstep.tallied htally
  · have hnext : next.Tallied [] := hstep.tallied htally
    have hround := hnext.suspend hstep.mem_accepted_of_grown
    rw [List.append_nil] at hround
    have hfinal : final.Tallied [] :=
      (hstep.replaying hnodup (hstep.changed_iff.1 rfl)).tallied hround hreplay
    exact hfinal

/-! ### The first three vertices -/

/-- With fewer than three accepted vertices there is no mesh and nothing is pending. -/
def Unmeshed (h : Hull α) : Prop :=
  h.accepted.length < 3 → h.faces = [] ∧ h.pending = []

/-- With three accepted vertices the mesh consists of two triangles back to back. -/
def FlatStart (h : Hull α) : Prop :=
  ∀ a b c, h.accepted = [a, b, c] →
    h.faces = Mesh.flat (Vec3.ofBlock a) (Vec3.ofBlock b) (Vec3.ofBlock c)

theorem Insertion.unmeshed {outcome : Outcome}
    (hstep : Insertion sees h v (.ok outcome) next) (hold : h.Unmeshed) :
    next.Unmeshed := by
  intro hfew
  cases hstep with
  | known => exact hold hfew
  | queued hv hlength => exact absurd hlength hfew.ne
  | started w hv hword hlength => exact hold (by omega)
  | flattened w a b hv hword hstart =>
    simp [adopt, record, measure, forget, hstart] at hfew
  | grown w hv hword hlength =>
      simp only [adopt, record, measure, forget, List.length_append] at hfew
      omega

theorem Insertion.flatStart {outcome : Outcome}
    (hstep : Insertion sees h v (.ok outcome) next) (hunmeshed : h.Unmeshed)
    (hold : h.FlatStart) : next.FlatStart := by
  intro a b c haccepted
  have hlength := congrArg List.length haccepted
  cases hstep with
  | known | queued => exact hold a b c haccepted
  | started w hv hword hfew =>
      simp only [adopt, record, measure, forget, List.length_append, List.length_cons,
        List.length_nil] at hlength
      omega
  | flattened w a' b' hv hword hstart =>
      have hnone : h.faces = [] := (hunmeshed (by simp [hstart])).1
      simp only [adopt, record, measure, forget, hstart, List.cons_append,
        List.nil_append, List.cons.injEq, and_true] at haccepted
      obtain ⟨rfl, rfl, rfl⟩ := haccepted
      simp [hnone]
  | grown w hv hword henough =>
      simp only [adopt, record, measure, forget, List.length_append, List.length_cons,
        List.length_nil] at hlength
      omega

/-- After a replay more than three vertices are accepted. -/
theorem Insertion.length_of_replay {final : Hull α}
    (hstep : Insertion sees h v (.ok .grown) next) (hnodup : h.vertices.Nodup)
    (hreplay : (next.suspend v).replay sees (next.round v) = (.ok (), final)) :
    3 < final.accepted.length := by
  have hv : v ∉ h.vertices := hstep.changed_iff.1 rfl
  have hrun := ((hstep.replaying hnodup hv).replay hreplay).1
  have hlast := hrun.getLast_accepted
  have henough : 3 ≤ h.accepted.length := by
    cases hstep with
    | grown w hv hword hlength => exact hlength
  have hlt : h.accepted.length < final.accepted.length := by
    refine lt_of_le_of_ne hrun.front.length_le fun heq => hv ?_
    have hsame := hrun.front.eq_of_length heq
    rw [← hsame] at hlast
    exact List.mem_append_left _ (List.mem_of_getLast? hlast)
  omega

theorem addBlock_unmeshed {new : Bool} (hnodup : h.vertices.Nodup) (hold : h.Unmeshed)
    (hadd : h.addBlock sees v = (.ok new, last)) : last.Unmeshed := by
  obtain ⟨outcome, next, hstep, -, ⟨-, rfl⟩ | ⟨⟨rfl, -⟩, final, hreplay, rfl⟩⟩ :=
    addBlock_cases hadd
  · exact hstep.unmeshed hold
  · intro hfew
    have hlength := hstep.length_of_replay hnodup hreplay
    have hfew' : final.accepted.length < 3 := hfew
    omega

theorem addBlock_flatStart {new : Bool} (hnodup : h.vertices.Nodup)
    (hunmeshed : h.Unmeshed) (hold : h.FlatStart)
    (hadd : h.addBlock sees v = (.ok new, last)) : last.FlatStart := by
  obtain ⟨outcome, next, hstep, -, ⟨-, rfl⟩ | ⟨⟨rfl, -⟩, final, hreplay, rfl⟩⟩ :=
    addBlock_cases hadd
  · exact hstep.flatStart hunmeshed hold
  · intro a b c haccepted
    have hlength := hstep.length_of_replay hnodup hreplay
    have haccepted' : final.accepted = [a, b, c] := haccepted
    simp [haccepted'] at hlength

end Adding

/-! ### Moves -/

theorem moveBy_tallied [Scalar α] {h : Hull α} (htally : h.Tallied []) (d : Words) :
    (h.moveBy d).Tallied [] := by
  have htotal : h.total = wrappedSum h.accepted := by
    rw [Tallied, owed, List.append_nil] at htally
    exact htally
  have hsum := wrappedSum_map_add h.accepted d
  rw [← htotal] at hsum
  rw [Tallied, owed, List.append_nil]
  exact hsum.symm

theorem moveBy_unmeshed [Scalar α] {h : Hull α} (hold : h.Unmeshed) (d : Words) :
    (h.moveBy d).Unmeshed := by
  intro hfew
  have hlength : h.accepted.length < 3 := by simpa [moveBy] using hfew
  obtain ⟨hfaces, hpending⟩ := hold hlength
  exact ⟨by simp [moveBy, Mesh.moveBy, hfaces], by simp [moveBy, hpending]⟩

theorem moveBy_flatStart {h : Hull Float} (hold : h.FlatStart) {d : Words} {p : Point}
    (hd : d.toBlock = p.map Binary.floor) (hrange : ∀ v ∈ h.vertices, v.Representable)
    (hmoved : ∀ v ∈ (h.moveBy d).vertices, v.Representable) :
    (h.moveBy d).FlatStart := by
  intro a' b' c' haccepted
  have hmap : h.accepted.map (· + d.toBlock) = [a', b', c'] := haccepted
  obtain ⟨a, b, c, hstart⟩ : ∃ a b c, h.accepted = [a, b, c] := by
    rw [← List.length_eq_three]
    simpa using congrArg List.length hmap
  rw [hstart] at hmap
  simp only [List.map_cons, List.map_nil, List.cons.injEq, and_true] at hmap
  obtain ⟨rfl, rfl, rfl⟩ := hmap
  have hcorner : ∀ v ∈ h.accepted,
      (Vec3.ofBlock v + Vec3.ofBlock d.toBlock : Point) =
        Vec3.ofBlock (v + d.toBlock) := by
    intro v hv
    have hmem : v ∈ h.vertices := List.mem_append_left _ hv
    have hsum := hmoved _ (mem_vertices_moveBy_iff.2 ⟨v, hmem, rfl⟩)
    rw [hd] at hsum ⊢
    exact Vec3.ofBlock_add_floor (hrange v hmem) hsum
  rw [← hcorner a (by simp [hstart]), ← hcorner b (by simp [hstart]),
    ← hcorner c (by simp [hstart])]
  have hfaces : (h.moveBy d).faces = h.faces.moveBy (Vec3.ofBlock d.toBlock) := rfl
  rw [hfaces, hold a b c hstart]
  rfl

/-! ### The books of every hull -/

/-- What is known of the books of a hull between two calls. -/
structure Booked (h : Hull α) : Prop where
  nodup : h.vertices.Nodup
  boxed : h.Boxed []
  tallied : h.Tallied []
  unmeshed : h.Unmeshed

theorem booked_empty : Booked (empty : Hull α) where
  nodup := List.nodup_nil
  boxed := boxed_empty
  tallied := rfl
  unmeshed _ := ⟨rfl, rfl⟩

theorem Booked.addBlock [Scalar α] {sees : Triangle α → Vec3 α → Bool} {h last : Hull α}
    {v : Block} {new : Bool} (hbooked : h.Booked)
    (hadd : h.addBlock sees v = (.ok new, last)) :
    last.Booked where
  nodup := addBlock_nodup hbooked.nodup hadd
  boxed := addBlock_boxed hbooked.boxed hadd
  tallied := addBlock_tallied hbooked.nodup hbooked.tallied hadd
  unmeshed := addBlock_unmeshed hbooked.nodup hbooked.unmeshed hadd

theorem Booked.moveBy [Scalar α] {h : Hull α} (hbooked : h.Booked) {d : Words}
    (hfits : ∀ v ∈ (h.moveBy d).vertices, v.all fitsWord = true) :
    (h.moveBy d).Booked where
  nodup := nodup_vertices_moveBy hbooked.nodup d
  boxed := by
    refine boxed_moveBy hbooked.boxed fun v hv => hfits _ ?_
    exact mem_vertices_moveBy_iff.2 ⟨v, List.mem_append_left _ hv, rfl⟩
  tallied := moveBy_tallied hbooked.tallied d
  unmeshed := moveBy_unmeshed hbooked.unmeshed d

theorem Built.booked {h : Hull Float}
    (hbuilt : Built (fun v => v.all fitsWord = true) h) :
    h.Booked := by
  refine (Built.induction (Q := Booked) booked_empty ?_ ?_ hbuilt).1
  · intro h next sees v new hbooked hadd _
    exact hbooked.addBlock hadd
  · intro h d c w hbooked _ _ _ hfits
    exact hbooked.moveBy hfits

/-- The corners of a flat start stay exact as long as they are small
enough to be represented. -/
theorem Built.flatStart {h : Hull Float} (hbuilt : Built Vec3.Representable h) :
    h.FlatStart := by
  have hkept : h.Booked ∧ h.FlatStart := by
    refine (Built.induction (Q := fun h => h.Booked ∧ h.FlatStart) ?_ ?_ ?_ hbuilt).1
    · exact ⟨booked_empty, fun a b c hnil => absurd hnil (by simp [empty])⟩
    · intro h next sees v new hold hadd _
      exact ⟨hold.1.addBlock hadd,
        addBlock_flatStart hold.1.nodup hold.1.unmeshed hold.2 hadd⟩
    · intro h d c w hold hread hword hrange hmoved
      obtain ⟨p, hfloor⟩ := Block.exists_floor_of_ofDatum hread
      have hchange : w.toBlock = p.map Binary.floor :=
        (Block.toWords?_eq_some_iff.1 hword).trans hfloor
      exact ⟨hold.1.moveBy fun v hv => (hmoved v hv).all_fitsWord,
        moveBy_flatStart hold.2 hchange hrange hmoved⟩
  exact hkept.2

/-- The box and the sum of a hull are those of its accepted vertices, without the
pending ones.  Up to two accepted vertices there is nothing else; three make up two
triangles back to back. -/
theorem Built.books {h : Hull Float}
    (hbuilt : Built (fun v => v.all fitsWord = true) h) :
    (h.extent = none ↔ h.accepted = []) ∧
      (∀ e, h.extent = some e → e.Bounds {v | v ∈ h.accepted}) ∧
      h.total = wrappedSum h.accepted ∧
      (h.accepted.length < 3 → h.faces = [] ∧ h.pending = []) ∧
      (Built Vec3.Representable h → ∀ a b c, h.accepted = [a, b, c] →
        h.faces = [⟨Vec3.ofBlock a, Vec3.ofBlock b, Vec3.ofBlock c⟩,
          ⟨Vec3.ofBlock a, Vec3.ofBlock c, Vec3.ofBlock b⟩]) := by
  have hbooked := hbuilt.booked
  have htotal : h.total = wrappedSum (h.accepted ++ owed []) := hbooked.tallied
  rw [owed, List.append_nil] at htotal
  exact ⟨hbooked.boxed.extent_eq_none_iff, fun e => hbooked.boxed.bounds, htotal,
    hbooked.unmeshed, fun hsmall => hsmall.flatStart⟩

/-- Three vertices and a fourth one in their plane, which lies outside their box. -/
def kite : List Block :=
  [⟨0, 0, 0⟩, ⟨4, 0, 0⟩, ⟨0, 4, 0⟩, ⟨9, 9, 0⟩]

theorem books_kite :
    Built (fun v => v.all fitsWord = true) (empty.addBlocks kite).machine ∧
      (empty.addBlocks kite).machine.pending = [⟨9, 9, 0⟩] ∧
      (empty.addBlocks kite).machine.extent ≠ none ∧
      (∀ e, (empty.addBlocks kite).machine.extent = some e →
        e.Bounds {v | v ∈ [⟨0, 0, 0⟩, ⟨4, 0, 0⟩, ⟨0, 4, 0⟩]}) ∧
      (empty.addBlocks kite).machine.total = ⟨4, 4, 0⟩ ∧
      (empty.addBlocks kite).machine.faces =
        Mesh.flat (Vec3.ofBlock ⟨0, 0, 0⟩) (Vec3.ofBlock ⟨4, 0, 0⟩)
          (Vec3.ofBlock ⟨0, 4, 0⟩) := by
  have hfits : Built (fun v => v.all fitsWord = true) (empty.addBlocks kite).machine :=
    built_blocks (fun v hv => (Vec3.representable_of_inRange hv).all_fitsWord)
      (by decide)
  have hsmall : Built Vec3.Representable (empty.addBlocks kite).machine :=
    built_blocks (fun v hv => Vec3.representable_of_inRange hv) (by decide)
  have haccepted : (empty.addBlocks kite).machine.accepted =
      [⟨0, 0, 0⟩, ⟨4, 0, 0⟩, ⟨0, 4, 0⟩] := by decide
  obtain ⟨hnone, hbounds, htotal, -, hflat⟩ := hfits.books
  rw [haccepted] at hnone hbounds htotal
  exact ⟨hfits, by decide, by simp [hnone], hbounds, by rw [htotal]; decide,
    hflat hsmall _ _ _ haccepted⟩

end Hull
end LatticeHull
