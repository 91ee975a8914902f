import LatticeHull.Fault
import LatticeHull.Mesh
import LatticeHull.Vec3

/-!
# Convex hulls of blocks

A hull is built from vertices that arrive one at a time.  Vertices are accepted, or kept
pending while they cannot be told apart from the flat start of the mesh.  Beside the
mesh, a hull keeps the bounding box and the sum of its accepted vertices; both are held
in words, so the sum wraps around.

A hull also remembers which triangle rejected the last point it was asked about.  That
triangle is tried first the next time, which may save work and never changes an answer.
-/

namespace LatticeHull

/-- A convex hull of blocks whose mesh is made of scalars of one kind. -/
structure Hull (α : Type) where
  /-- The accepted vertices, oldest first. -/
  accepted : List Block
  /-- The vertices that wait for the mesh to become solid, oldest first. -/
  pending : List Block
  /-- The triangles of the mesh. -/
  faces : Mesh α
  /-- The bounding box of the accepted vertices. -/
  extent : Option Extent
  /-- The sum of the accepted vertices. -/
  total : Words
  /-- The index of the triangle that rejected the last point. -/
  last : Option Nat
  deriving DecidableEq, Repr

namespace Hull

variable {α : Type}

def empty : Hull α where
  accepted := []
  pending := []
  faces := []
  extent := none
  total := ⟨0, 0, 0⟩
  last := none

/-- All vertices, the accepted ones first. -/
def vertices (h : Hull α) : List Block :=
  h.accepted ++ h.pending

def knows (h : Hull α) (v : Block) : Bool :=
  h.accepted.contains v || h.pending.contains v

theorem knows_iff {h : Hull α} {v : Block} : h.knows v = true ↔ v ∈ h.vertices := by
  simp [knows, vertices]

def isDefined (h : Hull α) : Bool :=
  !h.faces.isEmpty

/-- The hull without its memory of the last rejection. -/
def forget (h : Hull α) : Hull α :=
  { h with last := none }

/-- The triangle that rejects a point, if any does.  The one that rejected the last point
is tried first, then all in order. -/
def rejecting (sees : Triangle α → Vec3 α → Bool) (h : Hull α) (q : Vec3 α) :
    Option Nat :=
  (h.last.filter fun i => h.faces[i]?.any (sees · q)) <|> h.faces.findIdx? (sees · q)

/-- Whether no triangle sees a point, and the hull that remembers which one does. -/
def scan (sees : Triangle α → Vec3 α → Bool) (h : Hull α) (q : Vec3 α) : Bool × Hull α :=
  match h.rejecting sees q with
  | some i => (false, { h with last := some i })
  | none => (true, h)

/-!
## Asking a hull and moving it

A point is inside a hull if the bounding box does not exclude it and no triangle sees it.
Without a mesh no point is inside.  Moving a hull moves its vertices, its mesh and its
box alike, and adds the displacement to the sum once for each accepted vertex.
-/

def containsPoint [Scalar α] (sees : Triangle α → Vec3 α → Bool) (h : Hull α)
    (q : Vec3 α) :
    Bool × Hull α :=
  if h.faces.isEmpty || h.extent.any (·.excludes q) then (false, h) else h.scan sees q

def moveBy [Scalar α] (h : Hull α) (d : Words) : Hull α where
  accepted := h.accepted.map (· + d.toBlock)
  pending := h.pending.map (· + d.toBlock)
  faces := h.faces.moveBy (Vec3.ofBlock d.toBlock)
  extent := h.extent.map (·.moveBy d)
  total := h.total + d.map (· * Int64.ofNat h.accepted.length)
  last := none

/-- The mean of the accepted vertices, undefined if there is none. -/
def center (h : Hull α) : Point :=
  if h.accepted.isEmpty then
    ⟨Coordinate.undefined, Coordinate.undefined, Coordinate.undefined⟩
  else h.total.map (·.toFloat / Float.ofNat h.accepted.length)

def text (h : Hull α) : String :=
  "ConvexPolyhedralRegion(" ++ toString h.accepted.length ++ " vertices, " ++
    toString h.faces.length ++ " triangles, " ++ toString h.pending.length ++ " pending)"

/-!
## Inserting one vertex

The first three vertices make a flat mesh of two triangles back to back.  A fourth vertex
in their plane sees neither of them and is put aside.  Every other vertex is accepted,
and from the fourth on it grows the mesh.

A vertex that does not fit into words is refused only after it has been written into the
list of accepted vertices, and it stays there.
-/

inductive Outcome where
  /-- The vertex was there already. -/
  | known
  /-- The vertex is pending. -/
  | queued
  /-- The vertex was accepted without growing the mesh. -/
  | accepted
  /-- The vertex was accepted and the mesh grew by it. -/
  | grown
  deriving DecidableEq, Repr

def Outcome.changed (o : Outcome) : Bool :=
  o ≠ .known

def enqueue (h : Hull α) (v : Block) : Hull α :=
  { h with pending := h.pending ++ [v] }

/-- Writes a vertex into the list of accepted vertices. -/
def record (h : Hull α) (v : Block) : Hull α :=
  { h with accepted := h.accepted ++ [v] }

/-- Takes a vertex into the bounding box and the sum. -/
def measure (h : Hull α) (w : Words) : Hull α :=
  { h with total := h.total + w, extent := some (Extent.including h.extent w) }

/-- Brings the mesh up to date with the accepted vertices, the last of which is new. -/
def extendMesh [Scalar α] (sees : Triangle α → Vec3 α → Bool) (h : Hull α) (v : Block) :
    Outcome × Hull α :=
  match h.accepted with
  | [a, b, c] =>
    let flat := Mesh.flat (Vec3.ofBlock a) (Vec3.ofBlock b) (Vec3.ofBlock c)
    (.accepted, { h with faces := h.faces ++ flat })
  | _ :: _ :: _ :: _ :: _ =>
    (.grown, { h with faces := Mesh.grow sees h.faces (Vec3.ofBlock v), last := none })
  | _ => (.accepted, h)

def accept [Scalar α] (sees : Triangle α → Vec3 α → Bool) (h : Hull α) (v : Block) :
    Except Fault Outcome × Hull α :=
  match Block.toWords? v with
  | none => (.error .vertexRange, h.record v)
  | some w =>
    let (outcome, h) := extendMesh sees ((h.record v).measure w) v
    (.ok outcome, h)

/-- Inserts a vertex, leaving the pending vertices as they are. -/
def insert [Scalar α] (sees : Triangle α → Vec3 α → Bool) (h : Hull α) (v : Block) :
    Except Fault Outcome × Hull α :=
  if h.knows v then (.ok .known, h.forget)
  else if h.accepted.length = 3 then
    let scanned := h.forget.scan sees (Vec3.ofBlock v)
    if scanned.1 then (.ok .queued, scanned.2.enqueue v) else scanned.2.accept sees v
  else h.forget.accept sees v

/-- A vertex that is known already changes nothing that can be seen. -/
theorem insert_of_knows [Scalar α] (sees : Triangle α → Vec3 α → Bool) {h : Hull α}
    {v : Block} (hv : h.knows v = true) : h.insert sees v = (.ok .known, h.forget) := by
  simp [insert, hv]

/-! ### What an insertion does to the pending vertices -/

theorem pending_scan (sees : Triangle α → Vec3 α → Bool) (h : Hull α) (q : Vec3 α) :
    (h.scan sees q).2.pending = h.pending := by
  unfold scan
  split <;> rfl

theorem pending_extendMesh [Scalar α] (sees : Triangle α → Vec3 α → Bool) (h : Hull α)
    (v : Block) : (h.extendMesh sees v).2.pending = h.pending := by
  unfold extendMesh
  split <;> rfl

theorem pending_accept [Scalar α] (sees : Triangle α → Vec3 α → Bool) (h : Hull α)
    (v : Block) :
    (h.accept sees v).2.pending = h.pending := by
  unfold accept
  split
  · rfl
  · exact pending_extendMesh ..

/-- An insertion puts at most one vertex aside. -/
theorem length_pending_insert_le [Scalar α] (sees : Triangle α → Vec3 α → Bool)
    (h : Hull α) (v : Block) :
    (h.insert sees v).2.pending.length ≤ h.pending.length + 1 := by
  unfold insert
  split
  · exact Nat.le_succ _
  · split
    · dsimp only
      split <;> simp [enqueue, pending_accept, pending_scan, forget]
    · simp [pending_accept, forget]

/-- An insertion that grows the mesh leaves the pending vertices alone. -/
theorem pending_insert_of_grown [Scalar α] (sees : Triangle α → Vec3 α → Bool)
    (h : Hull α) (v : Block) (hgrown : (h.insert sees v).1 = .ok .grown) :
    (h.insert sees v).2.pending = h.pending := by
  unfold insert at hgrown ⊢
  split
  · rfl
  · split
    · dsimp only at hgrown ⊢
      split
      · simp_all
      · simp [pending_accept, pending_scan, forget]
    · simp [pending_accept, forget]

/-!
## Adding a vertex

Once a vertex grows the mesh, the pending vertices are worth another try.  They are
inserted again in the order in which they came, while the vertex that called for it is
taken out of the list of accepted vertices; at the end it is put back as the last one.  A
vertex that is inserted again may itself grow the mesh and call for another round, so the
work that is left is kept on a stack.

Every round ends, because a vertex that grows the mesh leaves the pending ones
for good: the work that is left, measured by the vertices yet to be inserted
or pending, never grows.
-/

inductive Task where
  /-- Insert a vertex again. -/
  | insert (v : Block)
  /-- Put a vertex back at the end of the accepted ones. -/
  | restore (v : Block)
  deriving DecidableEq, Repr

/-- How many vertices a list of tasks inserts. -/
def insertions : List Task → Nat
  | [] => 0
  | .insert _ :: work => insertions work + 1
  | .restore _ :: work => insertions work

/-- Puts a vertex back at the end of the accepted ones. -/
def restore (h : Hull α) (v : Block) : Hull α :=
  if h.accepted.contains v then h else h.record v

/-- The hull that a round starts from: a vertex is taken out and no vertex is pending. -/
def suspend (h : Hull α) (v : Block) : Hull α :=
  { h with accepted := h.accepted.erase v, pending := [] }

/-- The work of a round: all pending vertices are inserted again and one
vertex is put back. -/
def round (h : Hull α) (v : Block) : List Task :=
  h.pending.map .insert ++ [.restore v]

theorem insertions_append (work rest : List Task) :
    insertions (work ++ rest) = insertions work + insertions rest := by
  induction work with
  | nil => simp [insertions]
  | cons task work ih => cases task <;> simp [insertions, ih]; omega

theorem insertions_round (h : Hull α) (v : Block) :
    insertions (h.round v) = h.pending.length := by
  have hmap : ∀ vs : List Block, insertions (vs.map .insert) = vs.length := by
    intro vs
    induction vs with
    | nil => rfl
    | cons v vs ih => simp [insertions, ih]
  simp [round, insertions_append, hmap, insertions]

theorem pending_restore (h : Hull α) (v : Block) :
    (h.restore v).pending = h.pending := by
  unfold restore
  split <;> rfl

/-- Does the work that is left, in order.  A fault ends it and drops what is left. -/
def replay [Scalar α] (sees : Triangle α → Vec3 α → Bool) (h : Hull α)
    (work : List Task) :
    Except Fault Unit × Hull α :=
  match work with
  | [] => (.ok (), h)
  | .restore v :: work => replay sees (h.restore v) work
  | .insert v :: work =>
    match _inserted : h.insert sees v with
    | (.error fault, next) => (.error fault, next)
    | (.ok outcome, next) =>
      if outcome = .grown ∧ next.pending ≠ [] then
        replay sees (next.suspend v) (next.round v ++ work)
      else replay sees next work
termination_by (insertions work + h.pending.length, work.length)
decreasing_by
  · rw [pending_restore]
    exact Prod.Lex.right _ (Nat.lt_succ_self _)
  · rename_i hgrown
    have hsame := pending_insert_of_grown sees h v (by rw [_inserted, hgrown.1])
    rw [_inserted] at hsame
    refine Prod.Lex.left _ _ ?_
    rw [insertions_append, insertions_round, show next.pending = h.pending from hsame]
    simp [insertions, suspend]
    omega
  · have hle := length_pending_insert_le sees h v
    rw [_inserted] at hle
    rw [Prod.lex_def]
    simp [insertions] at hle ⊢
    omega

/-- Adds a vertex and says whether it is new. -/
def addBlock [Scalar α] (sees : Triangle α → Vec3 α → Bool) (h : Hull α) (v : Block) :
    Except Fault Bool × Hull α :=
  match h.insert sees v with
  | (.error fault, h) => (.error fault, h)
  | (.ok outcome, h) =>
    if outcome = .grown ∧ h.pending ≠ [] then
      match replay sees (h.suspend v) (h.round v) with
      | (.error fault, h) => (.error fault, h)
      | (.ok (), h) => (.ok outcome.changed, h.forget)
    else (.ok outcome.changed, h.forget)

end Hull
end LatticeHull
