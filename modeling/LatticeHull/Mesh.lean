import LatticeHull.Comparand
import LatticeHull.Datum.Grid
import LatticeHull.Text
import LatticeHull.Vec3

/-!
# Points, edges, triangles and meshes

A mesh is made of triangles, which have edges, which join points.  Points are read from
data.
-/

namespace LatticeHull

/-!
## Points and blocks from loosely typed values

A point is given as three coordinates in a row.  A block is given as a point inside it:
every coordinate is rounded down.
-/

namespace Point

/-- The fault of reading a point, for a fault of reading its coordinates.  Coordinates
that are too large are reported as such. -/
def faultOf (d : Datum) : Fault → Fault
  | .tooLarge => .tooLarge
  | _ => .notPoint d

/-- Reads a datum as a point. -/
def ofDatum (d : Datum) : Except Fault Point :=
  match d with
  | .null => .error .noPoint
  | _ =>
    match Grid.ofDatum d with
    | .error fault => .error (faultOf d fault)
    | .ok { shape := [3], entries := [x, y, z] } => .ok ⟨x, y, z⟩
    | .ok grid => .error (.pointShape grid.shape)

def isFinite (p : Point) : Bool :=
  p.all Float.isFinite

/-- The length of a point as a vector. -/
def norm (p : Point) : Float :=
  (p.dot p).sqrt

def unit (p : Point) : Point :=
  if p.norm == 0.0 then p else p.map (· / p.norm)

end Point

namespace Block

/-- The block that contains a point, for a point that is finite. -/
def ofPoint (p : Point) : Except Fault Block :=
  if p.isFinite then .ok (p.map Binary.floor) else .error (.notFinite p.x p.y p.z)

/-- Reads a datum as a point and takes the block that contains it. -/
def ofDatum (d : Datum) : Except Fault Block := do
  ofPoint (← Point.ofDatum d)

end Block

/-!
## Edges

An edge joins two points.  It remembers the direction in which it was given, but that
direction does not count when two edges are compared.  The points may be of any kind; an
edge with a point that does not equal itself equals no other edge.
-/

structure Edge (P : Type) where
  start : P
  stop : P
  deriving DecidableEq, Repr

namespace Edge

variable {P : Type}

/-- Whether two edges join the same points in the same direction. -/
def sameDirection [BEq P] (e f : Edge P) : Bool :=
  e.start == f.start && e.stop == f.stop

def reverse (e : Edge P) : Edge P :=
  ⟨e.stop, e.start⟩

instance [BEq P] : BEq (Edge P) where
  beq e f := e.sameDirection f || e.sameDirection f.reverse

/-- Two edges are equal if they are the same up to direction. -/
theorem beq_iff [BEq P] [LawfulBEq P] (e f : Edge P) :
    (e == f) = true ↔ e = f ∨ e = f.reverse := by
  cases e
  cases f
  simp [BEq.beq, sameDirection, reverse]

/-- An edge equals its reverse. -/
theorem beq_reverse [BEq P] [ReflBEq P] (e : Edge P) : (e == e.reverse) = true := by
  simp [BEq.beq, sameDirection, reverse]

/-- Puts an edge into a border, or takes it out again if it is there: an edge between two
faces that are both removed is met twice and leaves no trace. -/
def toggle [BEq P] (border : List (Edge P)) (e : Edge P) : List (Edge P) :=
  if border.contains e then border.erase e else border ++ [e]

/-- The edges that remain when each edge of a list is put in or taken out in turn. -/
def border [BEq P] (edges : List (Edge P)) : List (Edge P) :=
  edges.foldl toggle []

/-- A row of coordinates as text. -/
def rowText (row : List Float) : String :=
  Text.tuple (row.map Coordinate.text)

def text (e : Edge (List Float)) : String :=
  "Edge" ++ Text.tuple [rowText e.start, rowText e.stop]

/-- An edge between points as an edge between rows of coordinates. -/
def toRows {α : Type} (e : Edge (Vec3 α)) : Edge (List α) :=
  ⟨e.start.toList, e.stop.toList⟩

def rowOfDatum (d : Datum) : Except Fault (List Float) :=
  match d.items? with
  | none => .error .wrongKind
  | some items => items.mapM Datum.toCoordinate

/-- Reads the two ends of an edge. -/
def ofData (start stop : Datum) : Except Fault (Edge (List Float)) := do
  let start ← rowOfDatum start
  let stop ← rowOfDatum stop
  return { start, stop }

end Edge

/-!
## Oriented triangles

A triangle is given by its corners, counter-clockwise as seen from outside.  Its normal
vector, the cross product of two sides, points outwards.  A point is above the triangle
if its height along the normal vector exceeds that of every corner, and below it if its
height is less than the greatest height of a corner.  In exact arithmetic the corners
have one common height; in rounded arithmetic the greatest one decides.

Two triangles are equal if they have the same edges, so the order of the
corners does not count.
-/

/-- A triangle with an outside. -/
structure Triangle (α : Type) where
  a : Vec3 α
  b : Vec3 α
  c : Vec3 α
  deriving DecidableEq, Repr

namespace Triangle

variable {α : Type}

def corners (t : Triangle α) : List (Vec3 α) :=
  [t.a, t.b, t.c]

/-- The edges in order, each from a corner to the next. -/
def edges (t : Triangle α) : List (Edge (Vec3 α)) :=
  [⟨t.a, t.b⟩, ⟨t.b, t.c⟩, ⟨t.c, t.a⟩]

instance [BEq α] : BEq (Triangle α) where
  beq t u := t.edges.all u.edges.contains && u.edges.all t.edges.contains

def edge (t : Triangle α) (index : Int) : Except Fault (Edge (Vec3 α)) :=
  match index with
  | 0 => .ok ⟨t.a, t.b⟩
  | 1 => .ok ⟨t.b, t.c⟩
  | 2 => .ok ⟨t.c, t.a⟩
  | _ => .error (.edgeIndex (.whole index))

section Geometry

variable [Scalar α]

@[inline] def normal (t : Triangle α) : Vec3 α :=
  (t.b - t.a).cross (t.c - t.a)

/-- The greatest height of a corner along the normal vector. -/
@[inline] def offset (t : Triangle α) : α :=
  let n := t.normal
  Scalar.larger (Scalar.larger (n.dot t.a) (n.dot t.b)) (n.dot t.c)

/-- Whether a point lies strictly on the outer side of the triangle's plane. -/
@[specialize] def above (t : Triangle α) (p : Vec3 α) : Bool :=
  Scalar.less t.offset (t.normal.dot p)

/-- Whether a point lies strictly on the inner side of the triangle's plane. -/
@[specialize] def below (t : Triangle α) (p : Vec3 α) : Bool :=
  Scalar.less (t.normal.dot p) t.offset

def moveBy (t : Triangle α) (d : Vec3 α) : Triangle α :=
  ⟨t.a + d, t.b + d, t.c + d⟩

end Geometry

def text (t : Triangle Float) : String :=
  "Triangle" ++ Text.tuple (t.corners.map fun p => Edge.rowText p.toList)

end Triangle

/-- The triangle that joins an edge to a point and keeps the direction of the edge. -/
def Edge.cone {α : Type} (e : Edge (Vec3 α)) (p : Vec3 α) : Triangle α :=
  ⟨e.start, e.stop, p⟩

/-!
## Meshes that grow by a point

A mesh is a list of triangles around a solid.  A point outside sees some of them.  To
take the point into the solid, the triangles it sees are removed, and the border of the
hole is joined to the point.  An edge between two removed triangles belongs to no border,
so the border consists of the edges that are left when those that occur twice cancel out.

Which triangles a point sees is a parameter here: the steps below do the same
whatever the answers are.
-/

/-- A list of triangles around a solid. -/
abbrev Mesh (α : Type) := List (Triangle α)

namespace Mesh

variable {α : Type}

def edges (m : Mesh α) : List (Edge (Vec3 α)) :=
  m.flatMap Triangle.edges

/-- The two triangles, back to back, that three points span. -/
def flat (a b c : Vec3 α) : Mesh α :=
  [⟨a, b, c⟩, ⟨a, c, b⟩]

/-- The triangles that join a border to a point. -/
def cone (border : List (Edge (Vec3 α))) (p : Vec3 α) : Mesh α :=
  border.map (·.cone p)

/-- The mesh after a point has been taken in: what the point does not see stays, and the
border of what it sees is joined to it. -/
def grow [BEq α] (sees : Triangle α → Vec3 α → Bool) (m : Mesh α) (p : Vec3 α) :
    Mesh α :=
  let (removed, kept) := m.partition (sees · p)
  kept ++ cone (Edge.border (edges removed)) p

def moveBy [Scalar α] (m : Mesh α) (d : Vec3 α) : Mesh α :=
  m.map (·.moveBy d)

/-- How many triangles each edge belongs to, in order of first appearance. -/
def edgeCounts [BEq α] (m : Mesh α) : List (Edge (Vec3 α) × Nat) :=
  Tally.ofList m.edges

/-!
## Meshes with numbered corners

A mesh is exported as a list of distinct points, in the order in which they first occur
as corners, and a triple of indices for each triangle.
-/

/-- Distinct points and the triangles between them. -/
structure Indexed (α : Type) where
  points : List (Vec3 α)
  cells : List (List Nat)
  deriving DecidableEq, Repr

namespace Indexed

/-- The index of a point and the points with that one among them. -/
def place [BEq α] (points : List (Vec3 α)) (p : Vec3 α) : Nat × List (Vec3 α) :=
  match points.findIdx? (· == p) with
  | some i => (i, points)
  | none => (points.length, points ++ [p])

def placeAll [BEq α] (points : List (Vec3 α)) : List (Vec3 α) → List Nat × List (Vec3 α)
  | [] => ([], points)
  | p :: rest =>
    let (i, points) := place points p
    let (indices, points) := placeAll points rest
    (i :: indices, points)

def add [BEq α] (m : Indexed α) (t : Triangle α) : Indexed α :=
  let (cell, points) := placeAll m.points t.corners
  { points, cells := m.cells ++ [cell] }

end Indexed

def indexed [BEq α] (m : Mesh α) : Indexed α :=
  m.foldl Indexed.add { points := [], cells := [] }

end Mesh
end LatticeHull
