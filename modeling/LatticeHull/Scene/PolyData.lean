import LatticeHull.Coordinate
import LatticeHull.Mesh
import LatticeHull.Vec3

/-!
# Cuboids and polygonal data

Boxes are drawn as cuboids and hulls as polygonal data.
-/

namespace LatticeHull

/-!
## Cuboids as they are drawn

A cuboid is asked for by the two ends of its range along each axis.  It is drawn around
the midpoint of each range, with a side that is as long as the range and never negative,
and its corners are rounded to single precision.  The extent of what is drawn is measured
at these corners, so it may differ from the ranges that were asked for.

The measure is taken in two steps.  First the two faces across each axis give a range; a
range without faces stays the wrong way round, and if this is so along the first axis,
nothing is known of the cuboid.  Then the eight corners that these ranges have are placed
in the scene, one after the other.  A corner at infinity has no place: it makes the
extent undefined, and the next corner that has one starts it anew.
-/

structure Ends where
  low : Float
  high : Float

namespace Ends

/-- The greatest length that is measured. -/
def greatest : Float := 1e299

/-- The ends of a range that contains nothing yet, which are the wrong way round. -/
def nothing : Ends := ⟨greatest, -greatest⟩

/-- The ends of a range that is not known. -/
def unknown : Ends := ⟨1.0, -1.0⟩

/-- The least range around a range and one more number.  An undefined
number changes nothing. -/
def extend (e : Ends) (x : Float) : Ends where
  low := if x < e.low then x else e.low
  high := if e.high < x then x else e.high

/-- The least range around a range and one more number.  An undefined number takes the
place of both ends, and so does any number where they are undefined. -/
def restart (e : Ends) (x : Float) : Ends where
  low := if e.low < x then e.low else x
  high := if x < e.high then e.high else x

def single (x : Float) : Float :=
  x.toFloat32.toFloat

/-- The length of a side, between zero and the greatest one. -/
def side (e : Ends) : Float :=
  let length := e.high - e.low
  if length < 0.0 then 0.0 else if greatest < length then greatest else length

/-- The range between the two faces that are drawn across an axis. -/
def drawn (e : Ends) : Ends :=
  let first := (e.high + e.low) / 2.0 - e.side / 2.0
  (nothing.extend (single first)).extend (single (first + e.side))

end Ends

abbrev Cuboid := Vec3 Ends

namespace Cuboid

/-- The cuboid between two corners. -/
def between (lower upper : Point) : Cuboid :=
  lower.zipWith Ends.mk upper

def corners (c : Cuboid) : List Point :=
  [c.z.high, c.z.low].flatMap fun z =>
    [⟨c.x.high, c.y.high, z⟩, ⟨c.x.high, c.y.low, z⟩, ⟨c.x.low, c.y.low, z⟩,
      ⟨c.x.low, c.y.high, z⟩]

/-- A point as it is placed in a scene.  Zero loses its sign, and a point
at infinity its place. -/
def placed (p : Point) : Point :=
  if p.all Float.isFinite then p.map (· + 0.0)
  else ⟨Coordinate.undefined, Coordinate.undefined, Coordinate.undefined⟩

/-- The extent of a cuboid as it is drawn. -/
def extent (c : Cuboid) : Vec3 Ends :=
  let drawn : Cuboid := c.map Ends.drawn
  if drawn.x.high - drawn.x.low < 0.0 then ⟨.unknown, .unknown, .unknown⟩
  else
    (drawn.corners.map placed).foldl (fun e p => e.zipWith Ends.restart p)
      ⟨.nothing, .nothing, .nothing⟩

end Cuboid

/-!
## Meshes as polygonal data

What is drawn of a hull are points and cells that refer to them by number.  The corners
are numbered in a table as they are met: a corner that is not in the table yet is given
the count of those that are.
-/

structure PolyData where
  points : List Point
  cells : List (List Nat)
  deriving DecidableEq

namespace PolyData

/-- Corners and their numbers, in the order in which they were met. -/
abbrev Table := List (Point × Nat)

def number (p : Point) : StateM Table Nat := fun table =>
  match table.find? (·.1 == p) with
  | some (_, n) => (n, table)
  | none => (table.length, table ++ [(p, table.length)])

def numberAll (m : Mesh Float) : StateM Table (List (List Nat)) :=
  m.mapM fun t => t.corners.mapM number

/-- The mesh of a hull as polygonal data. -/
def ofMesh (m : Mesh Float) : PolyData :=
  let (cells, table) := (numberAll m).run []
  { points := table.map Prod.fst, cells }

end PolyData
end LatticeHull
