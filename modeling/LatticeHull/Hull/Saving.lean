import LatticeHull.Hull
import LatticeHull.Mesh
import LatticeHull.MeshFile

/-!
# Hulls from data and in files

A hull is given its vertices as loosely typed values.  It is kept in a mesh file.
-/

namespace LatticeHull
namespace Hull

/-!
## Hulls of loosely typed vertices

A hull over machine numbers takes vertices, query points and displacements of any kind.
Whatever cannot be read as a point is refused before the hull is touched.
-/

/-- Adds the block that contains a point and says whether it is new. -/
def add (h : Hull Float) (d : Datum) : Except Fault Bool × Hull Float :=
  match Block.ofDatum d with
  | .error fault => (.error fault, h)
  | .ok v => h.addBlock Triangle.above v

/-- Whether a point is inside.  Points that are not finite are not, and while there is no
mesh the point is not even read. -/
def contains (h : Hull Float) (d : Datum) : Except Fault Bool × Hull Float :=
  if !h.isDefined then (.ok false, h)
  else
    match Point.ofDatum d with
    | .error fault => (.error fault, h)
    | .ok q =>
      if q.isFinite then
        let (inside, h) := h.containsPoint Triangle.above q
        (.ok inside, h)
      else (.ok false, h)

def containsBlock (h : Hull Float) (b : Block) : Bool × Hull Float :=
  h.containsPoint Triangle.above (Vec3.ofBlock b)

def shift (h : Hull Float) (d : Datum) : Except Fault Unit × Hull Float :=
  match Block.ofDatum d with
  | .error fault => (.error fault, h)
  | .ok change =>
    match Block.toWords? change with
    | none => (.error .shiftRange, h)
    | some change => (.ok (), h.moveBy change)

def addAll (h : Hull Float) : List Datum → Except Fault (Hull Float)
  | [] => .ok h
  | d :: rest =>
    match h.add d with
    | (.error fault, _) => .error fault
    | (.ok _, h) => addAll h rest

/-- The hull of the items of a datum, or of no vertices if there is no datum. -/
def ofDatum : Datum → Except Fault (Hull Float)
  | .null => .ok empty
  | d =>
    match d.items? with
    | none => .error .wrongKind
    | some items => addAll empty items

/-!
## Hulls in mesh files

The mesh of a hull is written as vertices and faces.  Reading a file adds its
vertices one after another, each by its first three coordinates; the faces are found
again by growing the hull.
-/

/-- A point as a row of a file. -/
def pointRow (p : Point) : Datum :=
  .list (p.toList.map .binary)

def cellFace (cell : List Nat) : Datum :=
  .list (cell.map fun (i : Nat) => .whole i)

/-- The mesh of a hull as the text of a file. -/
def save (h : Hull Float) : MeshFile.Written :=
  let mesh := Mesh.indexed h.faces
  let rows := Datum.list (mesh.points.map pointRow)
  let cells := Datum.list (mesh.cells.map cellFace)
  MeshFile.write [("v", .loose rows)] (.loose cells)

/-- The first three entries of each row of an arrangement. -/
def vertexRows (g : Grid) : List Datum :=
  match g.toDatum with
  | .list rows =>
    rows.map fun row =>
      match row with
      | .list entries => .list (entries.take 3)
      | d => d
  | _ => []

/-- The hull of the vertices in a file. -/
def load (file : MeshFile.File) : Except Fault (Hull Float) := do
  match ← MeshFile.read file [.text "v"] with
  | .one (.rows g) => addAll empty (vertexRows g)
  | _ => return empty

end Hull
end LatticeHull
