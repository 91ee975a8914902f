import LatticeHull.Mesh
import LatticeHull.Number
import LatticeHull.Table

/-!
# Triangles and query points from loosely typed values

Corners, query points and displacements may be given as rectangular data of any shape,
and corners and edges may be asked for by an index of any kind.  This module says which
shapes make a triangle, which of them a half-space test takes, by which of them a
triangle is moved, and what an index selects.
-/

namespace LatticeHull
namespace Grid

/-!
## Parts of an arrangement

The parts of an arrangement along its first axis are selected by an index of any kind.  A
whole number selects one part, counted from the end if it is negative.  A table of whole
numbers selects a part for each of them.  A table of truth values, as long as the
arrangement, selects the parts at which it is true.  A single truth value selects the
whole arrangement, once or not at all; an index that is missing selects it once.
-/

/-- The place among `n` that an index denotes. -/
def place? (n : Nat) (index : Int) : Option Nat :=
  let i := if index < 0 then index + n else index
  if 0 ≤ i ∧ i < n then some i.toNat else none

def part (g : Grid) (index : Int) : Except Fault Grid :=
  let found := do
    let parts ← g.parts?
    let i ← place? parts.length index
    parts[i]?
  match found with
  | some part => .ok part
  | none => .error .noEntry

/-- The parts at several indices, arranged as these are. -/
def gather (g : Grid) (shape : Shape) (indices : List Int) : Except Fault Grid :=
  let inner := g.shape.tail
  if Datum.maxDepth < shape.length + inner.length then .error .noEntry
  else do
    let parts ← indices.mapM g.part
    return { shape := shape ++ inner, entries := parts.flatMap entries }

/-- The parts at which a mask is true.  The mask has to be as long as the arrangement in
each of its own axes. -/
def filter (g : Grid) (shape : Shape) (mask : List Datum) : Except Fault Grid :=
  if g.shape.take shape.length ≠ shape then .error .noEntry
  else
    let inner := g.shape.drop shape.length
    let parts := Shape.slices (Shape.size inner) mask.length g.entries
    let kept := (parts.zip mask).filter (·.2.isTrue)
    .ok { shape := kept.length :: inner, entries := kept.flatMap (·.1) }

def selectAll (g : Grid) (t : Table) : Except Fault Grid :=
  if t.entries.isEmpty then g.gather t.shape []
  else
    match t.format with
    | .truth => g.filter t.shape t.entries
    | .word | .unsigned => do
      let indices ← t.readEntries Datum.toWhole
      g.gather t.shape (indices.map wrapWord)
    | _ => .error .noEntry

/-- The parts that an index selects. -/
def select (g : Grid) (index : Datum) : Except Fault Grid :=
  match index with
  | .null => .ok { shape := 1 :: g.shape, entries := g.entries }
  | .truth true => .ok { shape := 1 :: g.shape, entries := g.entries }
  | .truth false => .ok { shape := 0 :: g.shape, entries := [] }
  | .whole n =>
    if fitsWord n then g.part n
    else .error (if fitsUnsigned n then .tooLarge else .noEntry)
  | .list _ => do g.selectAll (← Table.ofDatum index)
  | _ => .error .noEntry

def toRow (g : Grid) : Except Fault (List Float) :=
  match g.parts? with
  | none => .error .wrongKind
  | some parts =>
    if parts.all (·.shape.isEmpty) then .ok g.entries else .error .wrongKind

end Grid

/-! ## Corners and query points -/

namespace Triangle

/-- What is wrong with `n` values where three are required, if anything is. -/
def countFault? (n : Nat) : Option Fault :=
  if n < 3 then some (.tooFew n) else if 3 < n then some .tooMany else none

/-- What is wrong with three corners of a given shape.  A corner is taken apart into its
coordinates before these are found to be no numbers. -/
def cornerFault : Shape → Fault
  | [] => .wrongKind
  | n :: _ => (countFault? n).getD .misaligned

/-- Reads the corners of a triangle. -/
def ofData (corners : List Datum) : Except Fault (Triangle Float) :=
  if corners.length ≠ 3 then .error .wrongKind
  else
    match Grid.ofDatum (.list corners) with
    | .error fault => .error fault
    | .ok { shape := [3, 3], entries := [a₁, a₂, a₃, b₁, b₂, b₃, c₁, c₂, c₃] } =>
      .ok ⟨⟨a₁, a₂, a₃⟩, ⟨b₁, b₂, b₃⟩, ⟨c₁, c₂, c₃⟩⟩
    | .ok grid => .error (cornerFault grid.shape.tail)

/-- The coordinates of a column that a vector is multiplied with, where a
fault may be pending. -/
def factors (column : List Datum) : Fault.Amid (List Float) := fun pending =>
  column.mapM fun d => do (← d.toNumber).toFloatAmid pending

/-- Reads a datum as the point of a half-space test.  The normal is multiplied with
every column of the datum, or with the datum itself if that is a single number.  The
test must have one answer. -/
def queryOfDatum (d : Datum) : Except Fault Point := do
  let t ← Table.ofDatum d
  match t.depth? with
  | none =>
    let _ ← factors t.entries none
    .error .ambiguous
  | some depth =>
    if depth ≠ 3 ∨ t.format = .text then .error .misaligned
    else
      match ← Fault.settle (t.columns.map factors) with
      | [[x, y, z]] => return ⟨x, y, z⟩
      | _ => .error .ambiguous

def aboveDatum (t : Triangle Float) (d : Datum) : Except Fault Bool := do
  return t.above (← queryOfDatum d)

def belowDatum (t : Triangle Float) (d : Datum) : Except Fault Bool := do
  return t.below (← queryOfDatum d)

/-- The displacement of each corner that an arrangement stands for.  One number
moves along all axes, one row moves all corners alike, and one column moves each
corner along all axes. -/
def displacements? : Grid → Option (Triangle Float)
  | { shape := [], entries := [d] } => some (all ⟨d, d, d⟩)
  | { shape := [1], entries := [d] } => some (all ⟨d, d, d⟩)
  | { shape := [1, 1], entries := [d] } => some (all ⟨d, d, d⟩)
  | { shape := [3], entries := [d₁, d₂, d₃] } => some (all ⟨d₁, d₂, d₃⟩)
  | { shape := [1, 3], entries := [d₁, d₂, d₃] } => some (all ⟨d₁, d₂, d₃⟩)
  | { shape := [3, 1], entries := [a, b, c] } => some ⟨⟨a, a, a⟩, ⟨b, b, b⟩, ⟨c, c, c⟩⟩
  | { shape := [3, 3], entries := [a₁, a₂, a₃, b₁, b₂, b₃, c₁, c₂, c₃] } =>
    some ⟨⟨a₁, a₂, a₃⟩, ⟨b₁, b₂, b₃⟩, ⟨c₁, c₂, c₃⟩⟩
  | _ => none
where
  /-- The same displacement for every corner. -/
  all (d : Point) : Triangle Float := ⟨d, d, d⟩

/-- What is wrong with a displacement of a shape that moves no triangle.  If
its innermost lengths allow it, it makes several triangles out of one, and
these are no three corners. -/
def displacementFault (shape : Shape) : Fault :=
  match shape.reverse with
  | last :: next :: outer@(_ :: _) =>
    if (last = 1 ∨ last = 3) ∧ (next = 1 ∨ next = 3) then
      match outer.reverse with
      | [n] => (countFault? n).getD .misaligned
      | n :: m :: _ => (countFault? n).getD ((countFault? m).getD .misaligned)
      | [] => .misaligned
    else .misaligned
  | _ => .misaligned

def moveByDatum (t : Triangle Float) (d : Datum) : Except Fault (Triangle Float) := do
  let grid ← Grid.ofDatum d
  match displacements? grid with
  | some move => return ⟨t.a + move.a, t.b + move.b, t.c + move.c⟩
  | none => .error (displacementFault grid.shape)

def toGrid (t : Triangle Float) : Grid where
  shape := [3, 3]
  entries := t.corners.flatMap Vec3.toList

/-- The corners that an index of any kind selects. -/
def cornersAt (t : Triangle Float) (index : Datum) : Except Fault Grid :=
  t.toGrid.select index

/-- The edge that a number of any kind selects.  Its first end is what the number itself
selects; a truth value that is false thus makes an edge without a first end. -/
def edgeAt (t : Triangle Float) (index : Datum) : Except Fault (Edge (List Float)) := do
  let n ← index.toNumber
  if !Number.atMost (.whole 0) n || Number.atMost (.whole 3) n then
    .error (.edgeIndex index)
  else
    let start ← (← t.cornersAt index).toRow
    match n with
    | .whole i => return { start, stop := (← t.edge i).stop.toList }
    | .binary _ => .error .noEntry

end Triangle

/-- The triangle that joins an edge with ends of any length to a loosely typed point. -/
def Edge.coneOfDatum (e : Edge (List Float)) (p : Datum) :
    Except Fault (Triangle Float) :=
  Triangle.ofData [.list (e.start.map .binary), .list (e.stop.map .binary), p]

end LatticeHull
