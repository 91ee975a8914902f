import LatticeHull.Region
import LatticeHull.Scene.PolyData

/-!
# Scenes

A scene holds the things that are queued to be shown: meshes of hulls and bounding boxes
of regions, each with a color and an opacity.  A bounding box is drawn around whole
blocks, so it reaches one unit beyond the upper corner.

A color is mixed from shares of ambient, diffuse and specular light, of which
only the diffuse one counts.  So a color stays as it is unless it is infinite,
and then it is undefined.
-/

namespace LatticeHull

structure Actor where
  color : Point
  opacity : Float
  /-- The color of the edges, if they are drawn. -/
  edgeColor : Option Point
  /-- The extent, if the thing is a box. -/
  bounds : Option (Vec3 Ends)

/-- The things that are queued, oldest first. -/
abbrev Scene := List Actor

namespace Scene

/-- The color of meshes, unless another one is asked for. -/
def snow : Point := ⟨1.0, 0.9804, 0.9804⟩

/-- The color of edges. -/
def ivoryBlack : Point := ⟨0.16, 0.14, 0.13⟩

/-- The color of boxes, unless another one is asked for. -/
def dimGrey : Point := ⟨0.4118, 0.4118, 0.4118⟩

/-- A datum that is a number as a machine number. -/
def numberOfDatum (d : Datum) : Except Fault Float := do
  (← d.toNumber).toFloat

/-- A component of a color, mixed from its shares. -/
def mixed (x : Float) : Float :=
  0.0 * x + x + 0.0 * x

def colorOf (request : Option Datum) (otherwise : Point) : Except Fault Point :=
  match request with
  | none => .ok otherwise
  | some (.list [r, g, b]) => do
    return ⟨mixed (← numberOfDatum r), mixed (← numberOfDatum g),
      mixed (← numberOfDatum b)⟩
  | some _ => .error .wrongKind

/-- The opacity that is asked for, between zero and one. -/
def opacityOf (request : Option Datum) (otherwise : Float) : Except Fault Float :=
  match request with
  | none => .ok otherwise
  | some d => do
    let x ← numberOfDatum d
    return if x < 0.0 then 0.0 else if 1.0 < x then 1.0 else x

/-- Queues the mesh of a hull. -/
def addMesh (s : Scene) (color opacity : Option Datum) (edges : Bool) :
    Except Fault (Actor × Scene) := do
  let color ← colorOf color snow
  let opacity ← opacityOf opacity 1.0
  let actor : Actor :=
    { color, opacity, edgeColor := if edges then some ivoryBlack else none,
      bounds := none }
  return (actor, s ++ [actor])

/-- Whether a corner has three entries along its first axis. -/
def hasThree (corner : Grid) : Bool :=
  match corner.shape with
  | [] => false
  | n :: _ => 3 ≤ n

def pointOf (corner : Grid) : Except Fault Point :=
  match corner.shape, corner.entries with
  | [_], x :: y :: z :: _ => .ok ⟨x, y, z⟩
  | _, _ => .error .wrongKind

/-- The cuboid around the blocks of a bounding box.  That both corners have three entries
is settled before it is asked what these are. -/
def cuboidOf (lower upper : Option Table) : Except Fault Cuboid := do
  let low ← (lower.getD .missing).toGrid
  let high ← (upper.getD .missing).toGrid
  if !hasThree low || !hasThree high then .error .noEntry
  else
    let low ← pointOf low
    let high ← pointOf high
    return .between low (high + ⟨1.0, 1.0, 1.0⟩)

/-- Queues the bounding box of a region. -/
def addBox (s : Scene) (r : Region) (color opacity : Option Datum) :
    Except Fault (Actor × Scene) := do
  let cuboid ← cuboidOf (← r.lower) (← r.upper)
  let color ← colorOf color dimGrey
  let opacity ← opacityOf opacity 0.15
  let actor : Actor :=
    { color, opacity, edgeColor := none, bounds := some cuboid.extent }
  return (actor, s ++ [actor])

end Scene
end LatticeHull
