import LatticeHull.Hull.Saving
import LatticeHull.Region.Bounded

/-!
# Regions of every kind

A region is a hull, a box, the vacant region, which holds nothing and cannot be
changed, or a bare region, which offers no operation at all.  Every operation is
defined for all of them.  Operations that may change a region come with the region
after the operation, also if they fail.
-/

namespace LatticeHull

instance : Bounded (Hull Float) where
  lower h := h.extent.map fun e => .ofWholes e.lower.toBlock.toList
  upper h := h.extent.map fun e => .ofWholes e.upper.toBlock.toList
  holds h b := .ok (h.containsBlock b)

inductive Region where
  | hull (h : Hull Float)
  | box (b : Box)
  | vacant
  | bare

namespace Region

def kind : Region → String
  | hull _ => "ConvexPolyhedralRegion"
  | box _ => "Box"
  | vacant => "NullRegion"
  | bare => "Region"

/-- The outcome of an operation on what a region is made of, as one on the region. -/
def rebuild {α ρ : Type} (make : ρ → Region) (outcome : Except Fault α × ρ) :
    Except Fault α × Region :=
  (outcome.1, make outcome.2)

def lower : Region → Except Fault (Option Table)
  | hull h => .ok (Bounded.lower h)
  | box b => .ok (Bounded.lower b)
  | vacant => .ok (some (.ofWholes [0, 0, 0]))
  | bare => .error .unsupported

def upper : Region → Except Fault (Option Table)
  | hull h => .ok (Bounded.upper h)
  | box b => .ok (Bounded.upper b)
  | vacant => .ok (some (.ofWholes [0, 0, 0]))
  | bare => .error .unsupported

/-- The center, which for a hull is that of its vertices and not that of its box. -/
def center : Region → Except Fault (List Float)
  | hull h => .ok h.center.toList
  | box b => Bounded.center b
  | vacant => .ok [0.0, 0.0, 0.0]
  | bare => .error .unsupported

/-- A measure of the bounds; that of the vacant region is zero. -/
def measure (f : Bounds → Except Fault Int) : Region → Except Fault Int
  | hull h => Bounded.bounds h >>= f
  | box b => Bounded.bounds b >>= f
  | vacant => .ok 0
  | bare => .error .unsupported

/-- The number of blocks in the bounding box. -/
def area : Region → Except Fault Int :=
  measure fun b => .ok b.area

def width : Region → Except Fault Int :=
  measure Bounds.width

def height : Region → Except Fault Int :=
  measure Bounds.height

def length : Region → Except Fault Int :=
  measure Bounds.length

def blocks : Region → Except Fault (List Block) × Region
  | hull h => rebuild hull (Bounded.blocks h)
  | box b => rebuild box (Bounded.blocks b)
  | vacant => (.ok [], vacant)
  | bare => (.error .unsupported, bare)

def chunks : Region → Except Fault (List (Int × Int)) × Region
  | hull h => rebuild hull (Bounded.chunks h)
  | box b => rebuild box (Bounded.chunks b)
  | vacant => (.ok [], vacant)
  | bare => (.error .unsupported, bare)

def chunkCubes : Region → Except Fault (List Block) × Region
  | hull h => rebuild hull (Bounded.chunkCubes h)
  | box b => rebuild box (Bounded.chunkCubes b)
  | vacant => (.ok [], vacant)
  | bare => (.error .unsupported, bare)

/-- The footprint, drawn with a limited number of corners. -/
def polygonize (limit : Datum) : Region → Except Fault (List (Int × Int))
  | hull h => Bounded.polygonize h limit
  | box b => Bounded.polygonize b limit
  | vacant => .ok []
  | bare => .error .unsupported

def contains (d : Datum) : Region → Except Fault Bool × Region
  | hull h => rebuild hull (h.contains d)
  | box b => (b.contains d, box b)
  | vacant => (.ok false, vacant)
  | bare => (.error .unsupported, bare)

/-- Whether each of several points is inside.  The first fault ends it. -/
def containsEach (r : Region) : List Datum → Except Fault (List Bool) × Region
  | [] => (.ok [], r)
  | d :: rest =>
    match r.contains d with
    | (.error fault, r) => (.error fault, r)
    | (.ok inside, r) =>
      let (answers, r) := containsEach r rest
      (answers.map (inside :: ·), r)

/-- Grows a region.  Hulls take the request and stay as they are. -/
def expand (changes : List Datum) : Region → Except Fault Unit × Region
  | hull h => (.ok (), hull h)
  | box b => rebuild box (b.expand changes)
  | vacant => (.error .fixedRegion, vacant)
  | bare => (.error .unsupported, bare)

/-- Shrinks a region.  Hulls take the request and stay as they are. -/
def contract (changes : List Datum) : Region → Except Fault Unit × Region
  | hull h => (.ok (), hull h)
  | box b => rebuild box (b.contract changes)
  | vacant => (.error .fixedRegion, vacant)
  | bare => (.error .unsupported, bare)

def shift (change : Datum) : Region → Except Fault Unit × Region
  | hull h => rebuild hull (h.shift change)
  | box b => rebuild box (b.shift change)
  | vacant => (.error .fixedRegion, vacant)
  | bare => (.error .unsupported, bare)

def clone : Region → Except Fault Region
  | bare => .error .unsupported
  | box b => .ok (box b.clone)
  | r => .ok r

end Region
end LatticeHull
