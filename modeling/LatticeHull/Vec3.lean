import LatticeHull.Binary

/-!
# Vectors and bounding boxes

Points, lattice blocks and displacements are triples of one kind of scalar.  The bounding
box of a set of vertices is kept by two of its corners.
-/

namespace LatticeHull

/-!
## Scalars

The geometry is written once, over any numbers that can be added, subtracted,
multiplied and compared.  Machine numbers run it; whole numbers show what the same
steps say without rounding.
-/

/-- The numbers that the geometry is about. -/
class Scalar (α : Type) extends Add α, Sub α, Mul α, BEq α where
  /-- Whether the first number is below the second. -/
  less : α → α → Bool
  /-- The scalar next to a whole number. -/
  ofInt : Int → α

namespace Scalar

/-- The greater of two scalars, the first one unless the second is above it. -/
@[inline] def larger {α : Type} [Scalar α] (a b : α) : α :=
  if less a b then b else a

instance : Scalar Int where
  less a b := decide (a < b)
  ofInt n := n

instance : Scalar Float where
  less a b := decide (a < b)
  ofInt n := Float.ofInt n

end Scalar

/-!
## Triples of coordinates

Points, lattice blocks and displacements are triples of one kind of
coordinate.  Two triples are equal if they agree in every coordinate, as the
coordinates themselves compare.
-/

/-- A triple of coordinates. -/
@[ext]
structure Vec3 (α : Type) where
  x : α
  y : α
  z : α
  deriving BEq, ReflBEq, LawfulBEq, DecidableEq, Repr

abbrev Block := Vec3 Int

abbrev Point := Vec3 Float

namespace Vec3

variable {α β γ : Type}

/-- The same function on every coordinate. -/
@[inline] def map (f : α → β) (u : Vec3 α) : Vec3 β :=
  ⟨f u.x, f u.y, f u.z⟩

/-- The same function on every pair of coordinates. -/
@[inline] def zipWith (f : α → β → γ) (u : Vec3 α) (v : Vec3 β) : Vec3 γ :=
  ⟨f u.x v.x, f u.y v.y, f u.z v.z⟩

def toList (u : Vec3 α) : List α :=
  [u.x, u.y, u.z]

/-- Whether a test holds for every coordinate. -/
@[inline] def all (p : α → Bool) (u : Vec3 α) : Bool :=
  p u.x && p u.y && p u.z

@[inline] instance [Add α] : Add (Vec3 α) where
  add := zipWith (· + ·)

@[inline] instance [Sub α] : Sub (Vec3 α) where
  sub := zipWith (· - ·)

@[inline] def dot [Scalar α] (u v : Vec3 α) : α :=
  u.x * v.x + u.y * v.y + u.z * v.z

@[inline] def cross [Scalar α] (u v : Vec3 α) : Vec3 α :=
  ⟨u.y * v.z - u.z * v.y, u.z * v.x - u.x * v.z, u.x * v.y - u.y * v.x⟩

/-- A block as a point of any kind of scalar. -/
@[inline] def ofBlock [Scalar α] (b : Block) : Vec3 α :=
  b.map Scalar.ofInt

/-! ### Coordinates of sums and differences -/

@[simp] theorem add_x [Add α] (u v : Vec3 α) : (u + v).x = u.x + v.x := rfl

@[simp] theorem add_y [Add α] (u v : Vec3 α) : (u + v).y = u.y + v.y := rfl

@[simp] theorem add_z [Add α] (u v : Vec3 α) : (u + v).z = u.z + v.z := rfl

@[simp] theorem sub_x [Sub α] (u v : Vec3 α) : (u - v).x = u.x - v.x := rfl

@[simp] theorem sub_y [Sub α] (u v : Vec3 α) : (u - v).y = u.y - v.y := rfl

@[simp] theorem sub_z [Sub α] (u v : Vec3 α) : (u - v).z = u.z - v.z := rfl

/-- Over whole numbers a block is its own point. -/
@[simp] theorem ofBlock_int (b : Block) : (ofBlock b : Vec3 Int) = b := rfl

end Vec3

/-!
## Bounding boxes of words

The bounding box of a set of vertices keeps its two corners in signed words.  Corners
belong to the box.  Moving a box wraps around at the ends of the words.
-/

/-- A block whose coordinates are signed words. -/
abbrev Words := Vec3 Int64

/-- The words that hold a block, if there are any. -/
def Block.toWords? (b : Block) : Option Words :=
  if b.all fitsWord then some (b.map Int64.ofInt) else none

def Words.toBlock (w : Words) : Block :=
  w.map Int64.toInt

/-- A bounding box. -/
structure Extent where
  lower : Words
  upper : Words
  deriving DecidableEq, Repr

namespace Extent

def single (w : Words) : Extent :=
  { lower := w, upper := w }

/-- The least bounding box around a box and one more block. -/
def extend (e : Extent) (w : Words) : Extent :=
  { lower := e.lower.zipWith min w, upper := e.upper.zipWith max w }

/-- A bounding box around a box, if there is one, and one more block. -/
def including (e : Option Extent) (w : Words) : Extent :=
  match e with
  | none => single w
  | some e => e.extend w

def moveBy (e : Extent) (d : Words) : Extent :=
  { lower := e.lower + d, upper := e.upper + d }

/-- Whether a coordinate lies outside the range between two words. -/
@[inline] def outside {α : Type} [Scalar α] (q : α) (low high : Int64) : Bool :=
  Scalar.less q (Scalar.ofInt low.toInt) || Scalar.less (Scalar.ofInt high.toInt) q

/-- Whether some coordinate of a point lies outside the box. -/
@[specialize] def excludes {α : Type} [Scalar α] (e : Extent) (q : Vec3 α) : Bool :=
  outside q.x e.lower.x e.upper.x || outside q.y e.lower.y e.upper.y ||
    outside q.z e.lower.z e.upper.z

end Extent
end LatticeHull
