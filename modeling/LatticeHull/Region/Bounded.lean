import LatticeHull.Datum.Grid
import LatticeHull.Number
import LatticeHull.Table
import LatticeHull.Vec3

/-!
# Regions with a bounding box

A region is known by the corners of its bounding box and by a test of which blocks it
holds.  Everything else follows: its extents, its center, its footprint, its blocks, and
the chunks they lie in.  A test may change what a region remembers, so every list of
blocks comes with the region after its making.

Corners should be rows of three numbers, and they are cut to whole numbers, towards zero.
A region with a corner missing has the vacant bounds.

Chunks are columns of blocks that are seen only where the lowest layer of the bounds
holds a block; chunk cubes are seen wherever any block is.
-/

namespace LatticeHull

/-!
## Ranges of blocks

The bounds of a region span a range of whole numbers along each axis, both ends included.
If an end lies below its beginning the range is empty and its length is zero or less.
Bounds should have three axes; what is asked of an axis that is not there has no answer.

Blocks are visited one at a time and not listed, since a range may be very long and a
visit may put an end to it.  `visitRange_eq_foldlM` says that this makes no
difference to the outcome.
-/

/-- The whole numbers of a range, both ends included. -/
def wholeRange (low high : Int) : List Int :=
  (List.range (high + 1 - low).toNat).map fun (i : Nat) => low + i

theorem mem_wholeRange {low high n : Int} :
    n ∈ wholeRange low high ↔ low ≤ n ∧ n ≤ high := by
  simp only [wholeRange, List.mem_map, List.mem_range]
  constructor
  · rintro ⟨i, hi, rfl⟩
    omega
  · intro h
    exact ⟨(n - low).toNat, by omega, by omega⟩

/-- Visits as many whole numbers as are asked for, upwards from a first one,
unless a visit fails. -/
def visitFrom {σ : Type} (visit : Int → σ → Except Fault σ) :
    Int → Nat → σ → Except Fault σ
  | _, 0, s => .ok s
  | low, n + 1, s =>
    match visit low s with
    | .error fault => .error fault
    | .ok s => visitFrom visit (low + 1) n s

theorem visitFrom_eq_foldlM {σ : Type} (visit : Int → σ → Except Fault σ) (low : Int)
    (n : Nat) (s : σ) :
    visitFrom visit low n s =
      ((List.range n).map fun (i : Nat) => low + i).foldlM (fun s n => visit n s) s := by
  induction n generalizing low s with
  | zero => rfl
  | succ n ih =>
    have hshift : ((fun (i : Nat) => low + (i : Int)) ∘ Nat.succ) =
        fun (i : Nat) => low + 1 + (i : Int) := by
      funext i
      simp only [Function.comp_apply, Nat.succ_eq_add_one, Int.natCast_add]
      omega
    rw [List.range_succ_eq_map, List.map_cons, List.map_map, hshift, List.foldlM_cons]
    simp only [visitFrom, Int.natCast_zero, Int.add_zero, bind, Except.bind]
    cases visit low s with
    | error fault => rfl
    | ok s => exact ih _ _

/-- Visits the whole numbers of a range, both ends included. -/
def visitRange {σ : Type} (low high : Int) (visit : Int → σ → Except Fault σ) (s : σ) :
    Except Fault σ :=
  visitFrom visit low (high + 1 - low).toNat s

theorem visitRange_eq_foldlM {σ : Type} (low high : Int)
    (visit : Int → σ → Except Fault σ) (s : σ) :
    visitRange low high visit s =
      (wholeRange low high).foldlM (fun s n => visit n s) s :=
  visitFrom_eq_foldlM visit low _ s

structure Bounds where
  lower : List Int
  upper : List Int
  deriving DecidableEq, Repr

namespace Bounds

/-- The bounds of a region without a bounding box: every range is empty
and of length zero. -/
def vacant : Bounds :=
  { lower := [0, 0, 0], upper := [-1, -1, -1] }

/-- An end of the range along an axis. -/
def endAt (ends : List Int) (axis : Nat) : Except Fault Int :=
  match ends[axis]? with
  | some n => .ok n
  | none => .error .noEntry

def lengthAt (b : Bounds) (axis : Nat) : Except Fault Int := do
  let high ← endAt b.upper axis
  let low ← endAt b.lower axis
  return high - low + 1

def width (b : Bounds) : Except Fault Int :=
  b.lengthAt 0

def height (b : Bounds) : Except Fault Int :=
  b.lengthAt 1

def length (b : Bounds) : Except Fault Int :=
  b.lengthAt 2

/-- The number of blocks, as the product of the lengths along all axes. -/
def area (b : Bounds) : Int :=
  (b.lower.zip b.upper).foldl (fun area ends => area * (ends.2 - ends.1 + 1)) 1

/-- The point midway between the two ends.  A single range is taken for as many as there
are on the other side. -/
def center (b : Bounds) : Except Fault (List Float) := do
  let lows ← b.lower.mapM toCoordinate
  match Shape.common? [b.lower.length] [b.upper.length] with
  | none => .error .misaligned
  | some shape =>
    let highs ← b.upper.mapM toCoordinate
    let lows := Shape.stretch [b.lower.length] shape lows
    let highs := Shape.stretch [b.upper.length] shape highs
    return List.zipWith (fun low high => (low + high) / 2.0) lows highs
where
  /-- An end as a coordinate. -/
  toCoordinate (n : Int) : Except Fault Float := (Datum.whole n).toCoordinate

/-- The corners of the bounds seen from above, in order around them. -/
def footprint (b : Bounds) : Except Fault (List (Int × Int)) := do
  let x ← endAt b.lower 0
  let z ← endAt b.lower 2
  let z' ← endAt b.upper 2
  let x' ← endAt b.upper 0
  return [(x, z), (x, z'), (x', z'), (x', z)]

section Visits

variable {σ : Type}

def visitAxis (b : Bounds) (axis : Nat) (visit : Int → σ → Except Fault σ) (s : σ) :
    Except Fault σ := do
  let low ← endAt b.lower axis
  let high ← endAt b.upper axis
  visitRange low high visit s

/-- Visits the blocks within the bounds at one height. -/
def visitLayer (b : Bounds) (y : Int) (visit : Block → σ → Except Fault σ) :
    σ → Except Fault σ :=
  b.visitAxis 0 fun x => b.visitAxis 2 fun z => visit ⟨x, y, z⟩

def visitBlocks (b : Bounds) (visit : Block → σ → Except Fault σ) : σ → Except Fault σ :=
  b.visitAxis 0 fun x => b.visitAxis 1 fun y => b.visitAxis 2 fun z => visit ⟨x, y, z⟩

end Visits

end Bounds

/-!
## Sets in ascending order

A finite set is kept as a list in strictly ascending order, for an order that is given by
its strict comparison.  An element that is there already is not put in again.
-/

namespace Ascending

variable {α : Type}

def insert (before : α → α → Bool) (a : α) : List α → List α
  | [] => [a]
  | b :: rest =>
    if before a b then a :: b :: rest
    else if before b a then b :: insert before a rest
    else b :: rest

def ofList (before : α → α → Bool) (as : List α) : List α :=
  as.foldl (fun set a => insert before a set) []

/-- The lexicographic comparison of rows of whole numbers. -/
def rowBefore : List Int → List Int → Bool
  | _, [] => false
  | [], _ :: _ => true
  | a :: as, b :: bs => a < b || (a == b && rowBefore as bs)

/-- Rows of whole numbers neither of which comes before the other are equal. -/
theorem eq_of_not_rowBefore {as bs : List Int} (hab : rowBefore as bs = false)
    (hba : rowBefore bs as = false) : as = bs := by
  induction as generalizing bs with
  | nil => cases bs with
    | nil => rfl
    | cons => simp [rowBefore] at hab
  | cons a as ih => cases bs with
    | nil => simp [rowBefore] at hba
    | cons b bs =>
      simp [rowBefore] at hab hba
      have heq : a = b := by omega
      subst heq
      rw [ih (hab.2 rfl) (hba.2 rfl)]

/-- What is put into a set is in it, and so is all that was. -/
theorem mem_insert {before : α → α → Bool}
    (hant : ∀ a b, before a b = false → before b a = false → a = b) {a c : α}
    {set : List α} :
    c ∈ insert before a set ↔ c = a ∨ c ∈ set := by
  induction set with
  | nil => simp [insert]
  | cons b rest ih =>
    unfold insert
    split
    · simp
    · split
      · simp [ih, or_left_comm]
      · rename_i hab hba
        have heq := hant a b (by simpa using hab) (by simpa using hba)
        simp [heq]

/-- The set of the elements of a list has just these. -/
theorem mem_ofList {before : α → α → Bool}
    (hant : ∀ a b, before a b = false → before b a = false → a = b) {c : α}
    {as : List α} :
    c ∈ ofList before as ↔ c ∈ as := by
  have hfold : ∀ set : List α,
      c ∈ as.foldl (fun set a => insert before a set) set ↔ c ∈ set ∨ c ∈ as := by
    induction as with
    | nil => simp
    | cons a as ih =>
      intro set
      simp [ih, mem_insert hant, or_assoc, or_left_comm]
  simpa [ofList] using hfold []

end Ascending

/-! ## Regions -/

/-- A region that has a bounding box and says which blocks it holds. -/
class Bounded (ρ : Type) where
  /-- The lower corner of the bounding box, if there is one. -/
  lower : ρ → Option Table
  /-- The upper corner of the bounding box, if there is one. -/
  upper : ρ → Option Table
  /-- Whether the region holds a block, and the region after the test. -/
  holds : ρ → Block → Except Fault (Bool × ρ)

def chunkSize : Int := 16

def Block.chunkCube (b : Block) : Block :=
  b.map (· / chunkSize)

def Block.chunk (b : Block) : Int × Int :=
  (b.x / chunkSize, b.z / chunkSize)

namespace Bounded

variable {ρ : Type} [Bounded ρ]

/-- Tests a block.  With the region go the blocks found so far, the latest one first. -/
def test (b : Block) (state : ρ × List Block) : Except Fault (ρ × List Block) := do
  let (r, found) := state
  let (inside, r) ← holds r b
  return (r, if inside then b :: found else found)

/-- The blocks that are found by visiting some, in order, and the region after the tests.
A fault leaves the region as it was. -/
def collect (r : ρ) (visit : ρ × List Block → Except Fault (ρ × List Block)) :
    Except Fault (List Block) × ρ :=
  match visit (r, []) with
  | .error fault => (.error fault, r)
  | .ok (r, found) => (.ok found.reverse, r)

def bounds (r : ρ) : Except Fault Bounds :=
  match lower r, upper r with
  | some low, some high =>
    do return { lower := ← low.toWholes, upper := ← high.toWholes }
  | _, _ => .ok Bounds.vacant

/-- The center of the bounding box, undefined without its lower corner. -/
def center (r : ρ) : Except Fault (List Float) :=
  if (lower r).isNone then .ok (List.replicate 3 Coordinate.undefined)
  else bounds r >>= Bounds.center

def blocks (r : ρ) : Except Fault (List Block) × ρ :=
  collect r fun state => do (← bounds r).visitBlocks test state

/-- The chunks that the lowest layer of a region reaches. -/
def chunks (r : ρ) : Except Fault (List (Int × Int)) × ρ :=
  let (found, r) := collect r fun state => do
    let b ← bounds r
    b.visitLayer (← Bounds.endAt b.lower 1) test state
  let before (c d : Int × Int) := Ascending.rowBefore [c.1, c.2] [d.1, d.2]
  (found.map fun blocks => Ascending.ofList before (blocks.map Block.chunk), r)

def chunkCubes (r : ρ) : Except Fault (List Block) × ρ :=
  let (found, r) := blocks r
  let before (c d : Block) := Ascending.rowBefore c.toList d.toList
  (found.map fun blocks => Ascending.ofList before (blocks.map Block.chunkCube), r)

/-- Whether a number of corners is given that is too small for a rectangle.  Negative
numbers set no limit. -/
def isTooFew (limit : Number) : Bool :=
  Number.atMost (.whole 0) limit && !Number.atMost (.whole 4) limit

/-- The footprint of a region, drawn with a limited number of corners. -/
def polygonize (r : ρ) (limit : Datum) : Except Fault (List (Int × Int)) := do
  if isTooFew (← limit.toNumber) then .error .tooFewCorners
  else if (lower r).isNone then .ok []
  else (← bounds r).footprint

end Bounded

/-!
## Boxes

A box is the region of the points between two corners.  Each change that is made to it
moves the corners: growing moves the lower corner by the negative part of the change and
the upper one by the positive part, shrinking the other way round.  Moving a box grows it
by the displacement and then shrinks it by the same.

Corners and changes are tables at first, and a corner takes the shape and the format that
the arithmetic of tables gives it.  A corner of a single number may thus become a bare
number, and a copy of the box makes a table of it again.
-/

/-- A region between two corners, either of which may be missing. -/
structure Box where
  lower : Option Operand
  upper : Option Operand

namespace Box

/-- Reads a corner that may be missing. -/
def cornerOfDatum : Datum → Except Fault (Option Operand)
  | .null => .ok none
  | d => do return some (.table (← Table.ofDatum d))

def ofData (lower upper : Datum) : Except Fault Box := do
  let lower ← cornerOfDatum lower
  let upper ← cornerOfDatum upper
  return { lower, upper }

/-- A corner as it enters arithmetic and comparisons. -/
def operand (corner : Option Operand) : Operand :=
  corner.getD (.table .missing)

/-- A corner moved by the part of a change on one side of zero. -/
def moveCorner (corner : Option Operand) (side : Side) (change : Table) :
    Except Fault (Option Operand) := do
  let moved ← (operand corner).add (← Operand.part side change)
  return some moved

/-- Moves the lower corner by the part of a change on one side of zero, and then the
upper one by the other part.  If the upper one cannot be moved, the lower one has
been moved nevertheless. -/
def move (b : Box) (side : Side) (change : Table) : Except Fault Unit × Box :=
  match moveCorner b.lower side change with
  | .error fault => (.error fault, b)
  | .ok lower =>
    match moveCorner b.upper side.opposite change with
    | .error fault => (.error fault, { b with lower })
    | .ok upper => (.ok (), { lower, upper })

/-- Makes one change to a box for each datum of a list.  The first fault ends it. -/
def moveAll (side : Side) (b : Box) : List Datum → Except Fault Unit × Box
  | [] => (.ok (), b)
  | d :: rest =>
    match Table.ofDatum d with
    | .error fault => (.error fault, b)
    | .ok change =>
      match b.move side change with
      | (.error fault, b) => (.error fault, b)
      | (.ok (), b) => moveAll side b rest

def expand : Box → List Datum → Except Fault Unit × Box :=
  moveAll .negative

def contract : Box → List Datum → Except Fault Unit × Box :=
  moveAll .positive

def shift (b : Box) (d : Datum) : Except Fault Unit × Box :=
  match b.expand [d] with
  | (.error fault, b) => (.error fault, b)
  | (.ok (), b) => b.contract [d]

/-- Whether a table lies between the corners.  The upper corner is looked at only if the
lower one does not decide. -/
def containsTable (b : Box) (p : Table) : Except Fault Bool := do
  if ← (operand b.lower).atMost (.table p) then
    Operand.atMost (.table p) (operand b.upper)
  else return false

def contains (b : Box) (d : Datum) : Except Fault Bool := do
  b.containsTable (← Table.ofDatum d)

def clone (b : Box) : Box where
  lower := b.lower.map fun corner => .table corner.toTable
  upper := b.upper.map fun corner => .table corner.toTable

instance : Bounded Box where
  lower b := b.lower.map Operand.toTable
  upper b := b.upper.map Operand.toTable
  holds b v := do return (← b.containsTable (.ofWholes v.toList), b)

end Box
end LatticeHull
