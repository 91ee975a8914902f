import LatticeHull.Datum
import LatticeHull.Datum.CrossProduct
import LatticeHull.Table

/-!
# Lengths of tables

The length of a row is the square root of its product with itself.  The format decides
how that product is formed: for truth values it is whether one of them is true, for words
it wraps around and so may come out negative, machine numbers are added in lanes, and for
mixed rows it is exact as long as only whole numbers meet.

A table with several axes is multiplied by columns as well, which only works if it
is square in its last two axes.  The result is no single number, so such a table has
no length.  All products are formed nevertheless, and what is wrong with the last
one that fails is reported.
-/

namespace LatticeHull
namespace LaneSum

/-!
## Sums in lanes

The order in which machine numbers are added shows in the last digits of their sum.  Long
rows are added in eight lanes side by side: each number goes to the lane of its place,
counted modulo eight, and the lanes are added up at the end.  Two blocks of lanes are
taken at a time, and the numbers that are left over then are added one by one.  So a row
of fewer than sixteen numbers is added from its first number to its last.
-/

def lanes : Nat := 8

/-- The sum of the numbers in a lane, given blocks of one number for each lane. -/
def lane (blocks : List (List Float)) (i : Nat) : Float :=
  (blocks.filterMap (·[i]?)).foldl (· + ·) 0.0

def joined (blocks : List (List Float)) : Float :=
  half 0 + half 1
where
  /-- The sum of every other lane. -/
  half (i : Nat) : Float :=
    (lane blocks i + lane blocks (i + 2)) + (lane blocks (i + 4) + lane blocks (i + 6))

/-- The sum of a row. -/
def sum (terms : List Float) : Float :=
  let count := 2 * (terms.length / (2 * lanes))
  let blocks := Shape.slices lanes count terms
  (terms.drop (count * lanes)).foldl (· + ·) (joined blocks)

/-- A short row is added from its first number to its last. -/
theorem sum_eq_foldl {terms : List Float} (hshort : terms.length < 2 * lanes) :
    sum terms = terms.foldl (· + ·) (joined []) := by
  simp [sum, Nat.div_eq_of_lt hshort, Shape.slices]

end LaneSum

/-! ## Products of rows -/

namespace Format

/-- What a sum of products of entries becomes in a format. -/
def settleSum : Format → Datum.Product → Datum.Product
  | truth, .number (.whole n) => .number (.whole (if n = 0 then 0 else 1))
  | word, .number (.whole n) => .number (.whole (wrapWord n))
  | unsigned, .number (.whole n) => .number (.whole (wrapUnsigned n))
  | _, sum => sum

/-- The product of two rows of machine numbers. -/
def binaryDot (us vs : List Datum) : Except Fault Datum.Product := do
  let terms ← (us.zip vs).mapM fun (a, b) => do
    let x ← (← a.toNumber).toFloat
    let y ← (← b.toNumber).toFloat
    return x * y
  return .number (.binary (LaneSum.sum terms))

/-- The product of two rows of entries, summed from the first entry to the last, where a
fault may be pending. -/
def looseDot (pending : Option Fault) (us vs : List Datum) :
    Except Fault Datum.Product :=
  match us.zip vs with
  | [] => .ok (.number (.binary 0.0))
  | (a, b) :: rest => do
    let first ← Datum.productAmid pending a b
    rest.foldlM
      (fun sum (a, b) => do sum.addAmid pending (← Datum.productAmid pending a b)) first

/-- The product of two rows of entries of a format, where a fault may be pending. -/
def dotAmid (format : Format) (us vs : List Datum) :
    Fault.Amid Datum.Product := fun pending =>
  match format with
  | binary => binaryDot us vs
  | format => format.settleSum <$> looseDot pending us vs

end Format

namespace Table

/-- Whether a table can be multiplied with itself, as far as its shape says: its lines
are as long as its columns, and the product has no more axes than a table may have. -/
def isSquare (t : Table) : Bool :=
  match t.shape.reverse with
  | last :: next :: outer => last = next && 2 * (outer.length + 1) ≤ Datum.maxDepth
  | _ => true

/-- The product of each line of a table with each of its columns. -/
def selfProducts (t : Table) : Except Fault (List Datum.Product) :=
  if t.format = .text then .error (if t.shape.isEmpty then .wrongKind else .misaligned)
  else if !t.isSquare then .error .misaligned
  else Fault.settle (t.rows.flatMap fun line => t.columns.map (t.format.dotAmid line))

def norm (t : Table) : Except Fault Float := do
  match ← t.selfProducts with
  | [square] =>
    if t.shape.length ≤ 1 then (← square.toNumber).sqrt else .error .wrongKind
  | _ => .error .wrongKind

/-- A table divided by its length.  A table of length zero stays as it is,
format included. -/
def unit (t : Table) : Except Fault Table := do
  let length ← t.norm
  if length == 0.0 then return t
  let entries ← t.entries.mapM fun d => do
    let quotient ← (← d.toNumber).div (.binary length)
    return quotient.toDatum
  return { t with format := .binary, entries }

end Table
end LatticeHull
