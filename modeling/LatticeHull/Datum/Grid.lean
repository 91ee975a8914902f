import LatticeHull.Coordinate
import LatticeHull.Fault

/-!
# Rectangular arrangements of coordinates

A datum is read as an arrangement of coordinates in two steps.  Whether it is rectangular
is settled first, and only then its entries are looked at.

An entry counts as a coordinate if it is a number, a truth value or a decimal numeral.  A
missing entry is an undefined coordinate.

An arrangement is written in brackets, its numbers below each other.
-/

namespace LatticeHull
namespace Datum

/-- The deepest nesting that is read as a rectangular arrangement. -/
def maxDepth : Nat := 64

mutual

/-- The lengths of a rectangular datum, however deep.  What is no list has no lengths. -/
def lengths? : Datum → Option Shape
  | list items => (commonLengths? items).map (items.length :: ·)
  | _ => some []

/-- The lengths that all items share. -/
def commonLengths? : List Datum → Option Shape
  | [] => some []
  | [item] => lengths? item
  | item :: next :: rest => do
    let first ← lengths? item
    let others ← commonLengths? (next :: rest)
    if first = others then some first else none

end

def shape? (d : Datum) : Option Shape :=
  d.lengths?.filter (·.length ≤ maxDepth)

mutual

def entries : Datum → List Datum
  | list items => entriesOf items
  | d => [d]

def entriesOf : List Datum → List Datum
  | [] => []
  | item :: rest => entries item ++ entriesOf rest

end

/-- A number, a truth value or a decimal numeral as a coordinate. -/
def toCoordinate : Datum → Except Fault Float
  | truth b => .ok (if b then 1.0 else 0.0)
  | whole n =>
    match Binary.ofInt? n with
    | some x => .ok x
    | none => .error .tooLarge
  | binary x => .ok x
  | text s =>
    match Numeral.float? s with
    | some x => .ok x
    | none => .error (.notDecimal s)
  | _ => .error .wrongKind

/-- An entry of an arrangement as a coordinate, undefined if it is missing. -/
def toEntry : Datum → Except Fault Float
  | null => .ok Coordinate.undefined
  | d => d.toCoordinate

/-- A nested list of a given shape with the given entries. -/
def nest : Shape → List Datum → Datum
  | [], entries => entries.headD null
  | n :: shape, entries =>
    list ((Shape.slices (Shape.size shape) n entries).map (nest shape))

end Datum

/-- A rectangular arrangement of coordinates, its entries row after row. -/
structure Grid where
  shape : Shape
  entries : List Float

namespace Grid

/-- Reads a datum as a rectangular arrangement.  Of several entries that are no
coordinates, the first one is reported. -/
def ofDatum (d : Datum) : Except Fault Grid :=
  match d.shape? with
  | none => .error .ragged
  | some shape => do
    let entries ← d.entries.mapM Datum.toEntry
    return { shape, entries }

def toDatum (g : Grid) : Datum :=
  Datum.nest g.shape (g.entries.map .binary)

/-- The parts of an arrangement along its first axis.  A single coordinate has none. -/
def parts? (g : Grid) : Option (List Grid) :=
  match g.shape with
  | [] => none
  | n :: shape =>
    some ((Shape.slices (Shape.size shape) n g.entries).map fun entries =>
      { shape, entries })

end Grid

/-!
## Numbers in columns

Machine numbers that stand together are written so that their points are below each
other.  Each number has at most eight digits behind the point: the fewest that read back,
or, if these are more, those of its exact value rounded to eight.  Either all numbers
have an exponent or none has: they have one if some are very large or very small, or if
their sizes differ a lot.

A `Column` holds what the numbers of one arrangement have in common.  Numbers without
an exponent are filled up with blanks on both sides.  Numbers with one all have the
same number of digits, those of their exact values: the fewest that read back only say
how many digits these are.
-/

/-- A finite machine number taken apart: the digits before the point with their sign, the
digits behind it, and the exponent. -/
structure Spelling where
  before : List Char
  behind : List Char
  exponent : Int

namespace Spelling

def maxPlaces : Nat := 8

/-- The decimal nearest to a magnitude on the grid `10 ^ exponent`.  A tie
goes to the even one. -/
def nearestOnGrid (a : Binary.Magnitude) (exponent : Int) : Decimal :=
  let steps := a.toRat / Decimal.toRat { digits := 1, exponent }
  { digits := Binary.roundQuotient steps.num.natAbs steps.den, exponent }

/-- The digits of a decimal before the point and behind it. -/
def atPoint (d : Decimal) : List Char × List Char :=
  let digits := Layout.significant d
  if d.order ≤ 0 then (['0'], Layout.zeros (-d.order).toNat ++ digits)
  else
    let place := d.order.toNat
    ((digits ++ Layout.zeros (place - digits.length)).take place, digits.drop place)

/-- The digits before the point with the sign of a machine number. -/
def signed (x : Float) (digits : List Char) : List Char :=
  if Binary.isNegative x then '-' :: digits else digits

def positional (x : Float) : Spelling :=
  let a := Binary.magnitude x
  let (before, behind) :=
    if a.significand = 0 then (['0'], [])
    else
      let (before, behind) := atPoint (Decimal.shortest x.abs)
      if behind.length ≤ maxPlaces then (before, behind)
      else atPoint (nearestOnGrid a (-maxPlaces))
  { before := signed x before, behind, exponent := 0 }

/-- The decimal nearest to a magnitude that has a number of digits behind
the leading one. -/
def nearestTo (places : Nat) (a : Binary.Magnitude) : Decimal :=
  nearestOnGrid a ((Decimal.ofMagnitude a).order - (places + 1))

/-- A finite machine number with an exponent, its digits taken from a
decimal unless it is zero. -/
def withExponent (x : Float) (choose : Binary.Magnitude → Decimal) : Spelling :=
  let a := Binary.magnitude x
  if a.significand = 0 then { before := signed x ['0'], behind := [], exponent := 0 }
  else
    let d := choose a
    let digits := Layout.significant d
    { before := signed x (digits.take 1), behind := digits.drop 1,
      exponent := d.order - 1 }

/-- A finite machine number with an exponent and no more digits than it needs. -/
def scientific (x : Float) : Spelling :=
  withExponent x fun a =>
    let d := Decimal.shortest x.abs
    if (Layout.significant d).length ≤ maxPlaces + 1 then d else nearestTo maxPlaces a

/-- A finite machine number with an exponent and a given number of digits behind the
point, less the zeros at its end. -/
def scientificTo (places : Nat) (x : Float) : Spelling :=
  withExponent x (nearestTo places)

end Spelling

/-- What the numbers of one arrangement have in common. -/
structure Column where
  /-- Whether they have an exponent. -/
  isScientific : Bool
  /-- The number of characters before the point. -/
  before : Nat
  /-- The number of digits behind the point. -/
  behind : Nat
  /-- The number of digits of the exponent. -/
  exponentWidth : Nat

namespace Column

def widest (widths : List Nat) : Nat :=
  widths.foldl max 0

/-- Whether numbers of these sizes are written with an exponent. -/
def needsExponent (sizes : List Float) : Bool :=
  match sizes.filter (0.0 < ·) with
  | [] => false
  | first :: rest =>
    let greatest := rest.foldl (fun a b => if a < b then b else a) first
    let least := rest.foldl (fun a b => if b < a then b else a) first
    100000000.0 ≤ greatest || least < 0.0001 || 1000.0 < greatest / least

/-- How many characters follow the digits before the point. -/
def tail (c : Column) : Nat :=
  1 + c.behind + if c.isScientific then c.exponentWidth + 2 else 0

/-- The spelling of a number that is not finite. -/
def infiniteText (x : Float) : List Char :=
  if x.isNaN then ['n', 'a', 'n']
  else if Binary.isNegative x then ['-', 'i', 'n', 'f']
  else ['i', 'n', 'f']

/-- The column that takes some numbers. -/
def ofFloats (xs : List Float) : Column :=
  let finite := xs.filter Float.isFinite
  let isScientific := needsExponent (finite.map Float.abs)
  let spellings :=
    finite.map (if isScientific then Spelling.scientific else Spelling.positional)
  let exponents := spellings.map fun s => (Nat.toDigits 10 s.exponent.natAbs).length
  let column : Column :=
    { isScientific
      before := widest (spellings.map (·.before.length))
      behind := widest (spellings.map (·.behind.length))
      exponentWidth := max 2 (widest exponents) }
  let infinite := (xs.filter fun x => !x.isFinite).map fun x => (infiniteText x).length
  { column with before := max column.before (widest infinite - column.tail) }

def blanks (width length : Nat) : List Char :=
  List.replicate (width - length) ' '

/-- A number as it stands in a column. -/
def render (c : Column) (x : Float) : String :=
  String.ofList <|
    if !x.isFinite then
      let text := infiniteText x
      blanks (c.before + c.tail) text.length ++ text
    else if c.isScientific then
      let s := Spelling.scientificTo c.behind x
      blanks c.before s.before.length ++ s.before ++ '.' ::
        (s.behind ++ Layout.zeros (c.behind - s.behind.length)) ++
        'e' :: Layout.signedExponent c.exponentWidth s.exponent
    else
      let s := Spelling.positional x
      blanks c.before s.before.length ++ s.before ++ '.' :: s.behind ++
        blanks c.behind s.behind.length

end Column

/-!
## Arrangements in brackets

An arrangement is written with a pair of brackets around each of its parts.  The
coordinates of a row stand in one column and are separated by blanks; a row that
is too long goes on in another line.  The parts along the other axes stand in
lines of their own.  Of an arrangement with very many coordinates only the outer
parts along each axis are written.

A single coordinate is written by itself.
-/

namespace Grid

/-- The width that lines are kept within. -/
def lineWidth : Nat := 75

/-- The number of coordinates up to which all of them are written. -/
def fullSize : Nat := 1000

/-- How many parts at either end stand for a long list of parts. -/
def edgeParts : Nat := 3

def visible {α : Type} (isCut : Bool) (parts : List α) : List (Option α) :=
  if isCut ∧ 2 * edgeParts < parts.length then
    (parts.take edgeParts).map some ++
      none :: (parts.drop (parts.length - edgeParts)).map some
  else parts.map some

/-- The coordinates that are written, given the entries of an arrangement
of some shape. -/
def visibleEntries : Shape → List Float → List Float
  | [], entries => entries
  | n :: shape, entries =>
    (visible true (Shape.slices (Shape.size shape) n entries)).flatMap fun part =>
      match part with
      | some entries => visibleEntries shape entries
      | none => []

def blanks (n : Nat) : List Char :=
  List.replicate n ' '

def trimEnd (line : List Char) : List Char :=
  (line.reverse.dropWhile (· == ' ')).reverse

/-- Puts words into lines, with a blank behind each but the last.  A word goes into a new
line if the current one has no room for it, unless the new line would have no more. -/
def wrapWords (indent width : Nat) : List (List Char) → List Char → List Char
  | [], line => line
  | word :: rest, line =>
    let gap := if rest.isEmpty then [] else [' ']
    if width < line.length + word.length ∧ indent < line.length then
      trimEnd line ++ '\n' :: wrapWords indent width rest (blanks indent ++ word ++ gap)
    else
      wrapWords indent width rest (line ++ word ++ gap)

/-- What is written in place of parts that are left out. -/
def dots : List Char := ['.', '.', '.']

/-- An arrangement in brackets, as a part of another one at some depth. -/
def bracketed (column : Column) (isCut : Bool) : Nat → Shape → List Float → List Char
  | _, [], entries => (column.render (entries.headD Coordinate.undefined)).toList
  | depth, [n], entries =>
    let indent := depth + 1
    let words := (visible isCut (entries.take n)).map fun entry =>
      match entry with
      | some x => (column.render x).toList
      | none => dots
    let lines := wrapWords indent (lineWidth - depth - 1) words (blanks indent)
    '[' :: lines.drop indent ++ [']']
  | depth, n :: m :: shape, entries =>
    let slices := Shape.slices (Shape.size (m :: shape)) n entries
    let parts := (visible isCut slices).map fun part =>
      match part with
      | some entries => bracketed column isCut (depth + 1) (m :: shape) entries
      | none => dots
    let gap := List.replicate (shape.length + 1) '\n' ++ blanks (depth + 1)
    '[' :: gap.intercalate parts ++ [']']

def text (g : Grid) : String :=
  if g.shape.isEmpty then Coordinate.text (g.entries.headD Coordinate.undefined)
  else if g.entries.isEmpty then "[]"
  else
    let isCut := decide (fullSize < g.entries.length)
    let shown := if isCut then visibleEntries g.shape g.entries else g.entries
    String.ofList (bracketed (.ofFloats shown) isCut 0 g.shape g.entries)

end Grid
end LatticeHull
