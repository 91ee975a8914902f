import LatticeHull.Binary
import LatticeHull.Text

/-!
# Reading and writing coordinates

Coordinates are machine numbers.  They are read from numerals of any length, and they are
written with the fewest digits that read back.
-/

namespace LatticeHull

/-!
## Decimal numbers

A decimal is a natural number of digits with a power of ten.  It is what a numeral
spells and what the digits of a machine number are; `Decimal.toFloat` reads it as
the nearest machine number.

Numerals may carry exponents that no machine number comes near.  Reading looks at the
place of the leading digit first, so the power of ten is only computed where the
result is finite and not zero.
-/

/-- The non-negative number `digits * 10 ^ exponent`. -/
structure Decimal where
  digits : Nat
  exponent : Int
  deriving DecidableEq, Repr

namespace Decimal

def toRat (d : Decimal) : Rat :=
  if 0 ≤ d.exponent then (d.digits * Nat.pow 10 d.exponent.toNat : Nat)
  else mkRat d.digits (Nat.pow 10 (-d.exponent).toNat)

/-- How many places the leading digit stands before the point: a positive decimal lies
below `10 ^ order` and not below `10 ^ (order - 1)`. -/
def order (d : Decimal) : Int :=
  (Nat.toDigits 10 d.digits).length + d.exponent

/-- No finite machine number reaches `10 ^ (overflowOrder - 1)`. -/
def overflowOrder : Int := 310

/-- What lies below `10 ^ underflowOrder` is nearer to zero than to any
other machine number. -/
def underflowOrder : Int := -324

/-- The machine number nearest to a decimal, infinity if it is too large. -/
def toFloat (d : Decimal) : Float :=
  if d.digits = 0 ∨ d.order ≤ underflowOrder then 0.0
  else if overflowOrder ≤ d.order then Float.ofBits Binary.infinityBits.toUInt64
  else Binary.nearest d.toRat

/-!
## The shortest decimal that reads back

Many decimals read as the same machine number.  `Decimal.shortest` picks one with the
fewest digits, among those the nearest to the machine number, and on a tie the one
whose last digit is even.

The search goes through the powers of ten downwards from the leading digit.  On each of
these grids only the two neighbours of the machine number matter: if any point of a grid
reads back, one of them does.  Seventeen digits always suffice; should they not, the
exact value is taken, so the result reads back whatever the search finds.
-/

def maxDigits : Nat := 17

/-- The exact value of a magnitude, which has a finite decimal expansion. -/
def ofMagnitude (a : Binary.Magnitude) : Decimal :=
  if 0 ≤ a.exponent then { digits := a.significand <<< a.exponent.toNat, exponent := 0 }
  else
    { digits := a.significand * Nat.pow 5 (-a.exponent).toNat, exponent := a.exponent }

/-- Whether a decimal reads as the machine number `x`. -/
def readsAs (x : Float) (d : Decimal) : Bool :=
  d.toFloat.toBits == x.toBits

/-- Of the two points next to `value` on the grid `10 ^ exponent`, the one that reads as
`x`: the nearer one if both do, and of two equally near ones the even one. -/
def onGrid? (x : Float) (value : Rat) (exponent : Int) : Option Decimal :=
  let steps := value / toRat { digits := 1, exponent }
  let lower := steps.floor.toNat
  let below : Decimal := { digits := lower, exponent }
  let above : Decimal := { digits := lower + 1, exponent }
  let middle : Rat := mkRat (2 * lower + 1) 2
  match readsAs x below, readsAs x above with
  | true, true =>
    if steps < middle ∨ (steps = middle ∧ lower % 2 = 0) then some below else some above
  | true, false => some below
  | false, true => some above
  | false, false => none

/-- A decimal with the fewest digits that reads as the positive finite
machine number `x`. -/
def shortest (x : Float) : Decimal :=
  let exact := ofMagnitude (Binary.magnitude x)
  let leading := exact.order - 1
  let grids := (List.range maxDigits).map fun i : Nat => leading - i
  (grids.findSome? (onGrid? x exact.toRat)).getD exact

end Decimal

/-!
## Numerals

A numeral is text that spells a number.  Padding may surround it and a sign may
precede it; its digits may come from any script, and single underscores may stand
between them.  A decimal numeral has digits on at least one side of its point and may
end in an exponent, or it is one of the words for infinity and for an undefined
number, in any case of letters.

A whole numeral with very many digits is refused although it is well formed, so reading
one takes a bounded time.
-/

namespace Numeral

def maxWholeDigits : Nat := 4300

/-- The digits that follow a first one, with single underscores between
them, and the rest. -/
def moreDigits : List Char → List Nat × List Char
  | [] => ([], [])
  | '_' :: [] => ([], ['_'])
  | '_' :: c :: rest =>
    match Text.digitValue? c with
    | some d => let (ds, after) := moreDigits rest; (d :: ds, after)
    | none => ([], '_' :: c :: rest)
  | c :: rest =>
    match Text.digitValue? c with
    | some d => let (ds, after) := moreDigits rest; (d :: ds, after)
    | none => ([], c :: rest)

/-- The run of digits that a text begins with, and the rest. -/
def digitRun (text : List Char) : List Nat × List Char :=
  match text with
  | '_' :: _ => ([], text)
  | _ => moreDigits text

def ofDigits (digits : List Nat) : Nat :=
  digits.foldl (fun n d => 10 * n + d) 0

/-- Whether a text begins with a minus sign, and what follows its sign. -/
def sign : List Char → Bool × List Char
  | '-' :: rest => (true, rest)
  | '+' :: rest => (false, rest)
  | text => (false, text)

/-- An exponent and nothing after it; without the mark it is zero. -/
def exponent? : List Char → Option Int
  | [] => some 0
  | c :: rest =>
    if c = 'e' ∨ c = 'E' then
      let (negative, digits) := sign rest
      match digitRun digits with
      | ([], _) => none
      | (ds, []) => some (if negative then -(ofDigits ds : Int) else ofDigits ds)
      | (_, _ :: _) => none
    else none

/-- The part of a numeral behind its sign, if it is spelled with digits. -/
def unsignedDecimal? (text : List Char) : Option Decimal := do
  let (whole, rest) := digitRun text
  let (fraction, rest) :=
    match rest with
    | '.' :: rest => digitRun rest
    | _ => ([], rest)
  if whole.isEmpty && fraction.isEmpty then none
  else
    let exponent ← exponent? rest
    some
      { digits := ofDigits (whole ++ fraction), exponent := exponent - fraction.length }

def unsignedFloat? (text : List Char) : Option Float :=
  let word := String.ofList (text.map Char.toLower)
  if word = "inf" ∨ word = "infinity" then
    some (Float.ofBits Binary.infinityBits.toUInt64)
  else if word = "nan" then some (0.0 / 0.0)
  else (unsignedDecimal? text).map Decimal.toFloat

def float? (text : String) : Option Float :=
  let (negative, size) := sign (Text.trim text.toList)
  (unsignedFloat? size).map fun x => if negative then -x else x

/-- What became of reading a whole numeral. -/
inductive Whole where
  | value (n : Int)
  | malformed
  | tooLong
  deriving DecidableEq, Repr

def whole (text : String) : Whole :=
  let (negative, size) := sign (Text.trim text.toList)
  match digitRun size with
  | ([], _) => .malformed
  | (_, '_' :: _) => .malformed
  | (digits, rest) =>
    if maxWholeDigits < digits.length then .tooLong
    else if !rest.isEmpty then .malformed
    else .value (if negative then -(ofDigits digits : Int) else ofDigits digits)

end Numeral

/-!
## How decimals are laid out

The digits of a machine number are one thing, the way they are written another.
A `Layout` holds the decisions of the second kind: for which sizes the point
stands among the digits, how wide the exponent is otherwise, and how the values
without digits are spelled.

Zero keeps its sign, and a whole number keeps a zero behind the point.
-/

/-- The decisions taken when a machine number is written. -/
structure Layout where
  /-- The least exponent of the leading digit that is written without an exponent. -/
  plainFrom : Int
  /-- The first exponent of the leading digit that is written with an exponent again. -/
  plainBelow : Int
  /-- The least number of exponent digits. -/
  exponentWidth : Nat
  /-- The spelling of a value that is not a number. -/
  undefined : String
  /-- The spelling of positive infinity. -/
  infinite : String

namespace Layout

def zeros (n : Nat) : List Char :=
  List.replicate n '0'

/-- The significant digits of a decimal: no zeros at the end. -/
def significant (d : Decimal) : List Char :=
  ((Nat.toDigits 10 d.digits).reverse.dropWhile (· == '0')).reverse

/-- Digits with the point after the first `place` of them, at least one
digit on either side. -/
def positional (digits : List Char) (place : Int) : List Char :=
  if place ≤ 0 then
    '0' :: '.' :: (zeros (-place).toNat ++ digits)
  else if digits.length ≤ place then
    digits ++ zeros (place - digits.length).toNat ++ ['.', '0']
  else
    digits.take place.toNat ++ '.' :: digits.drop place.toNat

/-- An exponent with its sign, padded with zeros to the given width. -/
def signedExponent (width : Nat) (exponent : Int) : List Char :=
  let digits := Nat.toDigits 10 exponent.natAbs
  (if exponent < 0 then '-' else '+') :: (zeros (width - digits.length) ++ digits)

def scientific (layout : Layout) (digits : List Char) (exponent : Int) : List Char :=
  let fraction := digits.drop 1
  digits.take 1 ++ (if fraction.isEmpty then [] else '.' :: fraction) ++
    'e' :: signedExponent layout.exponentWidth exponent

def decimal (layout : Layout) (d : Decimal) : List Char :=
  if layout.plainFrom < d.order ∧ d.order ≤ layout.plainBelow then
    positional (significant d) d.order
  else
    scientific layout (significant d) (d.order - 1)

def render (layout : Layout) (x : Float) : String :=
  if x.isNaN then layout.undefined
  else
    let size :=
      if x.isInf then layout.infinite.toList
      else if (Binary.magnitude x).significand = 0 then ['0', '.', '0']
      else layout.decimal (Decimal.shortest x.abs)
    String.ofList (if Binary.isNegative x then '-' :: size else size)

end Layout

/-!
## Coordinates as text

Coordinates are machine numbers, and every place that writes one writes it alike: with
the fewest digits that read back, positionally while the leading digit stands between the
fourth place behind the point and the sixteenth before it, and with a signed exponent of
at least two digits otherwise.
-/

namespace Coordinate

def layout : Layout where
  plainFrom := -4
  plainBelow := 16
  exponentWidth := 2
  undefined := "nan"
  infinite := "inf"

def text (x : Float) : String :=
  layout.render x

/-- The coordinate of a value that is not given. -/
def undefined : Float :=
  0.0 / 0.0

end Coordinate
end LatticeHull
