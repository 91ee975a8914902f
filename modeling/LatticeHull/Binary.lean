/-!
# Machine numbers and the numbers they stand for

A finite machine number is a whole significand times a power of two.  This module reads
those two parts off its bits, rounds a fraction back to the nearest machine number, and
says which whole numbers lie next to a machine number.  All arithmetic is exact: nothing
here adds or multiplies machine numbers.

Rounding goes to the nearest machine number; of two equally near ones it takes the one
with an even significand.  A fraction too large for the format becomes infinity.
-/

namespace LatticeHull
namespace Binary

/-- The least exponent of a machine number, that of the subnormal numbers. -/
def leastExponent : Int := -1074

/-- The number of significand bits that are stored, the leading one left out. -/
def storedBits : Nat := 52

/-- The bits of positive infinity, which follow those of the greatest finite number. -/
def infinityBits : Nat := 0x7FF0000000000000

/-- The magnitude of a finite machine number: `significand * 2 ^ exponent`. -/
structure Magnitude where
  significand : Nat
  exponent : Int
  deriving DecidableEq, Repr

def isNegative (x : Float) : Bool :=
  x.toBits >>> 63 == 1

/-- The magnitude that the bits of a finite machine number spell out. -/
def magnitude (x : Float) : Magnitude :=
  let field := ((x.toBits >>> 52) &&& 0x7FF).toNat
  let fraction := (x.toBits &&& 0xFFFFFFFFFFFFF).toNat
  if field = 0 then
    { significand := fraction, exponent := leastExponent }
  else
    { significand := fraction + 1 <<< storedBits,
      exponent := (field : Int) - 1 + leastExponent }

/-- The whole part of a magnitude: what is left of it once its binary
places are cut off. -/
def Magnitude.whole (a : Magnitude) : Nat :=
  if 0 ≤ a.exponent then a.significand <<< a.exponent.toNat
  else a.significand >>> (-a.exponent).toNat

/-- A magnitude has binary places unless it equals its whole part. -/
def Magnitude.isWhole (a : Magnitude) : Bool :=
  0 ≤ a.exponent || a.whole <<< (-a.exponent).toNat == a.significand

def Magnitude.toRat (a : Magnitude) : Rat :=
  if 0 ≤ a.exponent then (a.significand <<< a.exponent.toNat : Nat)
  else mkRat a.significand (1 <<< (-a.exponent).toNat)

def truncate (x : Float) : Int :=
  if isNegative x then -((magnitude x).whole : Int) else (magnitude x).whole

def floor (x : Float) : Int :=
  if isNegative x && !(magnitude x).isWhole then truncate x - 1 else truncate x

/-- The quotient of two natural numbers, rounded to the nearest; a tie
goes to the even one. -/
def roundQuotient (num den : Nat) : Nat :=
  let quotient := num / den
  let rest := num % den
  if 2 * rest < den ∨ (2 * rest = den ∧ quotient % 2 = 0) then quotient else quotient + 1

/-- The greatest `e` with `2 ^ e ≤ num / den`, for positive `num` and `den`. -/
def binaryOrder (num den : Nat) : Int :=
  let estimate := (num.log2 : Int) - den.log2
  if den <<< estimate.toNat ≤ num <<< (-estimate).toNat then estimate else estimate - 1

/-- The bits of the machine number nearest to a fraction, infinity if it is too large.

The exponent field counts steps of `2 ^ storedBits`, so a significand that rounds up to
the next power of two carries into the field and needs no case of its own. -/
def nearestBits (num den : Nat) : Nat :=
  if num = 0 then 0
  else
    let exponent := max (binaryOrder num den - storedBits) leastExponent
    let significand := roundQuotient (num <<< (-exponent).toNat) (den <<< exponent.toNat)
    min ((exponent - leastExponent).toNat <<< storedBits + significand) infinityBits

/-- The machine number nearest to a fraction, infinity if it is too large. -/
def nearest (r : Rat) : Float :=
  let size := Float.ofBits (nearestBits r.num.natAbs r.den).toUInt64
  if r < 0 then -size else size

/-- The machine number nearest to a whole number, or nothing if that would
be infinite. -/
def ofInt? (n : Int) : Option Float :=
  let x := Float.ofInt n
  if x.isFinite then some x else none

end Binary

/-!
## Words

Words hold whole numbers of sixty-four bits, signed or unsigned.  These are the tests for
which whole numbers a word holds.  Where words are read, what they do not hold is
refused; where they are added or multiplied, the result wraps around.
-/

def fitsWord (n : Int) : Bool :=
  Int64.minValue.toInt ≤ n ∧ n ≤ Int64.maxValue.toInt

def fitsUnsigned (n : Int) : Bool :=
  0 ≤ n ∧ n < UInt64.size

/-- The signed word that a whole number wraps around to. -/
def wrapWord (n : Int) : Int :=
  (Int64.ofInt n).toInt

/-- The unsigned word that a whole number wraps around to. -/
def wrapUnsigned (n : Int) : Int :=
  n % UInt64.size

end LatticeHull
