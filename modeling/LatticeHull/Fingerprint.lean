import LatticeHull.Mesh

/-!
# Fingerprints

A fingerprint is a word computed from an edge or a triangle.  Equal edges have equal
fingerprints, and so do equal triangles, because fingerprints are computed from the
numbers that coordinates stand for and because those of sets do not depend on an order.
Different things may share a fingerprint; in particular minus one and minus two do.

An undefined coordinate has no fingerprint, so nothing that contains one has.
-/

namespace LatticeHull
namespace Fingerprint

/-- The Mersenne prime that the fingerprints of numbers are taken by. -/
def modulusBits : Nat := 61

def ofInfinity : Int := 314159

/-- The remainder of a magnitude by the Mersenne prime, by which a power of two depends
on its exponent modulo the number of bits only. -/
def remainder (a : Binary.Magnitude) : Nat :=
  let shift := (a.exponent % (modulusBits : Int)).toNat
  (a.significand <<< shift) % (1 <<< modulusBits - 1)

/-- The fingerprint of a coordinate.  Minus one is set aside, so minus two
takes its place. -/
def ofCoordinate? (x : Float) : Option UInt64 :=
  if x.isNaN then none
  else
    let size : Int := if x.isFinite then remainder (Binary.magnitude x) else ofInfinity
    let signed := if Binary.isNegative x then -size else size
    some (Int64.ofInt (if signed = -1 then -2 else signed)).toUInt64

def rotate (w : UInt64) : UInt64 :=
  (w <<< 31) ||| (w >>> 33)

/-- The fingerprint of the items so far, joined with that of the next one. -/
def chain (acc item : UInt64) : UInt64 :=
  rotate (acc + item * 14029467366897019727) * 11400714785074694791

/-- The fingerprint of a tuple, from those of its items. -/
def ofTuple (items : List UInt64) : UInt64 :=
  let chained := items.foldl chain 2870177450012600261
  let closed :=
    chained + (items.length.toUInt64 ^^^ ((2870177450012600261 : UInt64) ^^^ 3527539))
  if closed = 18446744073709551615 then 1546275796 else closed

def spread (w : UInt64) : UInt64 :=
  (w ^^^ (89869747 : UInt64) ^^^ (w <<< 16)) * 3644798167

/-- The fingerprint of a set, from those of its distinct members. -/
def ofSet (members : List UInt64) : UInt64 :=
  let joined := members.foldl (fun acc m => acc ^^^ spread m) 0
  let sized := joined ^^^ ((members.length.toUInt64 + 1) * 1927868237)
  let closed := (sized ^^^ ((sized >>> 11) ^^^ (sized >>> 25))) * 69069 + 907133923
  if closed = 18446744073709551615 then 590923713 else closed

def ofRow? (row : List Float) : Option UInt64 :=
  (row.mapM ofCoordinate?).map ofTuple

def ofEdge? (e : Edge (List Float)) : Option UInt64 := do
  let start ← ofRow? e.start
  let stop ← ofRow? e.stop
  return ofSet (if e.start == e.stop then [start] else [start, stop])

def distinct {α : Type} [BEq α] (things : List α) : List α :=
  things.foldl (fun seen a => if seen.contains a then seen else seen ++ [a]) []

/-- The fingerprint of a triangle, that of the set of its edges. -/
def ofTriangle? (t : Triangle Float) : Option UInt64 :=
  ((distinct t.edges).mapM fun e => ofEdge? e.toRows).map ofSet

/-- Whether two fingerprints agree.  A missing one agrees with none. -/
def agree : Option UInt64 → Option UInt64 → Bool
  | some a, some b => a == b
  | _, _ => false

end Fingerprint
end LatticeHull
