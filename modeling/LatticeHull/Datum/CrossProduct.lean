import LatticeHull.Binary
import LatticeHull.Number
import LatticeHull.Table

/-!
# Products of data

Data are multiplied as numbers or repeated as sequences.  A cross product
is made of such products.
-/

namespace LatticeHull
namespace Datum

/-!
## Products of loosely typed values

Numbers are multiplied as numbers.  Besides, a list or a text may be multiplied by a
whole number, which repeats it.  What comes out is a sequence, of which only the length
could matter, and that only if it is too great.
-/

/-- What two data make if they are multiplied. -/
inductive Product where
  | number (a : Number)
  | sequence

def mostItems : Int := Int64.maxValue.toInt

/-- The most octets that are kept in memory. -/
def mostOctets : Int := 68719476736

/-- A sequence of `length` items, repeated where a fault may be pending. -/
def repeatedAmid (pending : Option Fault) (length : Nat) (octetsPerItem : Int)
    (tooLong : Fault) (times : Int) : Except Fault Product := do
  Number.heed pending times
  if !fitsWord times then .error .tooLarge
  else if mostItems < length * times then .error tooLong
  else if mostOctets < length * times * octetsPerItem then .error .outOfMemory
  else return .sequence

/-- A datum repeated where a fault may be pending, if it is a sequence. -/
def timesAmid (pending : Option Fault) (d : Datum) (n : Int) : Except Fault Product :=
  match d with
  | text s => repeatedAmid pending s.length 1 .tooLarge n
  | list items => repeatedAmid pending items.length 8 .outOfMemory n
  | _ => .error .wrongKind

/-- The product of two data, where a fault may be pending. -/
def productAmid (pending : Option Fault) (a b : Datum) : Except Fault Product :=
  match Number.ofDatum? a, Number.ofDatum? b with
  | some m, some n => .number <$> m.mulAmid pending n
  | none, some (.whole n) => a.timesAmid pending n
  | some (.whole n), none => b.timesAmid pending n
  | _, _ => .error .wrongKind

def product (a b : Datum) : Except Fault Product :=
  productAmid none a b

namespace Product

def addAmid (pending : Option Fault) : Product → Product → Except Fault Product
  | number m, number n => number <$> m.addAmid pending n
  | sequence, sequence => .ok sequence
  | _, _ => .error .wrongKind

/-- A product that has to be a number. -/
def toNumber : Product → Except Fault Number
  | number a => .ok a
  | sequence => .error .wrongKind

end Product

/-!
## Cross products of loosely typed values

The cross product of two data of three items each is exact where only whole numbers meet.
Besides numbers, a list or a text may be multiplied by a whole number, which repeats it;
but since nothing can be subtracted from what comes out, all that shows of it is what is
wrong with the number of repetitions.
-/

def minor (a b c d : Datum) : Except Fault Datum := do
  let p ← product a b
  let q ← product c d
  return (← (← p.toNumber).sub (← q.toNumber)).toDatum

def three (d : Datum) : Except Fault (Datum × Datum × Datum) :=
  match d.items? with
  | none => .error .wrongKind
  | some [a, b, c] => .ok (a, b, c)
  | some items => .error (if items.length < 3 then .tooFew items.length else .tooMany)

/-- The cross product of two data of three items each. -/
def cross (u v : Datum) : Except Fault Table := do
  let (u₀, u₁, u₂) ← three u
  let (v₀, v₁, v₂) ← three v
  let x ← minor u₁ v₂ u₂ v₁
  let y ← minor u₂ v₀ u₀ v₂
  let z ← minor u₀ v₁ u₁ v₀
  return Table.ofEntries [3] [x, y, z]

end Datum
end LatticeHull
