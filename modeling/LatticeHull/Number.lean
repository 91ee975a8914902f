import LatticeHull.Coordinate
import LatticeHull.Fault

/-!
# Whole and machine numbers together

Whole numbers of any size and machine numbers occur side by side.  Arithmetic between
whole numbers is exact.  As soon as a machine number takes part, the whole number is
rounded to the nearest machine number first, which fails if there is none that large.
Comparisons are always exact and never fail.

That rounding has failed is told by the answer `-1` while a fault is pending.
So where a fault of an earlier computation is still pending, the number `-1`
itself counts as a failure.
-/

namespace LatticeHull

inductive Number where
  | whole (n : Int)
  | binary (x : Float)

namespace Number

def ofDatum? : Datum → Option Number
  | .truth b => some (whole (if b then 1 else 0))
  | .whole n => some (whole n)
  | .binary x => some (binary x)
  | _ => none

def toFloat : Number → Except Fault Float
  | whole n =>
    match Binary.ofInt? n with
    | some x => .ok x
    | none => .error .tooLarge
  | binary x => .ok x

/-- A whole number that is read while a fault may be pending. -/
def heed (pending : Option Fault) (n : Int) : Except Fault Unit :=
  match pending with
  | some fault => if n = -1 then .error fault else .ok ()
  | none => .ok ()

/-- A number as a machine number, where a fault may be pending. -/
def toFloatAmid (pending : Option Fault) : Number → Except Fault Float
  | whole n => do
    heed pending n
    (whole n).toFloat
  | binary x => .ok x

@[simp] theorem toFloatAmid_none (a : Number) : a.toFloatAmid none = a.toFloat := by
  cases a <;> rfl

/-- Joins two numbers, exactly if both are whole. -/
def combine (exactly : Int → Int → Int) (rounded : Float → Float → Float)
    (pending : Option Fault) : Number → Number → Except Fault Number
  | whole m, whole n => .ok (whole (exactly m n))
  | a, b => do
    let x ← a.toFloatAmid pending
    let y ← b.toFloatAmid pending
    return binary (rounded x y)

def addAmid : Option Fault → Number → Number → Except Fault Number :=
  combine (· + ·) (· + ·)

/-- The product of two numbers, where a fault may be pending. -/
def mulAmid : Option Fault → Number → Number → Except Fault Number :=
  combine (· * ·) (· * ·)

def add : Number → Number → Except Fault Number :=
  addAmid none

def sub : Number → Number → Except Fault Number :=
  combine (· - ·) (· - ·) none

def mul : Number → Number → Except Fault Number :=
  mulAmid none

def div (a b : Number) : Except Fault Number := do
  let x ← a.toFloat
  let y ← b.toFloat
  return binary (x / y)

def sqrt (a : Number) : Except Fault Float := do
  let x ← a.toFloat
  if x < 0.0 then .error .negativeSquare else .ok x.sqrt

def wholeAtMost (n : Int) (x : Float) : Bool :=
  if x.isFinite then n ≤ Binary.floor x else 0.0 < x

/-- Whether the first number is at most the second.  An undefined number
is not comparable. -/
def atMost : Number → Number → Bool
  | whole m, whole n => m ≤ n
  | whole m, binary y => wholeAtMost m y
  | binary x, whole n => wholeAtMost (-n) (-x)
  | binary x, binary y => x ≤ y

def toDatum : Number → Datum
  | whole n => .whole n
  | binary x => .binary x

end Number

def Datum.toNumber (d : Datum) : Except Fault Number :=
  match Number.ofDatum? d with
  | some n => .ok n
  | none => .error .wrongKind

/-!
## Whole parts

The whole part of a number is what is left of it once its places behind the point are cut
off.  Data of other kinds have a whole part if they stand for a number: truth values do,
and so do texts that are whole numerals.
-/

/-- The whole part of a machine number, rounded towards zero. -/
def Binary.wholePart (x : Float) : Except Fault Int :=
  if x.isNaN then .error .undefinedWhole
  else if x.isInf then .error .infiniteWhole
  else .ok (truncate x)

def Numeral.readWhole (text : String) : Except Fault Int :=
  match whole text with
  | .value n => .ok n
  | .malformed => .error (.notWhole text)
  | .tooLong => .error .tooManyDigits

def Datum.toWhole : Datum → Except Fault Int
  | truth b => .ok (if b then 1 else 0)
  | whole n => .ok n
  | binary x => Binary.wholePart x
  | text s => Numeral.readWhole s
  | _ => .error .wrongKind

end LatticeHull
