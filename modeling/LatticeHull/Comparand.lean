/-!
# Comparing and counting

Things are compared with each other, and things that are equal are counted together.
-/

namespace LatticeHull

/-!
## What a thing may be compared with

A thing may be compared with itself, with another thing of its kind, or with something
of a different kind.  Being the same comes before being equal: a thing equals itself
even if its parts do not.
-/

/-- What a thing is compared with. -/
inductive Comparand (α : Type) where
  /-- The very same thing. -/
  | itself
  /-- Another thing of its kind. -/
  | another (a : α)
  /-- Something of a different kind. -/
  | foreign
  deriving Repr

def Comparand.equals {α : Type} [BEq α] (a : α) : Comparand α → Bool
  | itself => true
  | another b => a == b
  | foreign => false

/-!
## Tallies

A tally counts how often each thing occurs in a list.  Things are listed in the order in
which they first occur, in the spelling of that first occurrence.
-/

namespace Tally

variable {α : Type}

def count [BEq α] (a : α) : List (α × Nat) → List (α × Nat)
  | [] => [(a, 1)]
  | (b, n) :: rest => if b == a then (b, n + 1) :: rest else (b, n) :: count a rest

/-- How often each thing occurs in a list. -/
def ofList [BEq α] (things : List α) : List (α × Nat) :=
  things.foldl (fun tally a => count a tally) []

end Tally
end LatticeHull
