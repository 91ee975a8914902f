import LatticeHull.Coordinate
import LatticeHull.Text

/-!
# Loosely typed values and their shapes

Points, rows and tags arrive as values of any kind.  Some of these are rectangular
arrangements, and then they have a shape.
-/

namespace LatticeHull

/-!
## Shapes of rectangular arrangements

A nested list is rectangular if the items of each list have the same lengths all the way
down.  Its shape is the list of those lengths, outermost first, and its entries are what
stands at the bottom, row after row.

Two arrangements fit together if their lengths agree, counted from the innermost
one: a length of one is stretched to the other, and lengths that one of them lacks
are taken from the other.
-/

/-- The lengths of a rectangular arrangement, outermost first. -/
abbrev Shape := List Nat

namespace Shape

def size (shape : Shape) : Nat :=
  shape.foldr (· * ·) 1

def text (shape : Shape) : String :=
  Text.tuple (shape.map toString)

/-- As many slices of a given size as are asked for, cut from the front of a
list one after another. -/
def slices {α : Type} (size : Nat) : Nat → List α → List (List α)
  | 0, _ => []
  | n + 1, entries => entries.take size :: slices size n (entries.drop size)

theorem length_slices {α : Type} (size n : Nat) (entries : List α) :
    (slices size n entries).length = n := by
  induction n generalizing entries with
  | zero => rfl
  | succ n ih => simp [slices, ih]

theorem flatten_slices {α : Type} (size n : Nat) (entries : List α)
    (hlen : entries.length = n * size) : (slices size n entries).flatten = entries := by
  induction n generalizing entries with
  | zero => simp_all [slices]
  | succ n ih =>
    have hrest : (entries.drop size).length = n * size := by
      rw [List.length_drop, hlen, Nat.succ_mul]
      omega
    simp [slices, ih _ hrest]

/-- The lengths that two shapes are stretched to, innermost first. -/
def fit? : Shape → Shape → Option Shape
  | [], shape => some shape
  | shape, [] => some shape
  | m :: ms, n :: ns =>
    if m = n ∨ n = 1 then (fit? ms ns).map (m :: ·)
    else if m = 1 then (fit? ms ns).map (n :: ·)
    else none

/-- Shapes fit together in either order, and alike. -/
theorem fit?_comm (s t : Shape) : fit? s t = fit? t s := by
  induction s generalizing t with
  | nil => cases t <;> simp [fit?]
  | cons m ms ih =>
    cases t with
    | nil => simp [fit?]
    | cons n ns =>
      simp only [fit?, ih ns]
      split <;> split <;> grind

def common? (s t : Shape) : Option Shape :=
  (fit? s.reverse t.reverse).map List.reverse

theorem common?_comm (s t : Shape) : common? s t = common? t s := by
  simp [common?, fit?_comm]

def stretchTo {α : Type} : Shape → Shape → List α → List α
  | n :: shape, m :: target, entries =>
    if n = m then (slices (size shape) n entries).flatMap (stretchTo shape target)
    else (List.replicate m (stretchTo shape target entries)).flatten
  | _, _, entries => entries

/-- The entries of an arrangement stretched to a shape that it fits to.  The lengths that
it lacks count as one. -/
def stretch {α : Type} (shape target : Shape) (entries : List α) : List α :=
  stretchTo (List.replicate (target.length - shape.length) 1 ++ shape) target entries

end Shape

/-!
## Loosely typed values

Points, rows and tags arrive as values of any kind: nothing, truth values, whole numbers
of any size, machine numbers, texts, lists and records.  A `Datum` is such a value.  This
module holds how a datum is shown in a message, how it is written into a file, and what
it yields when it is gone through item by item.
-/

/-- A value of any kind. -/
inductive Datum where
  | null
  | truth (b : Bool)
  | whole (n : Int)
  | binary (x : Float)
  | text (s : String)
  | list (items : List Datum)
  | record (fields : List (String × Datum))
  deriving Inhabited

namespace Datum

mutual

/-- A datum as a message shows it. -/
def shown : Datum → String
  | null => "None"
  | truth true => "True"
  | truth false => "False"
  | whole n => toString n
  | binary x => Coordinate.text x
  | text s => Text.quoted s
  | list items => "[" ++ ", ".intercalate (shownItems items) ++ "]"
  | record fields => "\x7b" ++ ", ".intercalate (shownFields fields) ++ "\x7d"

/-- The items of a list as a message shows them. -/
def shownItems : List Datum → List String
  | [] => []
  | item :: rest => shown item :: shownItems rest

def shownFields : List (String × Datum) → List String
  | [] => []
  | field :: rest => shownField field :: shownFields rest

def shownField : String × Datum → String
  | (key, value) => Text.quoted key ++ ": " ++ shown value

end

/-- A datum as it is written into a file: as it is shown, but texts without quotes. -/
def written : Datum → String
  | text s => s
  | d => shown d

/-- What a datum yields item by item: the items of a list, the characters of a text, the
keys of a record.  Other data have no items. -/
def items? : Datum → Option (List Datum)
  | list items => some items
  | text s => some (s.toList.map fun c => text (String.singleton c))
  | record fields => some (fields.map fun field => text field.1)
  | _ => none

/-- Whether a datum counts as true: nothing, zero and all that is empty do not. -/
def isTrue : Datum → Bool
  | null => false
  | truth b => b
  | whole n => n ≠ 0
  | binary x => !(x == 0.0)
  | text s => !s.isEmpty
  | list items => !items.isEmpty
  | record fields => !fields.isEmpty

end Datum
end LatticeHull
