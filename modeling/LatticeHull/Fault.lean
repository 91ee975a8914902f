import LatticeHull.Datum

/-!
# What can go wrong

A fault is the cause for which a request fails.  `Fault.message` gives the wording of
those causes that are reported in words; the others are known by their kind alone.
-/

namespace LatticeHull

inductive Fault where
  /-- A point is required and none is given. -/
  | noPoint
  /-- A datum cannot be read as an arrangement of numbers where a point is required. -/
  | notPoint (value : Datum)
  /-- An arrangement of numbers is not a point. -/
  | pointShape (shape : Shape)
  /-- A point has a coordinate that no block holds. -/
  | notFinite (x y z : Float)
  /-- A text is no decimal numeral. -/
  | notDecimal (text : String)
  /-- A text is no whole numeral. -/
  | notWhole (text : String)
  /-- An entry of a table of texts is no decimal numeral. -/
  | entryNotDecimal (text : String)
  /-- An entry of a table of texts is no whole numeral. -/
  | entryNotWhole (text : String)
  /-- A whole numeral has more digits than are read or written. -/
  | tooManyDigits
  /-- A whole number is too large for a machine number. -/
  | tooLarge
  /-- An undefined number has no whole part. -/
  | undefinedWhole
  /-- An infinite number has no whole part. -/
  | infiniteWhole
  /-- A sum of squares came out negative because it wrapped around. -/
  | negativeSquare
  /-- A vertex does not fit into the words of the bounding box. -/
  | vertexRange
  /-- A displacement does not fit into the words of the bounding box. -/
  | shiftRange
  /-- Three values are required and fewer are given. -/
  | tooFew (got : Nat)
  /-- Three values are required and more are given. -/
  | tooMany
  /-- A list of lists is not rectangular, or nested too deeply. -/
  | ragged
  /-- Two arrangements do not fit together. -/
  | misaligned
  /-- A comparison has several answers where one is required. -/
  | ambiguous
  /-- A datum is of a kind that the operation does not take. -/
  | wrongKind
  /-- A triangle has no edge of this index. -/
  | edgeIndex (index : Datum)
  /-- There is nothing at this index. -/
  | noEntry
  /-- What is to be changed is read-only. -/
  | readOnly
  /-- A row does not have the shape of the rows before it. -/
  | rowShape (shape : Shape)
  /-- A tag is not a text. -/
  | tagNotText
  /-- The block of vertices is given as nothing. -/
  | noVertexBlock
  /-- There is no such file. -/
  | missingFile
  /-- A file holds bytes that are no text. -/
  | notText
  /-- A bounding box is to be drawn with fewer corners than it has. -/
  | tooFewCorners
  /-- A region cannot be changed. -/
  | fixedRegion
  /-- A region does not offer the operation. -/
  | unsupported
  /-- There is no such operation for this kind of region. -/
  | unknownOperation
  /-- A result is too long to be kept. -/
  | outOfMemory

namespace Fault

def maxShown : Nat := 200

/-- The wording for a text that is no whole numeral, shown as far as it is
not too long. -/
def notWholeMessage (shown : String) : String :=
  "invalid literal for int() with base 10: " ++
    String.ofList (shown.toList.take maxShown)

/-- An entry of a table of texts as messages show it. -/
def entryText (text : String) : String :=
  "np.str_(" ++ Text.quoted text ++ ")"

/-- The wording of a fault, for those that are reported in words. -/
def message : Fault → Option String
  | noPoint => some "point cannot be None"
  | notPoint value => some ("cannot interpret " ++ value.shown ++ " as a point")
  | pointShape shape => some ("expected point of shape (3, ), got " ++ shape.text)
  | notFinite x y z =>
    let entries := [x, y, z].map fun c => "np.float64(" ++ Coordinate.text c ++ ")"
    some ("non-finite coordinates " ++ Text.tuple entries)
  | notDecimal text => some ("could not convert string to float: " ++ Text.quoted text)
  | entryNotDecimal text =>
    some ("could not convert string to float: " ++ entryText text)
  | notWhole text => some (notWholeMessage (Text.quoted text))
  | entryNotWhole text => some (notWholeMessage (entryText text))
  | tooFew got =>
    some ("not enough values to unpack (expected 3, got " ++ toString got ++ ")")
  | tooMany => some "too many values to unpack (expected 3)"
  | edgeIndex index => some ("index " ++ index.written ++ " out of range(0, 3)")
  | rowShape shape => some ("cannot add item with shape " ++ shape.text)
  | tagNotText => some "arguments have to be of type 'str'"
  | noVertexBlock => some "'v' block cannot be None"
  | tooFewCorners => some "cannot polygonize a bounding box into less than 4 points"
  | fixedRegion => some "cannot change NullRegion"
  | _ => none

/-- A computation that is made while the fault of an earlier one may be pending. -/
abbrev Amid (α : Type) := Option Fault → Except Fault α

/-- The results of computations that are all made, whatever comes out of those before.
The fault of one is pending while the next ones are made, and of several faults the
last one is reported. -/
def settleAmid {α : Type} : List (Amid α) → Amid (List α)
  | [], none => .ok []
  | [], some fault => .error fault
  | compute :: rest, pending =>
    match compute pending with
    | .error fault => settleAmid rest (some fault)
    | .ok result => (settleAmid rest pending).map (result :: ·)

/-- The results of computations that are all made, with nothing pending
before the first one. -/
def settle {α : Type} (computations : List (Amid α)) : Except Fault (List α) :=
  settleAmid computations none

/-- A pending fault does not go away. -/
theorem settleAmid_some {α : Type} (computations : List (Amid α)) (fault : Fault) :
    ∃ last, settleAmid computations (some fault) = .error last := by
  induction computations generalizing fault with
  | nil => exact ⟨fault, rfl⟩
  | cons compute rest ih =>
    cases h : compute (some fault) with
    | error next => simpa [settleAmid, h] using ih next
    | ok result =>
      obtain ⟨last, hlast⟩ := ih fault
      exact ⟨last, by simp [settleAmid, h, hlast, Except.map]⟩

/-- Computations settle on results if each of them has one by itself. -/
theorem settle_eq_ok_iff {α : Type} {computations : List (Amid α)} {results : List α} :
    settle computations = .ok results ↔ computations.map (· none) = results.map .ok := by
  induction computations generalizing results with
  | nil => cases results <;> simp [settle, settleAmid]
  | cons compute rest ih =>
    cases h : compute none with
    | error fault =>
      obtain ⟨last, hlast⟩ := settleAmid_some rest fault
      cases results <;> simp [settle, settleAmid, h, hlast]
    | ok result =>
      cases results with
      | nil =>
        cases hrest : settleAmid rest none <;>
          simp [settle, settleAmid, h, hrest, Except.map]
      | cons a as =>
        have ih := @ih as
        cases hrest : settleAmid rest none <;>
          simp_all [settle, settleAmid, Except.map]

end Fault
end LatticeHull
