import LatticeHull.Binary
import LatticeHull.Datum
import LatticeHull.Datum.Grid
import LatticeHull.Number

/-!
# Tables

A table is a rectangular arrangement of data in one format.  A single datum is a table
too, one without lengths.  Corners of boxes, vectors and displacements are tables before
anything else is known about them.
-/

namespace LatticeHull

/-!
## Formats of entries

All entries of a table have one format, the narrowest that takes each of them.  Formats
are ordered: truth values are below signed and unsigned words, both of which are below
machine numbers, and texts are above all of these.  Signed and unsigned words have no
common format but that of machine numbers.  Whatever is neither a number of these formats
nor a text makes a table mixed, and the entries of a mixed table are left as they are.
-/

/-- What all entries of a table are. -/
inductive Format where
  | truth
  | word
  | unsigned
  | binary
  | text
  | mixed
  deriving DecidableEq, Repr

namespace Format

/-- The narrowest format that takes the entries of two formats. -/
def join : Format → Format → Format
  | truth, f => f
  | f, truth => f
  | mixed, _ => mixed
  | _, mixed => mixed
  | text, _ => text
  | _, text => text
  | word, word => word
  | unsigned, unsigned => unsigned
  | _, _ => binary

theorem join_comm (f g : Format) : f.join g = g.join f := by
  cases f <;> cases g <;> rfl

theorem join_assoc (f g h : Format) : (f.join g).join h = f.join (g.join h) := by
  cases f <;> cases g <;> cases h <;> rfl

@[simp] theorem join_self (f : Format) : f.join f = f := by
  cases f <;> rfl

/-- The narrowest format of a single entry. -/
def ofEntry : Datum → Format
  | .truth _ => truth
  | .whole n => if fitsWord n then word else if fitsUnsigned n then unsigned else mixed
  | .binary _ => binary
  | .text _ => text
  | _ => mixed

def ofEntries : List Datum → Format
  | [] => binary
  | entries => entries.foldl (fun f d => f.join (ofEntry d)) truth

/-- A number as a machine number; other data stay as they are. -/
def rounded : Datum → Datum
  | .truth b => .binary (if b then 1.0 else 0.0)
  | .whole n => .binary (Float.ofInt n)
  | d => d

/-- A truth value as a word; other data stay as they are. -/
def counted : Datum → Datum
  | .truth b => .whole (if b then 1 else 0)
  | d => d

/-- A text without the null characters at its end, which tables do not keep. -/
def stripped (s : String) : String :=
  String.ofList (s.toList.reverse.dropWhile (· == '\x00')).reverse

/-- An entry of a narrower format in this one. -/
def enter : Format → Datum → Datum
  | truth, d => d
  | word, d => counted d
  | unsigned, d => counted d
  | binary, d => rounded d
  | text, d => .text (stripped d.written)
  | mixed, d => d

end Format

/-! ## Entries in one format -/

structure Table where
  shape : Shape
  format : Format
  entries : List Datum

namespace Table

/-- Entries of a given shape, brought into the narrowest format that takes them all. -/
def ofEntries (shape : Shape) (entries : List Datum) : Table :=
  let format := Format.ofEntries entries
  { shape, format, entries := entries.map format.enter }

def ofDatum (d : Datum) : Except Fault Table :=
  match d.shape? with
  | none => .error .ragged
  | some shape => .ok (ofEntries shape d.entries)

def ofWholes (ns : List Int) : Table :=
  ofEntries [ns.length] (ns.map .whole)

/-- What stands for a table that is not given. -/
def missing : Table :=
  ofEntries [] [.null]

def toDatum (t : Table) : Datum :=
  Datum.nest t.shape t.entries

/-- The fault of reading an entry of a table, for the fault of reading it by itself. -/
def faultIn (format : Format) : Fault → Fault
  | .notWhole s => if format = .text then .entryNotWhole s else .notWhole s
  | .notDecimal s => if format = .text then .entryNotDecimal s else .notDecimal s
  | fault => fault

/-- Reads each entry of a table.  Of several faults the first one is reported. -/
def readEntries {α : Type} (read : Datum → Except Fault α) (t : Table) :
    Except Fault (List α) :=
  (t.entries.mapM read).mapError (faultIn t.format)

/-- The whole parts of the entries of a row.  A table of another shape has none. -/
def toWholes (t : Table) : Except Fault (List Int) :=
  match t.shape with
  | [_] => t.readEntries Datum.toWhole
  | _ => .error .wrongKind

/-- The entries of a table as coordinates. -/
def toGrid (t : Table) : Except Fault Grid := do
  let entries ← t.readEntries Datum.toEntry
  return { shape := t.shape, entries }

def rows (t : Table) : List (List Datum) :=
  match t.shape.reverse with
  | [] => [t.entries]
  | last :: outer => Shape.slices last (Shape.size outer) t.entries

/-- The columns of a block of lines, given as many lines of a length. -/
def columnsOf : Nat → List (List Datum) → List (List Datum)
  | n, lines => (List.range n).map fun i => lines.filterMap (·[i]?)

/-- The lines of a table along its last axis but one, or along its only one. -/
def columns (t : Table) : List (List Datum) :=
  match t.shape.reverse with
  | last :: n :: outer =>
    (Shape.slices (n * last) (Shape.size outer) t.entries).flatMap fun entries =>
      columnsOf last (Shape.slices last n entries)
  | _ => [t.entries]

/-- The length of the columns of a table that has any. -/
def depth? (t : Table) : Option Nat :=
  match t.shape.reverse with
  | [] => none
  | [n] => some n
  | _ :: n :: _ => some n

end Table

/-!
## Sums and comparisons of tables

Two tables are added and compared entry by entry, after their shapes have been stretched
to a common one.  The format decides how entries are added: words wrap around, machine
numbers are rounded, and the entries of mixed tables are added as the numbers they are.
Texts are never added, and they are compared with texts only.
-/

/-- The two sides of zero. -/
inductive Side where
  | negative
  | positive

namespace Side

def opposite : Side → Side
  | negative => positive
  | positive => negative

/-- Whether a number is on a side.  Zero is on both, an undefined number on none. -/
def has : Side → Number → Bool
  | negative, a => a.atMost (.whole 0)
  | positive, a => Number.atMost (.whole 0) a

end Side

namespace Format

def zero : Format → Datum
  | binary => .binary 0.0
  | _ => .whole 0

/-- The sum of two entries of a format.  That of truth values is true if
one of them is. -/
def add (format : Format) (a b : Datum) : Except Fault Datum := do
  let sum ← (← a.toNumber).add (← b.toNumber)
  match format, sum with
  | truth, .whole n => return .truth (n ≠ 0)
  | word, .whole n => return .whole (wrapWord n)
  | unsigned, .whole n => return .whole (wrapUnsigned n)
  | _, sum => return sum.toDatum

end Format

namespace Table

/-- Applies an operation to the entries of two tables that stand at the same place once
both are stretched to a common shape. -/
def zip {α : Type} (f : Datum → Datum → Except Fault α) (t u : Table) :
    Except Fault (Shape × List α) :=
  match Shape.common? t.shape u.shape with
  | none => .error .misaligned
  | some shape => do
    let ts := Shape.stretch t.shape shape t.entries
    let us := Shape.stretch u.shape shape u.entries
    let entries ← (ts.zip us).mapM fun (a, b) => f a b
    return (shape, entries)

/-- An entry as far as it is on one side of zero.  An undefined machine number stays as
it is, unless it is an entry of a mixed table. -/
def entryPart (format : Format) (side : Side) (d : Datum) : Except Fault Datum := do
  let a ← d.toNumber
  let kept := if format = .mixed then side.has a else !side.opposite.has a
  return if kept then d else format.zero

/-- The entries of a table as far as they are on one side of zero.  Truth
values are counted. -/
def part (side : Side) (t : Table) : Except Fault Table := do
  if t.format = .text then .error .wrongKind
  else
    let format := if t.format = .truth then .word else t.format
    let entries ← (t.entries.map format.enter).mapM (entryPart t.format side)
    return { t with format, entries }

def add (t u : Table) : Except Fault Table := do
  let format := t.format.join u.format
  if format = .text then .error .wrongKind
  else
    let (shape, entries) ←
      zip (fun a b => format.add (format.enter a) (format.enter b)) t u
    return { shape, format, entries }

/-- Whether an entry is at most another one.  Only numbers are compared with numbers
and texts with texts. -/
def entryAtMost (format : Format) (a b : Datum) : Except Fault Bool :=
  match a, b with
  | .text r, .text s => .ok !(decide (s < r))
  | a, b => do
    let a := if format = .binary then Format.rounded a else a
    let b := if format = .binary then Format.rounded b else b
    return (← a.toNumber).atMost (← b.toNumber)

/-- The format in which the entries of two tables are compared.  Words of both kinds are
compared as the whole numbers they are. -/
def comparedIn (t u : Table) : Format :=
  if t.format = .binary ∨ u.format = .binary then t.format.join u.format else .mixed

/-- Whether no entry of a table is above that of another one at the same place. -/
def atMost (t u : Table) : Except Fault Bool := do
  if t.format.join u.format = .text ∧ t.format ≠ u.format then .error .wrongKind
  else
    let (_, answers) ← zip (entryAtMost (t.comparedIn u)) t u
    return answers.all id

end Table

/-!
## Tables and bare numbers

A whole number by itself is no table.  It has no format but takes that of the table it
meets, and it has to fit into that: only where it is compared with words does it not
matter how great it is.  Two bare numbers are added exactly.

Arithmetic on single numbers that no format holds makes bare numbers, and these stay bare
until they meet a table that has a format.
-/

/-- What is added and compared: a table or a bare whole number. -/
inductive Operand where
  | table (t : Table)
  | whole (n : Int)

namespace Operand

/-- A table that has been computed, as an operand.  A single number that
has no format is bare. -/
def ofResult : Table → Operand
  | { shape := [], format := .mixed, entries := [.whole n] } => whole n
  | { shape := [], format := .mixed, entries := [.binary x] } =>
    table { shape := [], format := .binary, entries := [.binary x] }
  | t => table t

/-- An operand as a table.  A bare number is put into the narrowest format
that takes it. -/
def toTable : Operand → Table
  | table t => t
  | whole n => Table.ofEntries [] [.whole n]

/-- A table of a single entry. -/
def single (format : Format) (d : Datum) : Table :=
  { shape := [], format, entries := [d] }

/-- A bare number in a format that it is added in. -/
def inFormat (format : Format) (n : Int) : Except Fault Table :=
  match format with
  | .truth | .word =>
    if fitsWord n then .ok (single .word (.whole n)) else .error .tooLarge
  | .unsigned =>
    if fitsUnsigned n then .ok (single .unsigned (.whole n)) else .error .tooLarge
  | .binary => do
    let x ← (Number.whole n).toFloat
    return single .binary (.binary x)
  | .text | .mixed => .ok (single .mixed (.whole n))

/-- A bare number as it is compared with the entries of a format.  Words of both kinds
are compared with it as the whole numbers they are. -/
def besideFormat (format : Format) (n : Int) : Except Fault Table :=
  match format with
  | .word | .unsigned => .ok (single .mixed (.whole n))
  | format => inFormat format n

def add : Operand → Operand → Except Fault Operand
  | whole m, whole n => .ok (whole (m + n))
  | whole m, table u => do return ofResult (← (← inFormat u.format m).add u)
  | table t, whole n => do return ofResult (← t.add (← inFormat t.format n))
  | table t, table u => ofResult <$> t.add u

def part (side : Side) (t : Table) : Except Fault Operand :=
  ofResult <$> t.part side

/-- Whether no entry of an operand is above that of another one at the same place. -/
def atMost : Operand → Operand → Except Fault Bool
  | whole m, whole n => .ok (decide (m ≤ n))
  | whole m, table u => do (← besideFormat u.format m).atMost u
  | table t, whole n => do t.atMost (← besideFormat t.format n)
  | table t, table u => t.atMost u

end Operand
end LatticeHull
