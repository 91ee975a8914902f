import LatticeHull.Datum.Grid
import LatticeHull.Number
import LatticeHull.Text

/-!
# Mesh files

A mesh file has one record a line.  The first field of a line is its tag; lines without
fields and lines whose tag begins with a number sign are comments.  Lines with tag `v`
hold vertices and lines with tag `f` hold faces, which refer to vertices by number: from
one upwards for those from the beginning of the file, from minus one downwards for those
just read.  Behind a slash a face may refer to other things, which are skipped.  Lines
with any other tag hold coordinates.

Only lines whose tag is asked for are read, but vertices are counted whether
they are asked for or not.
-/

namespace LatticeHull
namespace MeshFile

/-!
## Blocks of rows

A block is an arrangement that grows by one row at a time.  The first row settles the
shape of all rows.  Room for a row is made before its entries are read, so a row of the
right shape with an entry that is no coordinate fails and still leaves a row behind, with
the entries before that one and zeros after them.
-/

abbrev Rows := Option Grid

namespace Rows

/-- A block with one more row, whose shape is already known to be right. -/
def extend (g : Grid) (entries : List Float) : Grid :=
  match g.shape with
  | [] => g
  | n :: rest => { shape := (n + 1) :: rest, entries := g.entries ++ entries }

/-- Appends a row of coordinates. -/
def appendRow (rows : Rows) (row : List Float) : Except Fault Grid :=
  match rows with
  | none => .ok { shape := [1, row.length], entries := row }
  | some g =>
    if g.shape.tail = [row.length] then .ok (extend g row)
    else .error (.rowShape [row.length])

/-- The entries before the first one that is no coordinate, and zeros in
place of the others. -/
def readablePrefix (entries : List Datum) : List Float :=
  let read := (entries.map Datum.toEntry).takeWhile Except.toBool
  read.filterMap Except.toOption ++ List.replicate (entries.length - read.length) 0.0

def append (rows : Rows) (row : Datum) : Except Fault Unit × Rows :=
  match rows with
  | none =>
    match Grid.ofDatum (.list [row]) with
    | .error fault => (.error fault, none)
    | .ok g => (.ok (), some g)
  | some g =>
    match row.shape? with
    | none => (.error .ragged, rows)
    | some shape =>
      if g.shape.tail = shape then
        match row.entries.mapM Datum.toEntry with
        | .error fault => (.error fault, some (extend g (readablePrefix row.entries)))
        | .ok entries => (.ok (), some (extend g entries))
      else (.error (.rowShape shape), rows)

end Rows

/-! ## Lines and files -/

/-- What is found where a file is looked for. -/
inductive File where
  | missing
  | octets (octets : List UInt8)
  | text (text : List Char)

/-- What is collected from the lines of one tag. -/
inductive Section where
  /-- Nothing, since there is no such line. -/
  | absent
  /-- The rows of coordinates. -/
  | rows (grid : Grid)
  /-- The vertex indices of each face, counted from zero. -/
  | faces (faces : List (List Int))

/-- The answer to a request for some tags: a single section for a single tag. -/
inductive Answer where
  | one (s : Section)
  | several (sections : List Section)

/-- The index of the vertex that an entry of a face refers to, when some
vertices were read. -/
def faceIndex (entry : List Char) (count : Int) : Except Fault Int := do
  let n ← Numeral.readWhole (String.ofList (entry.takeWhile (· ≠ '/')))
  return if n < 0 then count + n else n - 1

def coordinateOfField (field : List Char) : Except Fault Float :=
  let text := String.ofList field
  match Numeral.float? text with
  | some x => .ok x
  | none => .error (.notDecimal text)

/-- The sections collected so far and the number of vertices read so far. -/
structure Progress where
  count : Nat
  sections : List (String × Section)

namespace Progress

def emptySection (tag : String) : Section :=
  if tag = "f" then .faces [] else .absent

/-- The progress before the first line; a tag that is asked for twice has one section. -/
def start (tags : List String) : Progress where
  count := 0
  sections := tags.eraseDups.map fun tag => (tag, emptySection tag)

def rowsOf : Section → Rows
  | .rows grid => some grid
  | _ => none

def facesOf : Section → List (List Int)
  | .faces faces => faces
  | _ => []

/-- A section after one more line of its tag. -/
def extend (tag : String) (fields : List (List Char)) (count : Nat) (s : Section) :
    Except Fault Section :=
  if tag = "f" then do
    let face ← fields.mapM fun entry => faceIndex entry count
    return .faces (facesOf s ++ [face])
  else do
    let row ← fields.mapM coordinateOfField
    let grid ← (rowsOf s).appendRow row
    return .rows grid

/-- The sections after one more line of a tag. -/
def extendAll (tag : String) (fields : List (List Char)) (count : Nat) :
    List (String × Section) → Except Fault (List (String × Section))
  | [] => .ok []
  | (name, s) :: rest =>
    if name = tag then do
      let s ← extend tag fields count s
      return (name, s) :: rest
    else do
      let rest ← extendAll tag fields count rest
      return (name, s) :: rest

/-- The progress after one more line. -/
def line (p : Progress) (fields : List (List Char)) : Except Fault Progress :=
  match fields with
  | [] => .ok p
  | ('#' :: _) :: _ => .ok p
  | name :: fields => do
    let tag := String.ofList name
    let count := if tag = "v" then p.count + 1 else p.count
    let sections ← extendAll tag fields count p.sections
    return { count, sections }

def lines (p : Progress) (lines : List (List Char)) : Except Fault Progress :=
  lines.foldlM (fun p l => p.line (Text.fields l)) p

def answer (p : Progress) (isSingle : Bool) : Answer :=
  match isSingle, p.sections with
  | true, [(_, s)] => .one s
  | _, sections => .several (sections.map (·.2))

end Progress

/-- Collects the sections of some tags from the lines of a text. -/
def readText (text : List Char) (tags : List String) : Except Fault Answer := do
  let p ← (Progress.start tags).lines (Text.lines text)
  return p.answer (tags.length = 1)

/-- The lines of a text that is cut off, but for the one within which it is.  A carriage
return at the cut ends no line yet, as a line feed may follow it. -/
def completeLines (text : List Char) : List (List Char) :=
  let settled := if text.getLast? = some '\r' then text.dropLast else text
  (Text.lines settled).dropLast

/-- Collects the sections of some tags from octets.  Octets that cannot be text are
refused at once; text that is cut off is read up to its last line end first. -/
def readOctets (octets : List UInt8) (tags : List String) : Except Fault Answer :=
  match Text.decode octets with
  | (_, .malformed) => .error .notText
  | (text, .complete) => readText text tags
  | (text, .cut) => do
    let _ ← (Progress.start tags).lines (completeLines text)
    .error .notText

def texts? : List Datum → Option (List String)
  | [] => some []
  | .text s :: rest => (texts? rest).map (s :: ·)
  | _ :: _ => none

def read (file : File) (tags : List Datum) : Except Fault Answer :=
  match texts? tags with
  | none => .error .tagNotText
  | some [] => .ok (.one .absent)
  | some tags =>
    match file with
    | .missing => .error .missingFile
    | .octets octets => readOctets octets tags
    | .text text => readText text tags

/-!
## Writing mesh files

Each row of a block becomes a line that begins with the tag of the block, and each face a
line with tag `f` and the numbers of its vertices, counted from one.  The values of a row
are written as they are; those of a face are cut to whole numbers first.

Lines are written one after another.  A row or face that cannot be written ends the file
after the line before it.
-/

/-- What is written into a file: loosely typed rows, or an arrangement of coordinates. -/
inductive Content where
  | loose (d : Datum)
  | grid (g : Grid)

namespace Content

/-- The rows of a block, or the values of a row. -/
def items? : Content → Option (List Content)
  | loose d => d.items?.map (·.map loose)
  | grid g => g.parts?.map (·.map grid)

def written : Content → String
  | loose d => d.written
  | grid g => g.text

/-- A value cut to a whole number, which an arrangement of several
coordinates cannot be. -/
def toWhole : Content → Except Fault Int
  | loose d => d.toWhole
  | grid { shape := [], entries := [x] } => Binary.wholePart x
  | grid _ => .error .wrongKind

/-- Whether there is anything to be written.  An arrangement must have one
coordinate to tell. -/
def isPresent : Content → Except Fault Bool
  | loose d => .ok d.isTrue
  | grid { shape := _, entries := [x] } => .ok (!(x == 0.0))
  | grid _ => .error .ambiguous

end Content

/-- What is written, and the fault that ended it, if any.  Without a file
there is no text. -/
structure Written where
  text : Option String
  fault : Option Fault

def lineText (tag : String) (fields : List String) : String :=
  tag ++ String.join (fields.map (" " ++ ·)) ++ "\n"

def rowLine (tag : String) (row : Content) : Except Fault String :=
  match row.items? with
  | none => .error .wrongKind
  | some items => .ok (lineText tag (items.map Content.written))

/-- No whole number of this size or a greater one is written. -/
def tooLongFrom : Nat := Nat.pow 10 Numeral.maxWholeDigits

/-- The number of a vertex as it is written, counted from one. -/
def vertexText (index : Int) : Except Fault String :=
  if tooLongFrom ≤ (index + 1).natAbs then .error .tooManyDigits
  else .ok (toString (index + 1))

def faceLine (face : Content) : Except Fault String :=
  match face.items? with
  | none => .error .wrongKind
  | some items => do
    let fields ← items.mapM fun item => do vertexText (← item.toWhole)
    return lineText "f" fields

/-- The lines of all items of a content. -/
def linesOf (lineOf : Content → Except Fault String) (content : Content) :
    List (Except Fault String) :=
  match content.items? with
  | none => [.error .wrongKind]
  | some items => items.map lineOf

/-- The lines up to the first fault, one after another. -/
def collect : List (Except Fault String) → Written
  | [] => { text := some "", fault := none }
  | .error fault :: _ => { text := some "", fault := some fault }
  | .ok line :: rest =>
    let written := collect rest
    { written with text := written.text.map (line ++ ·) }

/-- The lines of the faces.  Faces that are absent or count as nothing have no lines. -/
def faceLines (faces : Content) : List (Except Fault String) :=
  match faces.isPresent with
  | .error fault => [.error fault]
  | .ok true => linesOf faceLine faces
  | .ok false => []

def fileLines (blocks : List (String × Content)) (faces : Content) :
    List (Except Fault String) :=
  blocks.flatMap (fun block => linesOf (rowLine block.1) block.2) ++ faceLines faces

/-- Writes a file.  A block of vertices must not be absent. -/
def write (blocks : List (String × Content)) (faces : Content) : Written :=
  match blocks.lookup "v" with
  | some (.loose .null) => { text := none, fault := some .noVertexBlock }
  | _ => collect (fileLines blocks faces)

def assign {α : Type} (tag : String) (value : α) : List (String × α) → List (String × α)
  | [] => [(tag, value)]
  | (name, old) :: rest =>
    if name = tag then (name, value) :: rest else (name, old) :: assign tag value rest

/-- Reads the rows of a block, as an arrangement of coordinates if that is asked for. -/
def contentOfDatum (asGrid : Bool) (d : Datum) : Except Fault Content :=
  if asGrid then .grid <$> Grid.ofDatum d else .ok (.loose d)

/-- The blocks of a request: pairs of a tag and its rows, of which the last
one for a tag counts. -/
def blocksOfData (asGrids : Bool) (pairs : List Datum) :
    Except Fault (List (String × Content)) :=
  pairs.foldlM (fun blocks pair =>
    match pair with
    | .list [.text tag, rows] =>
      do return assign tag (← contentOfDatum asGrids rows) blocks
    | _ => .error .wrongKind) []

/-- Writes the blocks of a request.  The tag of faces names the faces, which can also be
given apart but not twice; the tag that names the file is not allowed. -/
def writeData (pairs : List Datum) (faces : Option Datum) (asGrids : Bool) : Written :=
  match blocksOfData asGrids pairs with
  | .error fault => { text := none, fault := some fault }
  | .ok blocks =>
    let isTwice := faces.isSome && (blocks.lookup "f").isSome
    if isTwice || (blocks.lookup "filename").isSome then
      { text := none, fault := some .wrongKind }
    else
      let faces := (faces.map Content.loose <|> blocks.lookup "f").getD (.loose .null)
      write (blocks.filter (·.1 ≠ "f")) faces

end MeshFile
end LatticeHull
