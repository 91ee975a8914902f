import LatticeHull.Proofs.MeshFile.Requests

/-!
# Edits that keep what is read

A mesh file may be spelled in many ways.  A face may refer to a vertex by its number from
the beginning of the file or backwards from the place where the face stands, whatever an
entry of a face has behind its slash is not read, and lines that are blank, comments, or
tagged with something else may come and go.  None of these edits changes what is read,
not even the fault with which reading ends.

The number that counts backwards depends on the vertices read so far.  They are counted
alike in the lines before an edit, whether vertices are asked for or not.
-/

namespace LatticeHull
namespace MeshFile

def entryNumber (entry : List Char) : Numeral.Whole :=
  Numeral.whole (String.ofList (entry.takeWhile (· ≠ '/')))

/-- Whether a line has no effect when some tags are asked for: it is blank, it is a
comment, or it has a tag that is not asked for and that is not the one of vertices. -/
def IsIdle (tags : List String) (line : List Char) : Prop :=
  ∀ record ∈ tagged? line, record.1 ≠ "v" ∧ record.1 ∉ tags

instance (tags : List String) (line : List Char) : Decidable (IsIdle tags line) :=
  inferInstanceAs (Decidable (∀ record ∈ tagged? line, record.1 ≠ "v" ∧ record.1 ∉ tags))

/-- Whether an entry of a face may stand for another one behind some vertices. -/
inductive Respells (count : Nat) (entry : List Char) : List Char → Prop
  /-- A number that counts backwards becomes the one that counts from the beginning. -/
  | absolute {k : Nat} {other : List Char} (one_le : 1 ≤ k) (le_count : k ≤ count)
      (backwards : entryNumber entry = .value (-(k : Int)))
      (forwards : entryNumber other = .value ((count : Int) - k + 1)) :
      Respells count entry other
  /-- What stands behind the slash goes, together with the slash. -/
  | cut : Respells count entry (entry.takeWhile (· ≠ '/'))

/-- One edit of the lines of a file from which some tags are asked for. -/
inductive Edit (tags : List String) : List (List Char) → List (List Char) → Prop
  /-- A line without effect is put in. -/
  | insert {before behind : List (List Char)} {line : List Char}
      (idle : IsIdle tags line) :
      Edit tags (before ++ behind) (before ++ line :: behind)
  /-- A line without effect is taken out. -/
  | delete {before behind : List (List Char)} {line : List Char}
      (idle : IsIdle tags line) :
      Edit tags (before ++ line :: behind) (before ++ behind)
  /-- One entry of a face is spelled in another way. -/
  | respell {before behind : List (List Char)} {line line' : List Char}
      {first last : List (List Char)} {entry entry' : List Char}
      (face : tagged? line = some ("f", first ++ entry :: last))
      (face' : tagged? line' = some ("f", first ++ entry' :: last))
      (respells : Respells (vertexCount before) entry entry') :
      Edit tags (before ++ line :: behind) (before ++ line' :: behind)

/-! ### Entries -/

theorem faceIndex_congr {entry other : List Char}
    (h : entry.takeWhile (· ≠ '/') = other.takeWhile (· ≠ '/')) (count : Int) :
    faceIndex entry count = faceIndex other count := by
  rw [faceIndex, faceIndex, h]

theorem faceIndex_of_value {entry : List Char} {n : Int}
    (h : entryNumber entry = .value n) (count : Int) :
    faceIndex entry count = .ok (if n < 0 then count + n else n - 1) := by
  rw [entryNumber] at h
  rw [faceIndex, Numeral.readWhole, h]
  rfl

/-- The digits of the number that counts from the beginning are one way to spell it. -/
theorem Respells.digits {count k : Nat} {entry : List Char} (one_le : 1 ≤ k)
    (le_count : k ≤ count) (hcount : count < tooLongFrom)
    (backwards : entryNumber entry = .value (-(k : Int))) :
    Respells count entry (toString (count - k + 1)).toList := by
  have hnumber : ((count - k + 1 : Nat) : Int) = (count : Int) - k + 1 := by omega
  have hshort : count - k + 1 < tooLongFrom := lt_of_le_of_lt (by omega) hcount
  refine .absolute one_le le_count backwards ?_
  rw [entryNumber, whole_takeWhile_toString hshort, hnumber]

theorem Respells.faceIndex_eq {count : Nat} {entry other : List Char}
    (h : Respells count entry other) :
    faceIndex entry count = faceIndex other count := by
  cases h with
  | @absolute k _ one_le le_count backwards forwards =>
      have hneg : -(k : Int) < 0 := by omega
      have hpos : ¬(count : Int) - k + 1 < 0 := by omega
      have hindex : (count : Int) + -k = count - k + 1 - 1 := by omega
      rw [faceIndex_of_value backwards, faceIndex_of_value forwards, if_pos hneg,
        if_neg hpos, hindex]
  | cut => exact faceIndex_congr (List.takeWhile_idem ..).symm count

/-! ### Lines -/

namespace Progress

theorem extendAll_congr {tag : String} {fields fields' : List (List Char)} {count : Nat}
    (h : ∀ s, extend tag fields count s = extend tag fields' count s)
    (sections : List (String × Section)) :
    extendAll tag fields count sections = extendAll tag fields' count sections := by
  induction sections with
  | nil => rfl
  | cons entry rest ih => rw [extendAll, extendAll, h, ih]

/-- A face is read alike with an entry in another spelling. -/
theorem extend_respelled {count : Nat} {entry entry' : List Char}
    (h : Respells count entry entry') (first last : List (List Char)) (s : Section) :
    extend "f" (first ++ entry :: last) count s =
      extend "f" (first ++ entry' :: last) count s := by
  rw [extend, extend, if_pos rfl, if_pos rfl, List.mapM_append, List.mapM_append,
    List.mapM_cons, List.mapM_cons, h.faceIndex_eq]

theorem line_of_isIdle {tags : List String} {line : List Char} (hline : IsIdle tags line)
    {p : Progress} (hp : p.names ⊆ tags) : p.line (Text.fields line) = .ok p := by
  rw [line_eq]
  cases htag : tagged? line with
  | none => rfl
  | some record =>
      obtain ⟨tag, fields⟩ := record
      obtain ⟨hv, hnot⟩ := hline _ htag
      have hcount : p.countAfter tag = p.count := if_neg hv
      simp only [hcount, extendAll_of_notMem fun hmem => hnot (hp hmem)]
      rfl

/-- Behind some lines it is known how many vertices there were and which
tags are asked for. -/
theorem lines_bind_congr {tags : List String} {before : List (List Char)}
    {f g : Progress → Except Fault Progress}
    (h : ∀ p : Progress, p.count = vertexCount before → p.names ⊆ tags → f p = g p) :
    ((start tags).lines before >>= f) = (start tags).lines before >>= g := by
  cases hbefore : (start tags).lines before with
  | error fault => rfl
  | ok p =>
      obtain ⟨hcount, hnames⟩ := lines_ok hbefore
      refine h p (hcount.trans (Nat.zero_add _)) ?_
      rw [hnames, names_start]
      exact fun tag htag => List.mem_eraseDups.1 htag

theorem lines_insert {tags : List String} {line : List Char} (hline : IsIdle tags line)
    (before behind : List (List Char)) :
    (start tags).lines (before ++ line :: behind) =
      (start tags).lines (before ++ behind) := by
  rw [lines_append, lines_append]
  refine lines_bind_congr fun p _ hnames => ?_
  rw [lines_cons, line_of_isIdle hline hnames]
  rfl

end Progress

open Progress

/-- One edit keeps what is collected. -/
theorem Edit.lines_eq {tags : List String} {lines lines' : List (List Char)}
    (h : Edit tags lines lines') :
    (start tags).lines lines' = (start tags).lines lines := by
  cases h with
  | insert idle => exact lines_insert idle ..
  | delete idle => exact (lines_insert idle ..).symm
  | @respell _ _ _ _ first last _ _ face face' respells =>
      rw [lines_append, lines_append]
      refine lines_bind_congr fun p hcount _ => ?_
      have hface : p.countAfter "f" = p.count := if_neg (by decide)
      have hextend := extendAll_congr (extend_respelled respells first last) p.sections
      rw [lines_cons, lines_cons, line_eq, line_eq, face, face']
      simp only [hface, hcount, hextend]

theorem lines_of_edits {tags : List String} {lines lines' : List (List Char)}
    (h : Relation.ReflTransGen (Edit tags) lines lines') :
    (start tags).lines lines' = (start tags).lines lines := by
  induction h with
  | refl => rfl
  | tail _ hedit ih => exact hedit.lines_eq.trans ih

/-- Edits keep what is read: the answer to every request, or the fault
with which reading ends. -/
theorem read_of_edits {tags : List String} {file file' : File} {text text' : List Char}
    (hfile : file.Holds text) (hfile' : file'.Holds text')
    (hedits : Relation.ReflTransGen (Edit tags) (Text.lines text) (Text.lines text')) :
    read file' (tags.map .text) = read file (tags.map .text) := by
  cases tags with
  | nil => rfl
  | cons tag tags =>
      have hne : tag :: tags ≠ [] := List.cons_ne_nil _ _
      rw [read_of_holds hfile hne, read_of_holds hfile' hne, readText, readText,
        lines_of_edits hedits]

/-- A file with a face that counts backwards. -/
def ribbon : String :=
  "v 0 0 0\nvt 1 2\nv 1 0 0\nf -2/7 2\nv 0 1 0\n"

/-- The file with a comment more, a foreign line less, and the face
counted from the beginning. -/
def ribbonForwards : String :=
  "# edited\r\nv 0 0 0\nv 1 0 0\nf 1 2\nv 0 1 0\n"

theorem edits_ribbon : Relation.ReflTransGen (Edit ["f"]) (Text.lines ribbon.toList)
    (Text.lines ribbonForwards.toList) := by
  have hinsert : Edit ["f"]
      (["v 0 0 0", "vt 1 2", "v 1 0 0", "f -2/7 2", "v 0 1 0", ""].map String.toList)
      (["# edited", "v 0 0 0", "vt 1 2", "v 1 0 0", "f -2/7 2", "v 0 1 0", ""].map
        String.toList) :=
    @Edit.insert _ [] _ "# edited".toList (by decide)
  have hdelete : Edit ["f"]
      (["# edited", "v 0 0 0", "vt 1 2", "v 1 0 0", "f -2/7 2", "v 0 1 0", ""].map
        String.toList)
      (["# edited", "v 0 0 0", "v 1 0 0", "f -2/7 2", "v 0 1 0", ""].map
        String.toList) :=
    @Edit.delete _ (["# edited", "v 0 0 0"].map String.toList) _ "vt 1 2".toList
      (by decide)
  have hcut : Edit ["f"]
      (["# edited", "v 0 0 0", "v 1 0 0", "f -2/7 2", "v 0 1 0", ""].map String.toList)
      (["# edited", "v 0 0 0", "v 1 0 0", "f -2 2", "v 0 1 0", ""].map String.toList) :=
    @Edit.respell _ (["# edited", "v 0 0 0", "v 1 0 0"].map String.toList) _
      "f -2/7 2".toList "f -2 2".toList [] ["2".toList] "-2/7".toList "-2".toList
      (by decide) (by decide) .cut
  have hforwards : Respells 2 "-2".toList "1".toList :=
    @Respells.digits 2 2 "-2".toList one_le_two le_rfl
      (lt_of_lt_of_le (by decide) le_tooLongFrom) (by decide)
  have habsolute : Edit ["f"]
      (["# edited", "v 0 0 0", "v 1 0 0", "f -2 2", "v 0 1 0", ""].map String.toList)
      (["# edited", "v 0 0 0", "v 1 0 0", "f 1 2", "v 0 1 0", ""].map String.toList) :=
    @Edit.respell _ (["# edited", "v 0 0 0", "v 1 0 0"].map String.toList) _
      "f -2 2".toList "f 1 2".toList [] ["2".toList] "-2".toList "1".toList
      (by decide) (by decide) hforwards
  exact (((Relation.ReflTransGen.single hinsert).tail hdelete).tail hcut).tail habsolute

theorem read_of_edits_ribbon :
    Relation.ReflTransGen (Edit ["f"]) (Text.lines ribbon.toList)
      (Text.lines ribbonForwards.toList) ∧
      read (.text ribbon.toList) [.text "f"] = .ok (.one (.faces [[0, 1]])) ∧
      read (.octets (Text.octets ribbonForwards)) [.text "f"] =
        .ok (.one (.faces [[0, 1]])) := by
  have hread : read (.text ribbon.toList) [.text "f"] = .ok (.one (.faces [[0, 1]])) :=
    rfl
  have hfile : (File.text ribbon.toList).Holds ribbon.toList := rfl
  have hfile' : (File.octets (Text.octets ribbonForwards)).Holds ribbonForwards.toList :=
    Text.decode_octets ribbonForwards
  exact ⟨edits_ribbon, hread, (read_of_edits hfile hfile' edits_ribbon).trans hread⟩

end MeshFile
end LatticeHull
