import LatticeHull.MeshFile
import LatticeHull.Proofs.Coordinate

/-!
# Records of mesh files

A record is a tag with some fields.  If none of these is empty or has a blank in it, the
lines of some records, one after another, are read as these records again: each line ends
where its record does, and its fields are parted by the blanks between them.
-/

namespace LatticeHull

/-! ### Pieces and lines -/

namespace Text

theorem piecesFrom_append {isSeparator : Char → Bool} {word : List Char}
    (hword : ∀ c ∈ word, isSeparator c = false) (piece rest : List Char) :
    piecesFrom isSeparator piece (word ++ rest) =
      piecesFrom isSeparator (word.reverse ++ piece) rest := by
  induction word generalizing piece with
  | nil => rfl
  | cons c word ih =>
      have hc : ¬isSeparator c = true := by simp [hword c (List.mem_cons_self ..)]
      rw [List.cons_append, piecesFrom, if_neg hc,
        ih fun d hd => hword d (List.mem_cons_of_mem _ hd), List.reverse_cons,
        List.append_assoc]
      rfl

/-- Words with a separator before each of them are the pieces behind the
text before them. -/
theorem piecesFrom_words {isSeparator : Char → Bool} {blank : Char}
    (hblank : isSeparator blank = true) {words : List (List Char)}
    (hwords : ∀ w ∈ words, ∀ c ∈ w, isSeparator c = false) (piece : List Char) :
    piecesFrom isSeparator piece (words.flatMap (blank :: ·)) =
      piece.reverse :: words := by
  induction words generalizing piece with
  | nil => rfl
  | cons w words ih =>
      rw [List.flatMap_cons, List.cons_append, piecesFrom, if_pos hblank,
        piecesFrom_append (hwords w (List.mem_cons_self ..)),
        ih fun v hv =>
        hwords v (List.mem_cons_of_mem _ hv), List.append_nil, List.reverse_reverse]

theorem isBlank_of_lineEnd {c : Char} (hc : c = '\n' ∨ c = '\r') : isBlank c = true := by
  rcases hc with rfl | rfl <;> decide

theorem linesFrom_append {body : List Char} (hbody : ∀ c ∈ body, ¬(c = '\n' ∨ c = '\r'))
    (line rest : List Char) :
    linesFrom line (body ++ rest) = linesFrom (body.reverse ++ line) rest := by
  induction body generalizing line with
  | nil => rfl
  | cons c body ih =>
      have hc := hbody c (List.mem_cons_self ..)
      rw [List.cons_append, linesFrom, if_neg hc, ih fun d hd =>
        hbody d (List.mem_cons_of_mem _ hd), List.reverse_cons, List.append_assoc]
      · rfl
      · exact fun _ heq _ => hc (Or.inr heq)

/-- Lines that are ended by line feeds are read again, with an empty one
behind the last of them. -/
theorem lines_flatMap {bodies : List (List Char)}
    (hbodies : ∀ b ∈ bodies, ∀ c ∈ b, ¬(c = '\n' ∨ c = '\r')) :
    lines (bodies.flatMap (· ++ ['\n'])) = bodies ++ [[]] := by
  rw [lines]
  induction bodies with
  | nil => rfl
  | cons b bodies ih =>
      rw [List.flatMap_cons, List.append_assoc,
        linesFrom_append (hbodies b (List.mem_cons_self ..)), List.singleton_append,
        linesFrom, if_pos (Or.inl rfl), ih fun d hd =>
        hbodies d (List.mem_cons_of_mem _ hd), List.append_nil, List.reverse_reverse]
      · rfl
      · exact fun _ heq => absurd heq (by decide)

end Text

/-! ### Records -/

namespace MeshFile

/-- Whether a text is not empty and has no blank in it. -/
def IsWord (word : String) : Prop :=
  word.toList ≠ [] ∧ ∀ c ∈ word.toList, Text.isBlank c = false

theorem isWord_text (x : Float) : IsWord (Coordinate.text x) :=
  ⟨Coordinate.text_ne_empty x, fun c hc =>
    Text.isBlank_of_isGraphic (Coordinate.isGraphic_text x c hc)⟩

/-- Whether a text may stand before a record: it is a word and begins no comment. -/
structure IsTag (tag : String) : Prop where
  word : IsWord tag
  not_comment : ∀ c ∈ tag.toList.head?, c ≠ '#'

theorem isTag_of_toList {tag : String} {c : Char} (htag : tag.toList = [c])
    (hc : Text.IsGraphic c) (hcomment : c ≠ '#') : IsTag tag := by
  refine ⟨?_, ?_⟩
  · rw [IsWord, htag]
    refine ⟨List.cons_ne_nil _ _, fun d hd => ?_⟩
    rw [List.mem_singleton.1 hd]
    exact Text.isBlank_of_isGraphic hc
  · rw [htag]
    rintro d ⟨⟩
    exact hcomment

theorem isTag_vertices : IsTag "v" :=
  isTag_of_toList rfl ⟨by decide, by decide⟩ (by decide)

theorem isTag_faces : IsTag "f" := isTag_of_toList rfl ⟨by decide, by decide⟩ (by decide)

/-- The tag of a line and the fields behind it. -/
structure Record where
  tag : String
  fields : List String

namespace Record

def IsClean (r : Record) : Prop :=
  ∀ w ∈ r.tag :: r.fields, IsWord w

/-- The parts of a record as they are read. -/
def words (r : Record) : List (List Char) :=
  r.tag.toList :: r.fields.map String.toList

def body (r : Record) : List Char :=
  r.tag.toList ++ (r.fields.map String.toList).flatMap (' ' :: ·)

theorem toList_lineText (r : Record) :
    (lineText r.tag r.fields).toList = r.body ++ ['\n'] := by
  rw [lineText, body, String.toList_append, String.toList_append, String.toList_join]
  simp [List.flatMap_map]

theorem mem_words {r : Record} (hr : r.IsClean) {w : List Char} (hw : w ∈ r.words) :
    w ≠ [] ∧ ∀ c ∈ w, Text.isBlank c = false := by
  have hmap : r.words = (r.tag :: r.fields).map String.toList := rfl
  rw [hmap] at hw
  obtain ⟨word, hword, rfl⟩ := List.mem_map.1 hw
  exact hr word hword

theorem fields_body {r : Record} (hr : r.IsClean) : Text.fields r.body = r.words := by
  have hblank : Text.isBlank ' ' = true := by decide
  have htag : ∀ c ∈ r.tag.toList, Text.isBlank c = false :=
    (hr r.tag (List.mem_cons_self ..)).2
  have hpieces : Text.piecesFrom Text.isBlank [] r.body = r.words := by
    rw [body, Text.piecesFrom_append htag, Text.piecesFrom_words hblank, List.append_nil,
      List.reverse_reverse]
    · rfl
    · exact fun w hw => (mem_words hr (List.mem_cons_of_mem _ hw)).2
  rw [Text.fields, hpieces, List.filter_eq_self]
  intro w hw
  simp [(mem_words hr hw).1]

theorem not_lineEnd_of_mem_body {r : Record} (hr : r.IsClean) :
    ∀ c ∈ r.body, ¬(c = '\n' ∨ c = '\r') := by
  intro c hc hend
  have hblank := Text.isBlank_of_lineEnd hend
  rcases List.mem_append.1 hc with htag | hfields
  · rw [(hr r.tag (List.mem_cons_self ..)).2 c htag] at hblank
    cases hblank
  · obtain ⟨w, hw, hcw⟩ := List.mem_flatMap.1 hfields
    rcases List.mem_cons.1 hcw with rfl | hcw
    · exact absurd hend (by decide)
    · rw [(mem_words hr (List.mem_cons_of_mem _ hw)).2 c hcw] at hblank
      cases hblank

end Record

def recordsText (records : List Record) : String :=
  String.join (records.map fun r => lineText r.tag r.fields)

def recordLines (records : List Record) : List (Except Fault String) :=
  records.map fun r => .ok (lineText r.tag r.fields)

@[simp] theorem recordLines_append (records others : List Record) :
    recordLines (records ++ others) = recordLines records ++ recordLines others :=
  List.map_append

theorem recordsText_cons (r : Record) (records : List Record) :
    recordsText (r :: records) = lineText r.tag r.fields ++ recordsText records := by
  rw [recordsText, List.map_cons, String.join_cons]
  rfl

/-- Lines behind some records are written behind their text. -/
theorem collect_recordLines_append (records : List Record)
    (lines : List (Except Fault String)) :
    collect (recordLines records ++ lines) =
      { collect lines with
        text := (collect lines).text.map (recordsText records ++ ·) } := by
  induction records with
  | nil =>
      have hempty : (recordsText [] ++ ·) = id := funext fun _ => String.empty_append
      rw [hempty, Option.map_id]
      rfl
  | cons r records ih =>
      have htext : (recordsText (r :: records) ++ ·) =
          (lineText r.tag r.fields ++ ·) ∘ (recordsText records ++ ·) := by
        funext text
        rw [recordsText_cons, String.append_assoc, Function.comp_apply]
      rw [recordLines] at ih
      rw [recordLines, List.map_cons, List.cons_append, collect, ih, htext,
        ← Option.map_map]

theorem collect_recordLines (records : List Record) :
    collect (recordLines records) =
      { text := some (recordsText records), fault := none } := by
  rw [← List.append_nil (recordLines records), collect_recordLines_append, collect]
  simp

theorem lines_recordsText {records : List Record} (hclean : ∀ r ∈ records, r.IsClean) :
    Text.lines (recordsText records).toList = records.map Record.body ++ [[]] := by
  have htext : (recordsText records).toList =
      (records.map Record.body).flatMap (· ++ ['\n']) := by
    rw [recordsText, String.toList_join, List.flatMap_map, List.flatMap_map]
    exact congrArg (fun f => records.flatMap f) (funext Record.toList_lineText)
  rw [htext, Text.lines_flatMap]
  intro b hb
  obtain ⟨r, hr, rfl⟩ := List.mem_map.1 hb
  exact Record.not_lineEnd_of_mem_body (hclean r hr)

/-- Reading the text of some records goes through the records one by one. -/
theorem Progress.lines_recordsText {records : List Record}
    (hclean : ∀ r ∈ records, r.IsClean) (p : Progress) :
    p.lines (Text.lines (recordsText records).toList) =
      records.foldlM (fun p r => p.line r.words) p := by
  rw [Progress.lines, MeshFile.lines_recordsText hclean]
  induction records generalizing p with
  | nil => rfl
  | cons r records ih =>
      rw [List.map_cons, List.cons_append, List.foldlM_cons, List.foldlM_cons,
        Record.fields_body (hclean r (List.mem_cons_self ..))]
      exact bind_congr fun q => ih (fun s hs => hclean s (List.mem_cons_of_mem _ hs)) q

/-!
## Rows and faces in mesh files

Rows and faces are written as records.  Rows of the same length that stand under one tag
are collected again when that tag is read, whatever stands under other tags.
-/

theorem exists_ok_of_bind {A B : Type} {x : Except Fault A} {f : A → Except Fault B}
    {b : B} (h : (x >>= f) = .ok b) : ∃ a, x = .ok a ∧ f a = .ok b := by
  cases x with
  | error fault => cases h
  | ok a => exact ⟨a, rfl, h⟩

theorem mapM_ok {A B : Type} {f : A → Except Fault B} {g : A → B} {l : List A}
    (h : ∀ a ∈ l, f a = .ok (g a)) : l.mapM f = .ok (l.map g) := by
  induction l with
  | nil => rfl
  | cons a l ih =>
      obtain ⟨ha, hrest⟩ := List.forall_mem_cons.1 h
      rw [List.mapM_cons, ha, ih hrest]
      rfl

/-- Where all items that are not taken fail alike, one of them is enough to fail so. -/
theorem mapM_error {A B : Type} {f : A → Except Fault B} {l : List A} {fault : Fault}
    (h : ∀ a ∈ l, ∀ other, f a = .error other → other = fault) {a : A} (ha : a ∈ l)
    (hfault : f a = .error fault) : l.mapM f = .error fault := by
  induction l with
  | nil => cases ha
  | cons b l ih =>
      obtain ⟨hb, hrest⟩ := List.forall_mem_cons.1 h
      rw [List.mapM_cons]
      cases hfirst : f b with
      | error other =>
          rw [hb other hfirst]
          rfl
      | ok c =>
          have hmem : a ∈ l := by
            refine (List.mem_cons.1 ha).resolve_left fun heq => ?_
            rw [← heq, hfault] at hfirst
            cases hfirst
          rw [ih hrest hmem]
          rfl

theorem eraseDups_of_nodup {A : Type} [BEq A] [LawfulBEq A] {l : List A} (hl : l.Nodup) :
    l.eraseDups = l := by
  induction l with
  | nil => rfl
  | cons a l ih =>
      obtain ⟨ha, hrest⟩ := List.nodup_cons.1 hl
      have hfilter : l.filter (fun b => !b == a) = l := by
        refine List.filter_eq_self.2 fun b hb => ?_
        simp [ne_of_mem_of_not_mem hb ha]
      rw [List.eraseDups_cons, hfilter, ih hrest]

/-! ### Records of rows and of faces -/

def Record.ofRow (tag : String) (row : List Float) : Record where
  tag := tag
  fields := row.map Coordinate.text

/-- A face as a record; its vertices are counted from one. -/
def Record.ofFace (face : List Nat) : Record where
  tag := "f"
  fields := face.map fun i => toString (i + 1)

theorem isWord_toString (n : Nat) : IsWord (toString n) := by
  have hdigits : (toString n).toList = Nat.toDigits 10 n := Nat.toList_repr
  rw [IsWord, hdigits]
  exact ⟨Nat.toDigits_ne_nil, fun c hc =>
    Text.isBlank_of_isGraphic (Text.IsGraphic.of_isDigit
      (Numeral.allDigits_toDigits n c hc))⟩

theorem Record.isClean_ofRow {tag : String} (htag : IsWord tag) (row : List Float) :
    (ofRow tag row).IsClean := by
  intro w hw
  rcases List.mem_cons.1 hw with rfl | hw
  · exact htag
  · obtain ⟨x, -, rfl⟩ := List.mem_map.1 hw
    exact isWord_text x

theorem Record.isClean_ofFace (face : List Nat) : (ofFace face).IsClean := by
  intro w hw
  rcases List.mem_cons.1 hw with rfl | hw
  · exact isTag_faces.word
  · obtain ⟨i, -, rfl⟩ := List.mem_map.1 hw
    exact isWord_toString (i + 1)

theorem rowLine_binary (tag : String) (row : List Float) :
    rowLine tag (.loose (.list (row.map .binary))) =
      .ok (lineText tag (Record.ofRow tag row).fields) := by
  have hitems : (Content.loose (.list (row.map .binary))).items? =
      some ((row.map .binary).map Content.loose) := rfl
  rw [rowLine, hitems]
  simp only [List.map_map]
  rfl

theorem pow_le_tooLongFrom {k : Nat} (hk : k ≤ Numeral.maxWholeDigits) :
    10 ^ k ≤ tooLongFrom := by
  have hpower : ∀ n, k ≤ n → 10 ^ k ≤ Nat.pow 10 n := fun n hn =>
    Nat.pow_le_pow_right (by norm_num) hn
  unfold tooLongFrom
  exact hpower _ hk

/-- Numbers of up to sixteen digits are not too long to be written. -/
theorem le_tooLongFrom : 10 ^ 16 ≤ tooLongFrom :=
  pow_le_tooLongFrom (by decide)

def faceContent (face : List Nat) : Content :=
  .loose (.list (face.map fun (i : Nat) => .whole i))

theorem vertexText_natCast (i : Nat) :
    vertexText i =
      if tooLongFrom ≤ i + 1 then .error .tooManyDigits else .ok (toString (i + 1)) :=
  rfl

/-- The line of a face has the numbers of its vertices, if all of them are written. -/
theorem faceLine_faceContent (face : List Nat) :
    faceLine (faceContent face) = do
      let fields ← face.mapM fun (i : Nat) => vertexText i
      return lineText "f" fields := by
  have hitems : (faceContent face).items? =
      some ((face.map fun (i : Nat) => .whole i).map Content.loose) := rfl
  have hfields : ((face.map fun (i : Nat) => Datum.whole i).map Content.loose).mapM
      (fun item => do vertexText (← item.toWhole)) = face.mapM fun (i : Nat) =>
        vertexText i := by
    rw [List.map_map, List.mapM_map]
    refine congrArg face.mapM (funext fun i => ?_)
    have hwhole : (Content.loose (.whole i)).toWhole = .ok (i : Int) := rfl
    simp only [Function.comp_apply, hwhole, bind, Except.bind]
  rw [faceLine, hitems]
  simp only [hfields]

theorem faceLine_of_lt {face : List Nat} (hface : ∀ i ∈ face, i + 1 < tooLongFrom) :
    faceLine (faceContent face) = .ok (lineText "f" (Record.ofFace face).fields) := by
  have hfields :
      (face.mapM fun (i : Nat) => vertexText i) = .ok (Record.ofFace face).fields := by
    refine mapM_ok fun i hi => ?_
    rw [vertexText_natCast, if_neg (not_le.2 (hface i hi))]
  rw [faceLine_faceContent, hfields]
  rfl

theorem faceLine_of_le {face : List Nat} {i : Nat} (hi : i ∈ face)
    (hlong : tooLongFrom ≤ i + 1) :
    faceLine (faceContent face) = .error .tooManyDigits := by
  have hfields : (face.mapM fun (i : Nat) => vertexText i) = .error .tooManyDigits := by
    refine mapM_error (fun j _ other hother => ?_) hi (if_pos hlong)
    rw [vertexText_natCast] at hother
    split at hother
    · exact (Except.error.inj hother).symm
    · cases hother
  rw [faceLine_faceContent, hfields]
  rfl

/-! ### Stacks of rows -/

def stack (width : Nat) (rows : List (List Float)) : Grid where
  shape := [rows.length, width]
  entries := rows.flatten

/-- What is collected from some rows: nothing at all, if there are none. -/
def stacked (width : Nat) (rows : List (List Float)) : Section :=
  if rows.isEmpty then .absent else .rows (stack width rows)

theorem appendRow_stacked {width : Nat} (rows : List (List Float)) {row : List Float}
    (hrow : row.length = width) :
    (Progress.rowsOf (stacked width rows)).appendRow row =
      .ok (stack width (rows ++ [row])) := by
  cases rows with
  | nil =>
      subst hrow
      simp [stacked, stack, Progress.rowsOf, Rows.appendRow]
  | cons first rows =>
      simp [stacked, stack, Progress.rowsOf, Rows.appendRow, Rows.extend, hrow]

theorem stacked_append_singleton (width : Nat) (rows : List (List Float))
    (row : List Float) :
    stacked width (rows ++ [row]) = .rows (stack width (rows ++ [row])) := by
  simp [stacked]

/-! ### Reading a line -/

theorem mapM_coordinateOfField (row : List Float) :
    ((row.map Coordinate.text).map String.toList).mapM coordinateOfField = .ok row := by
  have hread : ∀ x ∈ row, (coordinateOfField ∘ String.toList ∘ Coordinate.text) x =
      .ok (id x) := by
    intro x _
    rw [Function.comp_apply, Function.comp_apply, coordinateOfField,
      String.ofList_toList, Coordinate.float?_text]
    rfl
  have hrow := mapM_ok hread
  rw [List.map_id] at hrow
  rw [List.map_map, List.mapM_map]
  exact hrow

/-- A number that is not too long is what an entry spells that consists of its digits. -/
theorem whole_takeWhile_toString {n : Nat} (hn : n < tooLongFrom) :
    Numeral.whole (String.ofList ((toString n).toList.takeWhile (· ≠ '/'))) =
      .value n := by
  have htext : toString n = String.ofList (Nat.toDigits 10 n) :=
    Nat.repr_eq_ofList_toDigits
  have hslash : ∀ c ∈ Nat.toDigits 10 n, decide (c ≠ '/') = true := by
    intro c hc
    have hdigit := Numeral.allDigits_toDigits n c hc
    refine decide_eq_true ?_
    rintro rfl
    exact absurd hdigit (by decide)
  have hcount : ∀ k, 0 < k → n < Nat.pow 10 k → (Nat.toDigits 10 n).length ≤ k :=
    fun k hk => (Nat.length_toDigits_le_iff (by decide) hk).2
  unfold tooLongFrom at hn
  have hlength := hcount Numeral.maxWholeDigits (by decide) hn
  rw [htext, String.toList_ofList, List.takeWhile_eq_self_iff.2 hslash,
    Numeral.whole_toDigits hlength]

theorem faceIndex_toString {i : Nat} (hi : i + 1 < tooLongFrom) (count : Int) :
    faceIndex (toString (i + 1)).toList count = .ok i := by
  have hpositive : ¬((i + 1 : Nat) : Int) < 0 := by omega
  have hindex : ((i + 1 : Nat) : Int) - 1 = i := by omega
  rw [faceIndex, Numeral.readWhole, whole_takeWhile_toString hi]
  simp only [bind, Except.bind, if_neg hpositive, hindex]
  rfl

def readFace (face : List Nat) : List Int :=
  face.map fun (i : Nat) => i

theorem mapM_faceIndex {face : List Nat} (hface : ∀ i ∈ face, i + 1 < tooLongFrom)
    (count : Int) :
    ((Record.ofFace face).fields.map String.toList).mapM (faceIndex · count) =
      .ok (readFace face) := by
  rw [Record.ofFace, List.map_map, List.mapM_map]
  exact mapM_ok fun i hi => faceIndex_toString (hface i hi) count

/-! ### Sections side by side -/

def listed (tags : List String) (content : String → Section) : List (String × Section) :=
  tags.map fun tag => (tag, content tag)

theorem listed_update_of_notMem {tags : List String} {tag : String} (htag : tag ∉ tags)
    (content : String → Section) (s : Section) :
    listed tags (Function.update content tag s) = listed tags content := by
  refine List.map_congr_left fun t ht => ?_
  rw [Function.update_of_ne (ne_of_mem_of_not_mem ht htag)]

namespace Progress

/-- The number of vertices after one more line. -/
def countAfter (p : Progress) (tag : String) : Nat :=
  if tag = "v" then p.count + 1 else p.count

theorem line_words {r : Record} (htag : IsTag r.tag) (p : Progress) :
    p.line r.words = do
      let sections ←
        extendAll r.tag (r.fields.map String.toList) (p.countAfter r.tag) p.sections
      return { count := p.countAfter r.tag, sections } := by
  rw [Record.words, line, String.ofList_toList]
  · rfl
  · exact fun rest heq => htag.not_comment '#' (by rw [heq]; rfl) rfl

section Listed

variable {tags : List String} (hnodup : tags.Nodup) {content : String → Section}

include hnodup

/-- A line of a tag that is asked for changes the section of that tag, and
no other one. -/
theorem extendAll_listed {tag : String} {fields : List (List Char)} {count : Nat}
    {s : Section}
    (hextend : tag ∈ tags → extend tag fields count (content tag) = .ok s) :
    extendAll tag fields count (listed tags content) =
      .ok (listed tags (Function.update content tag s)) := by
  induction tags with
  | nil => rfl
  | cons name tags ih =>
      obtain ⟨hname, htags⟩ := List.nodup_cons.1 hnodup
      rw [listed, List.map_cons, extendAll]
      by_cases heq : name = tag
      · subst heq
        have hrest := listed_update_of_notMem hname content s
        rw [listed, listed] at hrest
        rw [if_pos rfl, hextend (List.mem_cons_self ..), listed, List.map_cons, hrest,
          Function.update_self]
        rfl
      · have hrest := ih htags fun h => hextend (List.mem_cons_of_mem _ h)
        rw [listed] at hrest
        rw [if_neg heq, hrest, listed, listed, List.map_cons, Function.update_of_ne heq]
        rfl

/-- Lines of one tag, each of which brings an item into the section of that tag,
bring all of them into it. -/
theorem foldlM_listed {A : Type} {tag : String} (htag : IsTag tag) {record : A → Record}
    (hrecord : ∀ a, (record a).tag = tag) (build : List A → Section) {items : List A}
    (hextend : ∀ before, ∀ a ∈ items, ∀ count,
      extend tag ((record a).fields.map String.toList) count (build before) =
        .ok (build (before ++ [a])))
    (before : List A) (hcontent : content tag = build before) {p : Progress}
    (hp : p.sections = listed tags content) :
    ∃ q : Progress, (items.map record).foldlM (fun p r => p.line r.words) p = .ok q ∧
      q.sections = listed tags (Function.update content tag
        (build (before ++ items))) := by
  induction items generalizing before content p with
  | nil =>
      refine ⟨p, rfl, ?_⟩
      rw [List.append_nil, ← hcontent, Function.update_eq_self]
      exact hp
  | cons a items ih =>
      obtain ⟨hfirst, hrest⟩ :
          (∀ count, extend tag ((record a).fields.map String.toList) count
          (content tag) = .ok (build (before ++ [a]))) ∧
            ∀ before, ∀ b ∈ items, ∀ count,
              extend tag ((record b).fields.map String.toList) count (build before) =
                .ok (build (before ++ [b])) :=
        ⟨fun count => hcontent ▸ hextend before a (List.mem_cons_self ..) count,
          fun before b hb => hextend before b (List.mem_cons_of_mem _ hb)⟩
      have hline : p.line (record a).words =
          .ok ⟨p.countAfter tag, listed tags
            (Function.update content tag (build (before ++ [a])))⟩ := by
        rw [line_words (hrecord a ▸ htag), hrecord, hp,
          extendAll_listed hnodup fun _ => hfirst _]
        rfl
      obtain ⟨q, hq, hsections⟩ := ih hrest (before ++ [a]) (Function.update_self ..)
        (p := ⟨p.countAfter tag, listed tags
          (Function.update content tag (build (before ++ [a])))⟩) rfl
      refine ⟨q, ?_, ?_⟩
      · rw [List.map_cons, List.foldlM_cons, hline]
        exact hq
      · rw [hsections, Function.update_idem, List.append_assoc, List.singleton_append]

/-- Lines of tags that are not asked for change no section. -/
theorem foldlM_of_notMem {records : List Record}
    (hrecords : ∀ r ∈ records, IsTag r.tag ∧ r.tag ∉ tags) {p : Progress}
    (hp : p.sections = listed tags content) :
    ∃ q : Progress, records.foldlM (fun p r => p.line r.words) p = .ok q ∧
      q.sections = listed tags content := by
  induction records generalizing p with
  | nil => exact ⟨p, rfl, hp⟩
  | cons r records ih =>
      obtain ⟨htag, hnot⟩ := hrecords r (List.mem_cons_self ..)
      have hline : p.line r.words = .ok ⟨p.countAfter r.tag, listed tags content⟩ := by
        rw [line_words htag, hp, extendAll_listed hnodup (s := .absent) fun h =>
          absurd h hnot, listed_update_of_notMem hnot]
        rfl
      obtain ⟨q, hq, hsections⟩ :=
        ih (fun t ht => hrecords t (List.mem_cons_of_mem _ ht))
          (p := ⟨p.countAfter r.tag, listed tags content⟩) rfl
      refine ⟨q, ?_, hsections⟩
      rw [List.foldlM_cons, hline]
      exact hq

theorem foldlM_ofRow {tag : String} (htag : IsTag tag) (hne : tag ≠ "f") {width : Nat}
    {rows : List (List Float)} (hrows : ∀ row ∈ rows, row.length = width)
    (hcontent : content tag = .absent) {p : Progress}
    (hp : p.sections = listed tags content) :
    ∃ q : Progress, (rows.map (Record.ofRow tag)).foldlM (fun p r => p.line r.words) p =
      .ok q ∧
      q.sections = listed tags (Function.update content tag (stacked width rows)) := by
  refine foldlM_listed hnodup htag (fun _ => rfl) (stacked width) ?_ [] hcontent hp
  intro before row hrow count
  rw [extend, if_neg hne, Record.ofRow, mapM_coordinateOfField, stacked_append_singleton]
  simp only [bind, Except.bind, appendRow_stacked before (hrows row hrow)]
  rfl

theorem foldlM_ofFace {faces : List (List Nat)}
    (hfaces : ∀ face ∈ faces, ∀ i ∈ face, i + 1 < tooLongFrom)
    (hcontent : content "f" = .faces []) {p : Progress}
    (hp : p.sections = listed tags content) :
    ∃ q : Progress, (faces.map Record.ofFace).foldlM (fun p r => p.line r.words) p =
      .ok q ∧
      q.sections = listed tags (Function.update content "f"
        (.faces (faces.map readFace))) := by
  refine foldlM_listed hnodup isTag_faces (fun _ => rfl)
    (fun faces => .faces (faces.map readFace)) ?_ [] hcontent hp
  intro before face hface count
  rw [extend, if_pos rfl, mapM_faceIndex (hfaces face hface), List.map_append]
  rfl

end Listed

theorem sections_start {tags : List String} (hnodup : tags.Nodup) :
    (start tags).sections = listed tags emptySection := by
  rw [start, eraseDups_of_nodup hnodup]
  rfl

end Progress

def Answer.ofSections : List Section → Answer
  | [s] => .one s
  | sections => .several sections

theorem Progress.answer_listed {p : Progress} {tags : List String}
    {content : String → Section} (hp : p.sections = listed tags content) :
    p.answer (tags.length = 1) = .ofSections (tags.map content) := by
  cases tags with
  | nil => simp [answer, hp, listed, Answer.ofSections]
  | cons tag tags =>
      cases tags with
      | nil => simp [answer, hp, listed, Answer.ofSections]
      | cons next tags => simp [answer, hp, listed, Answer.ofSections]

/-- What is read from some records is what going through them has collected. -/
theorem readText_records {records : List Record} (hclean : ∀ r ∈ records, r.IsClean)
    {tags : List String} {p : Progress}
    (hread : records.foldlM (fun p r => p.line r.words) (Progress.start tags) = .ok p)
    {content : String → Section} (hp : p.sections = listed tags content) :
    readText (recordsText records).toList tags =
      .ok (.ofSections (tags.map content)) := by
  rw [readText, Progress.lines_recordsText hclean, hread, ← Progress.answer_listed hp]
  rfl

/-- Rows that are written under a tag, with lines under other tags behind them, are read
again when that tag is asked for. -/
theorem readText_ofRow {tag : String} (htag : IsTag tag) (hne : tag ≠ "f") {width : Nat}
    {rows : List (List Float)} (hrows : ∀ row ∈ rows, row.length = width)
    {others : List Record} (hclean : ∀ r ∈ others, r.IsClean)
    (hothers : ∀ r ∈ others, IsTag r.tag ∧ r.tag ≠ tag) :
    readText (recordsText (rows.map (Record.ofRow tag) ++ others)).toList [tag] =
      .ok (.one (stacked width rows)) := by
  have hclean' : ∀ r ∈ rows.map (Record.ofRow tag) ++ others, r.IsClean := by
    intro r hr
    rcases List.mem_append.1 hr with hr | hr
    · obtain ⟨row, -, rfl⟩ := List.mem_map.1 hr
      exact Record.isClean_ofRow htag.word row
    · exact hclean r hr
  have hnodup : [tag].Nodup := List.nodup_singleton tag
  have hempty : Progress.emptySection tag = .absent := if_neg hne
  obtain ⟨p, hrowsRead, hp⟩ :=
    Progress.foldlM_ofRow hnodup htag hne hrows hempty (Progress.sections_start hnodup)
  obtain ⟨q, hothersRead, hq⟩ := Progress.foldlM_of_notMem hnodup
    (fun r hr => ⟨(hothers r hr).1, fun hmem =>
      (hothers r hr).2 (List.mem_singleton.1 hmem)⟩) hp
  have hread : (rows.map (Record.ofRow tag) ++ others).foldlM (fun p r => p.line r.words)
      (Progress.start [tag]) = .ok q := by
    rw [List.foldlM_append, hrowsRead]
    exact hothersRead
  rw [readText_records hclean' hread hq, List.map_singleton, Function.update_self]
  rfl

end MeshFile
end LatticeHull
