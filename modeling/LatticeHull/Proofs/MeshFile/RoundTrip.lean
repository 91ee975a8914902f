import LatticeHull.Proofs.MeshFile.Lines
import LatticeHull.Text
import Mathlib

/-!
# Files that read back

A mesh file is written from batches of rows, each under a tag of its own, and from faces.
Whatever tags of the file are asked for, reading it collects under each of them what was
written there: lines of other tags leave a section alone, and those of its own tag bring
its items into it in order.

Only one thing keeps a file from reading back: a face that refers to a vertex whose
number, counted from one, has more digits than are written.  Writing ends there, behind
the lines before that face.
-/

namespace LatticeHull
namespace Text

/-!
## Octets read back

A text is the same after it has been turned into octets and these have been read.  A
character takes one octet for its first seven bits, and another one for every further six
of them or fewer, so the proof goes by the number of octets of a character and follows
the bits from one octet to the next.
-/

def continuation (bits : Nat) : UInt8 :=
  UInt8.ofNat (bits % 0x40 + 0x80)

theorem toNat_ofNat {n : Nat} (hn : n < 256) : (UInt8.ofNat n).toNat = n :=
  UInt8.toNat_ofNat_of_lt' hn

theorem toNat_continuation (bits : Nat) : (continuation bits).toNat = bits % 64 + 128 :=
  toNat_ofNat (by omega)

/-- The bits of a character after the next octet within it. -/
theorem bits_continuation (bits : Nat) :
    bits / 64 * 64 + ((continuation bits).toNat - 0x80) = bits := by
  rw [toNat_continuation]
  omega

section Steps

variable {owed low high bits : Nat} (hlow : low ≤ bits % 64 + 128)
  (hhigh : bits % 64 + 128 ≤ high)

include hlow hhigh

theorem decodeFrom_continuation (rest : List UInt8) :
    decodeFrom (some ⟨owed + 2, low, high, bits / 64⟩) (continuation bits :: rest) =
      decodeFrom (some ⟨owed + 1, 0x80, 0xBF, bits⟩) rest := by
  have hrange : low ≤ (continuation bits).toNat ∧ (continuation bits).toNat ≤ high := by
    rw [toNat_continuation]
    exact ⟨hlow, hhigh⟩
  have howed : ¬owed + 2 ≤ 1 := by omega
  rw [decodeFrom, if_pos hrange]
  simp only [bits_continuation, if_neg howed]
  rfl

theorem decodeFrom_last (rest : List UInt8) :
    decodeFrom (some ⟨1, low, high, bits / 64⟩) (continuation bits :: rest) =
      (Char.ofNat bits :: (decodeFrom none rest).1, (decodeFrom none rest).2) := by
  have hrange : low ≤ (continuation bits).toNat ∧ (continuation bits).toNat ≤ high := by
    rw [toNat_continuation]
    exact ⟨hlow, hhigh⟩
  rw [decodeFrom, if_pos hrange]
  simp only [bits_continuation, le_refl, if_true]

end Steps

theorem decodeFrom_begin {octet : Nat} (hoctet : octet < 256) {part : PartialCharacter}
    (hbegin : begin? octet = some (.inr part)) (rest : List UInt8) :
    decodeFrom none (UInt8.ofNat octet :: rest) = decodeFrom (some part) rest := by
  rw [decodeFrom, toNat_ofNat hoctet, hbegin]

section Beginnings

variable {n : Nat}

theorem begin?_two (hlow : 0x7F < n) (hhigh : n ≤ 0x7FF) :
    begin? (n / 64 % 32 + 0xC0) = some (.inr ⟨1, 0x80, 0xBF, n / 64⟩) := by
  have hbits : n / 64 % 32 + 0xC0 - 0xC0 = n / 64 := by omega
  rw [begin?, if_neg (by omega), if_pos (by omega), hbits]

/-- The range of the second of three octets leaves out what fits into two
and the surrogates. -/
theorem exists_begin?_three (hlow : 0x7FF < n) (hhigh : n ≤ 0xFFFF)
    (hvalid : n < 0xD800 ∨ 0xDFFF < n) :
    ∃ low high, begin? (n / 4096 % 16 + 0xE0) = some (.inr ⟨2, low, high, n / 64 / 64⟩) ∧
      low ≤ n / 64 % 64 + 128 ∧ n / 64 % 64 + 128 ≤ high := by
  have hbits : n / 4096 % 16 + 0xE0 - 0xE0 = n / 64 / 64 := by omega
  rw [begin?, if_neg (by omega), if_neg (by omega), if_pos (by omega), hbits]
  refine ⟨_, _, rfl, ?_, ?_⟩
  · split <;> omega
  · split <;> omega

/-- The range of the second of four octets leaves out what fits into three and what lies
outside the character set. -/
theorem exists_begin?_four (hlow : 0xFFFF < n) (hhigh : n < 0x110000) :
    ∃ low high, begin? (n / 262144 % 8 + 0xF0) =
      some (.inr ⟨3, low, high, n / 4096 / 64⟩) ∧
      low ≤ n / 4096 % 64 + 128 ∧ n / 4096 % 64 + 128 ≤ high := by
  have hbits : n / 262144 % 8 + 0xF0 - 0xF0 = n / 4096 / 64 := by omega
  rw [begin?, if_neg (by omega), if_neg (by omega), if_neg (by omega),
    if_pos (by omega), hbits]
  refine ⟨_, _, rfl, ?_, ?_⟩
  · split <;> omega
  · split <;> omega

end Beginnings

/-- The octets of a character are read as that character. -/
theorem decodeFrom_utf8EncodeChar (c : Char) (rest : List UInt8) :
    decodeFrom none (String.utf8EncodeChar c ++ rest) =
      (c :: (decodeFrom none rest).1, (decodeFrom none rest).2) := by
  have hchar : Char.ofNat c.toNat = c := Char.ofNat_toNat c
  have hvalid : c.toNat < 0xD800 ∨ 0xDFFF < c.toNat ∧ c.toNat < 0x110000 := c.valid
  have hval : c.val.toNat = c.toNat := rfl
  simp only [String.utf8EncodeChar, hval]
  generalize c.toNat = n at hchar hvalid
  by_cases hone : n ≤ 0x7F
  · have hbegin : begin? n = some (.inl c) := by rw [begin?, if_pos hone, hchar]
    rw [if_pos hone, List.singleton_append, decodeFrom, toNat_ofNat (by omega), hbegin]
  rw [if_neg hone]
  by_cases htwo : n ≤ 0x7FF
  · rw [if_pos htwo]
    change decodeFrom none (UInt8.ofNat (n / 64 % 32 + 0xC0) ::
      continuation n :: rest) = _
    rw [decodeFrom_begin (by omega) (begin?_two (by omega) htwo),
      decodeFrom_last (by omega) (by omega), hchar]
  rw [if_neg htwo]
  by_cases hthree : n ≤ 0xFFFF
  · obtain ⟨low, high, hbegin, hlow, hhigh⟩ :=
      exists_begin?_three (by omega) hthree (hvalid.imp_right And.left)
    rw [if_pos hthree]
    change decodeFrom none (UInt8.ofNat (n / 4096 % 16 + 0xE0) ::
      continuation (n / 64) :: continuation n :: rest) = _
    rw [decodeFrom_begin (by omega) hbegin, decodeFrom_continuation hlow hhigh,
      decodeFrom_last (by omega) (by omega), hchar]
  · obtain ⟨low, high, hbegin, hlow, hhigh⟩ :=
      exists_begin?_four (n := n) (by omega) (by omega)
    have hbits : n / 4096 = n / 64 / 64 := by omega
    rw [if_neg hthree]
    change decodeFrom none (UInt8.ofNat (n / 262144 % 8 + 0xF0) ::
      continuation (n / 4096) :: continuation (n / 64) :: continuation n :: rest) = _
    rw [decodeFrom_begin (by omega) hbegin, decodeFrom_continuation hlow hhigh, hbits,
      decodeFrom_continuation (by omega) (by omega),
      decodeFrom_last (by omega) (by omega), hchar]

def octets (s : String) : List UInt8 :=
  s.toUTF8.data.toList

theorem octets_eq (s : String) : octets s = s.toList.flatMap String.utf8EncodeChar := by
  rw [octets, String.toUTF8_eq_toByteArray, ← String.utf8Encode_toList]
  simp [List.utf8Encode]

/-- The octets of a text are read as that text. -/
theorem decode_octets (s : String) : decode (octets s) = (s.toList, .complete) := by
  rw [octets_eq, decode]
  induction s.toList with
  | nil => rfl
  | cons c text ih => rw [List.flatMap_cons, decodeFrom_utf8EncodeChar, ih]

end Text

/-! ## Batches of rows -/

namespace MeshFile

/-! ### What is written -/

/-- Rows of one length that are to be written under a tag, as lists of numbers
or as an arrangement. -/
structure Batch where
  tag : String
  isTag : IsTag tag
  ne_faces : tag ≠ "f"
  ne_filename : tag ≠ "filename"
  width : Nat
  rows : List (List Float)
  rows_ne : rows ≠ []
  length_row : ∀ row ∈ rows, row.length = width
  asGrid : Bool

namespace Batch

def datum (b : Batch) : Datum :=
  .list [.text b.tag, rowsDatum b.rows]

def content (b : Batch) : Content :=
  if b.asGrid then .grid (stack b.width b.rows) else .loose (rowsDatum b.rows)

def records (b : Batch) : List Record :=
  b.rows.map (.ofRow b.tag)

def collected (b : Batch) : Section :=
  .rows (stack b.width b.rows)

theorem isClean_records (b : Batch) : ∀ r ∈ b.records, r.IsClean := by
  intro r hr
  obtain ⟨row, -, rfl⟩ := List.mem_map.1 hr
  exact Record.isClean_ofRow b.isTag.word row

theorem contentOfDatum_rowsDatum (b : Batch) :
    contentOfDatum b.asGrid (rowsDatum b.rows) = .ok b.content := by
  rw [content]
  cases b.asGrid with
  | false => rfl
  | true =>
      rw [contentOfDatum, if_pos rfl, ofDatum_rowsDatum b.length_row b.rows_ne]
      rfl

theorem content_ne_null (b : Batch) : b.content ≠ .loose .null := by
  cases hgrid : b.asGrid <;> simp [content, hgrid, rowsDatum]

theorem linesOf_content (b : Batch) :
    linesOf (rowLine b.tag) b.content = recordLines b.records := by
  rw [content]
  cases b.asGrid with
  | false => exact linesOf_rowsDatum b.tag b.rows
  | true => exact linesOf_stack b.tag b.length_row

end Batch

/-! ### Writing -/

theorem assign_of_notMem {A : Type} {tag : String} {blocks : List (String × A)}
    (htag : tag ∉ blocks.map Prod.fst) (a : A) :
    assign tag a blocks = blocks ++ [(tag, a)] := by
  induction blocks with
  | nil => rfl
  | cons block blocks ih =>
      rw [List.map_cons, List.mem_cons, not_or] at htag
      rw [assign, if_neg (Ne.symm htag.1), ih htag.2]
      rfl

def blocksOf (batches : List Batch) : List (String × Content) :=
  batches.map fun b => (b.tag, b.content)

def writeBatches (batches : List Batch) (faces : List (List Nat)) : Written :=
  write (blocksOf batches) (.loose (facesDatum faces))

theorem blocksOfData_batches {asGrids : Bool} {batches : List Batch}
    (hbatches : (batches.map Batch.tag).Nodup)
    (hgrids : ∀ b ∈ batches, b.asGrid = asGrids) :
    blocksOfData asGrids (batches.map Batch.datum) = .ok (blocksOf batches) := by
  rw [blocksOfData]
  induction batches using List.reverseRecOn with
  | nil => rfl
  | append_singleton batches b ih =>
      rw [List.map_append, List.map_singleton, List.nodup_append] at hbatches
      obtain ⟨hfirst, -, hnew⟩ := hbatches
      obtain ⟨hgrid, hgrids⟩ : b.asGrid = asGrids ∧ ∀ c ∈ batches, c.asGrid = asGrids :=
        ⟨hgrids b (List.mem_append_right _ (List.mem_singleton_self b)),
          fun c hc => hgrids c (List.mem_append_left _ hc)⟩
      have htag : b.tag ∉ (blocksOf batches).map Prod.fst := by
        rw [blocksOf, List.map_map]
        exact fun hmem => hnew _ hmem _ (List.mem_singleton_self _) rfl
      rw [List.map_append, List.foldlM_append, ih hfirst hgrids, List.map_singleton]
      simp only [bind, Except.bind, List.foldlM_cons, Batch.datum, ← hgrid,
        b.contentOfDatum_rowsDatum]
      rw [assign_of_notMem htag, blocksOf, blocksOf, List.map_append]
      rfl

theorem lookup_blocksOf {batches : List Batch} {tag : String}
    (htag : ∀ b ∈ batches, b.tag ≠ tag) : (blocksOf batches).lookup tag = none := by
  rw [List.lookup_eq_none_iff]
  intro block hblock
  obtain ⟨b, hb, rfl⟩ := List.mem_map.1 hblock
  simpa using (htag b hb).symm

theorem filter_blocksOf (batches : List Batch) :
    (blocksOf batches).filter (·.1 ≠ "f") = blocksOf batches := by
  rw [List.filter_eq_self]
  intro block hblock
  obtain ⟨b, -, rfl⟩ := List.mem_map.1 hblock
  exact decide_eq_true b.ne_faces

/-- A request for batches that are all given alike writes them. -/
theorem writeData_batches {asGrids : Bool} {batches : List Batch}
    (hbatches : (batches.map Batch.tag).Nodup)
    (hgrids : ∀ b ∈ batches, b.asGrid = asGrids) (faces : List (List Nat)) :
    writeData (batches.map Batch.datum) (some (facesDatum faces)) asGrids =
      writeBatches batches faces := by
  have hfaces : (blocksOf batches).lookup "f" = none :=
    lookup_blocksOf fun b _ => b.ne_faces
  have hname : (blocksOf batches).lookup "filename" = none :=
    lookup_blocksOf fun b _ => b.ne_filename
  rw [writeData, blocksOfData_batches hbatches hgrids]
  simp only [hfaces, hname, filter_blocksOf]
  rfl

theorem write_blocksOf (batches : List Batch) (faces : Content) :
    write (blocksOf batches) faces = collect (fileLines (blocksOf batches) faces) := by
  unfold write
  split
  · rename_i hnull
    obtain ⟨before, behind, hsplit, -⟩ := List.lookup_eq_some_iff.1 hnull
    have hmem : ("v", Content.loose .null) ∈ blocksOf batches := by simp [hsplit]
    obtain ⟨b, -, hb⟩ := List.mem_map.1 hmem
    exact absurd (Prod.ext_iff.1 hb).2 b.content_ne_null
  · rfl

theorem flatMap_linesOf_blocksOf (batches : List Batch) :
    (blocksOf batches).flatMap (fun block => linesOf (rowLine block.1) block.2) =
      recordLines (batches.flatMap Batch.records) := by
  induction batches with
  | nil => rfl
  | cons b batches ih =>
      rw [blocksOf] at ih
      rw [blocksOf, List.map_cons, List.flatMap_cons, List.flatMap_cons,
        recordLines_append, ih, b.linesOf_content]

/-- What is written are the lines of the batches and then those of the faces. -/
theorem writeBatches_eq (batches : List Batch) (faces : List (List Nat)) :
    writeBatches batches faces =
      collect (recordLines (batches.flatMap Batch.records) ++
        faces.map fun face => faceLine (faceContent face)) := by
  rw [writeBatches, write_blocksOf, fileLines, flatMap_linesOf_blocksOf,
    faceLines_facesDatum]

def fileRecords (batches : List Batch) (faces : List (List Nat)) : List Record :=
  batches.flatMap Batch.records ++ faces.map .ofFace

theorem isClean_fileRecords (batches : List Batch) (faces : List (List Nat)) :
    ∀ r ∈ fileRecords batches faces, r.IsClean := by
  intro r hr
  rcases List.mem_append.1 hr with hr | hr
  · obtain ⟨b, -, hr⟩ := List.mem_flatMap.1 hr
    exact b.isClean_records r hr
  · obtain ⟨face, -, rfl⟩ := List.mem_map.1 hr
    exact Record.isClean_ofFace face

/-- Lines behind batches and faces whose numbers are not too long are
written behind their text. -/
theorem collect_append {batches : List Batch} {faces : List (List Nat)}
    (hfaces : ∀ face ∈ faces, ∀ i ∈ face, i + 1 < tooLongFrom)
    (lines : List (Except Fault String)) :
    collect (recordLines (batches.flatMap Batch.records) ++
        ((faces.map fun face => faceLine (faceContent face)) ++ lines)) =
      { collect lines with
        text := (collect lines).text.map
          (recordsText (fileRecords batches faces) ++ ·) } := by
  rw [map_faceLine_of_lt hfaces, ← List.append_assoc, ← recordLines_append]
  exact collect_recordLines_append ..

theorem writeBatches_of_lt {batches : List Batch} {faces : List (List Nat)}
    (hfaces : ∀ face ∈ faces, ∀ i ∈ face, i + 1 < tooLongFrom) :
    writeBatches batches faces =
      { text := some (recordsText (fileRecords batches faces)), fault := none } := by
  rw [writeBatches_eq, map_faceLine_of_lt hfaces, ← recordLines_append]
  exact collect_recordLines _

/-- Whether the numbers of all vertices of a face are written. -/
def isWritten (face : List Nat) : Bool :=
  face.all fun i => decide (i + 1 < tooLongFrom)

theorem isWritten_iff {face : List Nat} :
    isWritten face = true ↔ ∀ i ∈ face, i + 1 < tooLongFrom := by
  simp only [isWritten, List.all_eq_true, decide_eq_true_eq]

/-- Writing ends at the first face with a number that is too long. -/
theorem writeBatches_of_le (batches : List Batch) {faces : List (List Nat)}
    (hfaces : ∃ face ∈ faces, ∃ i ∈ face, tooLongFrom ≤ i + 1) :
    writeBatches batches faces =
      { text := some (recordsText (fileRecords batches (faces.takeWhile isWritten))),
        fault := some .tooManyDigits } := by
  have hwritten : ∀ face ∈ faces.takeWhile isWritten, ∀ i ∈ face, i + 1 < tooLongFrom :=
    fun face hface => isWritten_iff.1 (List.mem_takeWhile_imp hface)
  cases hrest : faces.dropWhile isWritten with
  | nil =>
      obtain ⟨face, hface, i, hi, hlong⟩ := hfaces
      have hshort := isWritten_iff.1 (List.dropWhile_eq_nil_iff.1 hrest face hface) i hi
      exact absurd hshort (not_lt.2 hlong)
  | cons face rest =>
      obtain ⟨i, hi, hlong⟩ : ∃ i ∈ face, tooLongFrom ≤ i + 1 := by
        have hhead := List.head_dropWhile_not isWritten (l := faces) (by simp [hrest])
        have hnot : ¬isWritten face = true := by
          simpa only [hrest, List.head_cons, Bool.not_eq_true] using hhead
        simpa only [isWritten_iff, not_forall, not_lt, exists_prop] using hnot
      have hsplit : faces = faces.takeWhile isWritten ++ face :: rest := by
        rw [← hrest, List.takeWhile_append_dropWhile]
      have hlines := congrArg (List.map fun face => faceLine (faceContent face)) hsplit
      rw [List.map_append, List.map_cons, faceLine_of_le hi hlong] at hlines
      rw [writeBatches_eq, hlines, collect_append hwritten, collect, Option.map_some,
        String.append_empty]

/-! ### Reading -/

namespace Progress

variable {tags : List String} (hnodup : tags.Nodup)

include hnodup

/-- Going through the records of some batches collects each batch under its tag, and
nothing under other tags. -/
theorem foldlM_batches {batches : List Batch} (hbatches : (batches.map Batch.tag).Nodup)
    {content : String → Section} (hcontent : ∀ b ∈ batches, content b.tag = .absent)
    {p : Progress} (hp : p.sections = listed tags content) :
    ∃ (q : Progress) (after : String → Section),
      (batches.flatMap Batch.records).foldlM (fun p r => p.line r.words) p = .ok q ∧
        q.sections = listed tags after ∧ (∀ b ∈ batches, after b.tag = b.collected) ∧
          ∀ tag ∉ batches.map Batch.tag, after tag = content tag := by
  induction batches generalizing content p with
  | nil =>
    exact ⟨p, content, rfl, hp, fun b hb => absurd hb List.not_mem_nil, fun _ _ => rfl⟩
  | cons b batches ih =>
      rw [List.map_cons, List.nodup_cons] at hbatches
      obtain ⟨hnew, hrest⟩ := hbatches
      have hcollected : stacked b.width b.rows = b.collected := by
        rw [stacked, if_neg (by simpa using b.rows_ne), Batch.collected]
      obtain ⟨p', hfirst, hp'⟩ := foldlM_ofRow hnodup b.isTag b.ne_faces b.length_row
        (hcontent b (List.mem_cons_self ..)) hp
      rw [hcollected] at hp'
      have hcontent' :
          ∀ c ∈ batches, Function.update content b.tag b.collected c.tag = .absent := by
        intro c hc
        have hne : c.tag ≠ b.tag := fun heq => hnew (heq ▸ List.mem_map_of_mem hc)
        rw [Function.update_of_ne hne]
        exact hcontent c (List.mem_cons_of_mem _ hc)
      obtain ⟨q, after, hread, hq, hinside, houtside⟩ := ih hrest hcontent' hp'
      refine ⟨q, after, ?_, hq, ?_, ?_⟩
      · rw [List.flatMap_cons, List.foldlM_append]
        exact hfirst ▸ hread
      · intro c hc
        rcases List.mem_cons.1 hc with rfl | hc
        · rw [houtside _ hnew, Function.update_self]
        · exact hinside c hc
      · intro tag htag
        rw [List.map_cons, List.mem_cons, not_or] at htag
        rw [houtside tag htag.2, Function.update_of_ne htag.1]

end Progress

theorem texts?_map_text (tags : List String) : texts? (tags.map .text) = some tags := by
  induction tags with
  | nil => rfl
  | cons tag tags ih => rw [List.map_cons, texts?, ih]; rfl

/-- A text is read alike from characters and from octets. -/
theorem read_text (text : String) {tags : List String} (hne : tags ≠ []) :
    read (.text text.toList) (tags.map .text) = readText text.toList tags ∧
      read (.octets (Text.octets text)) (tags.map .text) =
        readText text.toList tags := by
  obtain ⟨tag, tags, rfl⟩ := List.exists_cons_of_ne_nil hne
  have htexts := texts?_map_text (tag :: tags)
  refine ⟨?_, ?_⟩
  · simp only [read, htexts]
  · simp only [read, htexts, readOctets, Text.decode_octets]

/-! ### Reading what was written -/

/-- What was written, under each of the tags of a file. -/
def contents (batches : List Batch) (faces : List (List Nat)) :
    List (String × Section) :=
  batches.map (fun b => (b.tag, b.collected)) ++ [("f", .faces (faces.map readFace))]

/-- Whether a file with some batches and faces is written without a fault, and each
request for some of its tags is answered with what was written under them, in the order
in which they are asked for. -/
def ReadsBack (batches : List Batch) (faces : List (List Nat)) : Prop :=
  ∃ text : String,
    writeBatches batches faces = { text := some text, fault := none } ∧
      ∀ tags : List String, tags ≠ [] → tags.Nodup →
        (∀ tag ∈ tags, tag ∈ (contents batches faces).map Prod.fst) →
          ∃ sections : List Section,
            List.Forall₂ (fun tag s => (tag, s) ∈ contents batches faces) tags sections ∧
              read (.text text.toList) (tags.map .text) = .ok (.ofSections sections) ∧
              read (.octets (Text.octets text)) (tags.map .text) =
                .ok (.ofSections sections)

/-- Reading the records of a file collects under each tag what was written there. -/
theorem exists_readText_fileRecords {batches : List Batch}
    (hbatches : (batches.map Batch.tag).Nodup) {faces : List (List Nat)}
    (hfaces : ∀ face ∈ faces, ∀ i ∈ face, i + 1 < tooLongFrom) {tags : List String}
    (hnodup : tags.Nodup) :
    ∃ content : String → Section,
      (∀ entry ∈ contents batches faces, content entry.1 = entry.2) ∧
        readText (recordsText (fileRecords batches faces)).toList tags =
          .ok (.ofSections (tags.map content)) := by
  have habsent : ∀ b ∈ batches, Progress.emptySection b.tag = .absent :=
    fun b _ => if_neg b.ne_faces
  have hnotFaces : "f" ∉ batches.map Batch.tag := by
    intro hmem
    obtain ⟨b, -, hb⟩ := List.mem_map.1 hmem
    exact b.ne_faces hb
  obtain ⟨p, content, hrows, hp, hinside, houtside⟩ :=
    Progress.foldlM_batches hnodup hbatches habsent (Progress.sections_start hnodup)
  have hnone : content "f" = .faces [] := houtside "f" hnotFaces
  obtain ⟨q, hread, hq⟩ := Progress.foldlM_ofFace hnodup hfaces hnone hp
  refine ⟨_, ?_, readText_records (isClean_fileRecords batches faces) ?_ hq⟩
  · intro entry hentry
    rcases List.mem_append.1 hentry with hentry | hentry
    · obtain ⟨b, hb, rfl⟩ := List.mem_map.1 hentry
      rw [Function.update_of_ne b.ne_faces]
      exact hinside b hb
    · obtain rfl := List.mem_singleton.1 hentry
      exact Function.update_self ..
  · rw [fileRecords, List.foldlM_append]
    exact hrows ▸ hread

/-- A file that reads back refers to no vertex whose number is too long. -/
theorem ReadsBack.lt_tooLongFrom {batches : List Batch} {faces : List (List Nat)}
    (hfile : ReadsBack batches faces) :
    ∀ face ∈ faces, ∀ i ∈ face, i + 1 < tooLongFrom := by
  intro face hface i hi
  refine lt_of_not_ge fun hlong => ?_
  obtain ⟨text, hwritten, -⟩ := hfile
  rw [writeBatches_of_le batches ⟨face, hface, i, hi, hlong⟩] at hwritten
  exact Option.some_ne_none _ (congrArg Written.fault hwritten)

/-- A file of batches under different tags reads back exactly if no face refers to a
vertex whose number is too long to be written.  If one does, writing ends with the fault
that there are too many digits, and the file holds the batches and the faces before the
first such face.  Batches that are all given alike can be written by one request. -/
theorem readsBack_iff {batches : List Batch} (hbatches : (batches.map Batch.tag).Nodup)
    (faces : List (List Nat)) :
    (ReadsBack batches faces ↔ ∀ face ∈ faces, ∀ i ∈ face, i + 1 < tooLongFrom) ∧
      ((∃ face ∈ faces, ∃ i ∈ face, tooLongFrom ≤ i + 1) →
        writeBatches batches faces =
          { text := some (recordsText (fileRecords batches (faces.takeWhile isWritten))),
            fault := some .tooManyDigits }) ∧
      ∀ asGrids, (∀ b ∈ batches, b.asGrid = asGrids) →
        writeData (batches.map Batch.datum) (some (facesDatum faces)) asGrids =
          writeBatches batches faces := by
  refine ⟨⟨ReadsBack.lt_tooLongFrom, fun hfaces => ?_⟩, writeBatches_of_le batches,
    fun asGrids hgrids => writeData_batches hbatches hgrids faces⟩
  refine ⟨_, writeBatches_of_lt hfaces, fun tags hne hnodup htags => ?_⟩
  obtain ⟨content, hcontent, hread⟩ := exists_readText_fileRecords hbatches hfaces hnodup
  obtain ⟨htext, hoctets⟩ := read_text (recordsText (fileRecords batches faces)) hne
  refine ⟨tags.map content, ?_, htext.trans hread, hoctets.trans hread⟩
  rw [List.forall₂_map_right_iff, List.forall₂_same]
  intro tag htag
  obtain ⟨entry, hentry, rfl⟩ := List.mem_map.1 (htags tag htag)
  rwa [hcontent entry hentry]

namespace Batch

/-- Two vertices, with a signed zero, an infinite and an undefined coordinate. -/
def vertices : Batch where
  tag := "v"
  isTag := isTag_vertices
  ne_faces := by decide
  ne_filename := by decide
  width := 3
  rows := [[0.0, -0.0, 0.1], [1e300, 1.0 / 0.0, 0.0 / 0.0]]
  rows_ne := List.cons_ne_nil _ _
  length_row := by decide
  asGrid := true

/-- A single number under a tag that takes more octets than characters. -/
def height : Batch where
  tag := "höhe"
  isTag := ⟨⟨by simp, by simp; decide⟩, by simp⟩
  ne_faces := by decide
  ne_filename := by decide
  width := 1
  rows := [[0.25]]
  rows_ne := List.cons_ne_nil _ _
  length_row := by decide
  asGrid := false

end Batch

/-- One batch is written as an arrangement and the other one as lists of numbers. -/
theorem readsBack_vertices_height :
    ([Batch.vertices, .height].map Batch.tag).Nodup ∧
      ReadsBack [.vertices, .height] [[0, 1], []] := by
  have hnodup : ([Batch.vertices, .height].map Batch.tag).Nodup := by decide
  have hsmall : ∀ face ∈ [[0, 1], []], ∀ i ∈ face, i + 1 < 10 ^ 16 := by decide
  exact ⟨hnodup, (readsBack_iff hnodup [[0, 1], []]).1.2 fun face hface i hi =>
    (hsmall face hface i hi).trans_le le_tooLongFrom⟩

theorem le_index_add_one : tooLongFrom ≤ 10 ^ Numeral.maxWholeDigits - 1 + 1 := by
  unfold tooLongFrom
  generalize Numeral.maxWholeDigits = k
  rw [Nat.sub_add_cancel (Nat.one_le_pow' k 9)]
  exact le_rfl

/-- The greatest index that can be read is that of a vertex whose number
cannot be written. -/
theorem not_readsBack_beyond :
    ¬ReadsBack [.vertices] [[10 ^ Numeral.maxWholeDigits - 1]] ∧
      (writeBatches [.vertices] [[10 ^ Numeral.maxWholeDigits - 1]]).fault =
        some .tooManyDigits := by
  have hlong :
      ∃ face ∈ [[10 ^ Numeral.maxWholeDigits - 1]], ∃ i ∈ face, tooLongFrom ≤ i + 1 :=
    ⟨_, List.mem_singleton_self _, _, List.mem_singleton_self _, le_index_add_one⟩
  refine ⟨fun hfile => ?_, congrArg Written.fault (writeBatches_of_le [.vertices] hlong)⟩
  obtain ⟨face, hface, i, hi, hle⟩ := hlong
  exact absurd (hfile.lt_tooLongFrom face hface i hi) (not_lt.2 hle)

end MeshFile
end LatticeHull
