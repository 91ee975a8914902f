import LatticeHull.Proofs.Equality
import LatticeHull.Proofs.MeshFile.RoundTrip

/-!
# Requests for several tags

The sections of several tags are collected side by side, and none of them knows of the
others: reading for several tags goes well exactly if reading for each of them does, and
each section is the one that its tag alone would have got.  There is one section for each
different tag, in the order in which the tags are first asked for.  So a request for
several tags answers what requests for each of them do, tag by tag, exactly if no tag is
asked for twice, or if it ends with a fault.
-/

namespace LatticeHull
namespace MeshFile

/-!
## Progress through a file

Whatever the lines of a file are, reading them keeps the tags of the
sections in their order, and the number of vertices grows by the number of
lines that are tagged as vertices.
-/

/-- The tag of a line and the fields behind it, unless the line is blank or a comment. -/
def tagged? (line : List Char) : Option (String × List (List Char)) :=
  match Text.fields line with
  | [] => none
  | name :: fields =>
    if name.head? = some '#' then none else some (String.ofList name, fields)

def isVertex (line : List Char) : Bool :=
  (tagged? line).any (·.1 == "v")

def vertexCount (lines : List (List Char)) : Nat :=
  lines.countP isVertex

namespace Progress

def names (p : Progress) : List String :=
  p.sections.map Prod.fst

theorem names_start (tags : List String) : (start tags).names = tags.eraseDups := by
  rw [names, start, List.map_map]
  exact List.map_id _

/-! ### One line -/

/-- A line extends the section of its tag; a line without a tag changes nothing. -/
theorem line_eq (p : Progress) (line : List Char) :
    p.line (Text.fields line) =
      match tagged? line with
      | none => .ok p
      | some (tag, fields) => do
          let sections ← extendAll tag fields (p.countAfter tag) p.sections
          return { count := p.countAfter tag, sections } := by
  rw [tagged?]
  cases Text.fields line with
  | nil => rfl
  | cons name fields =>
      by_cases hcomment : name.head? = some '#'
      · obtain ⟨word, rfl⟩ := List.head?_eq_some_iff.1 hcomment
        rfl
      · simp only [if_neg hcomment]
        rw [Progress.line]
        · rfl
        · exact fun word heq => hcomment (by rw [heq]; rfl)

theorem extendAll_of_notMem {tag : String} {sections : List (String × Section)}
    (htag : tag ∉ sections.map Prod.fst) (fields : List (List Char)) (count : Nat) :
    extendAll tag fields count sections = .ok sections := by
  induction sections with
  | nil => rfl
  | cons entry rest ih =>
      rw [List.map_cons, List.mem_cons, not_or] at htag
      rw [extendAll, if_neg fun heq => htag.1 heq.symm, ih htag.2]
      rfl

theorem map_fst_extendAll {tag : String} {fields : List (List Char)} {count : Nat}
    {sections after : List (String × Section)}
    (h : extendAll tag fields count sections = .ok after) :
    after.map Prod.fst = sections.map Prod.fst := by
  induction sections generalizing after with
  | nil => cases h; rfl
  | cons entry rest ih =>
      rw [extendAll] at h
      split at h
      · obtain ⟨s, -, hs⟩ := exists_ok_of_bind h
        cases hs
        rfl
      · obtain ⟨others, hrest, hothers⟩ := exists_ok_of_bind h
        cases hothers
        rw [List.map_cons, List.map_cons, ih hrest]

theorem line_ok {p q : Progress} {line : List Char}
    (h : p.line (Text.fields line) = .ok q) :
    q.count = p.count + (isVertex line).toNat ∧ q.names = p.names := by
  rw [line_eq] at h
  rw [isVertex]
  cases htag : tagged? line with
  | none =>
      rw [htag] at h
      cases h
      exact ⟨rfl, rfl⟩
  | some record =>
      rw [htag] at h
      obtain ⟨sections, hsections, hq⟩ := exists_ok_of_bind h
      cases hq
      refine ⟨?_, map_fst_extendAll hsections⟩
      rw [Option.any_some, countAfter]
      by_cases hv : record.1 = "v" <;> simp [hv]

/-! ### All lines -/

theorem lines_cons (p : Progress) (line : List Char) (rest : List (List Char)) :
    p.lines (line :: rest) = p.line (Text.fields line) >>= fun q => q.lines rest := by
  rw [lines, List.foldlM_cons]
  rfl

theorem lines_append (p : Progress) (before behind : List (List Char)) :
    p.lines (before ++ behind) = p.lines before >>= fun q => q.lines behind := by
  rw [lines, List.foldlM_append]
  rfl

theorem lines_ok {p q : Progress} {lines : List (List Char)}
    (h : p.lines lines = .ok q) :
    q.count = p.count + vertexCount lines ∧ q.names = p.names := by
  induction lines generalizing p with
  | nil => cases h; exact ⟨rfl, rfl⟩
  | cons line rest ih =>
      rw [lines_cons] at h
      obtain ⟨r, hline, hrest⟩ := exists_ok_of_bind h
      obtain ⟨hcount, hnames⟩ := line_ok hline
      obtain ⟨hcount', hnames'⟩ := ih hrest
      refine ⟨?_, hnames'.trans hnames⟩
      rw [hcount', hcount, vertexCount, vertexCount, List.countP_cons]
      cases isVertex line <;> simp [Nat.add_comm, Nat.add_left_comm]

end Progress

/-! ### Files that hold a text -/

def File.Holds (text : List Char) : File → Prop
  | .missing => False
  | .octets os => Text.decode os = (text, .complete)
  | .text held => held = text

/-- Whatever a file holds its text in, it is read by reading the text. -/
theorem read_of_holds {file : File} {text : List Char} (hfile : file.Holds text)
    {tags : List String} (hne : tags ≠ []) :
    read file (tags.map .text) = readText text tags := by
  obtain ⟨tag, tags, rfl⟩ := List.exists_cons_of_ne_nil hne
  have htexts := texts?_map_text (tag :: tags)
  cases file with
  | missing => cases hfile
  | octets octets =>
      have hdecode : Text.decode octets = (text, .complete) := hfile
      simp only [read, htexts, readOctets, hdecode]
  | text held =>
      obtain rfl : held = text := hfile
      simp only [read, htexts]

/-! ## Sections of single tags -/

namespace Progress

/-- The progress with the sections of one tag alone. -/
def only (p : Progress) (tag : String) : Progress where
  count := p.count
  sections := p.sections.filter (·.1 = tag)

/-! ### One line -/

section Sections

variable {tag : String} {fields : List (List Char)} {count : Nat}
  {sections after : List (String × Section)}

theorem extendAll_filter_of_ne {other : String} (hne : tag ≠ other)
    (sections : List (String × Section)) :
    extendAll tag fields count (sections.filter (·.1 = other)) =
      .ok (sections.filter (·.1 = other)) := by
  refine extendAll_of_notMem (fun hmem => ?_) fields count
  obtain ⟨entry, hentry, rfl⟩ := List.mem_map.1 hmem
  exact hne (of_decide_eq_true (List.mem_filter.1 hentry).2)

theorem extendAll_filter (h : extendAll tag fields count sections = .ok after)
    (other : String) :
    extendAll tag fields count (sections.filter (·.1 = other)) =
      .ok (after.filter (·.1 = other)) := by
  induction sections generalizing after with
  | nil => cases h; rfl
  | cons entry rest ih =>
      obtain ⟨name, s⟩ := entry
      rw [extendAll] at h
      by_cases hname : name = tag
      · rw [if_pos hname] at h
        obtain ⟨s', hs', hafter⟩ := exists_ok_of_bind h
        cases hafter
        by_cases hother : name = other
        · simp only [List.filter_cons, hother, decide_true, if_true]
          rw [extendAll, if_pos (hother.symm.trans hname), hs']
          rfl
        · simp only [List.filter_cons, hother, decide_false,
            Bool.false_eq_true, if_false]
          exact extendAll_filter_of_ne (fun heq => hother (hname.trans heq)) rest
      · rw [if_neg hname] at h
        obtain ⟨others, hrest, hafter⟩ := exists_ok_of_bind h
        cases hafter
        by_cases hother : name = other
        · simp only [List.filter_cons, hother, decide_true, if_true]
          rw [extendAll, if_neg (hother ▸ hname), ih hrest]
          rfl
        · simp only [List.filter_cons, hother, decide_false,
            Bool.false_eq_true, if_false]
          exact ih hrest

/-- Only the sections of the tag of a line can stop it from being read. -/
theorem exists_extendAll_of_filter
    (h : extendAll tag fields count (sections.filter (·.1 = tag)) = .ok after) :
    ∃ result, extendAll tag fields count sections = .ok result := by
  induction sections with
  | nil => exact ⟨[], rfl⟩
  | cons entry rest ih =>
      rw [extendAll]
      by_cases hname : entry.1 = tag
      · rw [List.filter_cons, if_pos (decide_eq_true hname), extendAll, if_pos hname]
          at h
        obtain ⟨s, hs, -⟩ := exists_ok_of_bind h
        rw [if_pos hname, hs]
        exact ⟨(entry.1, s) :: rest, rfl⟩
      · rw [List.filter_cons, if_neg (by simp [hname])] at h
        obtain ⟨result, hresult⟩ := ih h
        rw [if_neg hname, hresult]
        exact ⟨entry :: result, rfl⟩

end Sections

theorem line_only {p q : Progress} {line : List Char}
    (h : p.line (Text.fields line) = .ok q) (tag : String) :
    (p.only tag).line (Text.fields line) = .ok (q.only tag) := by
  rw [line_eq] at h ⊢
  cases htagged : tagged? line with
  | none =>
      rw [htagged] at h
      cases h
      rfl
  | some record =>
      rw [htagged] at h
      obtain ⟨sections, hsections, hq⟩ := exists_ok_of_bind h
      cases hq
      have honly := extendAll_filter hsections tag
      change (extendAll record.1 record.2 (p.countAfter record.1)
        (p.sections.filter (·.1 = tag)) >>= _) = _
      rw [honly]
      rfl

theorem exists_line_of_only {p : Progress} {line : List Char}
    (h : ∀ tag ∈ p.names, ∃ r, (p.only tag).line (Text.fields line) = .ok r) :
    ∃ q, p.line (Text.fields line) = .ok q := by
  simp only [line_eq] at h ⊢
  cases htagged : tagged? line with
  | none => exact ⟨p, rfl⟩
  | some record =>
      obtain ⟨tag, fields⟩ := record
      obtain ⟨sections, hsections⟩ :
          ∃ sections, extendAll tag fields (p.countAfter tag) p.sections =
            .ok sections := by
        by_cases htag : tag ∈ p.names
        · obtain ⟨r, hr⟩ := h tag htag
          rw [htagged] at hr
          obtain ⟨after, hafter, -⟩ := exists_ok_of_bind hr
          exact exists_extendAll_of_filter hafter
        · exact ⟨p.sections, extendAll_of_notMem htag ..⟩
      exact ⟨⟨p.countAfter tag, sections⟩, by simp only [hsections]; rfl⟩

/-! ### All lines -/

theorem lines_only {p q : Progress} {lines : List (List Char)}
    (h : p.lines lines = .ok q) (tag : String) :
    (p.only tag).lines lines = .ok (q.only tag) := by
  induction lines generalizing p with
  | nil => cases h; rfl
  | cons line rest ih =>
      rw [lines_cons] at h ⊢
      obtain ⟨r, hline, hrest⟩ := exists_ok_of_bind h
      rw [line_only hline tag]
      exact ih hrest

theorem exists_lines_of_only {p : Progress} {lines : List (List Char)}
    (h : ∀ tag ∈ p.names, ∃ r, (p.only tag).lines lines = .ok r) :
    ∃ q, p.lines lines = .ok q := by
  induction lines generalizing p with
  | nil => exact ⟨p, rfl⟩
  | cons line rest ih =>
      have hfirst :
          ∀ tag ∈ p.names, ∃ r, (p.only tag).line (Text.fields line) = .ok r := by
        intro tag htag
        obtain ⟨r, hr⟩ := h tag htag
        rw [lines_cons] at hr
        obtain ⟨s, hs, -⟩ := exists_ok_of_bind hr
        exact ⟨s, hs⟩
      obtain ⟨q, hq⟩ := exists_line_of_only hfirst
      obtain ⟨last, hlast⟩ : ∃ last, q.lines rest = .ok last := by
        refine ih fun tag htag => ?_
        rw [(line_ok hq).2] at htag
        obtain ⟨r, hr⟩ := h tag htag
        rw [lines_cons, line_only hq tag] at hr
        exact ⟨r, hr⟩
      exact ⟨last, by rw [lines_cons, hq]; exact hlast⟩

/-! ### One tag -/

/-- Where no tag has two sections, a tag alone has its section. -/
theorem sections_only {p : Progress} (hp : p.names.Nodup) {entry : String × Section}
    (hentry : entry ∈ p.sections) : (p.only entry.1).sections = [entry] := by
  obtain ⟨before, behind, hsplit⟩ := List.append_of_mem hentry
  rw [names, hsplit, List.map_append, List.map_cons] at hp
  have hnot := (List.nodup_cons.1 (List.nodup_middle.1 hp)).1
  rw [List.mem_append, not_or] at hnot
  have hnone : ∀ others : List (String × Section), entry.1 ∉ others.map Prod.fst →
      others.filter (·.1 = entry.1) = [] := by
    intro others hothers
    refine List.filter_eq_nil_iff.2 fun other hother heq => hothers ?_
    exact List.mem_map.2 ⟨other, hother, of_decide_eq_true heq⟩
  rw [only, hsplit, List.filter_append, List.filter_cons, if_pos (decide_eq_true rfl),
    hnone before hnot.1, hnone behind hnot.2]
  rfl

theorem only_start {tags : List String} {tag : String} (htag : tag ∈ tags) :
    (start tags).only tag = start [tag] := by
  have hnodup : (start tags).names.Nodup := names_start tags ▸ nodup_eraseDups tags
  have hentry : (tag, emptySection tag) ∈ (start tags).sections :=
    List.mem_map.2 ⟨tag, List.mem_eraseDups.2 htag, rfl⟩
  have hsections : ((start tags).only tag).sections = (start [tag]).sections :=
    sections_only hnodup hentry
  exact congrArg (fun sections => (⟨0, sections⟩ : Progress)) hsections

end Progress

/-! ### Requests -/

open Progress

theorem readText_eq_ok_iff {text : List Char} {tags : List String} {a : Answer} :
    readText text tags = .ok a ↔
      ∃ p, (start tags).lines (Text.lines text) = .ok p ∧
        p.answer (tags.length = 1) = a := by
  constructor
  · intro h
    obtain ⟨p, hp, ha⟩ := exists_ok_of_bind h
    cases ha
    exact ⟨p, hp, rfl⟩
  · rintro ⟨p, hp, rfl⟩
    rw [readText, hp]
    rfl

/-- A text is read for some tags if it is read for each of them. -/
theorem exists_readText_iff (text : List Char) (tags : List String) :
    (∃ a, readText text tags = .ok a) ↔
      ∀ tag ∈ tags, ∃ a, readText text [tag] = .ok a := by
  constructor
  · rintro ⟨a, ha⟩ tag htag
    obtain ⟨p, hp, -⟩ := readText_eq_ok_iff.1 ha
    have honly := lines_only hp tag
    rw [only_start htag] at honly
    exact ⟨_, readText_eq_ok_iff.2 ⟨_, honly, rfl⟩⟩
  · intro h
    obtain ⟨p, hp⟩ : ∃ p, (start tags).lines (Text.lines text) = .ok p := by
      refine exists_lines_of_only fun tag htag => ?_
      rw [names_start, List.mem_eraseDups] at htag
      obtain ⟨a, ha⟩ := h tag htag
      obtain ⟨p, hp, -⟩ := readText_eq_ok_iff.1 ha
      exact ⟨p, only_start htag ▸ hp⟩
    exact ⟨_, readText_eq_ok_iff.2 ⟨p, hp, rfl⟩⟩

/-- What is read for several tags is what is read for each different one of them. -/
theorem readText_several {text : List Char} {tags : List String}
    (htags : 2 ≤ tags.length) {a : Answer} (h : readText text tags = .ok a) :
    ∃ sections, a = .several sections ∧
      List.Forall₂ (fun tag s => readText text [tag] = .ok (.one s)) tags.eraseDups
        sections := by
  obtain ⟨p, hp, rfl⟩ := readText_eq_ok_iff.1 h
  obtain ⟨-, hnames⟩ := lines_ok hp
  rw [names_start] at hnames
  have hnodup : p.names.Nodup := hnames ▸ nodup_eraseDups tags
  have hseveral : p.answer (tags.length = 1) = .several (p.sections.map Prod.snd) := by
    have hlength : ¬tags.length = 1 := by omega
    simp only [answer, hlength, decide_false]
  refine ⟨_, hseveral, ?_⟩
  rw [← hnames, names, List.forall₂_map_left_iff, List.forall₂_map_right_iff,
    List.forall₂_same]
  rintro ⟨tag, s⟩ hentry
  have htag : tag ∈ tags := by
    rw [← List.mem_eraseDups, ← hnames]
    exact List.mem_map_of_mem hentry
  have honly := lines_only hp tag
  rw [only_start htag] at honly
  have hsections : (p.only tag).sections = [(tag, s)] := sections_only hnodup hentry
  exact readText_eq_ok_iff.2 ⟨_, honly, by simp [answer, hsections]⟩

theorem exists_holds {file : File} {tags : List String} (hne : tags ≠ []) {a : Answer}
    (h : read file (tags.map .text) = .ok a) : ∃ text, file.Holds text := by
  obtain ⟨tag, tags, rfl⟩ := List.exists_cons_of_ne_nil hne
  have htexts := texts?_map_text (tag :: tags)
  cases file with
  | missing =>
      simp only [read, htexts] at h
      cases h
  | text text => exact ⟨text, rfl⟩
  | octets os =>
      simp only [read, htexts, readOctets] at h
      cases hdecode : Text.decode os with
      | mk text ending =>
          simp only [hdecode] at h
          cases ending with
          | complete => exact ⟨text, hdecode⟩
          | malformed => cases h
          | cut =>
              obtain ⟨p, -, hfault⟩ := exists_ok_of_bind h
              cases hfault

/-- Whether a request for several tags answers what a request for each of them does: it
goes well if they do, and then it has one section for each tag, in order. -/
def ReadsEach (file : File) (tags : List String) : Prop :=
  ((∃ a, read file (tags.map .text) = .ok a) ↔
    ∀ tag ∈ tags, ∃ a, read file [.text tag] = .ok a) ∧
    ∀ a, read file (tags.map .text) = .ok a →
      ∃ sections, a = .several sections ∧
        List.Forall₂ (fun tag s => read file [.text tag] = .ok (.one s)) tags sections

section Requests

variable {file : File} {tags : List String} (htags : 2 ≤ tags.length)

include htags

/-- A request for several tags goes well if those for each of them do, and then it has
one section for each different tag. -/
theorem read_several :
    ((∃ a, read file (tags.map .text) = .ok a) ↔
      ∀ tag ∈ tags, ∃ a, read file [.text tag] = .ok a) ∧
      ∀ a, read file (tags.map .text) = .ok a →
        ∃ sections, a = .several sections ∧
          List.Forall₂ (fun tag s => read file [.text tag] = .ok (.one s)) tags.eraseDups
            sections := by
  have hne : tags ≠ [] := by
    rintro rfl
    cases htags
  obtain ⟨first, hfirst⟩ := List.exists_mem_of_ne_nil tags hne
  by_cases hfile : ∃ text, file.Holds text
  · obtain ⟨text, hfile⟩ := hfile
    have hone : ∀ tag, read file [.text tag] = readText text [tag] := fun tag =>
      read_of_holds hfile (List.cons_ne_nil tag [])
    simp only [read_of_holds hfile hne, hone]
    exact ⟨exists_readText_iff text tags, fun a ha => readText_several htags ha⟩
  · have hfault : ∀ {tags : List String}, tags ≠ [] →
        ∀ a, read file (tags.map .text) ≠ .ok a :=
      fun hne a ha => hfile (exists_holds hne ha)
    refine ⟨⟨fun ⟨a, ha⟩ => absurd ha (hfault hne a), fun h => ?_⟩, fun a ha =>
      absurd ha (hfault hne a)⟩
    obtain ⟨a, ha⟩ := h first hfirst
    exact absurd ha (hfault (List.cons_ne_nil first []) a)

theorem ReadsEach.nodup (h : ReadsEach file tags) {a : Answer}
    (ha : read file (tags.map .text) = .ok a) : tags.Nodup := by
  obtain ⟨sections, rfl, hall⟩ := h.2 a ha
  obtain ⟨sections', heq, hdifferent⟩ := (read_several htags).2 _ ha
  cases heq
  have hperm : tags.eraseDups.Perm tags :=
    (List.subperm_of_subset (nodup_eraseDups tags) fun t ht =>
      List.mem_eraseDups.1 ht).perm_of_length_le
      (hall.length_eq.trans hdifferent.length_eq.symm).le
  exact hperm.nodup_iff.1 (nodup_eraseDups tags)

end Requests

/-- What is read for several tags, and when it is what requests for each of them answer:
exactly if no tag is asked for twice, or if one of them cannot be read. -/
theorem readsEach_iff (file : File) {tags : List String} (htags : 2 ≤ tags.length) :
    ((∃ a, read file (tags.map .text) = .ok a) ↔
      ∀ tag ∈ tags, ∃ a, read file [.text tag] = .ok a) ∧
      (∀ a, read file (tags.map .text) = .ok a →
        ∃ sections, a = .several sections ∧
          List.Forall₂ (fun tag s => read file [.text tag] = .ok (.one s)) tags.eraseDups
            sections) ∧
      (ReadsEach file tags ↔ tags.Nodup ∨
        ∃ tag ∈ tags, ∀ a, read file [.text tag] ≠ .ok a) := by
  obtain ⟨hiff, hsections⟩ := @read_several file tags htags
  refine ⟨hiff, hsections, fun heach => ?_, ?_⟩
  · by_cases hread : ∃ a, read file (tags.map .text) = .ok a
    · obtain ⟨a, ha⟩ := hread
      exact Or.inl (heach.nodup htags ha)
    · rw [hiff] at hread
      simpa only [not_forall, not_exists, exists_prop] using Or.inr hread
  · rintro (hnodup | ⟨tag, htag, hfault⟩)
    · rw [eraseDups_of_nodup hnodup] at hsections
      exact ⟨hiff, hsections⟩
    · refine ⟨hiff, fun a ha => ?_⟩
      obtain ⟨b, hb⟩ := hiff.1 ⟨a, ha⟩ tag htag
      exact absurd hb (hfault b)

theorem readsEach_faces_vertices :
    2 ≤ ["f", "v", "vn"].length ∧
      ReadsEach (.text "v 1 2 3\nf -1\nv 4 5 6\nf 2 -1/7\n".toList) ["f", "v", "vn"] :=
  ⟨by decide, (readsEach_iff _ (by decide)).2.2.2 (Or.inl (by decide))⟩

/-- A tag that is asked for twice has one section. -/
theorem not_readsEach_twice : ¬ReadsEach (.text "v 1 2 3\n".toList) ["v", "v"] := by
  intro heach
  have hread : read (.text "v 1 2 3\n".toList) (["v", "v"].map .text) =
      .ok (.several [.rows { shape := [1, 3], entries := [1, 2, 3] }]) := rfl
  exact absurd (heach.nodup le_rfl hread) (by decide)

end MeshFile
end LatticeHull
