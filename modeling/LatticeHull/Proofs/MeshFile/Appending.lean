import LatticeHull.Proofs.MeshFile.Lines

/-!
# Rows that are appended one after another

The first row settles the shape, and a row of another shape changes nothing.  Nor does a
first row that cannot be read.  But for a later row of the right shape, room is made
before its entries are read: if one of them is no coordinate, the row fails and still
stands in the block.  So a block consists of the rows that went in exactly as long as no
such row comes.  The rows that are read from a file never are such rows, since they are
lists of machine numbers.
-/

namespace LatticeHull
namespace MeshFile
namespace Rows

/-- Whether a row fails and still leaves something behind in a block: it has the shape of
the rows of the block, and an entry that is no coordinate. -/
def Spoils (rows : Rows) (row : Datum) : Prop :=
  ∃ g fault, rows = some g ∧ row.shape? = some g.shape.tail ∧
    row.entries.mapM Datum.toEntry = .error fault

/-! ### One row -/

/-- What becomes of a row that is not the first one. -/
theorem append_some_cases (g : Grid) (row : Datum) :
    (∃ entries, row.shape? = some g.shape.tail ∧
      row.entries.mapM Datum.toEntry = .ok entries ∧
      append (some g) row = (.ok (), some (extend g entries))) ∨
    (∃ fault, row.shape? = some g.shape.tail ∧
      row.entries.mapM Datum.toEntry = .error fault ∧
      append (some g) row =
        (.error fault, some (extend g (readablePrefix row.entries)))) ∨
    (∃ fault, row.shape? ≠ some g.shape.tail ∧
      append (some g) row = (.error fault, some g)) := by
  rw [append]
  cases hshape : row.shape? with
  | none => exact Or.inr (Or.inr ⟨.ragged, nofun, rfl⟩)
  | some shape =>
      by_cases htail : g.shape.tail = shape
      · subst htail
        cases hentries : row.entries.mapM Datum.toEntry with
        | error fault => exact Or.inr (Or.inl ⟨fault, rfl, rfl, by simp only [if_true]⟩)
        | ok entries => exact Or.inl ⟨entries, rfl, rfl, by simp only [if_true]⟩
      · exact Or.inr (Or.inr
          ⟨.rowShape shape, fun heq => htail (Option.some.inj heq).symm,
            by simp only [if_neg htail]⟩)

/-- A first row goes in if it can be read, and nothing is left of it otherwise. -/
theorem append_none_cases (row : Datum) :
    (∃ g, Grid.ofDatum (.list [row]) = .ok g ∧ append none row = (.ok (), some g)) ∨
    (∃ fault, Grid.ofDatum (.list [row]) = .error fault ∧
      append none row = (.error fault, none)) := by
  rw [append]
  cases Grid.ofDatum (.list [row]) with
  | error fault => exact Or.inr ⟨fault, rfl, rfl⟩
  | ok g => exact Or.inl ⟨g, rfl, rfl⟩

theorem tail_shape_extend (g : Grid) (entries : List Float) :
    (extend g entries).shape.tail = g.shape.tail := by
  rw [extend]
  cases hshape : g.shape with
  | nil => exact congrArg List.tail hshape
  | cons n inner => rfl

/-- A row that fails leaves a block as it was, unless it spoils it. -/
theorem append_of_not_spoils {rows : Rows} {row : Datum} {fault : Fault}
    (hfault : (rows.append row).1 = .error fault) (hspoils : ¬Spoils rows row) :
    (rows.append row).2 = rows := by
  cases rows with
  | none =>
      obtain ⟨g, -, happend⟩ | ⟨fault', -, happend⟩ := append_none_cases row
      · rw [happend] at hfault
        cases hfault
      · rw [happend]
  | some g =>
      obtain ⟨entries, -, -, happend⟩ | ⟨fault', hshape, hentries, -⟩ |
          ⟨fault', -, happend⟩ :=
        append_some_cases g row
      · rw [happend] at hfault
        cases hfault
      · exact absurd ⟨g, fault', rfl, hshape, hentries⟩ hspoils
      · rw [happend]

/-- A row that spoils a block stands in it up to its first entry that is
no coordinate. -/
theorem append_of_spoils {rows : Rows} {row : Datum} (h : Spoils rows row) :
    ∃ g fault, rows = some g ∧
      rows.append row =
        (.error fault, some (extend g (readablePrefix row.entries))) := by
  obtain ⟨g, fault, rfl, hshape, hentries⟩ := h
  refine ⟨g, fault, rfl, ?_⟩
  rw [append, hshape]
  simp only [if_true, hentries]

/-! ### All rows -/

/-- What has come of some rows that were appended one after another. -/
structure Appended where
  /-- The block at the end. -/
  rows : Rows
  /-- The rows that went in, in order. -/
  kept : List Datum

namespace Appended

def next (a : Appended) (row : Datum) : Appended where
  rows := (a.rows.append row).2
  kept := if (a.rows.append row).1.toBool then a.kept ++ [row] else a.kept

def ofItems (items : List Datum) : Appended :=
  items.foldl next { rows := none, kept := [] }

theorem ofItems_concat (items : List Datum) (row : Datum) :
    ofItems (items ++ [row]) = (ofItems items).next row :=
  List.foldl_concat ..

variable {a : Appended} {row : Datum}

/-- Whether the block is what the rows that went in are read as all at once.  There is no
block as long as there is no such row. -/
def IsWhole (a : Appended) : Prop :=
  match a.rows with
  | none => a.kept = []
  | some g => a.kept ≠ [] ∧ Grid.ofDatum (.list a.kept) = .ok g

/-- Whether the rows of the block have the shape of the rows that went in, which can be
read all at once.  Rows that failed may stand between them. -/
def IsAligned (a : Appended) : Prop :=
  match a.rows with
  | none => a.kept = []
  | some g =>
    a.kept ≠ [] ∧ ∃ k, Grid.ofDatum (.list a.kept) = .ok k ∧ k.shape.tail = g.shape.tail

/-! ### One row more -/

section Concat

variable {kept : List Datum} (hne : kept ≠ []) {k : Grid}
  (hk : Grid.ofDatum (.list kept) = .ok k)

include hne hk

theorem ofDatum_concat {entries : List Float} (hshape : row.shape? = some k.shape.tail)
    (hentries : row.entries.mapM Datum.toEntry = .ok entries) :
    Grid.ofDatum (.list (kept ++ [row])) = .ok (extend k entries) := by
  obtain ⟨⟨inner, hinner, hdepth, hall⟩, hkept⟩ := (Grid.ofDatum_list_eq_ok_iff hne).1 hk
  rw [hinner] at hshape
  have hextend : extend k entries =
      { shape := (kept.length + 1) :: inner, entries := k.entries ++ entries } := by
    rw [extend, hinner]
  rw [Grid.ofDatum_list_eq_ok_iff (List.append_ne_nil_of_right_ne_nil _
    (List.cons_ne_nil row [])), hextend]
  refine ⟨⟨inner, by rw [List.length_append]; rfl, hdepth, ?_⟩, ?_⟩
  · intro d hd
    rcases List.mem_append.1 hd with hd | hd
    · exact hall d hd
    · rw [List.mem_singleton.1 hd]
      exact hshape
  · rw [List.flatMap_append, List.flatMap_singleton, List.mapM_append, hkept, hentries]
    rfl

/-- A row can be read together with others if it has their shape and its
entries can be read. -/
theorem exists_ofDatum_concat_iff :
    (∃ g, Grid.ofDatum (.list (kept ++ [row])) = .ok g) ↔
      row.shape? = some k.shape.tail ∧
        ∃ entries, row.entries.mapM Datum.toEntry = .ok entries := by
  refine ⟨fun ⟨g, hg⟩ => ?_, fun ⟨hshape, entries, hentries⟩ =>
    ⟨_, ofDatum_concat hne hk hshape hentries⟩⟩
  obtain ⟨⟨inner, hinner, -, hall⟩, -⟩ := (Grid.ofDatum_list_eq_ok_iff hne).1 hk
  obtain ⟨⟨inner', -, -, hall'⟩, hentries⟩ := (Grid.ofDatum_list_eq_ok_iff
    (List.append_ne_nil_of_right_ne_nil _ (List.cons_ne_nil row []))).1 hg
  obtain ⟨d, hd⟩ := List.exists_mem_of_ne_nil kept hne
  obtain rfl : inner = inner' :=
    Option.some.inj ((hall d hd).symm.trans (hall' d (List.mem_append_left _ hd)))
  refine ⟨?_, ?_⟩
  · rw [hinner]
    exact hall' row (List.mem_append_right _ (List.mem_singleton_self row))
  · rw [List.flatMap_append, List.flatMap_singleton, List.mapM_append] at hentries
    obtain ⟨_, -, hrest⟩ := exists_ok_of_bind hentries
    obtain ⟨entries, hrow, -⟩ := exists_ok_of_bind hrest
    exact ⟨entries, hrow⟩

end Concat

/-- A row goes in exactly if it can be read together with the rows that
went in before. -/
theorem IsAligned.append_ok_iff (h : a.IsAligned) :
    (a.rows.append row).1 = .ok () ↔
      ∃ g, Grid.ofDatum (.list (a.kept ++ [row])) = .ok g := by
  obtain ⟨rows, kept⟩ := a
  cases rows with
  | none =>
      obtain rfl : kept = [] := h
      rw [List.nil_append]
      obtain ⟨g, hread, happend⟩ | ⟨fault, hread, happend⟩ := append_none_cases row
      · simp [happend, hread]
      · simp [happend, hread]
  | some g =>
      obtain ⟨hne, k, hk, htail⟩ := h
      rw [exists_ofDatum_concat_iff hne hk, htail]
      obtain ⟨entries, hshape, hentries, happend⟩ | ⟨fault, -, hentries, happend⟩ |
        ⟨fault, hshape, happend⟩ := append_some_cases g row
      · simp [happend, hshape, hentries]
      · simp [happend, hentries]
      · simp [happend, hshape]

theorem IsAligned.next (h : a.IsAligned) (row : Datum) : (a.next row).IsAligned := by
  obtain ⟨rows, kept⟩ := a
  cases rows with
  | none =>
      obtain rfl : kept = [] := h
      obtain ⟨g, hread, happend⟩ | ⟨fault, -, happend⟩ := append_none_cases row
      · simp only [IsAligned, Appended.next, happend]
        exact ⟨List.cons_ne_nil row [], g, hread, rfl⟩
      · simp only [IsAligned, Appended.next, happend]
        rfl
  | some g =>
      obtain ⟨hne, k, hk, htail⟩ := h
      obtain ⟨entries, hshape, hentries, happend⟩ | ⟨fault, -, -, happend⟩ |
          ⟨fault, -, happend⟩ :=
        append_some_cases g row
      · simp only [IsAligned, Appended.next, happend]
        refine ⟨List.append_ne_nil_of_right_ne_nil _ (List.cons_ne_nil row []),
          extend k entries, ofDatum_concat hne hk (htail ▸ hshape) hentries, ?_⟩
        rw [tail_shape_extend, tail_shape_extend, htail]
      · simp only [IsAligned, Appended.next, happend]
        exact ⟨hne, k, hk, htail.trans (tail_shape_extend g _).symm⟩
      · simp only [IsAligned, Appended.next, happend]
        exact ⟨hne, k, hk, htail⟩

/-- A row that does not spoil a block goes in, or leaves everything as it was. -/
theorem IsWhole.next (h : a.IsWhole) (hspoils : ¬Spoils a.rows row) :
    (a.next row).IsWhole := by
  obtain ⟨rows, kept⟩ := a
  cases rows with
  | none =>
      obtain rfl : kept = [] := h
      obtain ⟨g, hread, happend⟩ | ⟨fault, -, happend⟩ := append_none_cases row
      · simp only [IsWhole, Appended.next, happend]
        exact ⟨List.cons_ne_nil row [], hread⟩
      · simp only [IsWhole, Appended.next, happend]
        rfl
  | some g =>
      obtain ⟨hne, hg⟩ := h
      obtain ⟨entries, hshape, hentries, happend⟩ | ⟨fault, hshape, hentries, -⟩ |
        ⟨fault, -, happend⟩ := append_some_cases g row
      · simp only [IsWhole, Appended.next, happend]
        exact ⟨List.append_ne_nil_of_right_ne_nil _ (List.cons_ne_nil row []),
          ofDatum_concat hne hg hshape hentries⟩
      · exact absurd ⟨g, fault, rfl, hshape, hentries⟩ hspoils
      · simp only [IsWhole, Appended.next, happend]
        exact ⟨hne, hg⟩

/-- A row that spoils a block leaves one row more than those that went in. -/
theorem IsWhole.not_isWhole_next (h : a.IsWhole) (hspoils : Spoils a.rows row) :
    ¬(a.next row).IsWhole := by
  obtain ⟨rows, kept⟩ := a
  obtain ⟨g, fault, hrows, happend⟩ := append_of_spoils hspoils
  obtain rfl : rows = some g := hrows
  obtain ⟨hne, hg⟩ := h
  obtain ⟨⟨inner, hinner, -⟩, -⟩ := (Grid.ofDatum_list_eq_ok_iff hne).1 hg
  simp only [IsWhole, Appended.next, happend]
  rintro ⟨-, hread⟩
  have hshape : g.shape = (extend g (readablePrefix row.entries)).shape :=
    congrArg Grid.shape (Except.ok.inj (hg.symm.trans hread))
  rw [extend, hinner] at hshape
  exact absurd (List.cons.inj hshape).1 (Nat.ne_of_lt (Nat.lt_succ_self _))

/-! ### Runs -/

theorem isAligned_ofItems (items : List Datum) : (ofItems items).IsAligned := by
  induction items using List.reverseRecOn with
  | nil => rfl
  | append_singleton items row ih =>
      rw [ofItems_concat]
      exact ih.next row

/-- As long as no row spoils the block, it is what the rows that went in are read as. -/
theorem isWhole_ofItems {items : List Datum}
    (h : ∀ before row, before ++ [row] <+: items → ¬Spoils (ofItems before).rows row) :
    (ofItems items).IsWhole := by
  induction items using List.reverseRecOn with
  | nil => rfl
  | append_singleton items row ih =>
      rw [ofItems_concat]
      refine (ih fun before next hbefore => ?_).next (h items row List.prefix_rfl)
      exact h before next (hbefore.trans (List.prefix_append items [row]))

end Appended

open Appended

/-- Whether rows are appended wholly or not at all: at every moment, the block
is what the rows that went in are read as all at once, and a row that fails
leaves the block as it was. -/
def AllOrNothing (items : List Datum) : Prop :=
  (∀ before, before <+: items → (ofItems before).IsWhole) ∧
    ∀ before row, before ++ [row] <+: items →
      ∀ fault, ((ofItems before).rows.append row).1 = .error fault →
        (ofItems (before ++ [row])).rows = (ofItems before).rows

theorem allOrNothing_of_not_spoils {items : List Datum}
    (h : ∀ before row, before ++ [row] <+: items → ¬Spoils (ofItems before).rows row) :
    AllOrNothing items := by
  refine ⟨fun before hbefore => isWhole_ofItems fun start row hstart => ?_,
    fun before row hbefore fault hfault => ?_⟩
  · exact h start row (hstart.trans hbefore)
  · rw [ofItems_concat]
    exact append_of_not_spoils hfault (h before row hbefore)

theorem AllOrNothing.not_spoils {items : List Datum} (h : AllOrNothing items)
    {before : List Datum} {row : Datum} (hbefore : before ++ [row] <+: items) :
    ¬Spoils (ofItems before).rows row := by
  intro hspoils
  have hwhole := h.1 before ((List.prefix_append before [row]).trans hbefore)
  have hnext := h.1 (before ++ [row]) hbefore
  rw [ofItems_concat] at hnext
  exact hwhole.not_isWhole_next hspoils hnext

/-- Rows are appended wholly or not at all exactly if none of them has the shape of
the rows before it and an entry that is no coordinate.  At every step, a row goes
in if it can be read together with the rows that went in before; if it does not go
in, it leaves the block as it was, unless it is such a row, which stands in the
block up to that entry. -/
theorem allOrNothing_iff (items : List Datum) :
    (AllOrNothing items ↔
      ∀ before row, before ++ [row] <+: items → ¬Spoils (ofItems before).rows row) ∧
    ∀ before row, before ++ [row] <+: items →
      (((ofItems before).rows.append row).1 = .ok () ↔
        ∃ g, Grid.ofDatum (.list ((ofItems before).kept ++ [row])) = .ok g) ∧
      ∀ fault, ((ofItems before).rows.append row).1 = .error fault →
        (¬Spoils (ofItems before).rows row ∧
          (ofItems (before ++ [row])).rows = (ofItems before).rows) ∨
        (Spoils (ofItems before).rows row ∧ ∃ g, (ofItems before).rows = some g ∧
          (ofItems (before ++ [row])).rows =
            some (extend g (readablePrefix row.entries))) := by
  refine ⟨⟨fun h _ _ => h.not_spoils, allOrNothing_of_not_spoils⟩, fun before row _ =>
    ⟨(isAligned_ofItems before).append_ok_iff, fun fault hfault => ?_⟩⟩
  rw [ofItems_concat]
  by_cases hspoils : Spoils (ofItems before).rows row
  · obtain ⟨g, _, hrows, happend⟩ := append_of_spoils hspoils
    exact Or.inr ⟨hspoils, g, hrows, congrArg Prod.snd happend⟩
  · exact Or.inl ⟨hspoils, append_of_not_spoils hfault hspoils⟩

/-- A row of the right length that cannot be read stays in the block. -/
theorem not_allOrNothing_unreadable :
    ¬AllOrNothing [.list [.whole 1], .list [.text "a"], .list [.whole 2]] := by
  intro h
  have hbefore : [.list [.whole 1]] ++ [.list [.text "a"]] <+:
      [Datum.list [.whole 1], .list [.text "a"], .list [.whole 2]] :=
        ⟨[.list [.whole 2]], rfl⟩
  exact h.not_spoils hbefore ⟨{ shape := [1, 1], entries := [1] }, .notDecimal "a",
    rfl, rfl, rfl⟩

/-! ### Rows of machine numbers -/

/-- The rows that are read from a file are appended as any rows, and change
nothing if they fail. -/
theorem append_rowDatum (rows : Rows) (row : List Float) :
    rows.append (rowDatum row) =
      match rows.appendRow row with
      | .ok g => (.ok (), some g)
      | .error fault => (.error fault, rows) := by
  cases rows with
  | none =>
      have hread : Grid.ofDatum (.list [rowDatum row]) = .ok (stack row.length [row]) :=
        @ofDatum_rowsDatum row.length [row] (by simp) (List.cons_ne_nil row [])
      rw [append, hread]
      simp [appendRow, stack]
  | some g =>
      rw [append, appendRow, shape?_rowDatum]
      by_cases htail : g.shape.tail = [row.length]
      · simp only [if_pos htail, entries_rowDatum, mapM_toEntry_binary]
      · simp only [if_neg htail]

theorem allOrNothing_rowDatum (rows : List (List Float)) :
    AllOrNothing (rows.map rowDatum) := by
  refine allOrNothing_of_not_spoils fun before d hbefore => ?_
  obtain ⟨row, -, rfl⟩ :=
    List.mem_map.1 (hbefore.subset (List.mem_append_right _ (List.mem_singleton_self d)))
  rintro ⟨g, fault, -, -, hfault⟩
  rw [entries_rowDatum, mapM_toEntry_binary] at hfault
  cases hfault

end Rows
end MeshFile
end LatticeHull
