import LatticeHull.Datum.Grid
import LatticeHull.Proofs.MeshFile.Records
import Mathlib.Data.List.Basic

/-!
# Lines of rows and of faces

Rows of the same length are written alike whether they are given as lists of
numbers or as an arrangement: one record for each row, in order.  Faces have a
record each, and no faces have none.
-/

namespace LatticeHull

namespace Datum

/-!
## Arrangements of several data

A list of data is read as an arrangement if all of them have the same shape and all their
entries are coordinates.  The arrangement has one more axis than the data, and holds
their entries one after another.
-/

theorem commonLengths?_eq_some_iff {items : List Datum} (hne : items ≠ [])
    {shape : Shape} :
    commonLengths? items = some shape ↔ ∀ d ∈ items, d.lengths? = some shape := by
  induction items with
  | nil => exact absurd rfl hne
  | cons d items ih =>
      cases items with
      | nil => rw [commonLengths?, List.forall_mem_singleton]
      | cons next rest =>
          rw [commonLengths?, List.forall_mem_cons, ← ih (List.cons_ne_nil next rest)]
          cases d.lengths? with
          | none => simp
          | some first =>
              cases commonLengths? (next :: rest) with
              | none => simp
              | some others =>
                  by_cases hfirst : first = others
                  · subst hfirst
                    simp
                  · simp only [Option.bind_eq_bind, Option.bind_some, if_neg hfirst,
                      Option.some.injEq]
                    constructor
                    · rintro ⟨⟩
                    · rintro ⟨rfl, rfl⟩
                      exact absurd rfl hfirst

theorem entriesOf_eq_flatMap (items : List Datum) :
    entriesOf items = items.flatMap entries := by
  induction items with
  | nil => rfl
  | cons d items ih => rw [entriesOf, ih, List.flatMap_cons]

theorem shape?_eq_some_iff {d : Datum} {shape : Shape} :
    d.shape? = some shape ↔ d.lengths? = some shape ∧ shape.length ≤ maxDepth := by
  rw [shape?, Option.filter_eq_some_iff, decide_eq_true_iff]

/-- The shape of a list of data that are not nested too deeply. -/
theorem shape?_list {items : List Datum} (hne : items ≠ []) {shape : Shape} :
    (list items).shape? = some shape ↔
      ∃ inner, shape = items.length :: inner ∧ inner.length < maxDepth ∧
        ∀ d ∈ items, d.shape? = some inner := by
  simp only [shape?_eq_some_iff, lengths?, Option.map_eq_some_iff,
    commonLengths?_eq_some_iff hne]
  constructor
  · rintro ⟨⟨inner, hinner, rfl⟩, hdepth⟩
    exact ⟨inner, rfl, hdepth, fun d hd => ⟨hinner d hd, Nat.le_of_succ_le hdepth⟩⟩
  · rintro ⟨inner, rfl, hdepth, hinner⟩
    exact ⟨⟨inner, fun d hd => (hinner d hd).1, rfl⟩, hdepth⟩

end Datum

namespace Grid

theorem ofDatum_eq_ok_iff {d : Datum} {g : Grid} :
    ofDatum d = .ok g ↔
      d.shape? = some g.shape ∧ d.entries.mapM Datum.toEntry = .ok g.entries := by
  rw [ofDatum]
  cases d.shape? with
  | none => simp
  | some shape =>
      cases hentries : d.entries.mapM Datum.toEntry with
      | error fault => simp [bind, Except.bind]
      | ok entries =>
          obtain ⟨shape', entries'⟩ := g
          simp [bind, Except.bind, pure, Except.pure]

/-- What it takes to read some data as one arrangement. -/
theorem ofDatum_list_eq_ok_iff {items : List Datum} (hne : items ≠ []) {g : Grid} :
    ofDatum (.list items) = .ok g ↔
      (∃ inner, g.shape = items.length :: inner ∧ inner.length < Datum.maxDepth ∧
        ∀ d ∈ items, d.shape? = some inner) ∧
      (items.flatMap Datum.entries).mapM Datum.toEntry = .ok g.entries := by
  rw [ofDatum_eq_ok_iff, Datum.shape?_list hne, Datum.entries,
    Datum.entriesOf_eq_flatMap]

end Grid

/-! ## Lines of a file -/

namespace Shape

theorem slices_flatten {α : Type} {size : Nat} {rows : List (List α)}
    (hrows : ∀ row ∈ rows, row.length = size) :
    slices size rows.length rows.flatten = rows := by
  induction rows with
  | nil => rfl
  | cons row rows ih =>
      obtain ⟨hrow, hrest⟩ := List.forall_mem_cons.1 hrows
      rw [List.flatten_cons, List.length_cons, slices, List.take_left' hrow,
        List.drop_left' hrow, ih hrest]

theorem slices_one {α : Type} (row : List α) :
    slices 1 row.length row = row.map fun a => [a] := by
  induction row with
  | nil => rfl
  | cons a row ih => rw [List.length_cons, slices, List.map_cons, ← ih]; rfl

end Shape

namespace MeshFile

/-! ### Rows and faces as data -/

def rowDatum (row : List Float) : Datum :=
  .list (row.map .binary)

def rowsDatum (rows : List (List Float)) : Datum :=
  .list (rows.map rowDatum)

def facesDatum (faces : List (List Nat)) : Datum :=
  .list (faces.map fun face => .list (face.map fun (i : Nat) => .whole i))

theorem commonLengths?_binary (row : List Float) :
    Datum.commonLengths? (row.map .binary) = some [] := by
  rcases eq_or_ne row [] with rfl | hne
  · rfl
  · refine (Datum.commonLengths?_eq_some_iff (mt List.map_eq_nil_iff.1 hne)).2
      fun d hd => ?_
    obtain ⟨x, -, rfl⟩ := List.mem_map.1 hd
    rfl

theorem shape?_rowDatum (row : List Float) :
    (rowDatum row).shape? = some [row.length] := by
  rw [Datum.shape?, rowDatum, Datum.lengths?, commonLengths?_binary, List.length_map]
  rfl

theorem entries_rowDatum (row : List Float) :
    (rowDatum row).entries = row.map .binary := by
  rw [rowDatum, Datum.entries, Datum.entriesOf_eq_flatMap, List.flatMap_map]
  exact List.flatMap_pure_eq_map ..

theorem mapM_toEntry_binary (row : List Float) :
    (row.map Datum.binary).mapM Datum.toEntry = .ok row := by
  have hread : ∀ x ∈ row, (Datum.toEntry ∘ Datum.binary) x = .ok (id x) := fun x _ => rfl
  rw [List.mapM_map, mapM_ok hread, List.map_id]

theorem ofDatum_rowsDatum {width : Nat} {rows : List (List Float)}
    (hrows : ∀ row ∈ rows, row.length = width) (hne : rows ≠ []) :
    Grid.ofDatum (rowsDatum rows) = .ok (stack width rows) := by
  refine (Grid.ofDatum_list_eq_ok_iff (mt List.map_eq_nil_iff.1 hne)).2
    ⟨⟨[width], ?_, Nat.one_lt_ofNat, ?_⟩, ?_⟩
  · rw [stack, List.length_map]
  · intro d hd
    obtain ⟨row, hrow, rfl⟩ := List.mem_map.1 hd
    rw [shape?_rowDatum, hrows row hrow]
  · have hentries :
        (rows.map rowDatum).flatMap Datum.entries = rows.flatten.map .binary := by
      rw [List.flatMap_def, List.map_map, List.map_flatten]
      exact congrArg List.flatten (List.map_congr_left fun row _ => entries_rowDatum row)
    rw [hentries, mapM_toEntry_binary]
    rfl

/-! ### Lines -/

theorem linesOf_rowsDatum (tag : String) (rows : List (List Float)) :
    linesOf (rowLine tag) (.loose (rowsDatum rows)) =
      recordLines (rows.map (.ofRow tag)) := by
  have hitems : (Content.loose (rowsDatum rows)).items? =
      some ((rows.map rowDatum).map Content.loose) := rfl
  rw [linesOf, hitems, recordLines]
  simp only [List.map_map]
  exact List.map_congr_left fun row _ => rowLine_binary tag row

theorem rowLine_grid (tag : String) (row : List Float) :
    rowLine tag (.grid { shape := [row.length], entries := row }) =
      .ok (lineText tag (Record.ofRow tag row).fields) := by
  have hparts : (Content.grid { shape := [row.length], entries := row }).items? =
      some ((row.map fun x => { shape := [], entries := [x] }).map Content.grid) := by
    change some (((Shape.slices 1 row.length row).map _).map Content.grid) = _
    rw [Shape.slices_one]
    simp only [List.map_map]
    rfl
  rw [rowLine, hparts]
  simp only [List.map_map]
  rfl

theorem linesOf_stack (tag : String) {width : Nat} {rows : List (List Float)}
    (hrows : ∀ row ∈ rows, row.length = width) :
    linesOf (rowLine tag) (.grid (stack width rows)) =
      recordLines (rows.map (.ofRow tag)) := by
  have hparts : (Content.grid (stack width rows)).items? =
      some ((rows.map fun row => { shape := [width], entries := row }).map
        Content.grid) := by
    have hslices := Shape.slices_flatten hrows
    have hsize : Shape.size [width] = width := Nat.mul_one width
    change some (((Shape.slices (Shape.size [width]) rows.length rows.flatten).map _).map
      Content.grid) = _
    rw [hsize, hslices]
  rw [linesOf, hparts, recordLines]
  simp only [List.map_map]
  refine List.map_congr_left fun row hrow => ?_
  rw [Function.comp_apply, Function.comp_apply, Function.comp_apply, ← hrows row hrow]
  exact rowLine_grid tag row

theorem faceLines_facesDatum (faces : List (List Nat)) :
    faceLines (.loose (facesDatum faces)) = faces.map fun face =>
      faceLine (faceContent face) := by
  have hpresent :
      (Content.loose (facesDatum faces)).isPresent = .ok (!faces.isEmpty) := by
    cases faces <;> rfl
  have hlines : linesOf faceLine (.loose (facesDatum faces)) =
      faces.map fun face => faceLine (faceContent face) := by
    have hitems : (Content.loose (facesDatum faces)).items? =
        some ((faces.map fun face => .list (face.map fun (i : Nat) => .whole i)).map
          Content.loose) := rfl
    rw [linesOf, hitems]
    simp only [List.map_map]
    rfl
  rw [faceLines, hpresent]
  cases faces with
  | nil => rfl
  | cons face faces => exact hlines

theorem map_faceLine_of_lt {faces : List (List Nat)}
    (hfaces : ∀ face ∈ faces, ∀ i ∈ face, i + 1 < tooLongFrom) :
    (faces.map fun face => faceLine (faceContent face)) =
      recordLines (faces.map .ofFace) := by
  rw [recordLines, List.map_map]
  exact List.map_congr_left fun face hface => faceLine_of_lt (hfaces face hface)

end MeshFile
end LatticeHull
