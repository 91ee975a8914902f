import LatticeHull.Mesh
import LatticeHull.Proofs.Equality
import LatticeHull.Proofs.Exact
import LatticeHull.Proofs.Mesh.Flat
import LatticeHull.Scene.PolyData

/-!
# Numbered meshes

The points of a numbered mesh are its corners, each of them once, in the order in which
they first occur, and its cells refer to them only.  A function that keeps the
comparisons between the corners keeps the numbers.
-/

namespace LatticeHull
namespace Mesh
namespace Indexed

variable {α : Type} [BEq α]

/-! ### Places -/

/-- Points with one more, unless it is among them. -/
def appendNew (points : List (Vec3 α)) (p : Vec3 α) : List (Vec3 α) :=
  if points.any (· == p) then points else points ++ [p]

theorem place_spec (points : List (Vec3 α)) (p : Vec3 α) :
    (place points p).2 = appendNew points p ∧
      (place points p).1 < (appendNew points p).length := by
  rw [place, appendNew]
  cases hfind : points.findIdx? (· == p) with
  | none =>
      have hnone : points.any (· == p) = false := by
        rw [List.any_eq_false]
        intro x hx
        simpa using List.findIdx?_eq_none_iff.1 hfind x hx
      simp [hnone]
  | some i =>
      obtain ⟨hi, hmatch, -⟩ := List.findIdx?_eq_some_iff_getElem.1 hfind
      have hany : points.any (· == p) = true :=
        List.any_eq_true.2 ⟨points[i], by simp, hmatch⟩
      simp [hany, hi]

theorem isPrefix_appendNew (points : List (Vec3 α)) (p : Vec3 α) :
    points <+: appendNew points p := by
  unfold appendNew
  split
  · exact List.prefix_rfl
  · exact List.prefix_append _ _

theorem isPrefix_foldl_appendNew (points ps : List (Vec3 α)) :
    points <+: ps.foldl appendNew points := by
  induction ps generalizing points with
  | nil => exact List.prefix_rfl
  | cons p ps ih => exact (isPrefix_appendNew points p).trans (ih _)

theorem mem_of_mem_appendNew {points : List (Vec3 α)} {p x : Vec3 α}
    (hx : x ∈ appendNew points p) :
    x ∈ points ∨ x = p := by
  unfold appendNew at hx
  split at hx
  · exact Or.inl hx
  · simpa using hx

theorem mem_of_mem_foldl_appendNew {points ps : List (Vec3 α)} {x : Vec3 α}
    (hx : x ∈ ps.foldl appendNew points) : x ∈ points ∨ x ∈ ps := by
  induction ps generalizing points with
  | nil => exact Or.inl hx
  | cons p ps ih =>
      rcases ih hx with hnew | hrest
      · rcases mem_of_mem_appendNew hnew with hold | rfl
        · exact Or.inl hold
        · exact Or.inr (List.mem_cons_self ..)
      · exact Or.inr (List.mem_cons_of_mem _ hrest)

theorem placeAll_spec (points ps : List (Vec3 α)) :
    (placeAll points ps).2 = ps.foldl appendNew points ∧
      ∀ i ∈ (placeAll points ps).1, i < (ps.foldl appendNew points).length := by
  induction ps generalizing points with
  | nil => exact ⟨rfl, fun _ hi => absurd hi List.not_mem_nil⟩
  | cons p ps ih =>
      obtain ⟨hpoints, hindex⟩ := place_spec points p
      obtain ⟨hrest, hindices⟩ := ih (place points p).2
      rw [hpoints] at hrest hindices
      refine ⟨by rw [placeAll]; simp only [hpoints, hrest]; rfl, ?_⟩
      intro i hi
      rw [placeAll] at hi
      simp only [hpoints] at hi
      rcases List.mem_cons.1 hi with rfl | hi
      · exact hindex.trans_le (isPrefix_foldl_appendNew _ _).length_le
      · exact hindices i hi

/-- A numbered mesh whose points are those of some corners and whose cells
refer to them. -/
structure Numbers (m : Indexed α) (corners : List (Vec3 α)) : Prop where
  points_eq : m.points = corners.foldl appendNew []
  index_lt : ∀ cell ∈ m.cells, ∀ i ∈ cell, i < m.points.length

theorem Numbers.add {m : Indexed α} {corners : List (Vec3 α)} (h : m.Numbers corners)
    (t : Triangle α) : (m.add t).Numbers (corners ++ t.corners) := by
  obtain ⟨hpoints, hindices⟩ := placeAll_spec m.points t.corners
  have hnext : (m.add t).points = t.corners.foldl appendNew m.points := hpoints
  refine ⟨by rw [hnext, h.points_eq, List.foldl_append], ?_⟩
  intro cell hcell i hi
  rw [hnext]
  rcases List.mem_append.1 hcell with hold | hnew
  · exact (h.index_lt cell hold i hi).trans_le (isPrefix_foldl_appendNew _ _).length_le
  · rw [List.mem_singleton] at hnew
    rw [hnew] at hi
    exact hindices i hi

theorem corners_concat {α : Type} (m : Mesh α) (t : Triangle α) :
    Mesh.corners (m ++ [t]) = m.corners ++ t.corners := by
  rw [Mesh.corners, List.flatMap_append, List.flatMap_singleton]
  rfl

theorem indexed_concat (m : Mesh α) (t : Triangle α) :
    indexed (m ++ [t]) = (indexed m).add t := by
  rw [indexed, List.foldl_append]
  rfl

theorem numbers_indexed (m : Mesh α) : (indexed m).Numbers m.corners := by
  induction m using List.reverseRecOn with
  | nil => exact ⟨rfl, fun _ h => absurd h List.not_mem_nil⟩
  | append_singleton m t ih =>
      rw [indexed_concat, corners_concat]
      exact ih.add t

/-- A function that keeps the comparisons between some points keeps those
that are new. -/
theorem foldl_appendNew_map_of {β : Type} [BEq β] {f : Vec3 α → Vec3 β}
    {points ps : List (Vec3 α)}
    (h : ∀ x ∈ points ++ ps, ∀ y ∈ ps, (f x == f y) = (x == y)) :
    (ps.map f).foldl appendNew (points.map f) = (ps.foldl appendNew points).map f := by
  induction ps generalizing points with
  | nil => rfl
  | cons p ps ih =>
      have hany : (points.map f).any (· == f p) = points.any (· == p) := by
        rw [Bool.eq_iff_iff, List.any_map, List.any_eq_true, List.any_eq_true]
        refine exists_congr fun x => and_congr_right fun hx => ?_
        rw [Function.comp_apply, h x (List.mem_append_left _ hx) p
          (List.mem_cons_self ..)]
      have hnew : appendNew (points.map f) (f p) = (appendNew points p).map f := by
        rw [appendNew, appendNew, hany]
        split <;> simp
      have hmem : ∀ x ∈ appendNew points p ++ ps, x ∈ points ++ p :: ps := by
        intro x hx
        rw [List.mem_append, List.mem_cons]
        rcases List.mem_append.1 hx with hnew | hrest
        · exact (mem_of_mem_appendNew hnew).imp_right Or.inl
        · exact Or.inr (Or.inr hrest)
      rw [List.map_cons, List.foldl_cons, List.foldl_cons, hnew]
      exact ih fun x hx y hy => h x (hmem x hx) y (List.mem_cons_of_mem _ hy)

end Indexed

/-! ### Blocks as corners -/

/-- The different corners of a mesh, in the order in which they first occur. -/
def distinctCorners (m : Mesh Int) : List Block :=
  m.corners.foldl Indexed.appendNew []

theorem appendNew_block (points : List Block) (p : Block) :
    Indexed.appendNew points p = if p ∈ points then points else points ++ [p] := by
  have hany : points.any (· == p) = true ↔ p ∈ points := by simp
  rw [Indexed.appendNew]
  by_cases hp : p ∈ points
  · rw [if_pos hp, if_pos (hany.2 hp)]
  · rw [if_neg hp, if_neg (mt hany.1 hp)]

theorem appendNew_of_not_mem {points : List Block} {p : Block} (hp : p ∉ points) :
    Indexed.appendNew points p = points ++ [p] := by
  rw [appendNew_block, if_neg hp]

theorem mem_foldl_appendNew {points ps : List Block} {x : Block} :
    x ∈ ps.foldl Indexed.appendNew points ↔ x ∈ points ∨ x ∈ ps := by
  induction ps generalizing points with
  | nil => simp
  | cons p ps ih =>
      have hnew : x ∈ Indexed.appendNew points p ↔ x ∈ points ∨ x = p := by
        rw [appendNew_block]
        split
        · rename_i hp
          exact ⟨Or.inl, fun h => h.elim id fun heq => heq ▸ hp⟩
        · simp
      rw [List.foldl_cons, ih, hnew, List.mem_cons, or_assoc]

theorem mem_distinctCorners {m : Mesh Int} {x : Block} :
    x ∈ m.distinctCorners ↔ x ∈ m.corners := by
  rw [distinctCorners, mem_foldl_appendNew, or_iff_right List.not_mem_nil]

theorem foldl_appendNew_of_subset {points ps : List Block} (hps : ps ⊆ points) :
    ps.foldl Indexed.appendNew points = points := by
  induction ps with
  | nil => rfl
  | cons p ps ih =>
      obtain ⟨hp, hrest⟩ := List.cons_subset.1 hps
      rw [List.foldl_cons, appendNew_block, if_pos hp, ih hrest]

theorem distinctCorners_cons {t : Triangle Int} (ht : t.corners.Nodup) (m : Mesh Int) :
    distinctCorners (t :: m) = m.corners.foldl Indexed.appendNew t.corners := by
  obtain ⟨hab, hac, hbc⟩ := Block.nodup_iff.1 ht
  have hb : t.b ∉ [t.a] := by simpa using Ne.symm hab
  have hc : t.c ∉ [t.a, t.b] := by simpa using ⟨Ne.symm hac, Ne.symm hbc⟩
  have hstart : t.corners.foldl Indexed.appendNew [] = t.corners := by
    simp only [Triangle.corners, List.foldl_cons, List.foldl_nil]
    rw [appendNew_of_not_mem List.not_mem_nil, List.nil_append, appendNew_of_not_mem hb,
      List.singleton_append, appendNew_of_not_mem hc]
    rfl
  have hsplit : Mesh.corners (t :: m) = t.corners ++ m.corners := rfl
  rw [distinctCorners, hsplit, List.foldl_append, hstart]

theorem InRange.corner {m : Mesh Int} (hm : m.InRange) {c : Block} (hc : c ∈ m.corners) :
    c.InRange := by
  obtain ⟨t, ht, hct⟩ := mem_corners_iff.1 hc
  exact hm t ht c hct

theorem InRange.distinctCorners {m : Mesh Int} (hm : m.InRange) :
    ∀ c ∈ m.distinctCorners, c.InRange :=
  fun _ hc => hm.corner (mem_distinctCorners.1 hc)

theorem corners_machine (m : Mesh Int) :
    m.machine.corners = m.corners.map Vec3.ofBlock := by
  simp only [corners, machine, List.flatMap_map, List.map_flatMap, Triangle.machine,
    Triangle.corners_map]

theorem points_indexed_machine {m : Mesh Int} (hm : m.InRange) :
    (indexed m.machine).points = m.distinctCorners.map Vec3.ofBlock := by
  have hkeep :
      (m.corners.map Vec3.ofBlock).foldl Indexed.appendNew (List.map Vec3.ofBlock []) =
      (m.corners.foldl Indexed.appendNew []).map (Vec3.ofBlock : Block → Point) :=
    Indexed.foldl_appendNew_map_of fun x hx y hy =>
      Vec3.beq_ofBlock (hm.corner hx) (hm.corner hy)
  rw [(Indexed.numbers_indexed m.machine).points_eq, corners_machine]
  exact hkeep

/-!
## Decoding numbered meshes

A numbered mesh stands for a mesh: its points differ, all of them are used, and the
cells refer to the corners of the triangles, one cell for each triangle and both in
order.  A corner keeps its number when more corners are numbered, because points are
only ever added at the end.

Polygonal data number the corners with a table instead, where each corner stands beside
its number.  The table lists the same points, and beside each of them its index.
-/

namespace Indexed

variable {α : Type} [BEq α]

/-! ### What indices refer to -/

/-- Whether an index is that of a point that equals another one. -/
def Refers (points : List (Vec3 α)) (i : Nat) (p : Vec3 α) : Prop :=
  ∃ q, points[i]? = some q ∧ (q == p) = true

theorem Refers.mono {points more : List (Vec3 α)} {i : Nat} {p : Vec3 α}
    (h : Refers points i p) (hmore : points <+: more) : Refers more i p := by
  obtain ⟨q, hq, hqp⟩ := h
  obtain ⟨rest, rfl⟩ := hmore
  obtain ⟨hi, -⟩ := List.getElem?_eq_some_iff.1 hq
  exact ⟨q, (List.getElem?_append_left hi).trans hq, hqp⟩

theorem refers_place (points : List (Vec3 α)) {p : Vec3 α} (hp : (p == p) = true) :
    Refers (place points p).2 (place points p).1 p := by
  rw [place]
  cases hfind : points.findIdx? (· == p) with
  | none => exact ⟨p, by simp, hp⟩
  | some i =>
      obtain ⟨hi, hmatch, -⟩ := List.findIdx?_eq_some_iff_getElem.1 hfind
      exact ⟨points[i], List.getElem?_eq_getElem hi, hmatch⟩

theorem points_add (n : Indexed α) (t : Triangle α) :
    (n.add t).points = (placeAll n.points t.corners).2 := rfl

theorem isPrefix_placeAll (points ps : List (Vec3 α)) :
    points <+: (placeAll points ps).2 := by
  rw [(placeAll_spec points ps).1]
  exact isPrefix_foldl_appendNew points ps

theorem forall₂_refers_placeAll (points : List (Vec3 α)) {ps : List (Vec3 α)}
    (hps : ∀ p ∈ ps, (p == p) = true) :
    List.Forall₂ (Refers (placeAll points ps).2) (placeAll points ps).1 ps := by
  induction ps generalizing points with
  | nil => exact List.Forall₂.nil
  | cons p ps ih =>
      obtain ⟨hp, hrest⟩ := List.forall_mem_cons.1 hps
      refine List.Forall₂.cons ?_ (ih _ hrest)
      exact (refers_place points hp).mono (isPrefix_placeAll _ ps)

/-! ### Points that are used -/

theorem lt_or_eq_place {points : List (Vec3 α)} {p : Vec3 α} {i : Nat}
    (hi : i < (place points p).2.length) :
    i < points.length ∨ i = (place points p).1 := by
  rw [place] at hi ⊢
  cases hfind : points.findIdx? (· == p) with
  | none =>
      rw [hfind] at hi
      simp at hi ⊢
      omega
  | some j =>
      rw [hfind] at hi
      exact Or.inl hi

theorem lt_or_mem_placeAll {points ps : List (Vec3 α)} {i : Nat}
    (hi : i < (placeAll points ps).2.length) :
    i < points.length ∨ i ∈ (placeAll points ps).1 := by
  induction ps generalizing points with
  | nil => exact Or.inl hi
  | cons p ps ih =>
      rcases ih hi with hfirst | hrest
      · rcases lt_or_eq_place hfirst with hold | hnew
        · exact Or.inl hold
        · exact Or.inr (hnew ▸ List.mem_cons_self)
      · exact Or.inr (List.mem_cons_of_mem _ hrest)

/-! ### Points that differ -/

theorem distinct_appendNew {points : List (Vec3 α)} {p : Vec3 α}
    (h : Distinct points) :
    Distinct (appendNew points p) := by
  unfold appendNew
  split
  · exact h
  · rename_i hnew
    rw [Bool.not_eq_true, List.any_eq_false] at hnew
    refine List.pairwise_append.2 ⟨h, List.pairwise_singleton _ _, ?_⟩
    intro q hq p' hp'
    rw [List.mem_singleton.1 hp']
    exact Bool.eq_false_of_not_eq_true (hnew q hq)

theorem distinct_foldl_appendNew {points ps : List (Vec3 α)}
    (h : Distinct points) :
    Distinct (ps.foldl appendNew points) := by
  induction ps generalizing points with
  | nil => exact h
  | cons p ps ih => exact ih (distinct_appendNew h)

/-! ### Decoding -/

/-- Whether the cells of a numbered mesh, read through its points, are the
triangles of a mesh. -/
structure Decodes (n : Indexed α) (m : Mesh α) : Prop where
  distinct : Distinct n.points
  used : ∀ i < n.points.length, ∃ cell ∈ n.cells, i ∈ cell
  refers :
      List.Forall₂ (fun cell t => List.Forall₂ (Refers n.points) cell t.corners)
      n.cells m

theorem Decodes.add {n : Indexed α} {m : Mesh α} (h : n.Decodes m) {t : Triangle α}
    (ht : ∀ c ∈ t.corners, (c == c) = true) : (n.add t).Decodes (m ++ [t]) where
  distinct := by
    rw [points_add, (placeAll_spec n.points t.corners).1]
    exact distinct_foldl_appendNew h.distinct
  used := by
    intro i hi
    rw [points_add] at hi
    rcases lt_or_mem_placeAll hi with hold | hnew
    · obtain ⟨cell, hcell, hmem⟩ := h.used i hold
      exact ⟨cell, List.mem_append_left _ hcell, hmem⟩
    · exact ⟨_, List.mem_append_right _ (List.mem_singleton_self _), hnew⟩
  refers := by
    have hprefix : n.points <+: (n.add t).points := isPrefix_placeAll n.points t.corners
    have hold := h.refers.imp fun cell u hcell => hcell.imp fun i c hc => hc.mono hprefix
    exact List.rel_append hold (List.Forall₂.cons
      (forall₂_refers_placeAll n.points ht) .nil)

theorem decodes_indexed {m : Mesh α} (hm : ∀ c ∈ m.corners, (c == c) = true) :
    (indexed m).Decodes m := by
  induction m using List.reverseRecOn with
  | nil => exact ⟨List.Pairwise.nil, fun _ hi => absurd hi (Nat.not_lt_zero _),
    List.Forall₂.nil⟩
  | append_singleton m t ih =>
      rw [corners_concat] at hm
      rw [indexed_concat]
      exact (ih fun c hc => hm c (List.mem_append_left _ hc)).add
        fun c hc => hm c (List.mem_append_right _ hc)

end Indexed

def IsFinite (m : Mesh Float) : Prop :=
  ∀ c ∈ m.corners, Point.isFinite c = true

instance (m : Mesh Float) : Decidable m.IsFinite :=
  inferInstanceAs (Decidable (∀ c ∈ m.corners, Point.isFinite c = true))

theorem IsFinite.decodes_indexed {m : Mesh Float} (hm : m.IsFinite) :
    (indexed m).Decodes m :=
  Indexed.decodes_indexed fun c hc => Point.beq_self_of_isFinite (hm c hc)

end Mesh

/-! ### Polygonal data -/

namespace PolyData

open Mesh.Indexed

theorem number_zipIdx (points : List Point) (p : Point) :
    number p points.zipIdx = ((place points p).1, (place points p).2.zipIdx) := by
  have hfind :
      points.findIdx? (· == p) = (points.zipIdx.find? (·.1 == p)).map Prod.snd :=
    List.findIdx?_eq_fst_find?_zipIdx
  rw [number, place, hfind]
  cases points.zipIdx.find? (·.1 == p) with
  | none => simp [List.zipIdx_append]
  | some entry => rfl

theorem mapM_number_zipIdx (points ps : List Point) :
    ps.mapM number points.zipIdx =
      ((placeAll points ps).1, (placeAll points ps).2.zipIdx) := by
  induction ps generalizing points with
  | nil => rfl
  | cons p ps ih =>
      rw [List.mapM_cons, placeAll]
      simp only [bind, StateT.bind, number_zipIdx, ih]
      rfl

theorem numberAll_zipIdx (m : Mesh Float) (n : Mesh.Indexed Float) :
    ∃ cells, numberAll m n.points.zipIdx = (cells, (m.foldl add n).points.zipIdx) ∧
      (m.foldl add n).cells = n.cells ++ cells := by
  induction m generalizing n with
  | nil => exact ⟨[], rfl, (List.append_nil _).symm⟩
  | cons t m ih =>
      obtain ⟨cells, hcells, happend⟩ := ih (n.add t)
      refine ⟨(placeAll n.points t.corners).1 :: cells, ?_, ?_⟩
      · rw [numberAll] at hcells ⊢
        rw [points_add] at hcells
        rw [List.mapM_cons]
        simp only [bind, StateT.bind, mapM_number_zipIdx, hcells]
        rfl
      · rw [List.foldl_cons, happend, List.append_cons]
        rfl

/-- Polygonal data have the points and the cells of the numbered mesh. -/
theorem ofMesh_eq (m : Mesh Float) :
    ofMesh m =
      { points := (Mesh.indexed m).points, cells := (Mesh.indexed m).cells } := by
  obtain ⟨cells, hcells, happend⟩ := numberAll_zipIdx m { points := [], cells := [] }
  have hrun : (numberAll m).run [] = (cells, (Mesh.indexed m).points.zipIdx) := hcells
  have hindexed : (Mesh.indexed m).cells = cells := happend
  rw [ofMesh, hrun, hindexed]
  simp

end PolyData
end LatticeHull
