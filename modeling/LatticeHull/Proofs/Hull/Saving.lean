import LatticeHull.Hull.Saving
import LatticeHull.Proofs.Hull.Membership
import LatticeHull.Proofs.Hull.Order
import LatticeHull.Proofs.Hull.Translation
import LatticeHull.Proofs.Mesh.Indexed
import LatticeHull.Proofs.MeshFile.Lines
import LatticeHull.Proofs.MeshFile.RoundTrip

/-!
# Hulls in mesh files and out of them

The file of a hull lists the different corners of its mesh, however many triangles there
are: of finite points there are fewer than a file has numbers for.  Loading the file of a
hull in range adds its corners to the hull of no vertices, in the order in which they
first occur, and nothing else.
-/

namespace LatticeHull

/-! ### Rows of coordinates -/

namespace Block

def row (b : Block) : List Float :=
  (Vec3.ofBlock b : Point).toList

theorem ofDatum_row {b : Block} (hb : b.InRange) :
    Block.ofDatum (MeshFile.rowDatum b.row) = .ok b := by
  obtain ⟨hx, hy, hz⟩ := hb
  have hread : Point.ofDatum (MeshFile.rowDatum b.row) = .ok (Vec3.ofBlock b) := rfl
  have hfloor : (Vec3.ofBlock b : Point).map Binary.floor = b :=
    Vec3.ext (Binary.floor_ofInt (by omega)) (Binary.floor_ofInt (by omega))
      (Binary.floor_ofInt (by omega))
  rw [Block.ofDatum, hread]
  change Block.ofPoint (Vec3.ofBlock b) = _
  rw [Block.ofPoint, if_pos (isFinite_ofBlock (by omega) (by omega) (by omega)), hfloor]

end Block

namespace Hull

theorem vertexRows_stack {rows : List (List Float)}
    (hrows : ∀ row ∈ rows, row.length = 3) :
    vertexRows (MeshFile.stack 3 rows) = rows.map MeshFile.rowDatum := by
  have hnest : ∀ row : List Float, row.length = 3 →
      Datum.nest [3] (row.map .binary) = MeshFile.rowDatum row := by
    intro row hrow
    obtain ⟨x, y, z, rfl⟩ := List.length_eq_three.1 hrow
    rfl
  have hentries : (MeshFile.stack 3 rows).entries.map Datum.binary =
      (rows.map (List.map Datum.binary)).flatten := List.map_flatten
  have hslices : Shape.slices 3 (rows.map (List.map Datum.binary)).length
      (rows.map (List.map Datum.binary)).flatten = rows.map (List.map Datum.binary) := by
    refine Shape.slices_flatten fun row hrow => ?_
    obtain ⟨r, hr, rfl⟩ := List.mem_map.1 hrow
    rw [List.length_map, hrows r hr]
  rw [List.length_map] at hslices
  have hdatum :
      (MeshFile.stack 3 rows).toDatum = .list (rows.map MeshFile.rowDatum) := by
    rw [Grid.toDatum, hentries]
    change Datum.list ((Shape.slices 3 rows.length _).map (Datum.nest [3])) = _
    rw [hslices, List.map_map]
    exact congrArg Datum.list (List.map_congr_left fun row hrow =>
      hnest row (hrows row hrow))
  rw [vertexRows, hdatum]
  simp only [List.map_map]
  refine List.map_congr_left fun row hrow => ?_
  obtain ⟨x, y, z, rfl⟩ := List.length_eq_three.1 (hrows row hrow)
  rfl

/-! ### Saving -/

def records (corners : List Block) (cells : List (List Nat)) : List MeshFile.Record :=
  corners.map (fun b => .ofRow "v" b.row) ++ cells.map .ofFace

/-- The cells of a mesh between finite points refer to no vertex whose
number is too long. -/
theorem lt_tooLongFrom_of_mem_cells {m : Mesh Float} (hm : m.IsFinite) :
    ∀ cell ∈ (Mesh.indexed m).cells, ∀ i ∈ cell, i + 1 < MeshFile.tooLongFrom := by
  have hdecodes := hm.decodes_indexed
  have hfinite : ∀ p ∈ (Mesh.indexed m).points, Point.isFinite p = true := by
    intro p hp
    rw [(Mesh.Indexed.numbers_indexed m).points_eq] at hp
    exact hm p ((Mesh.Indexed.mem_of_mem_foldl_appendNew hp).resolve_left
      List.not_mem_nil)
  have hlength :=
    Point.length_le_of_nodup (Point.nodup_of_distinct hfinite hdecodes.distinct)
  have hbound : (2 ^ 64) ^ 3 < MeshFile.tooLongFrom :=
    lt_of_lt_of_le (by norm_num) (MeshFile.pow_le_tooLongFrom (show 58 ≤ _ by decide))
  intro cell hcell i hi
  have hlt := (Mesh.Indexed.numbers_indexed m).index_lt cell hcell i hi
  exact ((Nat.succ_le_of_lt hlt).trans hlength).trans_lt hbound

/-- The file of a hull between finite points lists the points of the numbered
mesh, then the cells. -/
theorem save_eq {h : Hull Float} (hfaces : h.faces.IsFinite) :
    h.save =
      { text := some (MeshFile.recordsText
          (((Mesh.indexed h.faces).points.map Vec3.toList).map (.ofRow "v") ++
            (Mesh.indexed h.faces).cells.map .ofFace)),
        fault := none } := by
  have hrows : MeshFile.rowsDatum ((Mesh.indexed h.faces).points.map Vec3.toList) =
      .list ((Mesh.indexed h.faces).points.map pointRow) := by
    rw [MeshFile.rowsDatum, List.map_map]
    rfl
  have hlookup : List.lookup "v" [("v", MeshFile.Content.loose (.list
      ((Mesh.indexed h.faces).points.map pointRow)))] =
        some (.loose (.list ((Mesh.indexed h.faces).points.map pointRow))) := rfl
  change MeshFile.write [("v", .loose
    (.list ((Mesh.indexed h.faces).points.map pointRow)))]
    (.loose (MeshFile.facesDatum (Mesh.indexed h.faces).cells)) = _
  rw [MeshFile.write, hlookup]
  change MeshFile.collect (MeshFile.fileLines _ _) = _
  rw [MeshFile.fileLines, MeshFile.faceLines_facesDatum,
    MeshFile.map_faceLine_of_lt (lt_tooLongFrom_of_mem_cells hfaces)]
  simp only [List.flatMap_cons, List.flatMap_nil, List.append_nil]
  rw [← hrows, MeshFile.linesOf_rowsDatum, ← MeshFile.recordLines_append]
  exact MeshFile.collect_recordLines _

theorem isFinite_machine {m : Mesh Int} (hm : m.InRange) : m.machine.IsFinite := by
  intro c hc
  rw [Mesh.corners_machine] at hc
  obtain ⟨b, hb, rfl⟩ := List.mem_map.1 hc
  obtain ⟨hx, hy, hz⟩ := hm.corner hb
  exact Block.isFinite_ofBlock (b := b) (by omega) (by omega) (by omega)

/-- The file of a hull in range lists the different corners of the mesh,
then the triangles. -/
theorem save_machine {h : Hull Int} (hfaces : h.faces.InRange) :
    ∃ cells : List (List Nat), h.machine.save =
      { text := some (MeshFile.recordsText (records h.faces.distinctCorners cells)),
        fault := none } := by
  have hrecords : ((Mesh.indexed h.faces.machine).points.map Vec3.toList).map
      (MeshFile.Record.ofRow "v") =
      h.faces.distinctCorners.map fun b => MeshFile.Record.ofRow "v" b.row := by
    rw [Mesh.points_indexed_machine hfaces, List.map_map, List.map_map]
    rfl
  refine ⟨(Mesh.indexed h.faces.machine).cells, ?_⟩
  rw [records, ← hrecords]
  exact save_eq (isFinite_machine hfaces)

/-! ### Loading -/

/-- Loading the file of some corners, with or without cells, adds the
corners to the empty hull. -/
theorem load_records {corners : List Block} (hcorners : ∀ b ∈ corners, b.InRange)
    (cells : List (List Nat)) :
    load (.text (MeshFile.recordsText (records corners cells)).toList) =
      .ok (empty.addBlocks corners).machine := by
  have hwidth : ∀ row ∈ corners.map Block.row, row.length = 3 := by
    intro row hrow
    obtain ⟨b, -, rfl⟩ := List.mem_map.1 hrow
    rfl
  have hclean : ∀ r ∈ cells.map MeshFile.Record.ofFace, r.IsClean := by
    intro r hr
    obtain ⟨cell, -, rfl⟩ := List.mem_map.1 hr
    exact MeshFile.Record.isClean_ofFace cell
  have hothers : ∀ r ∈ cells.map MeshFile.Record.ofFace, MeshFile.IsTag r.tag ∧
      r.tag ≠ "v" := by
    intro r hr
    obtain ⟨cell, -, rfl⟩ := List.mem_map.1 hr
    have hne : "f" ≠ "v" := by decide
    exact ⟨MeshFile.isTag_faces, hne⟩
  have hread :=
    MeshFile.readText_ofRow MeshFile.isTag_vertices (by decide) hwidth hclean hothers
  rw [List.map_map] at hread
  have hfile :
      MeshFile.read (.text (MeshFile.recordsText (records corners cells)).toList)
      [.text "v"] = .ok (.one (MeshFile.stacked 3 (corners.map Block.row))) := hread
  rw [load, hfile]
  cases corners with
  | nil => rfl
  | cons b corners =>
      change addAll empty (vertexRows
        (MeshFile.stack 3 ((b :: corners).map Block.row))) = _
      rw [vertexRows_stack hwidth, List.map_map]
      exact sound_empty.addAll_map hcorners fun v hv => Block.ofDatum_row (hcorners v hv)

end Hull

/-!
## Exported meshes

A hull is exported in two ways, as a file and as polygonal data, which number the corners
each on their own.  Both have the same points and the same cells, and these stand for the
mesh: what is read back from the file is what was written, and every index in it leads to
the corner that it was given for.
-/

namespace MeshFile

theorem readText_vertices_faces {width : Nat} {rows : List (List Float)}
    (hrows : ∀ row ∈ rows, row.length = width) {faces : List (List Nat)}
    (hfaces : ∀ face ∈ faces, ∀ i ∈ face, i + 1 < tooLongFrom) :
    readText (recordsText (rows.map (.ofRow "v") ++ faces.map .ofFace)).toList
      ["v", "f"] =
      .ok (.several [stacked width rows, .faces (faces.map readFace)]) := by
  have hnodup : ["v", "f"].Nodup := by decide
  have hne : "v" ≠ "f" := by decide
  have hclean :
      ∀ r ∈ rows.map (Record.ofRow "v") ++ faces.map Record.ofFace, r.IsClean := by
    intro r hr
    rcases List.mem_append.1 hr with hr | hr
    · obtain ⟨row, -, rfl⟩ := List.mem_map.1 hr
      exact Record.isClean_ofRow isTag_vertices.word row
    · obtain ⟨face, -, rfl⟩ := List.mem_map.1 hr
      exact Record.isClean_ofFace face
  obtain ⟨p, hrowsRead, hp⟩ :=
    Progress.foldlM_ofRow hnodup isTag_vertices hne hrows (if_neg hne)
      (Progress.sections_start hnodup)
  obtain ⟨q, hfacesRead, hq⟩ := Progress.foldlM_ofFace hnodup hfaces
    (Function.update_of_ne hne.symm _ _) hp
  have hread : (rows.map (Record.ofRow "v") ++ faces.map Record.ofFace).foldlM
      (fun p r => p.line r.words) (Progress.start ["v", "f"]) = .ok q := by
    rw [List.foldlM_append, hrowsRead]
    exact hfacesRead
  rw [readText_records hclean hread hq]
  rfl

end MeshFile

namespace Hull

/-- The file of a hull with finite corners is read back as the points and cells of a
numbered mesh that stands for the mesh of the hull, and polygonal data consist of the
same points and cells. -/
theorem save_decodes {h : Hull Float} (hfaces : h.faces.IsFinite) :
    ∃ (text : String) (n : Mesh.Indexed Float),
      h.save = { text := some text, fault := none } ∧
        (∀ file ∈ [MeshFile.File.text text.toList, .octets (Text.octets text)],
          MeshFile.read file [.text "v", .text "f"] =
            .ok (.several [MeshFile.stacked 3 (n.points.map Vec3.toList),
              .faces (n.cells.map MeshFile.readFace)])) ∧
        n.Decodes h.faces ∧
        PolyData.ofMesh h.faces = { points := n.points, cells := n.cells } := by
  refine ⟨_, Mesh.indexed h.faces, save_eq hfaces, ?_, hfaces.decodes_indexed,
    PolyData.ofMesh_eq h.faces⟩
  have hwidth :
      ∀ row ∈ (Mesh.indexed h.faces).points.map Vec3.toList, row.length = 3 := by
    intro row hrow
    obtain ⟨p, -, rfl⟩ := List.mem_map.1 hrow
    rfl
  have hread :=
    MeshFile.readText_vertices_faces hwidth (lt_tooLongFrom_of_mem_cells hfaces)
  obtain ⟨htext, hoctets⟩ := MeshFile.read_text (MeshFile.recordsText
    (((Mesh.indexed h.faces).points.map Vec3.toList).map (.ofRow "v") ++
      (Mesh.indexed h.faces).cells.map .ofFace)) (List.cons_ne_nil "v" ["f"])
  intro file hfile
  simp only [List.mem_cons, List.not_mem_nil, or_false] at hfile
  rcases hfile with rfl | rfl
  · exact htext.trans hread
  · exact hoctets.trans hread

/-- A hull with a triangle from both sides, the second time with a zero of the other
sign, and with a triangle that has a corner twice. -/
def sheet : Hull Float :=
  { (empty : Hull Float) with
    faces :=
      [⟨⟨0, 0, 0⟩, ⟨1, 0, 0⟩, ⟨0, 1, 0.1⟩⟩, ⟨⟨-0.0, 0, 0⟩, ⟨0, 1, 0.1⟩, ⟨1, 0, 0⟩⟩,
        ⟨⟨0, 1, 2.5⟩, ⟨0, 1, 0.1⟩, ⟨0, 1, 2.5⟩⟩] }

theorem save_decodes_sheet :
    sheet.faces.IsFinite ∧ ∃ text : String,
      sheet.save = { text := some text, fault := none } ∧
      MeshFile.read (.text text.toList) [.text "v", .text "f"] = .ok (.several
        [.rows (MeshFile.stack 3 [[0, 0, 0], [1, 0, 0], [0, 1, 0.1], [0, 1, 2.5]]),
          .faces [[0, 1, 2], [0, 2, 1], [3, 2, 3]]]) := by
  have hfaces : sheet.faces.IsFinite := by decide
  have hnumbered : PolyData.ofMesh sheet.faces =
      { points := [⟨0, 0, 0⟩, ⟨1, 0, 0⟩, ⟨0, 1, 0.1⟩, ⟨0, 1, 2.5⟩],
        cells := [[0, 1, 2], [0, 2, 1], [3, 2, 3]] } := by
    decide
  obtain ⟨text, n, hsave, hread, -, hdata⟩ := save_decodes hfaces
  obtain ⟨hpoints, hcells⟩ := PolyData.mk.inj (hdata.symm.trans hnumbered)
  have htext := hread _ (List.mem_cons_self ..)
  rw [hpoints, hcells] at htext
  exact ⟨hfaces, text, hsave, htext⟩

/-!
## Hulls that are saved and loaded again

Loading builds a hull from the corners of a mesh only, in another order, so that in
general its vertices, its triangles and its sum are others.  Among lattice points it
answers as the hull that was saved.  The corners of the first triangle start the new
hull.  They are not on a line if the hull was solid, so the new one is solid as well, and
the corners have the same convex hull as all the vertices.  If the hull was flat, its
corners are its accepted vertices, and the new one has the same mesh and box.
-/

variable {h g : Hull Int}

/-- The hull that the corners of a mesh lead to. -/
def rebuilt (h : Hull Int) : Hull Int :=
  empty.addBlocks h.faces.distinctCorners

theorem Sound.rebuilt (hsound : h.Sound) : h.rebuilt.Sound :=
  sound_empty.addBlocks hsound.faces_inRange.distinctCorners

/-! ### Answers -/

/-- The mesh and the box settle the answers. -/
theorem containsPoint_congr (hfaces : g.faces = h.faces) (hextent : g.extent = h.extent)
    (q : Block) :
    (g.containsPoint Triangle.above q).1 = (h.containsPoint Triangle.above q).1 := by
  rw [Bool.eq_iff_iff, containsPoint_iff, containsPoint_iff, hfaces, hextent]

theorem Sparse.containsPoint_rebuilt (hsparse : h.Sparse) (q : Block) :
    (h.rebuilt.containsPoint Triangle.above q).1 =
      (h.containsPoint Triangle.above q).1 := by
  have hrebuilt : h.rebuilt = empty := by
    rw [Hull.rebuilt, hsparse.faces_eq]
    rfl
  have hnone : ∀ f : Hull Int, f.faces = [] →
      (f.containsPoint Triangle.above q).1 = false := by
    intro f hf
    rw [containsPoint, hf]
    rfl
  rw [hrebuilt, hnone h hsparse.faces_eq, hnone empty rfl]

theorem distinctCorners_flat {a b c : Block} (hnodup : [a, b, c].Nodup) :
    (Mesh.flat a b c).distinctCorners = [a, b, c] := by
  have hcorners : Triangle.corners ⟨a, b, c⟩ = [a, b, c] := rfl
  rw [Mesh.flat, Mesh.distinctCorners_cons (hcorners ▸ hnodup), hcorners]
  apply Mesh.foldl_appendNew_of_subset
  simp [Mesh.corners, Triangle.corners]

theorem Flat.containsPoint_rebuilt {a b c : Block} (hflat : h.Flat a b c)
    (hsound : h.Sound) (q : Block) :
    (h.rebuilt.containsPoint Triangle.above q).1 =
      (h.containsPoint Triangle.above q).1 := by
  have hcorners : h.faces.distinctCorners = [a, b, c] := by
    rw [hflat.faces_eq, distinctCorners_flat hflat.nodup]
  have hrange := hsound.faces_inRange.distinctCorners
  rw [hcorners] at hrange
  have hflat' : h.rebuilt.Flat a b c := by
    rw [Hull.rebuilt, hcorners]
    exact flat_addBlocks_start hrange hflat.nodup
  have hbox := hsound.boxed
  have hbox' := hsound.rebuilt.boxed
  rw [Boxed, counted_nil, hflat.accepted_eq] at hbox
  rw [Boxed, counted_nil, hflat'.accepted_eq] at hbox'
  exact containsPoint_congr (hflat'.faces_eq.trans hflat.faces_eq.symm)
    (hbox'.unique hbox) q

/-- The corners of a solid hull span space, and the first triangle has three
that are not on a line. -/
theorem Solid.spanning_corners (hsolid : h.Solid []) :
    ∃ a b c rest, h.faces.distinctCorners = [a, b, c] ++ rest ∧
      ¬Collinear ℝ {a.real.place, b.real.place, c.real.place} ∧
        Block.Spanning ([a, b, c] ++ rest) := by
  obtain ⟨t, m, hfaces⟩ := List.exists_cons_of_ne_nil hsolid.ne_nil
  have ht : t ∈ h.faces := by
    rw [hfaces]
    exact List.mem_cons_self
  obtain ⟨d, hd, hbelow⟩ := hsolid.convex.exists_corner_below ht
  have hoff : Vec3.orient t.a t.b t.c d ≠ 0 := hbelow.ne
  have hnot : ¬Collinear ℝ {t.a.real.place, t.b.real.place, t.c.real.place} :=
    fun hcollinear => hoff (Block.collinear_iff.1 hcollinear d)
  have hprefix : t.corners <+: h.faces.distinctCorners := by
    rw [hfaces, Mesh.distinctCorners_cons (Block.nodup_of_not_collinear hnot)]
    exact Mesh.Indexed.isPrefix_foldl_appendNew _ _
  obtain ⟨rest, hrest⟩ := hprefix
  refine ⟨t.a, t.b, t.c, rest, hrest.symm, hnot, ?_⟩
  have hmem : ∀ x, x ∈ [t.a, t.b, t.c] ++ rest ↔ x ∈ h.faces.corners := by
    intro x
    rw [← Mesh.mem_distinctCorners, ← hrest]
    exact Iff.rfl
  have hcorner : ∀ x ∈ t.corners, x ∈ [t.a, t.b, t.c] ++ rest := fun x hx =>
    List.mem_append_left _ hx
  obtain ⟨ha, hb, hc⟩ := Triangle.forall_mem_corners.1 hcorner
  exact Block.spanning_of_orient_ne_zero ha hb hc ((hmem d).2 hd) hoff

theorem Solid.containsPoint_rebuilt (hsolid : h.Solid []) (hsettled : h.Settled)
    (hsound : h.Sound) (q : Block) :
    (h.rebuilt.containsPoint Triangle.above q).1 =
      (h.containsPoint Triangle.above q).1 := by
  obtain ⟨a, b, c, rest, hcorners, hnot, hspan⟩ := hsolid.spanning_corners
  have hrange := hsound.faces_inRange.distinctCorners
  have hmem : ∀ x, x ∈ h.faces.distinctCorners ↔ x ∈ h.faces.corners := fun x =>
    Mesh.mem_distinctCorners
  have hsame : q.real.place ∈ Block.solid h.faces.distinctCorners ↔
      q.real.place ∈ Block.solid h.vertices := by
    rw [hsolid.mem_solid_vertices_iff hsettled]
    refine hsolid.convex.mem_solid_iff hsolid.ne_nil (fun x hx => (hmem x).2 hx)
      fun x hx => ?_
    exact hsolid.convex.encloses_corner x ((hmem x).1 hx)
  rw [Bool.eq_iff_iff, hsolid.containsPoint_iff hsettled hsound.boxed, ← hsame,
    Hull.rebuilt]
  rw [hcorners] at hrange ⊢
  obtain ⟨hsolid', hsettled'⟩ := solid_of_start hrange hspan hnot
  exact hsolid'.containsPoint_blocks_iff hsettled' hrange q

/-- The hull that the corners lead to answers as the hull does, in every phase. -/
theorem Sound.containsPoint_rebuilt (hsound : h.Sound) (q : Block) :
    (h.rebuilt.containsPoint Triangle.above q).1 =
      (h.containsPoint Triangle.above q).1 := by
  cases hsound.phase with
  | sparse hsparse => exact hsparse.containsPoint_rebuilt q
  | flat a b c hflat => exact hflat.containsPoint_rebuilt hsound q
  | solid hsolid hsettled => exact hsolid.containsPoint_rebuilt hsettled hsound q

theorem Sound.contains_eq_containsPoint (hsound : h.Sound) {d : Datum} {p : Point}
    {q : Block} (hread : Point.ofDatum d = .ok p) (heq : (p == Vec3.ofBlock q) = true)
    (hq : q.InRange) :
    (h.machine.contains d).1 = .ok (h.containsPoint Triangle.above q).1 := by
  by_cases hne : h.faces = []
  · have hundefined : h.machine.isDefined = false := by
      simp [isDefined, machine, Mesh.machine, hne]
    rw [contains, hundefined, containsPoint, hne]
    rfl
  · exact hsound.contains_of_beq hne hread heq hq

/-- The mesh of every reachable hull can be saved, and the hull that is loaded from the
file answers every lattice point in range as the hull that was saved does. -/
theorem Reachable.contains_load_save {h : Hull Float} (hreach : Reachable h) :
    ∃ text restored, h.save = { text := some text, fault := none } ∧
      load (.text text.toList) = .ok restored ∧
      ∀ (d : Datum) (p : Point) (q : Block), Point.ofDatum d = .ok p →
        (p == Vec3.ofBlock q) = true → q.InRange →
          ∃ inside, (restored.contains d).1 = .ok inside ∧
            (h.contains d).1 = .ok inside := by
  obtain ⟨g, hsound, rfl⟩ := hreach.exists_sound
  obtain ⟨cells, hsave⟩ := save_machine hsound.faces_inRange
  refine ⟨_, _, hsave, load_records hsound.faces_inRange.distinctCorners cells, ?_⟩
  intro d p q hread heq hq
  refine ⟨_, hsound.rebuilt.contains_eq_containsPoint hread heq hq, ?_⟩
  rw [hsound.containsPoint_rebuilt]
  exact hsound.contains_eq_containsPoint hread heq hq

theorem contains_load_save_pyramid :
    Reachable (empty.addBlocks pyramid).machine ∧
      ∃ text restored,
        (empty.addBlocks pyramid).machine.save = { text := some text, fault := none } ∧
        load (.text text.toList) = .ok restored ∧
        (restored.contains (Block.toDatum ⟨1, 1, 1⟩)).1 = .ok true ∧
        (restored.contains (Block.toDatum ⟨3, 3, 3⟩)).1 = .ok false := by
  have hreach : Reachable (empty.addBlocks pyramid).machine :=
    reachable_blocks (by decide)
  have hsound : (empty.addBlocks pyramid).Sound := sound_empty.addBlocks (by decide)
  have hread : ∀ q : Block, q.InRange →
      Point.ofDatum (Block.toDatum q) = .ok (Vec3.ofBlock q) := by
    intro q hq
    rw [Block.pointOfDatum_toDatum, if_pos (isFinite_of_holds (Vec3.holds_ofBlock hq))]
  have hinside :
      ((empty.addBlocks pyramid).machine.contains (Block.toDatum ⟨1, 1, 1⟩)).1 =
      .ok true := by
    rw [hsound.contains_eq_containsPoint (q := ⟨1, 1, 1⟩) (hread _ (by decide))
      (by decide)
      (by decide)]
    cbv
  have houtside :
      ((empty.addBlocks pyramid).machine.contains (Block.toDatum ⟨3, 3, 3⟩)).1 =
      .ok false := by
    rw [hsound.contains_eq_containsPoint (q := ⟨3, 3, 3⟩) (hread _ (by decide))
      (by decide)
      (by decide)]
    cbv
  obtain ⟨text, restored, hsave, hload, hanswers⟩ := hreach.contains_load_save
  refine ⟨hreach, text, restored, hsave, hload, ?_, ?_⟩
  · obtain ⟨inside, hrestored, hbefore⟩ :=
      hanswers (Block.toDatum ⟨1, 1, 1⟩) (Vec3.ofBlock ⟨1, 1, 1⟩) ⟨1, 1, 1⟩
        (hread _ (by decide))
        (by decide) (by decide)
    rw [hrestored, ← hbefore, hinside]
  · obtain ⟨inside, hrestored, hbefore⟩ :=
      hanswers (Block.toDatum ⟨3, 3, 3⟩) (Vec3.ofBlock ⟨3, 3, 3⟩) ⟨3, 3, 3⟩
        (hread _ (by decide))
        (by decide) (by decide)
    rw [hrestored, ← hbefore, houtside]

end Hull
end LatticeHull
