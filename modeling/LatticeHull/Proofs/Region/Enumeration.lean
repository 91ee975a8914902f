import LatticeHull.Proofs.Binary.Value
import LatticeHull.Region.Bounded

/-!
# Enumerating a region

The blocks of a region are found by testing every block within the bounds, one
after another, and a test may change what the region remembers.  As long as the
answers do not depend on that, the blocks found are exactly those that the region
holds, in lexicographic order.
-/

namespace LatticeHull

/-!
## Corners and the ranges that are visited

The corners of a region stand for fractions, and the ranges that are visited run
between their whole parts.  The whole part of a negative corner lies above it, so a
lower corner may lose blocks of the box and an upper one may gain some.  No lattice
point between the corners is ever lost.
-/

/-- Whether a datum is a number that stands for a fraction. -/
def Datum.Denotes : Datum → ℚ → Prop
  | .truth b, v => v = if b then 1 else 0
  | .whole n, v => v = n
  | .binary x, v => x.isFinite = true ∧ v = Binary.toRat x
  | _, _ => False

/-- What is left of a fraction once its places behind the point are cut off. -/
def truncated (v : ℚ) : Int :=
  if 0 ≤ v then ⌊v⌋ else ⌈v⌉

@[simp] theorem truncated_intCast (n : Int) : truncated n = n := by
  rw [truncated, Int.floor_intCast, Int.ceil_intCast, ite_self]

theorem truncated_le {v : ℚ} {n : Int} (hle : v ≤ n) : truncated v ≤ n := by
  rw [truncated]
  split
  · exact_mod_cast (Int.floor_le v).trans hle
  · exact Int.ceil_le.2 hle

theorem le_truncated {v : ℚ} {n : Int} (hle : n ≤ v) : n ≤ truncated v := by
  rw [truncated]
  split
  · exact Int.le_floor.2 hle
  · exact_mod_cast hle.trans (Int.le_ceil v)

theorem Datum.toWhole_of_denotes {d : Datum} {v : ℚ} (hd : d.Denotes v) :
    d.toWhole = .ok (truncated v) := by
  cases d with
  | truth b =>
      obtain rfl : v = if b then 1 else 0 := hd
      cases b <;> rfl
  | whole n =>
      obtain rfl : v = n := hd
      rw [truncated_intCast]
      rfl
  | binary x =>
      obtain ⟨hfinite, rfl⟩ := hd
      obtain ⟨hnan, hinf⟩ := Binary.isFinite_iff.1 hfinite
      rw [toWhole, Binary.wholePart, hnan, hinf, Binary.truncate_eq]
      rfl
  | null | text s | list items | record fields => exact hd.elim

/-- Whether a table is a row of three numbers that stand for the
coordinates of a point. -/
def Table.IsCorner (t : Table) (p : Vec3 ℚ) : Prop :=
  t.shape = [3] ∧ ∃ a b c, t.entries = [a, b, c] ∧ a.Denotes p.x ∧ b.Denotes p.y ∧
    c.Denotes p.z

theorem Table.IsCorner.toWholes_eq {t : Table} {p : Vec3 ℚ} (ht : t.IsCorner p) :
    t.toWholes = .ok (p.map truncated).toList := by
  obtain ⟨hshape, a, b, c, hentries, ha, hb, hc⟩ := ht
  rw [toWholes, hshape]
  simp only [readEntries, hentries, List.mapM_cons, List.mapM_nil,
    Datum.toWhole_of_denotes ha, Datum.toWhole_of_denotes hb,
    Datum.toWhole_of_denotes hc]
  rfl

/-- Whether a lattice point lies between two corners, in every coordinate. -/
def Block.Within (b : Block) (p q : Vec3 ℚ) : Prop :=
  (p.x ≤ b.x ∧ b.x ≤ q.x) ∧ (p.y ≤ b.y ∧ b.y ≤ q.y) ∧ (p.z ≤ b.z ∧ b.z ≤ q.z)

/-! ## Tests and visits -/

namespace Bounded

variable {ρ : Type} [Bounded ρ]

/-! ### Regions under test -/

/-- The regions that tests of a region lead to. -/
inductive Tested (r : ρ) : ρ → Prop where
  | start : Tested r r
  | test {s s' : ρ} {b : Block} {answer : Bool} (hs : Tested r s)
      (htest : holds s b = .ok (answer, s')) : Tested r s'

/-- Whether every test of a region succeeds and tells whether the block is one of some
blocks, no matter what has been tested before. -/
def Decides (r : ρ) (inside : Block → Prop) : Prop :=
  ∀ s, Tested r s → ∀ b, ∃ answer s', holds s b = .ok (answer, s') ∧
    (answer = true ↔ inside b)

/-- Whether a region has two finite corners and some blocks all lie between them. -/
def Enclosed (r : ρ) (inside : Block → Prop) : Prop :=
  ∃ t u p q, lower r = some t ∧ upper r = some u ∧ t.IsCorner p ∧ u.IsCorner q ∧
    ∀ b, inside b → b.Within p q

/-- Whether the lists that are made of a region are made of some blocks: the
blocks in increasing lexicographic order, their chunk cubes, and chunks that each
have one of these cubes. -/
def Enumerates (r : ρ) (inside : Block → Prop) : Prop :=
  ∃ found cubes columns, (blocks r).1 = .ok found ∧ (chunkCubes r).1 = .ok cubes ∧
    (chunks r).1 = .ok columns ∧
    found.Pairwise (fun a b => a.toList < b.toList) ∧ (∀ b, b ∈ found ↔ inside b) ∧
    (∀ c, c ∈ cubes ↔ ∃ b, inside b ∧ c = b.map fun n : Int => ⌊(n : ℚ) / 16⌋) ∧
    ∀ c ∈ columns, ∃ y, ⟨c.1, y, c.2⟩ ∈ cubes

/-! ### Visits -/

section Visits

variable {r : ρ} {inside : Block → Prop}

/-- Whether a visit tests some blocks: of these it puts in front of what has been found,
in reverse order, just those that are inside. -/
def Finds (r : ρ) (inside : Block → Prop)
    (visit : ρ × List Block → Except Fault (ρ × List Block)) (bs : List Block) : Prop :=
  ∀ s found, Tested r s → ∃ (s' : ρ) (new : List Block),
    visit (s, found) = .ok (s', new.reverse ++ found) ∧ Tested r s' ∧ new.Sublist bs ∧
      ∀ b, b ∈ new ↔ b ∈ bs ∧ inside b

theorem Decides.finds_test (hdecides : Decides r inside) (b : Block) :
    Finds r inside (test b) [b] := by
  intro s found hs
  obtain ⟨answer, s', htest, hiff⟩ := hdecides s hs b
  have hvisit : test b (s, found) = .ok (s', if answer then b :: found else found) := by
    simp only [test, htest]
    rfl
  cases answer with
  | true =>
      have hb : inside b := hiff.1 rfl
      refine ⟨s', [b], hvisit, hs.test htest, List.Sublist.refl _, fun c => ?_⟩
      rw [List.mem_singleton]
      exact ⟨fun hc => ⟨hc, hc ▸ hb⟩, fun hc => hc.1⟩
  | false =>
      have hb : ¬inside b := fun hb => Bool.false_ne_true (hiff.2 hb)
      refine ⟨s', [], hvisit, hs.test htest, List.nil_sublist _, fun c => ?_⟩
      rw [List.mem_singleton]
      exact ⟨fun hc => absurd hc List.not_mem_nil, fun hc => absurd (hc.1 ▸ hc.2) hb⟩

/-- Visits for several whole numbers test the blocks of each of them. -/
theorem Finds.foldlM {visit : Int → ρ × List Block → Except Fault (ρ × List Block)}
    {blocksOf : Int → List Block} (hvisit : ∀ n, Finds r inside (visit n) (blocksOf n))
    (ns : List Int) :
    Finds r inside (fun state => ns.foldlM (fun state n => visit n state) state)
      (ns.flatMap blocksOf) := by
  induction ns with
  | nil =>
      intro s found hs
      exact ⟨s, [], rfl, hs, List.Sublist.refl _, by simp⟩
  | cons n ns ih =>
      intro s found hs
      obtain ⟨s₁, new₁, hfirst, hs₁, hsub₁, hmem₁⟩ := hvisit n s found hs
      obtain ⟨s₂, new₂, hrest, hs₂, hsub₂, hmem₂⟩ := ih s₁ (new₁.reverse ++ found) hs₁
      refine ⟨s₂, new₁ ++ new₂, ?_, hs₂, ?_, fun b => ?_⟩
      · simp only [List.foldlM_cons, hfirst, List.reverse_append, List.append_assoc]
        exact hrest
      · rw [List.flatMap_cons]
        exact hsub₁.append hsub₂
      · rw [List.mem_append, hmem₁, hmem₂, List.flatMap_cons, List.mem_append,
          or_and_right]

theorem Finds.visitAxis {visit : Int → ρ × List Block → Except Fault (ρ × List Block)}
    {blocksOf : Int → List Block} (hvisit : ∀ n, Finds r inside (visit n) (blocksOf n))
    {b : Bounds} {axis : Nat} {low high : Int}
    (hlow : Bounds.endAt b.lower axis = .ok low)
    (hhigh : Bounds.endAt b.upper axis = .ok high) :
    Finds r inside (b.visitAxis axis visit)
      ((wholeRange low high).flatMap blocksOf) := by
  have hfold : b.visitAxis axis visit = fun state =>
      (wholeRange low high).foldlM (fun state n => visit n state) state := by
    funext state
    rw [Bounds.visitAxis, hlow, hhigh, ← visitRange_eq_foldlM]
    rfl
  rw [hfold]
  exact Finds.foldlM hvisit _

end Visits

end Bounded

/-! ### Ranges of blocks -/

def blockRange (low high : Block) : List Block :=
  (wholeRange low.x high.x).flatMap fun x =>
    (wholeRange low.y high.y).flatMap fun y =>
      (wholeRange low.z high.z).flatMap fun z => [⟨x, y, z⟩]

def layerRange (low high : Block) (y : Int) : List Block :=
  (wholeRange low.x high.x).flatMap fun x =>
    (wholeRange low.z high.z).flatMap fun z => [⟨x, y, z⟩]

theorem mem_blockRange {low high b : Block} :
    b ∈ blockRange low high ↔
      (low.x ≤ b.x ∧ b.x ≤ high.x) ∧ (low.y ≤ b.y ∧ b.y ≤ high.y) ∧
      (low.z ≤ b.z ∧ b.z ≤ high.z) := by
  simp only [blockRange, List.mem_flatMap, mem_wholeRange, List.mem_singleton]
  constructor
  · rintro ⟨x, hx, y, hy, z, hz, rfl⟩
    exact ⟨hx, hy, hz⟩
  · rintro ⟨hx, hy, hz⟩
    exact ⟨b.x, hx, b.y, hy, b.z, hz, rfl⟩

theorem pairwise_wholeRange (low high : Int) :
    (wholeRange low high).Pairwise (· < ·) := by
  rw [wholeRange, List.pairwise_map]
  exact List.pairwise_lt_range.imp fun hlt => by omega

/-- A block range is in lexicographic order: the first coordinates decide,
and then the others. -/
theorem pairwise_blockRange (low high : Block) :
    (blockRange low high).Pairwise fun a b => a.toList < b.toList := by
  have hlt :
      ∀ {a b : Block}, (a.x < b.x ∨ a.x = b.x ∧ (a.y < b.y ∨ a.y = b.y ∧ a.z < b.z)) →
      a.toList < b.toList := by
    intro a b h
    simpa [Vec3.toList, List.cons_lt_cons_iff] using h
  rw [blockRange, List.pairwise_flatMap]
  refine ⟨fun x _ => ?_, (pairwise_wholeRange _ _).imp fun {x x'} hx => ?_⟩
  · rw [List.pairwise_flatMap]
    refine ⟨fun y _ => ?_, (pairwise_wholeRange _ _).imp fun {y y'} hy => ?_⟩
    · rw [List.pairwise_flatMap]
      refine ⟨fun z _ => List.pairwise_singleton _ _, (pairwise_wholeRange _ _).imp ?_⟩
      intro z z' hz a ha b hb
      rw [List.mem_singleton] at ha hb
      rw [ha, hb]
      exact hlt (Or.inr ⟨rfl, Or.inr ⟨rfl, hz⟩⟩)
    · intro a ha b hb
      simp only [List.mem_flatMap, List.mem_singleton] at ha hb
      obtain ⟨z, -, rfl⟩ := ha
      obtain ⟨z', -, rfl⟩ := hb
      exact hlt (Or.inr ⟨rfl, Or.inl hy⟩)
  · intro a ha b hb
    simp only [List.mem_flatMap, List.mem_singleton] at ha hb
    obtain ⟨y, -, z, -, rfl⟩ := ha
    obtain ⟨y', -, z', -, rfl⟩ := hb
    exact hlt (Or.inl hx)

/-! ### What the lists are made of -/

/-- A chunk cube is found by dividing and rounding down. -/
theorem Block.chunkCube_eq (b : Block) :
    b.chunkCube = b.map fun n : Int => ⌊(n : ℚ) / 16⌋ := by
  have hfloor : ∀ n : Int, n / chunkSize = ⌊(n : ℚ) / 16⌋ := fun n =>
    (Rat.floor_intCast_div_natCast n 16).symm
  exact Vec3.ext (hfloor b.x) (hfloor b.y) (hfloor b.z)

namespace Bounded

variable {ρ : Type} [Bounded ρ] {r : ρ} {inside : Block → Prop}

theorem Finds.collect {visit : ρ × List Block → Except Fault (ρ × List Block)}
    {bs : List Block} (hvisit : Finds r inside visit bs) :
    ∃ found, (collect r visit).1 = .ok found ∧ found.Sublist bs ∧
      ∀ b, b ∈ found ↔ b ∈ bs ∧ inside b := by
  obtain ⟨s, new, heq, -, hsub, hmem⟩ := hvisit r [] .start
  rw [List.append_nil] at heq
  refine ⟨new, ?_, hsub, hmem⟩
  rw [Bounded.collect, heq]
  simp only [List.reverse_reverse]

theorem bounds_of_isCorner {t u : Table} {p q : Vec3 ℚ} (hlower : lower r = some t)
    (hupper : upper r = some u) (ht : t.IsCorner p) (hu : u.IsCorner q) :
    bounds r = .ok
      { lower := (p.map truncated).toList, upper := (q.map truncated).toList } := by
  rw [bounds, hlower, hupper]
  simp only [ht.toWholes_eq, hu.toWholes_eq]
  rfl

/-- No lattice point between two corners is lost when these are cut off. -/
theorem mem_blockRange_of_within {b : Block} {p q : Vec3 ℚ} (hb : b.Within p q) :
    b ∈ blockRange (p.map truncated) (q.map truncated) := by
  obtain ⟨⟨hx, hx'⟩, ⟨hy, hy'⟩, hz, hz'⟩ := hb
  exact mem_blockRange.2 ⟨⟨truncated_le hx, le_truncated hx'⟩,
    ⟨truncated_le hy, le_truncated hy'⟩, ⟨truncated_le hz, le_truncated hz'⟩⟩

theorem Decides.finds_visitBlocks (hdecides : Decides r inside) (low high : Block) :
    Finds r inside
      (Bounds.visitBlocks { lower := low.toList, upper := high.toList } test)
      (blockRange low high) := by
  refine Finds.visitAxis (fun x => ?_) rfl rfl
  refine Finds.visitAxis (fun y => ?_) rfl rfl
  refine Finds.visitAxis (fun z => ?_) rfl rfl
  exact hdecides.finds_test ⟨x, y, z⟩

theorem Decides.finds_visitLayer (hdecides : Decides r inside) (low high : Block)
    (y : Int) :
    Finds r inside
      (Bounds.visitLayer { lower := low.toList, upper := high.toList } y test)
      (layerRange low high y) := by
  refine Finds.visitAxis (fun x => ?_) rfl rfl
  refine Finds.visitAxis (fun z => ?_) rfl rfl
  exact hdecides.finds_test ⟨x, y, z⟩

theorem exists_chunkCubes {found : List Block} (hblocks : (blocks r).1 = .ok found) :
    ∃ cubes, (chunkCubes r).1 = .ok cubes ∧ ∀ c, c ∈ cubes ↔
      ∃ b ∈ found, b.chunkCube = c := by
  have hcubes : (chunkCubes r).1 = (blocks r).1.map fun found => Ascending.ofList
      (fun c d : Block => Ascending.rowBefore c.toList d.toList)
        (found.map Block.chunkCube) := rfl
  rw [hblocks] at hcubes
  refine ⟨_, hcubes, fun c => ?_⟩
  rw [Ascending.mem_ofList, List.mem_map]
  intro c d hcd hdc
  have hrows := Ascending.eq_of_not_rowBefore hcd hdc
  simp only [Vec3.toList, List.cons.injEq, and_true] at hrows
  exact Vec3.ext hrows.1 hrows.2.1 hrows.2.2

theorem exists_chunks {b : Bounds} {y : Int} {found : List Block}
    (hbounds : bounds r = .ok b) (hlow : Bounds.endAt b.lower 1 = .ok y)
    (hlayer : (collect r (b.visitLayer y test)).1 = .ok found) :
    ∃ columns, (chunks r).1 = .ok columns ∧ ∀ c, c ∈ columns ↔
      ∃ b ∈ found, b.chunk = c := by
  have hcolumns : (chunks r).1 = (collect r (b.visitLayer y test)).1.map fun found =>
      Ascending.ofList (fun c d : Int × Int => Ascending.rowBefore [c.1, c.2] [d.1, d.2])
        (found.map Block.chunk) := by
    rw [chunks, hbounds]
    simp only [bind, Except.bind, hlow]
  rw [hlayer] at hcolumns
  refine ⟨_, hcolumns, fun c => ?_⟩
  rw [Ascending.mem_ofList, List.mem_map]
  intro c d hcd hdc
  have hrows := Ascending.eq_of_not_rowBefore hcd hdc
  simp only [List.cons.injEq, and_true] at hrows
  exact Prod.ext hrows.1 hrows.2

/-- If the blocks of a region all lie between its corners, none of them is missed
and none is found twice. -/
theorem Decides.enumerates (hdecides : Decides r inside)
    (henclosed : Enclosed r inside) :
    Enumerates r inside := by
  obtain ⟨t, u, p, q, hlower, hupper, ht, hu, hwithin⟩ := henclosed
  have hbounds := bounds_of_isCorner hlower hupper ht hu
  obtain ⟨found, hfound, hsub, hmem⟩ :=
    (hdecides.finds_visitBlocks (p.map truncated) (q.map truncated)).collect
  obtain ⟨low, hlow, -, hmemlow⟩ :=
    (hdecides.finds_visitLayer (p.map truncated) (q.map truncated)
      (truncated p.y)).collect
  have hblocks : (blocks r).1 = .ok found := by
    rw [blocks, hbounds]
    exact hfound
  have hinside : ∀ b, b ∈ found ↔ inside b := fun b =>
    (hmem b).trans (and_iff_right_of_imp fun hb =>
      mem_blockRange_of_within (hwithin b hb))
  obtain ⟨cubes, hcubes, hmemcubes⟩ := exists_chunkCubes hblocks
  obtain ⟨columns, hcolumns, hmemcolumns⟩ := exists_chunks hbounds rfl hlow
  refine ⟨found, cubes, columns, hblocks, hcubes, hcolumns,
    (pairwise_blockRange _ _).sublist hsub, hinside, fun c => ?_, fun c hc => ?_⟩
  · simp only [hmemcubes, hinside, Block.chunkCube_eq, eq_comm]
  · obtain ⟨b, hb, rfl⟩ := (hmemcolumns c).1 hc
    exact ⟨b.chunkCube.y, (hmemcubes _).2 ⟨b, (hinside b).2 ((hmemlow b).1 hb).2, rfl⟩⟩

/-- Without a bounding box there is nothing to be visited. -/
theorem nothing_of_cornerless (hcorner : lower r = none ∨ upper r = none) :
    (blocks r).1 = .ok [] ∧ (chunkCubes r).1 = .ok [] ∧ (chunks r).1 = .ok [] := by
  have hbounds : bounds r = .ok Bounds.vacant := by
    rw [bounds]
    rcases hcorner with hnone | hnone
    · rw [hnone]
    · rw [hnone]
      cases lower r <;> rfl
  have hblocks : blocks r = (.ok [], r) := by
    rw [blocks, hbounds]
    rfl
  refine ⟨congrArg Prod.fst hblocks, ?_, ?_⟩
  · rw [chunkCubes, hblocks]
    rfl
  · rw [chunks, hbounds]
    rfl

end Bounded
end LatticeHull
