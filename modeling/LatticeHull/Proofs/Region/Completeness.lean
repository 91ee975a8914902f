import LatticeHull.Number
import LatticeHull.Proofs.Binary.Value
import LatticeHull.Proofs.Hull.Ledger
import LatticeHull.Proofs.Hull.Memory
import LatticeHull.Proofs.Region.Enumeration
import LatticeHull.Region.Bounded

/-!
# Enumerations are complete

The blocks of a region that all lie between its corners are found, each of them once,
whatever its tests remember.  Hulls and boxes are such regions: if their corners are
below `2 ^ 53`, no point is inside that is not between them.

A corner below `2 ^ 53` compares as it should with lattice points of any size, in
whatever formats the two tables are.  Where the format is that of machine numbers the
coordinates of the point are rounded, but that does not carry them across the corner.
-/

namespace LatticeHull
namespace Number

/-!
## Comparisons of numbers are exact

Whole numbers of any size and machine numbers are compared as what they stand
for, however large the whole numbers are.  Only a machine number that is
undefined is not comparable.
-/

def IsDefined : Number → Prop
  | whole _ => True
  | binary x => x.isNaN = false

noncomputable def place : Number → EReal
  | whole n => ((n : ℝ) : EReal)
  | binary x => Binary.place x

theorem pos_iff_of_infinite {x : Float} (hinfinite : x.isInf = true) :
    0.0 < x ↔ Binary.isNegative x = false := by
  have hzero : (0.0 : Float).toModel.unpack = .zero .positive := rfl
  have hless := Binary.less_eq 0.0 x
  rw [hzero, Binary.unpack_of_infinite hinfinite, Binary.signBit] at hless
  have hlt : 0.0 < x ↔ Scalar.less 0.0 x = true := decide_eq_true_iff.symm
  rw [hlt, hless]
  cases Binary.isNegative x <;> decide

theorem wholeAtMost_iff (n : Int) {x : Float} (hx : x.isNaN = false) :
    wholeAtMost n x = true ↔ ((n : ℝ) : EReal) ≤ Binary.place x := by
  rw [wholeAtMost]
  cases hinfinite : x.isInf with
  | false =>
      have hfinite := Binary.isFinite_iff.2 ⟨hx, hinfinite⟩
      rw [if_pos hfinite, decide_eq_true_iff, Binary.floor_eq, Int.le_floor,
        Binary.place_of_finite hfinite, EReal.coe_le_coe_iff]
      exact_mod_cast Iff.rfl
  | true =>
      have hfinite : ¬x.isFinite = true := by
        rw [Binary.isFinite_iff, hinfinite]
        simp
      rw [if_neg hfinite, decide_eq_true_iff, pos_iff_of_infinite hinfinite,
        Binary.place_of_infinite hinfinite]
      cases Binary.isNegative x <;> simp

theorem atMost_iff_place_le {a b : Number} (ha : a.IsDefined) (hb : b.IsDefined) :
    a.atMost b = true ↔ a.place ≤ b.place := by
  cases a with
  | whole m =>
      cases b with
      | whole n => simp [atMost, place]
      | binary y => exact wholeAtMost_iff m hb
  | binary x =>
      cases b with
      | whole n =>
          rw [atMost, wholeAtMost_iff _ (Binary.isNaN_neg ha), Binary.place_neg ha,
            Int.cast_neg, EReal.coe_neg, EReal.neg_le_neg_iff]
          exact Iff.rfl
      | binary y =>
          rw [atMost, decide_eq_true_iff]
          exact Binary.le_iff_place_le ha hb

end Number

/-! ## Tables and boxes -/

/-- Whether every coordinate is below `2 ^ 53` in absolute value. -/
def Vec3.Moderate (p : Vec3 ℚ) : Prop :=
  |p.x| < 2 ^ 53 ∧ |p.y| < 2 ^ 53 ∧ |p.z| < 2 ^ 53

namespace Format

/-- An entry as it is compared in a format. -/
def compared (format : Format) (d : Datum) : Datum :=
  if format = .binary then rounded d else d

theorem join_ne_text {f g : Format} (hf : f ≠ text) (hg : g ≠ text) :
    f.join g ≠ text := by
  cases f <;> cases g <;> first | exact absurd rfl hf | exact absurd rfl hg | decide

/-- Whole numbers are not put among texts. -/
theorem ofEntries_whole_ne_text (ns : List Int) : ofEntries (ns.map .whole) ≠ text := by
  have hentry : ∀ n : Int, ofEntry (.whole n) ≠ text := by
    intro n
    rw [ofEntry]
    split
    · decide
    · split <;> decide
  have hfold : ∀ f : Format, f ≠ text →
      (ns.map Datum.whole).foldl (fun f d => f.join (ofEntry d)) f ≠ text := by
    induction ns with
    | nil => exact fun f hf => hf
    | cons n ns ih => exact fun f hf => ih _ (join_ne_text hf (hentry n))
  cases ns with
  | nil => decide
  | cons n ns => exact hfold truth (by decide)

end Format

/-! ### Entries -/

/-- Whether a datum is a whole number, or the machine number that it is rounded to. -/
def Datum.Rounds (d : Datum) (n : Int) : Prop :=
  d = .whole n ∨ d = .binary (Float.ofInt n)

theorem Table.rounds_enter_whole {format : Format} (hformat : format ≠ .text) (n : Int) :
    (format.enter (.whole n)).Rounds n := by
  cases format with
  | text => exact absurd rfl hformat
  | binary => exact Or.inr rfl
  | truth | word | unsigned | mixed => exact Or.inl rfl

theorem Datum.Rounds.compared {d : Datum} {n : Int} (hd : d.Rounds n) (format : Format) :
    (format.compared d).Rounds n := by
  rw [Format.compared]
  split
  · rcases hd with rfl | rfl <;> exact Or.inr rfl
  · exact hd

/-- Fractions below `2 ^ 53` that are whole are rounded to themselves. -/
theorem Datum.Denotes.compared {d : Datum} {v : ℚ} (hd : d.Denotes v) (hv : |v| < 2 ^ 53)
    (format : Format) : (format.compared d).Denotes v := by
  have hwhole : ∀ n : Int, n.natAbs < 2 ^ 53 →
      (Datum.binary (Float.ofInt n)).Denotes n :=
    fun n hn => ⟨Binary.isFinite_ofInt hn, (Binary.toRat_ofInt hn).symm⟩
  rw [Format.compared]
  split
  · cases d with
    | truth b =>
        obtain rfl : v = if b then 1 else 0 := hd
        have hone : (1.0 : Float) = Float.ofInt 1 := Float.toBits_inj.1 (by decide)
        have hzero : (0.0 : Float) = Float.ofInt 0 := Float.toBits_inj.1 (by decide)
        cases b with
        | true => simpa [Format.rounded, hone] using hwhole 1 (by decide)
        | false => simpa [Format.rounded, hzero] using hwhole 0 (by decide)
    | whole n =>
        obtain rfl : v = n := hd
        have hn : n.natAbs < 2 ^ 53 := by
          rw [← Int.cast_abs, Int.abs_eq_natAbs] at hv
          exact_mod_cast hv
        exact hwhole n hn
    | binary x => exact hd
    | null | text s | list items | record fields => exact hd.elim
  · exact hd

/-- A number that stands for a fraction has the place of that fraction. -/
theorem Datum.Denotes.exists_number {d : Datum} {v : ℚ} (hd : d.Denotes v) :
    ∃ a, d.toNumber = .ok a ∧ a.IsDefined ∧ a.place = ((v : ℝ) : EReal) := by
  cases d with
  | truth b =>
      obtain rfl : v = if b then 1 else 0 := hd
      refine ⟨.whole (if b then 1 else 0), rfl, trivial, ?_⟩
      cases b <;> simp [Number.place]
  | whole n =>
      obtain rfl : v = n := hd
      exact ⟨.whole n, rfl, trivial, by simp [Number.place]⟩
  | binary x =>
      obtain ⟨hfinite, rfl⟩ := hd
      exact ⟨.binary x, rfl, (Binary.isFinite_iff.1 hfinite).1,
        Binary.place_of_finite hfinite⟩
  | null | text s | list items | record fields => exact hd.elim

/-- A whole number of any size lies on the same side of a fraction below `2 ^ 53`, also
after it has been rounded. -/
theorem Datum.Rounds.exists_number {d : Datum} {n : Int} (hd : d.Rounds n) :
    ∃ a, d.toNumber = .ok a ∧ a.IsDefined ∧ ∀ v : ℚ, |v| < 2 ^ 53 →
      (((v : ℝ) : EReal) ≤ a.place ↔ v ≤ n) ∧ (a.place ≤ ((v : ℝ) : EReal) ↔
        (n : ℚ) ≤ v) := by
  rcases hd with rfl | rfl
  · refine ⟨.whole n, rfl, trivial, fun v _ => ?_⟩
    rw [Number.place, EReal.coe_le_coe_iff, EReal.coe_le_coe_iff]
    constructor <;> exact_mod_cast Iff.rfl
  · exact ⟨.binary (Float.ofInt n), rfl, Binary.isNaN_ofInt n,
      fun v hv => Binary.place_ofInt_iff hv n⟩

/-- Entries that are not both texts are compared as numbers. -/
theorem Table.entryAtMost_eq (format : Format) {d e : Datum} {a b : Number}
    (hd : (format.compared d).toNumber = .ok a)
    (he : (format.compared e).toNumber = .ok b)
    (htext : (∀ s, d ≠ .text s) ∨ ∀ s, e ≠ .text s) :
    entryAtMost format d e = .ok (a.atMost b) := by
  have hnumbers : entryAtMost format d e = do
      return (← (format.compared d).toNumber).atMost
          (← (format.compared e).toNumber) := by
    unfold entryAtMost
    split
    · rename_i r s
      exact htext.elim (fun h => absurd rfl (h r)) (fun h => absurd rfl (h s))
    · rfl
  rw [hnumbers, hd, he]
  rfl

/-- A corner compares with a lattice point as the fraction that it stands for. -/
theorem Table.entryAtMost_iff {d e : Datum} {v : ℚ} {n : Int} (format : Format)
    (hd : d.Denotes v) (hv : |v| < 2 ^ 53) (he : e.Rounds n) :
    (∃ answer, entryAtMost format d e = .ok answer ∧ (answer = true ↔ v ≤ n)) ∧
      ∃ answer, entryAtMost format e d = .ok answer ∧ (answer = true ↔ (n : ℚ) ≤ v) := by
  obtain ⟨a, hread, ha, hplace⟩ := (hd.compared hv format).exists_number
  obtain ⟨b, hread', hb, hside⟩ := (he.compared format).exists_number
  obtain ⟨hbelow, habove⟩ := hside v hv
  have htext : ∀ s, e ≠ .text s := by
    rintro s rfl
    rcases he with he | he <;> cases he
  refine ⟨⟨_, entryAtMost_eq format hread hread' (Or.inr htext), ?_⟩,
    ⟨_, entryAtMost_eq format hread' hread (Or.inl htext), ?_⟩⟩
  · rw [Number.atMost_iff_place_le ha hb, hplace, hbelow]
  · rw [Number.atMost_iff_place_le hb ha, hplace, habove]

namespace Table

/-- Rows of three entries are compared entry by entry. -/
theorem atMost_of_rows {t u : Table} (htext : t.format.join u.format ≠ .text)
    (ht : t.shape = [3]) (hu : u.shape = [3]) {a b c a' b' c' : Datum} {x y z : Bool}
    (hts : t.entries = [a, b, c]) (hus : u.entries = [a', b', c'])
    (hx : entryAtMost (t.comparedIn u) a a' = .ok x)
    (hy : entryAtMost (t.comparedIn u) b b' = .ok y)
    (hz : entryAtMost (t.comparedIn u) c c' = .ok z) :
    t.atMost u = .ok (x && y && z) := by
  have hzip : zip (entryAtMost (t.comparedIn u)) t u = .ok ([3], [x, y, z]) := by
    have hcommon : Shape.common? [3] [3] = some [3] := rfl
    have hstretch : ∀ d e f : Datum, Shape.stretch [3] [3] [d, e, f] = [d, e, f] :=
      fun _ _ _ => rfl
    rw [zip, ht, hu, hts, hus, hcommon]
    simp only [hstretch, List.zip_cons_cons, List.zip_nil_right, List.mapM_cons,
      List.mapM_nil, hx, hy, hz]
    rfl
  rw [atMost, if_neg (fun h => htext h.1), hzip]
  simp only [bind, Except.bind, List.all_cons, List.all_nil, id, Bool.and_true,
    Bool.and_assoc]
  rfl

/-- A row of three whole numbers keeps them, though some may be rounded. -/
theorem ofWholes_entries (b : Block) :
    (ofWholes b.toList).shape = [3] ∧ (ofWholes b.toList).format ≠ .text ∧
      ∃ d e f, (ofWholes b.toList).entries = [d, e, f] ∧ d.Rounds b.x ∧ e.Rounds b.y ∧
        f.Rounds b.z := by
  have hformat := Format.ofEntries_whole_ne_text b.toList
  exact ⟨rfl, hformat, _, _, _, rfl, rounds_enter_whole hformat b.x,
    rounds_enter_whole hformat b.y, rounds_enter_whole hformat b.z⟩

/-- A corner is compared with a lattice point as the point that it stands for. -/
theorem IsCorner.atMost_iff {t : Table} {p : Vec3 ℚ} (ht : t.IsCorner p)
    (hp : p.Moderate) (hformat : t.format ≠ .text) (b : Block) :
    (∃ answer, t.atMost (ofWholes b.toList) = .ok answer ∧
        (answer = true ↔ p.x ≤ b.x ∧ p.y ≤ b.y ∧ p.z ≤ b.z)) ∧
      ∃ answer, (ofWholes b.toList).atMost t = .ok answer ∧
        (answer = true ↔ (b.x : ℚ) ≤ p.x ∧ (b.y : ℚ) ≤ p.y ∧ (b.z : ℚ) ≤ p.z) := by
  obtain ⟨hshape, a, c, e, hentries, ha, hc, he⟩ := ht
  obtain ⟨hshape', hformat', a', c', e', hentries', ha', hc', he'⟩ := ofWholes_entries b
  obtain ⟨hpx, hpy, hpz⟩ := hp
  constructor
  · obtain ⟨x, hx, hx'⟩ :=
      (entryAtMost_iff (t.comparedIn (ofWholes b.toList)) ha hpx ha').1
    obtain ⟨y, hy, hy'⟩ :=
      (entryAtMost_iff (t.comparedIn (ofWholes b.toList)) hc hpy hc').1
    obtain ⟨z, hz, hz'⟩ :=
      (entryAtMost_iff (t.comparedIn (ofWholes b.toList)) he hpz he').1
    refine ⟨_, atMost_of_rows (Format.join_ne_text hformat hformat') hshape
      hshape' hentries
      hentries' hx hy hz, ?_⟩
    rw [Bool.and_eq_true, Bool.and_eq_true, hx', hy', hz', and_assoc]
  · obtain ⟨x, hx, hx'⟩ :=
      (entryAtMost_iff ((ofWholes b.toList).comparedIn t) ha hpx ha').2
    obtain ⟨y, hy, hy'⟩ :=
      (entryAtMost_iff ((ofWholes b.toList).comparedIn t) hc hpy hc').2
    obtain ⟨z, hz, hz'⟩ :=
      (entryAtMost_iff ((ofWholes b.toList).comparedIn t) he hpz he').2
    refine ⟨_, atMost_of_rows (Format.join_ne_text hformat' hformat) hshape'
      hshape hentries'
      hentries hx hy hz, ?_⟩
    rw [Bool.and_eq_true, Bool.and_eq_true, hx', hy', hz', and_assoc]

end Table

/-! ### Boxes -/

namespace Box

variable {b : Box} {t u : Table} {p q : Vec3 ℚ}

def Admits (b : Box) (v : Block) : Prop :=
  b.contains v.toDatum = .ok true

theorem contains_toDatum (b : Box) (v : Block) :
    b.contains v.toDatum = b.containsTable (.ofWholes v.toList) :=
  rfl

/-- Whether a box has two corners that are rows of numbers below `2 ^ 53`,
whole or not. -/
def ModerateCorners (b : Box) : Prop :=
  ∃ t u p q, b.lower = some (.table t) ∧ b.upper = some (.table u) ∧ t.IsCorner p ∧
    u.IsCorner q ∧
    p.Moderate ∧ q.Moderate ∧ t.format ≠ .text ∧ u.format ≠ .text

/-- A box with moderate corners holds the lattice points between them. -/
theorem containsTable_iff (hlower : b.lower = some (.table t))
    (hupper : b.upper = some (.table u)) (ht : t.IsCorner p) (hu : u.IsCorner q)
    (hp : p.Moderate) (hq : q.Moderate) (htext : t.format ≠ .text)
    (htext' : u.format ≠ .text) (v : Block) :
    ∃ answer, b.containsTable (.ofWholes v.toList) = .ok answer ∧
      (answer = true ↔ v.Within p q) := by
  obtain ⟨⟨above, habove, habove'⟩, -⟩ := ht.atMost_iff hp htext v
  obtain ⟨-, below, hbelow, hbelow'⟩ := hu.atMost_iff hq htext' v
  have hfirst : (operand b.lower).atMost (.table (.ofWholes v.toList)) = .ok above := by
    rw [hlower]
    exact habove
  have hsecond :
      Operand.atMost (.table (.ofWholes v.toList)) (operand b.upper) = .ok below := by
    rw [hupper]
    exact hbelow
  refine ⟨above && below, ?_, ?_⟩
  · rw [containsTable, hfirst, hsecond]
    cases above <;> rfl
  · rw [Bool.and_eq_true, habove', hbelow', Block.Within]
    tauto

theorem eq_of_tested {s : Box} (hs : Bounded.Tested b s) : s = b := by
  induction hs with
  | start => rfl
  | @test s s' v answer _ htest ih =>
      have hholds :
          Bounded.holds s v = (s.containsTable (.ofWholes v.toList)).map (·, s) := rfl
      rw [hholds] at htest
      cases hanswer : s.containsTable (.ofWholes v.toList) with
      | error fault =>
          rw [hanswer] at htest
          cases htest
      | ok a =>
          rw [hanswer] at htest
          cases htest
          exact ih

/-- The tests of a box with moderate corners tell what is inside, and that
lies between the corners. -/
theorem ModerateCorners.decides_enclosed (hb : b.ModerateCorners) :
    Bounded.Decides b b.Admits ∧ Bounded.Enclosed b b.Admits := by
  obtain ⟨t, u, p, q, hlower, hupper, ht, hu, hp, hq, htext, htext'⟩ := hb
  have hanswer := containsTable_iff hlower hupper ht hu hp hq htext htext'
  constructor
  · intro s hs v
    obtain rfl := eq_of_tested hs
    obtain ⟨answer, hcontains, -⟩ := hanswer v
    have hholds :
        Bounded.holds s v = (s.containsTable (.ofWholes v.toList)).map (·, s) := rfl
    refine ⟨answer, s, ?_, ?_⟩
    · rw [hholds, hcontains]
      rfl
    · rw [Admits, contains_toDatum, hcontains, Except.ok.injEq]
  · refine ⟨t, u, p, q, ?_, ?_, ht, hu, fun v hv => ?_⟩
    · exact congrArg (Option.map Operand.toTable) hlower
    · exact congrArg (Option.map Operand.toTable) hupper
    · obtain ⟨answer, hcontains, hiff⟩ := hanswer v
      rw [Admits, contains_toDatum, hcontains, Except.ok.injEq] at hv
      exact hiff.1 hv

end Box

/-! ## Points between corners -/

theorem Table.isCorner_ofWholes {b : Block} (hb : b.Representable) :
    (Table.ofWholes b.toList).IsCorner (b.map Int.cast) := by
  have hdenotes : ∀ {d : Datum} {n : Int}, n.natAbs < 2 ^ 53 → d.Rounds n →
      d.Denotes n := by
    rintro d n hn (rfl | rfl)
    · rfl
    · exact ⟨Binary.isFinite_ofInt hn, (Binary.toRat_ofInt hn).symm⟩
  obtain ⟨hshape, -, d, e, f, hentries, hd, he, hf⟩ := Table.ofWholes_entries b
  exact ⟨hshape, d, e, f, hentries, hdenotes hb.1 hd, hdenotes hb.2.1 he,
    hdenotes hb.2.2 hf⟩

namespace Hull

/-! ### Hulls with moderate corners -/

/-- Whether both corners of the box, if there is one, are below `2 ^ 53`. -/
def ModerateBox (h : Hull Float) : Prop :=
  ∀ e, h.extent = some e → e.lower.toBlock.Representable ∧ e.upper.toBlock.Representable

def Admits (h : Hull Float) (b : Block) : Prop :=
  (h.contains b.toDatum).1 = .ok true

theorem Built.coherent {P : Block → Prop} {h : Hull Float} (hbuilt : Built P h) :
    h.Coherent := by
  refine (Built.induction (Q := Coherent) Coherent.empty ?_ ?_ hbuilt).1
  · intro h next sees v new hcoherent hadd _
    have hnext : (h.addBlock sees v).2.Coherent := hcoherent.addBlock v
    rwa [hadd] at hnext
  · intro h d c w hcoherent _ _ _ _
    exact hcoherent.moveBy w

theorem Built.mono {P Q : Block → Prop} (hPQ : ∀ v, P v → Q v) {h : Hull Float}
    (hbuilt : Built P h) : Built Q h := by
  induction hbuilt with
  | start => exact .start
  | add _ sees hadd hnext ih => exact .add ih sees hadd fun v hv => hPQ v (hnext v hv)
  | shift _ hshift hnext ih => exact .shift ih hshift fun v hv => hPQ v (hnext v hv)
  | clear _ ih => exact .clear ih
  | expand _ hexpand ih => exact .expand ih hexpand
  | contract _ hcontract ih => exact .contract ih hcontract

/-- If all vertices are below `2 ^ 53`, so are the corners of the box. -/
theorem Built.moderateBox {h : Hull Float} (hbuilt : Built Vec3.Representable h) :
    h.ModerateBox := by
  intro e he
  have hbooked := (hbuilt.mono fun v hv => hv.all_fitsWord).booked
  have hvertices :=
    (Built.induction (Q := fun _ => True) trivial (fun _ _ _ _ _ _ _ _ => trivial)
      (fun _ _ _ _ _ _ _ _ _ => trivial) hbuilt).2
  have hsmall : ∀ v ∈ {v | v ∈ h.accepted}, v.Representable :=
    fun v hv => hvertices v (List.mem_append_left _ hv)
  obtain ⟨⟨⟨⟨u₁, hu₁, hx₁⟩, -⟩, ⟨v₁, hv₁, hx₂⟩, -⟩,
    ⟨⟨⟨u₂, hu₂, hy₁⟩, -⟩, ⟨v₂, hv₂, hy₂⟩, -⟩,
    ⟨⟨u₃, hu₃, hz₁⟩, -⟩, ⟨v₃, hv₃, hz₂⟩, -⟩ := hbooked.boxed.bounds he
  simp only [Vec3.Representable, Words.toBlock, Vec3.map, ← hx₁, ← hx₂, ← hy₁, ← hy₂,
    ← hz₁, ← hz₂]
  exact ⟨⟨(hsmall u₁ hu₁).1, (hsmall u₂ hu₂).2.1, (hsmall u₃ hu₃).2.2⟩,
    ⟨(hsmall v₁ hv₁).1, (hsmall v₂ hv₂).2.1, (hsmall v₃ hv₃).2.2⟩⟩

variable {h : Hull Float}

theorem eq_of_tested {s : Hull Float} (hs : Bounded.Tested h s) :
    s.faces = h.faces ∧ s.extent = h.extent := by
  induction hs with
  | start => exact ⟨rfl, rfl⟩
  | @test s s' b _ _ htest ih =>
      obtain ⟨last, hlast⟩ := containsPoint_eq Triangle.above s (Vec3.ofBlock b)
      have hholds :
          Except.ok (s.containsPoint Triangle.above (Vec3.ofBlock b)) = .ok (_, s') :=
        htest
      rw [Except.ok.injEq] at hholds
      rw [hholds] at hlast
      obtain rfl : s' = { s with last := last } := hlast
      exact ih

theorem ModerateBox.covers (hbox : h.ModerateBox) {e : Extent} (he : h.extent = some e)
    {b : Block} (hin : e.excludes (Vec3.ofBlock b : Point) = false) : e.Covers b := by
  obtain ⟨⟨hlx, hly, hlz⟩, hux, huy, huz⟩ := hbox e he
  have hexact : e.excludes (Vec3.ofBlock b : Point) = e.excludes b :=
    congrArg₂ or (congrArg₂ or (Extent.outside_ofInt b.x hlx hux)
      (Extent.outside_ofInt b.y hly huy)) (Extent.outside_ofInt b.z hlz huz)
  rw [hexact] at hin
  exact (Extent.excludes_exact_iff e b).1 hin

/-- A lattice point that moderate corners do not exclude is finite. -/
theorem ModerateBox.isFinite (hbox : h.ModerateBox) {e : Extent} (he : h.extent = some e)
    {b : Block} (hin : e.excludes (Vec3.ofBlock b : Point) = false) :
    Point.isFinite (Vec3.ofBlock b) = true := by
  obtain ⟨⟨hlx, hly, hlz⟩, hux, huy, huz⟩ := hbox e he
  obtain ⟨hx, hy, hz⟩ := hbox.covers he hin
  simp only [Words.toBlock, Vec3.map, Int.cast_id] at hlx hly hlz hux huy huz hx hy hz
  exact Block.isFinite_ofBlock (by omega) (by omega) (by omega)

/-- A hull tells of every lattice point whether it is inside, too large ones included. -/
theorem admits_iff (hcoherent : h.Coherent) (hbox : h.ModerateBox) (b : Block) :
    h.Admits b ↔ (h.containsPoint Triangle.above (Vec3.ofBlock b)).1 = true := by
  rw [Admits, contains_eq_inspect, inspect, containsPoint_iff]
  by_cases hfaces : h.faces = []
  · simp [isDefined, hfaces]
  · have hdefined : h.isDefined = true := by simpa [isDefined] using hfaces
    obtain ⟨e, he⟩ := Option.ne_none_iff_exists'.1 (hcoherent.extent_ne hfaces)
    rw [hdefined, Block.pointOfDatum_toDatum]
    by_cases hfinite : Point.isFinite (Vec3.ofBlock b) = true
    · rw [if_pos hfinite]
      simp [bind, Except.bind, pure, Except.pure, hfinite, hfaces, he]
    · rw [if_neg hfinite]
      refine iff_of_false (fun hanswer => ?_) fun hin => hfinite ?_
      · cases hanswer
      rw [he, Option.any_some] at hin
      exact hbox.isFinite he hin.2.1

/-- The tests of a hull tell what is inside, and if it has a box, that
lies between its corners. -/
theorem decides_enclosed (hcoherent : h.Coherent) (hbox : h.ModerateBox) :
    Bounded.Decides h h.Admits ∧ (h.extent ≠ none → Bounded.Enclosed h h.Admits) := by
  constructor
  · intro s hs b
    obtain ⟨hfaces, hextent⟩ := eq_of_tested hs
    refine ⟨(s.containsBlock b).1, (s.containsBlock b).2, rfl, ?_⟩
    rw [admits_iff hcoherent hbox, containsPoint_iff, ← hfaces, ← hextent]
    exact containsPoint_iff
  · intro hextent
    obtain ⟨e, he⟩ := Option.ne_none_iff_exists'.1 hextent
    obtain ⟨hlower, hupper⟩ := hbox e he
    refine ⟨.ofWholes e.lower.toBlock.toList, .ofWholes e.upper.toBlock.toList,
      e.lower.toBlock.map Int.cast, e.upper.toBlock.map Int.cast, ?_, ?_, ?_, ?_,
      fun b hb => ?_⟩
    · exact congrArg (Option.map _) he
    · exact congrArg (Option.map _) he
    · exact Table.isCorner_ofWholes hlower
    · exact Table.isCorner_ofWholes hupper
    · rw [admits_iff hcoherent hbox, containsPoint_iff, he, Option.any_some] at hb
      exact (Extent.covers_map_iff (f := Int.castRingHom ℚ) Int.cast_strictMono).2
        (hbox.covers he hb.2.1)

/-- Without a box nothing is inside. -/
theorem not_admits_of_boxless (hcoherent : h.Coherent) (hextent : h.extent = none)
    (b : Block) :
    ¬h.Admits b := by
  have hbox : h.ModerateBox := fun e he =>
    absurd (hextent.symm.trans he) (Option.some_ne_none e).symm
  rw [admits_iff hcoherent hbox, containsPoint_iff]
  exact fun hin => hcoherent.extent_ne hin.1 hextent

end Hull

namespace Bounded

/-- Without a corner a region lists nothing, which is complete if nothing is inside. -/
theorem enumerates_of_cornerless {ρ : Type} [Bounded ρ] {r : ρ} {inside : Block → Prop}
    (hcorner : lower r = none ∨ upper r = none) (hinside : ∀ b, ¬inside b) :
    Enumerates r inside := by
  obtain ⟨hblocks, hcubes, hchunks⟩ := nothing_of_cornerless hcorner
  exact ⟨[], [], [], hblocks, hcubes, hchunks, .nil, by simp [hinside],
    by simp [hinside], by simp⟩

/-- A region whose tests tell what is inside, and whose corners enclose it, lists all of
it in lexicographic order; its chunk cubes are those of its blocks, and each of its
chunks has one of them.  Hulls and boxes with corners below `2 ^ 53` are such regions.  A
region with a corner missing lists nothing. -/
theorem enumeration_complete :
    (∀ (ρ : Type) [Bounded ρ] (r : ρ) (inside : Block → Prop),
      Decides r inside → Enclosed r inside → Enumerates r inside) ∧
    (∀ h : Hull Float, Hull.Built Vec3.Representable h ∨
        (∃ requests, h ∈ Hull.served requests) ∧ h.ModerateBox →
      Decides h h.Admits ∧ Enumerates h h.Admits ∧
        (h.extent ≠ none → Enclosed h h.Admits)) ∧
    (∀ b : Box, b.ModerateCorners →
      Decides b b.Admits ∧ Enumerates b b.Admits ∧ Enclosed b b.Admits) ∧
    ∀ (ρ : Type) [Bounded ρ] (r : ρ), lower r = none ∨ upper r = none →
      (blocks r).1 = .ok [] ∧ (chunkCubes r).1 = .ok [] ∧ (chunks r).1 = .ok [] := by
  refine ⟨fun ρ _ r inside hdecides henclosed => hdecides.enumerates henclosed, ?_, ?_,
    fun ρ _ r hcorner => nothing_of_cornerless hcorner⟩
  · intro h hreached
    have hcoherent : h.Coherent := by
      rcases hreached with hbuilt | ⟨⟨requests, hmem⟩, -⟩
      · exact hbuilt.coherent
      · exact Hull.coherent_served requests h hmem
    have hbox : h.ModerateBox := by
      rcases hreached with hbuilt | ⟨-, hbox⟩
      · exact hbuilt.moderateBox
      · exact hbox
    obtain ⟨hdecides, henclosed⟩ := Hull.decides_enclosed hcoherent hbox
    refine ⟨hdecides, ?_, henclosed⟩
    by_cases hextent : h.extent = none
    · exact enumerates_of_cornerless (Or.inl (congrArg (Option.map _) hextent))
        (Hull.not_admits_of_boxless hcoherent hextent)
    · exact hdecides.enumerates (henclosed hextent)
  · intro b hb
    obtain ⟨hdecides, henclosed⟩ := hb.decides_enclosed
    exact ⟨hdecides, hdecides.enumerates henclosed, henclosed⟩

/-- A box with fractional corners, which holds fewer blocks than are visited. -/
def ledge : Box where
  lower := some (.table
    { shape := [3], format := .binary,
      entries := [.binary (-1.5), .binary 0.0, .binary 0.25] })
  upper := some (.table
    { shape := [3], format := .binary,
      entries := [.binary 1.5, .binary 0.5, .binary 1.75] })

theorem enumeration_complete_ledge :
    ledge.ModerateCorners ∧ Decides ledge ledge.Admits ∧ Enclosed ledge ledge.Admits ∧
      Enumerates ledge ledge.Admits ∧
      (blocks ledge).1 = .ok [⟨-1, 0, 1⟩, ⟨0, 0, 1⟩, ⟨1, 0, 1⟩] ∧
      Hull.Built Vec3.Representable (Hull.empty.addBlocks Hull.kite).machine ∧
      (Hull.empty.addBlocks Hull.kite).machine.extent ≠ none ∧
      Enclosed (Hull.empty.addBlocks Hull.kite).machine
        (Hull.empty.addBlocks Hull.kite).machine.Admits ∧
      (blocks (Hull.empty : Hull Float)).1 = .ok [] := by
  obtain ⟨hgeneral, hhull, hbox, hcornerless⟩ := enumeration_complete
  have hmoderate : ∀ {x : Float}, (Binary.magnitude x).exponent ≤ 0 →
      |Binary.toRat x| < 2 ^ 53 := by
    intro x hexponent
    have hsize : (Binary.magnitude x).toRat < 2 ^ 53 := by
      rw [Binary.Magnitude.toRat_eq]
      calc ((Binary.magnitude x).significand : ℚ) * 2 ^ (Binary.magnitude x).exponent
          ≤ (Binary.magnitude x).significand * 1 := by
            gcongr
            exact zpow_le_one_of_nonpos₀ one_le_two hexponent
        _ < 2 ^ 53 := by
            rw [mul_one]
            exact_mod_cast Binary.significand_magnitude_lt x
    rw [Binary.toRat]
    split
    · rwa [abs_neg, abs_of_nonneg (Binary.Magnitude.toRat_nonneg _)]
    · rwa [abs_of_nonneg (Binary.Magnitude.toRat_nonneg _)]
  have hcorners : ledge.ModerateCorners :=
    ⟨_, _, ⟨Binary.toRat (-1.5), Binary.toRat 0.0, Binary.toRat 0.25⟩,
      ⟨Binary.toRat 1.5, Binary.toRat 0.5, Binary.toRat 1.75⟩, rfl, rfl,
      ⟨rfl, _, _, _, rfl, ⟨by decide, rfl⟩, ⟨by decide, rfl⟩, ⟨by decide, rfl⟩⟩,
      ⟨rfl, _, _, _, rfl, ⟨by decide, rfl⟩, ⟨by decide, rfl⟩, ⟨by decide, rfl⟩⟩,
      ⟨hmoderate (by decide), hmoderate (by decide), hmoderate (by decide)⟩,
      ⟨hmoderate (by decide), hmoderate (by decide), hmoderate (by decide)⟩,
      by decide, by decide⟩
  obtain ⟨hdecides, -, henclosed⟩ := hbox ledge hcorners
  have hbuilt : Hull.Built Vec3.Representable (Hull.empty.addBlocks Hull.kite).machine :=
    Hull.built_blocks (fun v hv => Vec3.representable_of_inRange hv) (by decide)
  have hextent : (Hull.empty.addBlocks Hull.kite).machine.extent ≠ none := by decide
  exact ⟨hcorners, hdecides, henclosed,
    hgeneral Box ledge ledge.Admits hdecides henclosed, rfl, hbuilt, hextent,
    (hhull _ (Or.inl hbuilt)).2.2 hextent,
    (hcornerless _ (Hull.empty : Hull Float) (Or.inl rfl)).1⟩

end Bounded
end LatticeHull
