import LatticeHull.Fingerprint
import LatticeHull.Mesh
import LatticeHull.Proofs.Binary.Nearest
import LatticeHull.Proofs.Binary.Value

/-!
# Equality of points and edges

Machine numbers are equal as numbers are, so a zero equals its opposite and an undefined
number equals nothing.  Equality of points and of edges inherits this: it is symmetric
and transitive, and reflexive where coordinates are finite.
-/

namespace LatticeHull

/-! ### Lists without equal members -/

section Lists

variable {α : Type} [BEq α]

/-- Whether no member of a list equals one behind it. -/
def Distinct (l : List α) : Prop :=
  l.Pairwise fun a b => (a == b) = false

theorem beq_eq_false_of_contains {l : List α} {a b : α} (ha : l.contains a = false)
    (hb : b ∈ l) :
    (a == b) = false := by
  rw [List.contains_eq_any_beq, List.any_eq_false] at ha
  exact Bool.eq_false_of_not_eq_true (ha b hb)

variable [PartialEquivBEq α] {l : List α} {a : α}

theorem filter_ne_of_contains (ha : l.contains a = false) :
    (l.filter fun b => !(b == a)) = l := by
  rw [List.filter_eq_self]
  intro b hb
  rw [Bool.not_eq_true', BEq.comm]
  exact beq_eq_false_of_contains ha hb

/-- Where no members are equal, taking one out takes out all that equal it. -/
theorem Distinct.erase_eq_filter (hl : Distinct l) (a : α) :
    l.erase a = l.filter fun b => !(b == a) := by
  induction l with
  | nil => rfl
  | cons b l ih =>
      obtain ⟨hfirst, hrest⟩ := List.pairwise_cons.1 hl
      rw [List.erase_cons, List.filter_cons]
      cases hba : b == a with
      | true =>
          have habsent : l.contains a = false := by
            rw [← List.contains_congr hba, List.contains_eq_any_beq, List.any_eq_false]
            exact fun c hc => Bool.not_eq_true _ ▸ hfirst c hc
          simp [filter_ne_of_contains habsent]
      | false => simp [ih hrest]

theorem nodup_eraseDups {A : Type} [BEq A] [LawfulBEq A] :
    (l : List A) → l.eraseDups.Nodup
  | [] => List.nodup_nil
  | a :: l => by
      rw [List.eraseDups_cons, List.nodup_cons]
      refine ⟨fun hmem => ?_, nodup_eraseDups _⟩
      rw [List.mem_eraseDups, List.mem_filter] at hmem
      simp at hmem
  termination_by l => l.length
  decreasing_by exact Nat.lt_succ_of_le (List.length_filter_le _ _)

end Lists

/-! ### Points -/

namespace Vec3

variable {α : Type} [BEq α]

theorem beq_iff_coordinates {p q : Vec3 α} :
    (p == q) = true ↔
      (p.x == q.x) = true ∧ (p.y == q.y) = true ∧ (p.z == q.z) = true := by
  change (p.x == q.x && (p.y == q.y && p.z == q.z)) = true ↔ _
  rw [Bool.and_eq_true, Bool.and_eq_true]

theorem toList_beq (p q : Vec3 α) : (p.toList == q.toList) = (p == q) := by
  change (p.x == q.x && (p.y == q.y && (p.z == q.z && true))) = _
  rw [Bool.and_true]
  rfl

instance [PartialEquivBEq α] : PartialEquivBEq (Vec3 α) where
  symm := by
    intro p q hpq
    obtain ⟨hx, hy, hz⟩ := beq_iff_coordinates.1 hpq
    exact beq_iff_coordinates.2 ⟨BEq.symm hx, BEq.symm hy, BEq.symm hz⟩
  trans := by
    intro p q r hpq hqr
    obtain ⟨hx, hy, hz⟩ := beq_iff_coordinates.1 hpq
    obtain ⟨hx', hy', hz'⟩ := beq_iff_coordinates.1 hqr
    exact beq_iff_coordinates.2 ⟨BEq.trans hx hx', BEq.trans hy hy', BEq.trans hz hz'⟩

end Vec3

namespace Point

theorem forall_isFinite {p : Point} (hp : p.isFinite = true) :
    p.x.isFinite = true ∧ p.y.isFinite = true ∧ p.z.isFinite = true := by
  simpa only [isFinite, Vec3.all, Bool.and_eq_true, and_assoc] using hp

theorem beq_self_of_isFinite {p : Point} (hp : p.isFinite = true) : (p == p) = true := by
  have hself : ∀ {x : Float}, x.isFinite = true → (x == x) = true := by
    intro x hx
    rw [Float.beq_self_iff]
    rintro rfl
    cases hx
  obtain ⟨hx, hy, hz⟩ := forall_isFinite hp
  exact Vec3.beq_iff_coordinates.2 ⟨hself hx, hself hy, hself hz⟩

theorem ne_of_beq_false {p q : Point} (hp : p.isFinite = true) (hpq : (p == q) = false) :
    p ≠ q := by
  rintro rfl
  rw [beq_self_of_isFinite hp] at hpq
  cases hpq

def bits (p : Point) : Nat × Nat × Nat :=
  (p.x.toBits.toNat, p.y.toBits.toNat, p.z.toBits.toNat)

theorem bits_injective : Function.Injective bits := by
  intro p q hpq
  simp only [bits, Prod.mk.injEq, UInt64.toNat_inj, Float.toBits_inj] at hpq
  exact Vec3.ext hpq.1 hpq.2.1 hpq.2.2

theorem nodup_of_distinct {ps : List Point} (hfinite : ∀ p ∈ ps, p.isFinite = true)
    (hdistinct : Distinct ps) : ps.Nodup :=
  hdistinct.imp_of_mem fun hp _ hpq => ne_of_beq_false (hfinite _ hp) hpq

/-- There are only so many different points. -/
theorem length_le_of_nodup {ps : List Point} (hnodup : ps.Nodup) :
    ps.length ≤ (2 ^ 64) ^ 3 := by
  obtain ⟨size, hsize⟩ : ∃ size, size = 2 ^ 64 := ⟨_, rfl⟩
  have hlt : ∀ x : Float, x.toBits.toNat < size := fun x => hsize ▸ x.toBits.toNat_lt
  have hsub : (ps.map bits).toFinset ⊆
      Finset.range size ×ˢ Finset.range size ×ˢ Finset.range size := by
    intro w hw
    obtain ⟨p, -, rfl⟩ := List.mem_map.1 (List.mem_toFinset.1 hw)
    simp only [bits, Finset.mem_product, Finset.mem_range]
    exact ⟨hlt p.x, hlt p.y, hlt p.z⟩
  have hcard := Finset.card_le_card hsub
  rw [List.toFinset_card_of_nodup (hnodup.map bits_injective), List.length_map,
    Finset.card_product, Finset.card_product, Finset.card_range] at hcard
  rw [← hsize]
  exact hcard.trans_eq (by ring)

end Point

/-! ### Edges -/

namespace Edge

variable {P : Type} [BEq P] {e f : Edge P}

theorem sameDirection_iff :
    e.sameDirection f = true ↔
      (e.start == f.start) = true ∧ (e.stop == f.stop) = true := by
  rw [sameDirection, Bool.and_eq_true]

theorem beq_iff_sameDirection :
    (e == f) = true ↔ e.sameDirection f = true ∨ e.sameDirection f.reverse = true :=
  Bool.or_eq_true_iff

instance [PartialEquivBEq P] : PartialEquivBEq (Edge P) where
  symm := by
    intro e f hef
    simp only [beq_iff_sameDirection, sameDirection_iff, reverse] at hef ⊢
    rcases hef with ⟨hstart, hstop⟩ | ⟨hstart, hstop⟩
    · exact Or.inl ⟨BEq.symm hstart, BEq.symm hstop⟩
    · exact Or.inr ⟨BEq.symm hstop, BEq.symm hstart⟩
  trans := by
    intro e f g hef hfg
    simp only [beq_iff_sameDirection, sameDirection_iff, reverse] at hef hfg ⊢
    rcases hef with ⟨hstart, hstop⟩ | ⟨hstart, hstop⟩ <;>
      rcases hfg with ⟨hstart', hstop'⟩ | ⟨hstart', hstop'⟩
    · exact Or.inl ⟨BEq.trans hstart hstart', BEq.trans hstop hstop'⟩
    · exact Or.inr ⟨BEq.trans hstart hstart', BEq.trans hstop hstop'⟩
    · exact Or.inr ⟨BEq.trans hstart hstop', BEq.trans hstop hstart'⟩
    · exact Or.inl ⟨BEq.trans hstart hstop', BEq.trans hstop hstart'⟩

def IsFinite (e : Edge Point) : Prop :=
  e.start.isFinite = true ∧ e.stop.isFinite = true

instance (e : Edge Point) : Decidable e.IsFinite :=
  inferInstanceAs (Decidable (_ ∧ _))

theorem IsFinite.beq_self {e : Edge Point} (he : e.IsFinite) : (e == e) = true :=
  beq_iff_sameDirection.2 (Or.inl (sameDirection_iff.2
    ⟨Point.beq_self_of_isFinite he.1, Point.beq_self_of_isFinite he.2⟩))

end Edge

/-!
## Fingerprints of equal edges

A zero equals its opposite, and an edge equals its reverse.  Fingerprints see neither the
sign of a zero nor a direction, so edges between finite points that are equal have one
fingerprint, and a table that looks them up by their fingerprints first finds the same
entries as one that compares them all.
-/

namespace Fingerprint

theorem ofCoordinate?_congr {x y : Float} (heq : (x == y) = true) :
    ofCoordinate? x = ofCoordinate? y := by
  obtain ⟨-, -, rfl | ⟨rfl, rfl⟩ | ⟨rfl, rfl⟩⟩ := Float.beq_iff_ne_nan_and_eq.1 heq
  · rfl
  · decide
  · decide

theorem ofRow?_congr {p q : Point} (heq : (p == q) = true) :
    ofRow? p.toList = ofRow? q.toList := by
  obtain ⟨hx, hy, hz⟩ := Vec3.beq_iff_coordinates.1 heq
  simp only [ofRow?, Vec3.toList, List.mapM_cons, ofCoordinate?_congr hx,
    ofCoordinate?_congr hy, ofCoordinate?_congr hz]

theorem isSome_ofCoordinate? {x : Float} (hx : x.isFinite = true) :
    (ofCoordinate? x).isSome = true := by
  have hnumber : ¬x.isNaN = true := by
    rw [(Binary.isFinite_iff.1 hx).1]
    exact Bool.false_ne_true
  rw [ofCoordinate?, if_neg hnumber]
  rfl

theorem exists_ofRow? {p : Point} (hp : p.isFinite = true) :
    ∃ w, ofRow? p.toList = some w := by
  obtain ⟨hx, hy, hz⟩ := Point.forall_isFinite hp
  obtain ⟨x, hx⟩ := Option.isSome_iff_exists.1 (isSome_ofCoordinate? hx)
  obtain ⟨y, hy⟩ := Option.isSome_iff_exists.1 (isSome_ofCoordinate? hy)
  obtain ⟨z, hz⟩ := Option.isSome_iff_exists.1 (isSome_ofCoordinate? hz)
  refine ⟨ofTuple [x, y, z], ?_⟩
  simp [ofRow?, Vec3.toList, hx, hy, hz]

theorem ofSet_swap (v w : UInt64) : ofSet [v, w] = ofSet [w, v] := by
  simp only [ofSet, List.foldl_cons, List.foldl_nil, List.length_cons, UInt64.xor_assoc,
    UInt64.xor_comm (spread v)]

theorem ofEdge?_toRows (e : Edge Point) :
    ofEdge? e.toRows = do
      let start ← ofRow? e.start.toList
      let stop ← ofRow? e.stop.toList
      return ofSet (if e.start == e.stop then [start] else [start, stop]) := by
  rw [← Vec3.toList_beq]
  rfl

theorem ofEdge?_of_sameDirection {e f : Edge Point} (hsame : e.sameDirection f = true) :
    ofEdge? e.toRows = ofEdge? f.toRows := by
  obtain ⟨hstart, hstop⟩ := Edge.sameDirection_iff.1 hsame
  simp only [ofEdge?_toRows, ofRow?_congr hstart, ofRow?_congr hstop,
    BEq.congr_left hstart, BEq.congr_right hstop]

theorem ofEdge?_reverse (e : Edge Point) :
    ofEdge? e.reverse.toRows = ofEdge? e.toRows := by
  have hcomm : (e.stop == e.start) = (e.start == e.stop) := BEq.comm
  simp only [ofEdge?_toRows, Edge.reverse, hcomm]
  cases hloop : e.start == e.stop with
  | true => rw [ofRow?_congr hloop]
  | false =>
    cases ofRow? e.start.toList <;> cases ofRow? e.stop.toList <;> simp [ofSet_swap]

theorem ofEdge?_congr {e f : Edge Point} (heq : (e == f) = true) :
    ofEdge? e.toRows = ofEdge? f.toRows := by
  rcases Edge.beq_iff_sameDirection.1 heq with hsame | hreverse
  · exact ofEdge?_of_sameDirection hsame
  · exact (ofEdge?_of_sameDirection hreverse).trans (ofEdge?_reverse f)

theorem exists_ofEdge? {e : Edge Point} (he : e.IsFinite) :
    ∃ w, ofEdge? e.toRows = some w := by
  obtain ⟨start, hstart⟩ := exists_ofRow? he.1
  obtain ⟨stop, hstop⟩ := exists_ofRow? he.2
  exact ⟨_, by rw [ofEdge?_toRows, hstart, hstop]; rfl⟩

end Fingerprint

namespace Edge

/-- Whether a table that looks for keys by their fingerprints takes two
edges for one key. -/
def sameKey (e f : Edge Point) : Bool :=
  Fingerprint.agree (Fingerprint.ofEdge? e.toRows) (Fingerprint.ofEdge? f.toRows) &&
    e == f

theorem sameKey_eq {e : Edge Point} (he : e.IsFinite) (f : Edge Point) :
    e.sameKey f = (e == f) := by
  obtain ⟨w, hw⟩ := Fingerprint.exists_ofEdge? he
  cases heq : e == f with
  | false => rw [sameKey, heq, Bool.and_false]
  | true =>
      rw [sameKey, ← Fingerprint.ofEdge?_congr heq, hw, heq, Bool.and_true]
      exact beq_self_eq_true w

end Edge
end LatticeHull
