import LatticeHull.Proofs.Equality
import LatticeHull.Proofs.HalfSpace
import Mathlib

/-!
# Equal triangles

Triangles are equal if they have the same edges, and edges that are equal collapse.  The
edges still tell how often a point is a corner: some edge ends there, an edge joins the
point to itself, or no edge that ends there goes anywhere else.  So triangles are equal
exactly if their corners are equal up to order, for triangles with repeated corners too,
and then they have one fingerprint.
-/

namespace LatticeHull

/-!
## Lists that match

Two lists match if the members of one are those of the other in some order, where members
that are equal count as the same.  Where every member equals itself, lists match exactly
if everything occurs equally often in both.  Lists without equal members match as soon as
they have the same length and one is contained in the other.
-/

variable {α : Type} [BEq α]

/-- Whether two lists have equal members up to their order. -/
def Matches (l m : List α) : Prop :=
  ∃ k, List.Forall₂ (fun a b => (a == b) = true) l k ∧ k.Perm m

theorem Matches.length_eq {l m : List α} (h : Matches l m) : l.length = m.length := by
  obtain ⟨k, hpairs, hperm⟩ := h
  exact hpairs.length_eq.trans hperm.length_eq

theorem Matches.nil : Matches ([] : List α) [] :=
  ⟨[], List.Forall₂.nil, List.Perm.refl _⟩

/-- A member on either side, equal to that on the other side, may be put
before the others. -/
theorem Matches.cons_middle {l before behind : List α} {a b : α} (hab : (a == b) = true)
    (h : Matches l (before ++ behind)) : Matches (a :: l) (before ++ b :: behind) := by
  obtain ⟨k, hpairs, hperm⟩ := h
  exact ⟨b :: k, List.Forall₂.cons hab hpairs,
    (hperm.cons b).trans List.perm_middle.symm⟩

section Equivalence

variable [PartialEquivBEq α] {l m : List α}

theorem Matches.countP_eq (h : Matches l m) (a : α) :
    l.countP (· == a) = m.countP (· == a) := by
  obtain ⟨k, hpairs, hperm⟩ := h
  rw [← hperm.countP_eq]
  clear hperm
  induction hpairs with
  | nil => rfl
  | cons hbc _ ih => rw [List.countP_cons, List.countP_cons, ih, BEq.congr_left hbc]

theorem Matches.contains_eq (h : Matches l m) (a : α) : l.contains a = m.contains a := by
  have hpos : ∀ n : List α, n.contains a = true ↔ 0 < n.countP (· == a) := by
    intro n
    rw [List.contains_iff_exists_mem_beq, List.countP_pos_iff]
    exact exists_congr fun b => and_congr_right fun _ => by rw [BEq.comm]
  rw [Bool.eq_iff_iff, hpos, hpos, h.countP_eq]

theorem matches_of_countP (hl : ∀ a ∈ l, (a == a) = true) (hm : ∀ b ∈ m, (b == b) = true)
    (hcount : ∀ a, l.countP (· == a) = m.countP (· == a)) : Matches l m := by
  induction l generalizing m with
  | nil =>
      cases m with
      | nil => exact Matches.nil
      | cons b m =>
          have hpos : 0 < (b :: m).countP (· == b) :=
            List.countP_pos_iff.2 ⟨b, List.mem_cons_self ..,
              hm b (List.mem_cons_self ..)⟩
          rw [← hcount b, List.countP_nil] at hpos
          cases hpos
  | cons a l ih =>
      obtain ⟨ha, hrest⟩ := List.forall_mem_cons.1 hl
      have hpos : 0 < m.countP (· == a) := by
        rw [← hcount]
        exact List.countP_pos_iff.2 ⟨a, List.mem_cons_self .., ha⟩
      obtain ⟨b, hb, hba⟩ := List.countP_pos_iff.1 hpos
      obtain ⟨before, behind, rfl⟩ := List.append_of_mem hb
      refine Matches.cons_middle (BEq.symm hba)
        (ih hrest (fun c hc => hm c ?_) fun c => ?_)
      · exact List.perm_middle.mem_iff.2 (List.mem_cons_of_mem b hc)
      · have hc := hcount c
        rw [List.perm_middle.countP_eq, List.countP_cons, List.countP_cons,
          BEq.congr_left hba] at hc
        omega

/-- Where every member equals itself, lists match if everything occurs
equally often in both. -/
theorem matches_iff_countP (hl : ∀ a ∈ l, (a == a) = true)
    (hm : ∀ b ∈ m, (b == b) = true) :
    Matches l m ↔ ∀ a, l.countP (· == a) = m.countP (· == a) :=
  ⟨Matches.countP_eq, matches_of_countP hl hm⟩

/-- Members that differ from each other are equal to different members of a
list that contains them. -/
theorem Distinct.exists_subperm (hl : Distinct l) (hsub : ∀ a ∈ l, m.contains a = true) :
    ∃ k, List.Forall₂ (fun a b => (a == b) = true) l k ∧ k.Subperm m := by
  induction l generalizing m with
  | nil => exact ⟨[], List.Forall₂.nil, List.nil_subperm⟩
  | cons a l ih =>
      obtain ⟨hfirst, hrest⟩ := List.pairwise_cons.1 hl
      obtain ⟨ha, hl'⟩ := List.forall_mem_cons.1 hsub
      obtain ⟨b, hb, hab⟩ := List.contains_iff_exists_mem_beq.1 ha
      obtain ⟨before, behind, rfl⟩ := List.append_of_mem hb
      have hothers : ∀ c ∈ l, (before ++ behind).contains c = true := by
        intro c hc
        obtain ⟨d, hd, hcd⟩ := List.contains_iff_exists_mem_beq.1 (hl' c hc)
        rcases List.mem_cons.1 (List.perm_middle.mem_iff.1 hd) with rfl | hd
        · have hac : (a == c) = true := BEq.trans hab (BEq.symm hcd)
          rw [hfirst c hc] at hac
          cases hac
        · exact List.contains_iff_exists_mem_beq.2 ⟨d, hd, hcd⟩
      obtain ⟨k, hpairs, hk⟩ := ih hrest hothers
      exact ⟨b :: k, List.Forall₂.cons hab hpairs,
        ((List.subperm_cons b).2 hk).trans List.perm_middle.symm.subperm⟩

theorem Distinct.length_le (hl : Distinct l) (hsub : ∀ a ∈ l, m.contains a = true) :
    l.length ≤ m.length := by
  obtain ⟨k, hpairs, hk⟩ := hl.exists_subperm hsub
  exact hpairs.length_eq.trans_le hk.length_le

theorem Distinct.matches_of_length_le (hl : Distinct l)
    (hsub : ∀ a ∈ l, m.contains a = true) (hlength : m.length ≤ l.length) :
    Matches l m := by
  obtain ⟨k, hpairs, hk⟩ := hl.exists_subperm hsub
  exact ⟨k, hpairs, hk.perm_of_length_le (hlength.trans_eq hpairs.length_eq)⟩

/-- Lists without equal members match if they contain the same. -/
theorem Distinct.matches_of_contains (hl : Distinct l) (hm : Distinct m)
    (hlm : ∀ a ∈ l, m.contains a = true) (hml : ∀ b ∈ m, l.contains b = true) :
    Matches l m :=
  hl.matches_of_length_le hlm (hm.length_le hml)

end Equivalence

/-! ## Triangles -/

namespace Triangle

/-- The triangle with its corners in any order. -/
def orders {α : Type} (t : Triangle α) : List (Triangle α) :=
  t.rotations ++ t.swaps

section Equivalence

variable {α : Type} [BEq α] {t u : Triangle α}

theorem beq_iff_edges :
    (t == u) = true ↔
      (∀ e ∈ t.edges, u.edges.contains e = true) ∧
        ∀ e ∈ u.edges, t.edges.contains e = true := by
  change (t.edges.all u.edges.contains && u.edges.all t.edges.contains) = true ↔ _
  rw [Bool.and_eq_true, List.all_eq_true, List.all_eq_true]

def multiplicity (t : Triangle α) (p : Vec3 α) : Nat :=
  t.corners.countP (· == p)

theorem multiplicity_eq (t : Triangle α) (p : Vec3 α) :
    t.multiplicity p = (t.a == p).toNat + (t.b == p).toNat + (t.c == p).toNat := by
  simp only [multiplicity, corners, List.countP_cons, List.countP_nil]
  cases t.a == p <;> cases t.b == p <;> cases t.c == p <;> rfl

theorem one_le_multiplicity_iff {p : Vec3 α} :
    1 ≤ t.multiplicity p ↔ ∃ c ∈ t.corners, (c == p) = true :=
  List.countP_pos_iff

theorem multiplicity_le (t : Triangle α) (p : Vec3 α) : t.multiplicity p ≤ 3 :=
  List.countP_le_length

theorem three_le_multiplicity_iff {p : Vec3 α} :
    3 ≤ t.multiplicity p ↔ ∀ c ∈ t.corners, (c == p) = true := by
  rw [← List.countP_eq_length]
  exact ⟨fun h => (t.multiplicity_le p).antisymm h, fun h => h.ge⟩

theorem beq_self_of_mem_edges (ht : ∀ c ∈ t.corners, (c == c) = true) {e : Edge (Vec3 α)}
    (he : e ∈ t.edges) : (e == e) = true :=
  Edge.beq_iff_sameDirection.2 (Or.inl (Edge.sameDirection_iff.2
    ⟨ht _ (start_mem_corners he), ht _ (stop_mem_corners he)⟩))

variable [PartialEquivBEq α]

instance : PartialEquivBEq (Triangle α) where
  symm := fun htu => beq_iff_edges.2 (beq_iff_edges.1 htu).symm
  trans := by
    have htrans : ∀ {t u v : Triangle α}, (∀ e ∈ t.edges, u.edges.contains e = true) →
        (∀ e ∈ u.edges, v.edges.contains e = true) →
        ∀ e ∈ t.edges, v.edges.contains e = true := by
      intro t u v htu huv e he
      obtain ⟨f, hf, hef⟩ := List.contains_iff_exists_mem_beq.1 (htu e he)
      rw [List.contains_congr hef]
      exact huv f hf
    intro t u v htu huv
    obtain ⟨htu, hut⟩ := beq_iff_edges.1 htu
    obtain ⟨huv, hvu⟩ := beq_iff_edges.1 huv
    exact beq_iff_edges.2 ⟨htrans htu huv, htrans hvu hut⟩

/-! ### Edges by their corners -/

theorem contains_edges (t : Triangle α) (p q : Vec3 α) :
    t.edges.contains ⟨p, q⟩ =
      ((t.a == p && t.b == q || t.b == p && t.a == q) ||
        (t.b == p && t.c == q || t.c == p && t.b == q) ||
          (t.c == p && t.a == q || t.a == p && t.c == q)) := by
  have hbeq : ∀ r s : Vec3 α, ((⟨p, q⟩ : Edge (Vec3 α)) == ⟨r, s⟩) =
      (r == p && s == q || s == p && r == q) := by
    intro r s
    rw [BEq.comm (a := r), BEq.comm (a := s), BEq.comm (a := s), BEq.comm (a := r)]
    rfl
  simp only [edges, List.contains_cons, List.contains_nil, hbeq, Bool.or_false,
    Bool.or_assoc]

/-- Two points are joined by an edge if both are corners, and one of them
twice if they are equal. -/
theorem contains_edges_iff (t : Triangle α) (p q : Vec3 α) :
    t.edges.contains ⟨p, q⟩ = true ↔
      1 ≤ t.multiplicity p ∧ 1 ≤ t.multiplicity q ∧
        ((p == q) = true → 2 ≤ t.multiplicity p) := by
  rw [contains_edges, multiplicity_eq, multiplicity_eq]
  cases hpq : p == q with
  | true =>
      have hcongr : ∀ c, (c == p) = (c == q) := fun c => BEq.congr_right hpq
      simp only [hcongr]
      cases t.a == q <;> cases t.b == q <;> cases t.c == q <;> decide
  | false =>
      have hother : ∀ c, (c == p) = true → (c == q) = false := by
        intro c hcp
        rw [BEq.congr_left hcp, hpq]
      have ha := hother t.a
      have hb := hother t.b
      have hc := hother t.c
      revert ha hb hc
      cases t.a == p <;> cases t.b == p <;> cases t.c == p <;>
        cases t.a == q <;> cases t.b == q <;> cases t.c == q <;> decide

/-- A point is a corner twice if an edge joins it to itself. -/
theorem two_le_multiplicity_iff_edges {p : Vec3 α} :
    2 ≤ t.multiplicity p ↔ t.edges.contains ⟨p, p⟩ = true := by
  rw [contains_edges_iff]
  refine ⟨fun htwo => ⟨by omega, by omega, fun _ => htwo⟩, fun ⟨hone, _, htwo⟩ => ?_⟩
  obtain ⟨c, -, hcp⟩ := one_le_multiplicity_iff.1 hone
  exact htwo (BEq.trans (BEq.symm hcp) hcp)

section Corners

variable (ht : ∀ c ∈ t.corners, (c == c) = true)

include ht

theorem contains_edges_corner_iff {p c : Vec3 α} (hc : c ∈ t.corners) :
    t.edges.contains ⟨p, c⟩ = true ↔
      1 ≤ t.multiplicity p ∧ ((p == c) = true → 2 ≤ t.multiplicity p) := by
  have hone : 1 ≤ t.multiplicity c := one_le_multiplicity_iff.2 ⟨c, hc, ht c hc⟩
  rw [contains_edges_iff, and_iff_right hone]

/-- A point is a corner if some edge ends there. -/
theorem one_le_multiplicity_iff_edges {p : Vec3 α} :
    1 ≤ t.multiplicity p ↔ ∃ q, t.edges.contains ⟨p, q⟩ = true := by
  refine ⟨fun hone => ?_, fun ⟨q, hq⟩ => ((contains_edges_iff t p q).1 hq).1⟩
  by_cases hthree : 3 ≤ t.multiplicity p
  · exact ⟨t.a, (contains_edges_corner_iff ht (by simp [corners])).2
      ⟨hone, fun _ => by omega⟩⟩
  · obtain ⟨c, hc, hcp⟩ : ∃ c ∈ t.corners, ¬(c == p) = true := by
      simpa only [three_le_multiplicity_iff, not_forall, exists_prop] using hthree
    exact ⟨c, (contains_edges_corner_iff ht hc).2
      ⟨hone, fun hpc => absurd (BEq.symm hpc) hcp⟩⟩

/-- A point is all corners if it is one twice and no edge leads elsewhere. -/
theorem three_le_multiplicity_iff_edges {p : Vec3 α} :
    3 ≤ t.multiplicity p ↔ t.edges.contains ⟨p, p⟩ = true ∧
      ∀ q, t.edges.contains ⟨p, q⟩ = true → (q == p) = true := by
  rw [← two_le_multiplicity_iff_edges]
  constructor
  · intro hthree
    refine ⟨by omega, fun q hq => ?_⟩
    obtain ⟨c, hc, hcq⟩ :=
      one_le_multiplicity_iff.1 ((contains_edges_iff t p q).1 hq).2.1
    exact BEq.trans (BEq.symm hcq) (three_le_multiplicity_iff.1 hthree c hc)
  · rintro ⟨htwo, hloops⟩
    refine three_le_multiplicity_iff.2 fun c hc => hloops c ?_
    exact (contains_edges_corner_iff ht hc).2 ⟨by omega, fun _ => htwo⟩

end Corners

/-! ### Equality by corners -/

section Corners

variable (ht : ∀ c ∈ t.corners, (c == c) = true) (hu : ∀ c ∈ u.corners, (c == c) = true)

include ht hu

theorem beq_iff_contains :
    (t == u) = true ↔ ∀ e, t.edges.contains e = u.edges.contains e := by
  have hself : ∀ {t : Triangle α} (ht : ∀ c ∈ t.corners, (c == c) = true),
      ∀ e ∈ t.edges, t.edges.contains e = true := fun ht e he =>
    List.contains_iff_exists_mem_beq.2 ⟨e, he, beq_self_of_mem_edges ht he⟩
  constructor
  · intro htu e
    have hsub : ∀ {t u : Triangle α}, (t == u) = true → t.edges.contains e = true →
        u.edges.contains e = true := by
      intro t u htu he
      obtain ⟨f, hf, hef⟩ := List.contains_iff_exists_mem_beq.1 he
      rw [List.contains_congr hef]
      exact (beq_iff_edges.1 htu).1 f hf
    exact Bool.eq_iff_iff.2 ⟨hsub htu, hsub (BEq.symm htu)⟩
  · intro hedges
    exact beq_iff_edges.2 ⟨fun e he => hedges e ▸ hself ht e he,
      fun e he => (hedges e).symm ▸ hself hu e he⟩

theorem beq_iff_multiplicity :
    (t == u) = true ↔ ∀ p, t.multiplicity p = u.multiplicity p := by
  rw [beq_iff_contains ht hu]
  constructor
  · intro hedges p
    have hone : 1 ≤ t.multiplicity p ↔ 1 ≤ u.multiplicity p := by
      rw [one_le_multiplicity_iff_edges ht, one_le_multiplicity_iff_edges hu]
      simp only [hedges]
    have htwo : 2 ≤ t.multiplicity p ↔ 2 ≤ u.multiplicity p := by
      rw [two_le_multiplicity_iff_edges, two_le_multiplicity_iff_edges, hedges]
    have hthree : 3 ≤ t.multiplicity p ↔ 3 ≤ u.multiplicity p := by
      rw [three_le_multiplicity_iff_edges ht, three_le_multiplicity_iff_edges hu]
      simp only [hedges]
    have hle := t.multiplicity_le p
    have hle' := u.multiplicity_le p
    omega
  · rintro hcorners ⟨p, q⟩
    rw [Bool.eq_iff_iff, contains_edges_iff, contains_edges_iff, hcorners, hcorners]

theorem beq_iff_matches : (t == u) = true ↔ Matches t.corners u.corners :=
  (beq_iff_multiplicity ht hu).trans (matches_iff_countP ht hu).symm

end Corners

omit [BEq α] [PartialEquivBEq α] in
theorem perm_of_mem_orders {t' : Triangle α} (ht' : t' ∈ t.orders) :
    t'.corners.Perm t.corners := by
  simp only [orders, rotations, swaps, List.cons_append, List.nil_append, List.mem_cons,
    List.not_mem_nil, or_false] at ht'
  rcases ht' with rfl | rfl | rfl | rfl | rfl | rfl
  · exact List.Perm.refl _
  · exact List.perm_append_singleton t.a [t.b, t.c]
  · exact (List.perm_append_singleton t.c [t.a, t.b]).symm
  · exact List.Perm.swap t.a t.b [t.c]
  · exact (List.Perm.swap t.b t.c []).cons t.a
  · exact List.reverse_perm [t.a, t.b, t.c]

theorem beq_of_mem_orders (ht : ∀ c ∈ t.corners, (c == c) = true) {t' : Triangle α}
    (ht' : t' ∈ t.orders) : (t' == t) = true := by
  have hperm := perm_of_mem_orders ht'
  have hself : ∀ c ∈ t'.corners, (c == c) = true := fun c hc => ht c (hperm.mem_iff.1 hc)
  exact (beq_iff_multiplicity hself ht).2 fun p => hperm.countP_eq (· == p)

end Equivalence

/-! ### Triangles with finite corners -/

def IsFinite (t : Triangle Float) : Prop :=
  ∀ c ∈ t.corners, Point.isFinite c = true

instance (t : Triangle Float) : Decidable t.IsFinite :=
  inferInstanceAs (Decidable (∀ c ∈ t.corners, Point.isFinite c = true))

theorem IsFinite.beq_self_corner {t : Triangle Float} (ht : t.IsFinite) :
    ∀ c ∈ t.corners, (c == c) = true :=
  fun c hc => Point.beq_self_of_isFinite (ht c hc)

theorem IsFinite.edge {t : Triangle Float} (ht : t.IsFinite) :
    ∀ e ∈ t.edges, e.IsFinite :=
  fun _ he => ⟨ht _ (start_mem_corners he), ht _ (stop_mem_corners he)⟩

end Triangle

/-!
## Sets of edges

A set of edges is a table of keys: an edge is put in unless its key is there.  Two such
sets are the same if they are of the same size and one contains the other, and the
fingerprint of a set does not depend on the order of its members.  So the edges of two
triangles are the same set exactly if the triangles have the same corners, and then the
triangles have one fingerprint.
-/

namespace Fingerprint

/-! ### Distinct things -/

section Distinct

variable {α : Type} [BEq α]

theorem distinct_concat (things : List α) (a : α) :
    distinct (things ++ [a]) =
      if (distinct things).contains a then distinct things
        else distinct things ++ [a] := by
  rw [distinct, List.foldl_append]
  rfl

theorem distinct_subset (things : List α) : distinct things ⊆ things := by
  induction things using List.reverseRecOn with
  | nil => exact List.Subset.refl []
  | append_singleton things a ih =>
      rw [distinct_concat]
      split
      · exact List.subset_append_of_subset_left _ ih
      · exact List.append_subset.2 ⟨List.subset_append_of_subset_left _ ih,
          List.subset_append_right things [a]⟩

variable [PartialEquivBEq α]

theorem contains_distinct (things : List α) (b : α) :
    (distinct things).contains b = things.contains b := by
  induction things using List.reverseRecOn with
  | nil => rfl
  | append_singleton things a ih =>
      rw [distinct_concat, List.contains_append, ← ih]
      split
      · rename_i hagain
        cases hba : b == a with
        | true => simp [List.contains_congr hba, hagain]
        | false => simp [hba]
      · rw [List.contains_append]

theorem isDistinct_distinct (things : List α) : Distinct (distinct things) := by
  induction things using List.reverseRecOn with
  | nil => exact List.Pairwise.nil
  | append_singleton things a ih =>
      rw [distinct_concat]
      split
      · exact ih
      · rename_i hnew
        refine List.pairwise_append.2 ⟨ih, List.pairwise_singleton _ _,
          fun b hb c hc => ?_⟩
        rw [List.mem_singleton.1 hc, BEq.comm]
        exact beq_eq_false_of_contains (Bool.eq_false_of_not_eq_true hnew) hb

end Distinct

/-! ### The order of members -/

theorem ofSet_perm {members others : List UInt64} (h : members.Perm others) :
    ofSet members = ofSet others := by
  have hjoin : ∀ acc : UInt64, members.foldl (fun acc m => acc ^^^ spread m) acc =
      others.foldl (fun acc m => acc ^^^ spread m) acc := by
    refine h.foldl_eq' fun x _ y _ acc => ?_
    rw [UInt64.xor_assoc, UInt64.xor_comm (spread x), ← UInt64.xor_assoc]
  rw [ofSet, ofSet, hjoin, h.length_eq]

end Fingerprint

namespace Edge

def keys (edges : List (Edge Point)) : List (Edge Point) :=
  edges.foldl (fun keys e => if keys.any (sameKey e) then keys else keys ++ [e]) []

/-- Whether two tables have the same keys: as many in both, and those of one
are found in the other. -/
def sameKeys (keys others : List (Edge Point)) : Bool :=
  keys.length == others.length && keys.all fun e => others.any (sameKey e)

theorem any_sameKey {e : Edge Point} (he : e.IsFinite) (keys : List (Edge Point)) :
    keys.any (sameKey e) = keys.contains e := by
  rw [List.contains_eq_any_beq]
  exact congrArg keys.any (funext fun f => sameKey_eq he f)

theorem keys_eq_distinct {edges : List (Edge Point)} (hedges : ∀ e ∈ edges, e.IsFinite) :
    keys edges = Fingerprint.distinct edges := by
  induction edges using List.reverseRecOn with
  | nil => rfl
  | append_singleton edges e ih =>
      have hold := ih fun f hf => hedges f (List.mem_append_left _ hf)
      rw [Fingerprint.distinct_concat, ← hold, ← any_sameKey (hedges e (by simp)), keys,
        List.foldl_append]
      rfl

end Edge

namespace Triangle

open Fingerprint

variable {t u : Triangle Float}

theorem matches_distinct_edges (htu : (t == u) = true) :
    Matches (distinct t.edges) (distinct u.edges) := by
  obtain ⟨htu, hut⟩ := beq_iff_edges.1 htu
  refine (isDistinct_distinct t.edges).matches_of_contains
    (isDistinct_distinct u.edges) ?_ ?_
  · exact fun e he => (contains_distinct u.edges e).trans (htu e (distinct_subset _ he))
  · exact fun e he => (contains_distinct t.edges e).trans (hut e (distinct_subset _ he))

/-- Triangles are equal if their edges are the same set. -/
theorem sameKeys_edges (ht : t.IsFinite) (hu : u.IsFinite) :
    Edge.sameKeys (Edge.keys t.edges) (Edge.keys u.edges) = (t == u) := by
  have hany : ∀ e ∈ distinct t.edges,
      (distinct u.edges).any (Edge.sameKey e) = (distinct u.edges).contains e :=
    fun e he => Edge.any_sameKey (ht.edge e (distinct_subset _ he)) _
  rw [Edge.keys_eq_distinct ht.edge, Edge.keys_eq_distinct hu.edge, Edge.sameKeys,
    Bool.eq_iff_iff, Bool.and_eq_true, beq_iff_eq, List.all_eq_true]
  constructor
  · rintro ⟨hlength, hsub⟩
    have hmatch : Matches (distinct t.edges) (distinct u.edges) :=
      (isDistinct_distinct t.edges).matches_of_length_le
        (fun e he => (hany e he).symm.trans (hsub e he)) hlength.ge
    rw [beq_iff_contains ht.beq_self_corner hu.beq_self_corner]
    intro e
    rw [← contains_distinct t.edges, ← contains_distinct u.edges, hmatch.contains_eq]
  · intro htu
    have hmatch := matches_distinct_edges htu
    refine ⟨hmatch.length_eq, fun e he => ?_⟩
    rw [hany e he, ← hmatch.contains_eq, List.contains_iff_exists_mem_beq]
    exact ⟨e, he, (ht.edge e (distinct_subset _ he)).beq_self⟩

def edgeWord (e : Edge Point) : UInt64 :=
  (ofEdge? e.toRows).getD 0

theorem mapM_ofEdge? {edges : List (Edge Point)} (hedges : ∀ e ∈ edges, e.IsFinite) :
    (edges.mapM fun e => ofEdge? e.toRows) = some (edges.map edgeWord) := by
  induction edges with
  | nil => rfl
  | cons e edges ih =>
      obtain ⟨he, hrest⟩ := List.forall_mem_cons.1 hedges
      obtain ⟨w, hw⟩ := exists_ofEdge? he
      rw [List.mapM_cons, ih hrest, List.map_cons, edgeWord, hw]
      rfl

theorem ofTriangle?_eq (ht : t.IsFinite) :
    ofTriangle? t = some (ofSet ((distinct t.edges).map edgeWord)) := by
  rw [ofTriangle?, mapM_ofEdge? fun e he => ht.edge e (distinct_subset _ he)]
  rfl

/-- Equal triangles have one fingerprint. -/
theorem agree_ofTriangle? (ht : t.IsFinite) (hu : u.IsFinite) (htu : (t == u) = true) :
    agree (ofTriangle? t) (ofTriangle? u) = true := by
  obtain ⟨edges, hpairs, hperm⟩ := matches_distinct_edges htu
  have hwords : (distinct t.edges).map edgeWord = edges.map edgeWord := by
    have hword :
        List.Forall₂ (fun e f => edgeWord e = edgeWord f) (distinct t.edges) edges :=
      hpairs.imp fun e f hef => congrArg (Option.getD · 0) (ofEdge?_congr hef)
    rw [← List.forall₂_eq_eq_eq]
    exact List.forall₂_map_left_iff.2 (List.forall₂_map_right_iff.2 hword)
  rw [ofTriangle?_eq ht, ofTriangle?_eq hu, hwords, ofSet_perm (hperm.map edgeWord)]
  exact beq_self_eq_true _

/-- Finite triangles are equal exactly if their corners match, which is an equivalence,
does not depend on the order of the corners, and is what a comparison of the sets of
their edges finds; and equal triangles have one fingerprint. -/
theorem equality_spec {t u : Triangle Float} (ht : t.IsFinite) (hu : u.IsFinite) :
    ((t == u) = true ↔ Matches t.corners u.corners) ∧
      (t == t) = true ∧ (u == t) = (t == u) ∧
        (∀ v : Triangle Float, (t == u) = true → (u == v) = true → (t == v) = true) ∧
      (∀ t' ∈ t.orders, ∀ u' ∈ u.orders, (t' == u') = (t == u)) ∧
      Edge.sameKeys (Edge.keys t.edges) (Edge.keys u.edges) = (t == u) ∧
      ((t == u) = true → agree (ofTriangle? t) (ofTriangle? u) = true) := by
  have htself := ht.beq_self_corner
  have huself := hu.beq_self_corner
  refine ⟨beq_iff_matches htself huself, ?_, BEq.comm, fun v => BEq.trans, ?_,
    sameKeys_edges ht hu, agree_ofTriangle? ht hu⟩
  · exact beq_of_mem_orders htself (List.mem_cons_self ..)
  · intro t' ht' u' hu'
    rw [BEq.congr_left (beq_of_mem_orders htself ht'),
      BEq.congr_right (beq_of_mem_orders huself hu')]

/-- A triangle with a repeated corner. -/
def sliver : Triangle Float :=
  ⟨⟨0.0, 0.0, 0.0⟩, ⟨0.0, 0.0, 0.0⟩, ⟨1.0, 0.0, 2.0⟩⟩

/-- The triangle with a repeated corner, reversed and with other signs of zeros. -/
def sliverReversed : Triangle Float :=
  ⟨⟨1.0, -0.0, 2.0⟩, ⟨-0.0, 0.0, 0.0⟩, ⟨0.0, 0.0, -0.0⟩⟩

theorem equality_spec_sliver :
    sliver.IsFinite ∧ sliverReversed.IsFinite ∧ (sliver == sliverReversed) = true ∧
      Matches sliver.corners sliverReversed.corners ∧
      Edge.sameKeys (Edge.keys sliver.edges) (Edge.keys sliverReversed.edges) = true ∧
      agree (ofTriangle? sliver) (ofTriangle? sliverReversed) = true := by
  have hsliver : sliver.IsFinite := by decide
  have hreversed : sliverReversed.IsFinite := by decide
  have hequal : (sliver == sliverReversed) = true := by decide
  obtain ⟨hmatch, -, -, -, -, hkeys, hagree⟩ := equality_spec hsliver hreversed
  exact ⟨hsliver, hreversed, hequal, hmatch.1 hequal, hkeys.trans hequal, hagree hequal⟩

end Triangle
end LatticeHull
