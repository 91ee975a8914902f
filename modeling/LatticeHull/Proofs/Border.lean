import LatticeHull.Mesh
import LatticeHull.Proofs.Equality
import Mathlib

/-!
# The border of a set of faces

The border of a hole is found by cancelling edges that are met twice.  Around faces that
fit together, no edge is met twice in the same direction.  Then the border consists of
the edges that are not met in the opposite direction, and every count that changes its
sign with the direction of an edge is the same for the border as for all edges.
-/

namespace LatticeHull
namespace Edge

variable {P : Type}

@[simp] theorem reverse_reverse (e : Edge P) : e.reverse.reverse = e := rfl

@[simp] theorem reverse_inj {e f : Edge P} : e.reverse = f.reverse ↔ e = f := by
  constructor
  · intro h
    rw [← e.reverse_reverse, h, f.reverse_reverse]
  · rintro rfl
    rfl

theorem reverse_eq_comm {e f : Edge P} : e.reverse = f ↔ e = f.reverse := by
  rw [← reverse_inj, reverse_reverse]

/-- Edges that are met in order without repeating one and without one that
ends where it starts. -/
structure Fit (edges : List (Edge P)) : Prop where
  nodup : edges.Nodup
  ne_reverse : ∀ e ∈ edges, e.reverse ≠ e

theorem Fit.of_sublist {edges rest : List (Edge P)} (h : Fit edges)
    (hsub : rest.Sublist edges) :
    Fit rest where
  nodup := h.nodup.sublist hsub
  ne_reverse e he := h.ne_reverse e (hsub.mem he)

theorem border_concat [BEq P] (edges : List (Edge P)) (e : Edge P) :
    border (edges ++ [e]) = toggle (border edges) e := by
  simp [border]

/-- How often edges of a list start at a point, less how often they stop there. -/
theorem sum_ends [BEq P] (edges : List (Edge P)) (v : P) :
    (edges.map fun e =>
      (if e.start == v then (1 : Int) else 0) - (if e.stop == v then 1 else 0)).sum =
      (edges.map Edge.start).count v - (edges.map Edge.stop).count v := by
  induction edges with
  | nil => simp
  | cons e edges ih =>
      simp only [List.map_cons, List.sum_cons, ih, List.count_cons, Nat.cast_add]
      split <;> split <;> simp <;> omega

section Cancel

variable [BEq P] [LawfulBEq P]

/-- An edge that is new in its direction is added, or it takes its reverse away. -/
theorem toggle_cases {border : List (Edge P)} {e : Edge P} (he : e ∉ border) :
    (e.reverse ∉ border ∧ toggle border e = border ++ [e]) ∨
      ∃ before after, border = before ++ e.reverse :: after ∧
        toggle border e = before ++ after := by
  by_cases hreverse : e.reverse ∈ border
  · right
    have hmatch : (e.reverse == e) = true := by
      rw [beq_iff]
      exact Or.inr rfl
    obtain ⟨f, before, after, -, hf, hsplit, herase⟩ :=
      List.exists_of_eraseP (p := (· == e)) hreverse hmatch
    have hcontains : border.contains e = true := by
      rw [List.contains_iff_exists_mem_beq]
      exact ⟨e.reverse, hreverse, beq_reverse e⟩
    have hfe : f = e.reverse := by
      rcases (beq_iff f e).1 hf with rfl | hrev
      · exact False.elim (he (by simp [hsplit]))
      · exact hrev
    refine ⟨before, after, by rw [hsplit, hfe], ?_⟩
    rw [toggle, if_pos hcontains, List.erase_eq_eraseP', herase]
  · left
    refine ⟨hreverse, ?_⟩
    have hcontains : border.contains e = false := by
      rw [Bool.eq_false_iff]
      intro htrue
      obtain ⟨f, hf, hbeq⟩ := List.contains_iff_exists_mem_beq.1 htrue
      rcases (beq_iff e f).1 hbeq with rfl | hrev
      · exact he hf
      · rw [hrev, reverse_reverse] at hreverse
        exact hreverse hf
    simp [toggle, hcontains]

/-- The border consists of the edges that are not met in the opposite
direction, each once. -/
theorem border_spec {edges : List (Edge P)} (h : Fit edges) :
    (border edges).Nodup ∧
      ∀ e, e ∈ border edges ↔ e ∈ edges ∧ e.reverse ∉ edges := by
  induction edges using List.reverseRecOn with
  | nil => simp [border]
  | append_singleton edges x ih =>
      have hold : Fit edges := h.of_sublist (List.sublist_append_left _ _)
      obtain ⟨hnodup, hmem⟩ := ih hold
      have hx : x ∉ edges := by
        have hdisjoint := List.nodup_append.1 h.nodup
        exact fun hin => hdisjoint.2.2 x hin x (by simp) rfl
      have hloop : x.reverse ≠ x := h.ne_reverse x (by simp)
      have hxborder : x ∉ border edges := fun hin => hx ((hmem x).1 hin).1
      rw [border_concat]
      rcases toggle_cases hxborder with ⟨hfree, htoggle⟩ |
        ⟨before, after, hsplit, htoggle⟩
      · have hxreverse : x.reverse ∉ edges := by
          intro hin
          exact hfree ((hmem _).2 ⟨hin, by simpa using hx⟩)
        rw [htoggle]
        refine ⟨?_, ?_⟩
        · rw [List.nodup_append]
          refine ⟨hnodup, List.nodup_singleton x, ?_⟩
          rintro e he f hf rfl
          rw [List.mem_singleton] at hf
          exact hxborder (hf ▸ he)
        · intro e
          simp only [List.mem_append, List.mem_singleton, hmem e, not_or,
            reverse_eq_comm]
          grind
      · have hcancelled : x.reverse ∈ border edges := by simp [hsplit]
        have hxreverse : x.reverse ∈ edges := ((hmem _).1 hcancelled).1
        rw [htoggle]
        rw [hsplit] at hnodup hmem
        have hparts := List.nodup_middle.1 hnodup
        refine ⟨(List.nodup_cons.1 hparts).2, ?_⟩
        have habsent := (List.nodup_cons.1 hparts).1
        intro e
        have hmem_e := hmem e
        simp only [List.mem_append, List.mem_cons, not_or, reverse_eq_comm]
          at hmem_e habsent ⊢
        grind

theorem mem_border_iff {edges : List (Edge P)} (h : Fit edges) {e : Edge P} :
    e ∈ border edges ↔ e ∈ edges ∧ e.reverse ∉ edges :=
  (border_spec h).2 e

theorem Fit.not_mem_border {edges : List (Edge P)} {x : Edge P}
    (h : Fit (edges ++ [x])) :
    x ∉ border edges := by
  intro hin
  have hx := ((mem_border_iff (h.of_sublist (List.sublist_append_left _ _))).1 hin).1
  exact (List.nodup_append.1 h.nodup).2.2 x hx x (by simp) rfl

/-- Nothing is cancelled where no edge is met in both directions. -/
theorem border_eq_self {edges : List (Edge P)} (h : Fit edges)
    (hone : ∀ e ∈ edges, e.reverse ∉ edges) : border edges = edges := by
  induction edges using List.reverseRecOn with
  | nil => rfl
  | append_singleton edges x ih =>
      have hold : Fit edges := h.of_sublist (List.sublist_append_left _ _)
      have hself : border edges = edges := by
        apply ih hold
        intro e he hreverse
        exact hone e (by simp [he]) (by simp [hreverse])
      rw [border_concat]
      rcases toggle_cases h.not_mem_border with ⟨-, htoggle⟩ | ⟨before, after, hsplit, -⟩
      · rw [htoggle, hself]
      · have hreverse : x.reverse ∈ edges := by
          rw [← hself, hsplit]
          simp
        exact False.elim (hone x (by simp) (by simp [hreverse]))

/-- A count that changes its sign with the direction of an edge is not
changed by cancelling. -/
theorem sum_border {R : Type} [AddCommGroup R] {edges : List (Edge P)} (h : Fit edges)
    (f : Edge P → R) (hf : ∀ e, f e.reverse = -f e) :
    ((border edges).map f).sum = (edges.map f).sum := by
  induction edges using List.reverseRecOn with
  | nil => rfl
  | append_singleton edges x ih =>
      have hsum := ih (h.of_sublist (List.sublist_append_left _ _))
      rw [border_concat]
      rcases toggle_cases h.not_mem_border with ⟨-, htoggle⟩ |
        ⟨before, after, hsplit, htoggle⟩
      · simp [htoggle, hsum]
      · rw [hsplit] at hsum
        simp only [List.map_append, List.map_cons, List.sum_append, List.sum_cons, hf,
          List.map_nil, List.sum_nil, htoggle, ← hsum]
        abel

/-- If edges start as often at every point as they stop there, so do those
of the border. -/
theorem border_balanced {edges : List (Edge P)} (h : Fit edges)
    (hbalanced : (edges.map Edge.start).Perm (edges.map Edge.stop)) :
    ((border edges).map Edge.start).Perm ((border edges).map Edge.stop) := by
  rw [List.perm_iff_count] at hbalanced ⊢
  intro v
  have hsum := sum_border h (fun e =>
    (if e.start == v then (1 : Int) else 0) - (if e.stop == v then 1 else 0)) (by
      intro e
      rw [neg_sub]
      rfl)
  rw [sum_ends, sum_ends, hbalanced v] at hsum
  omega

end Cancel
end Edge

/-!
## Borders of any edges

Whatever the edges are, the border holds those that are met an odd number of times.  An
edge that is put in again after it was taken out goes to the end, so the border has each
of them where it is met last, and in the direction that it has there.
-/

namespace Edge

variable {P : Type} [BEq P]

/-- Puts an edge into a table of keys, or takes out the key that is the same. -/
def toggleBy (same : Edge P → Edge P → Bool) (keys : List (Edge P)) (e : Edge P) :
    List (Edge P) :=
  if keys.any (same e) then keys.eraseP (same e) else keys ++ [e]

/-- The edges of a list at the places where each of them is met last. -/
def lastMet : List (Edge P) → List (Edge P)
  | [] => []
  | e :: rest => if rest.contains e then lastMet rest else e :: lastMet rest

def isOdd (edges : List (Edge P)) (e : Edge P) : Bool :=
  edges.countP (· == e) % 2 == 1

/-- The edges that are met an odd number of times, where each of them is met last. -/
def oddMet (edges : List (Edge P)) : List (Edge P) :=
  (lastMet edges).filter (isOdd edges)

theorem lastMet_subset (edges : List (Edge P)) : lastMet edges ⊆ edges := by
  induction edges with
  | nil => exact List.Subset.refl []
  | cons e rest ih =>
      rw [lastMet]
      split
      · exact List.subset_cons_of_subset e ih
      · exact List.cons_subset_cons e ih

theorem distinct_lastMet (edges : List (Edge P)) : Distinct (lastMet edges) := by
  induction edges with
  | nil => exact List.Pairwise.nil
  | cons e rest ih =>
      rw [lastMet]
      split
      · exact ih
      · rename_i hnew
        refine List.pairwise_cons.2 ⟨fun f hf => ?_, ih⟩
        exact beq_eq_false_of_contains (Bool.eq_false_of_not_eq_true hnew)
          (lastMet_subset rest hf)

theorem distinct_oddMet (edges : List (Edge P)) : Distinct (oddMet edges) :=
  (distinct_lastMet edges).filter _

theorem lastMet_concat (edges : List (Edge P)) (x : Edge P) :
    lastMet (edges ++ [x]) = (lastMet edges).filter (fun e => !(e == x)) ++ [x] := by
  induction edges with
  | nil => rfl
  | cons e rest ih =>
      have hcontains : (rest ++ [x]).contains e = (rest.contains e || e == x) := by
        simp
      rw [List.cons_append, lastMet, lastMet, hcontains, ih]
      cases rest.contains e <;> cases hex : e == x <;> simp [hex]

theorem isOdd_concat (edges : List (Edge P)) (x e : Edge P) :
    isOdd (edges ++ [x]) e = (isOdd edges e ^^ (x == e)) := by
  rw [isOdd, isOdd, List.countP_append, List.countP_singleton]
  rcases Nat.mod_two_eq_zero_or_one (edges.countP (· == e)) with hcount | hcount <;>
    cases x == e <;> simp [hcount, Nat.add_mod]

section Equivalence

variable [PartialEquivBEq P] {edges : List (Edge P)}

theorem toggleBy_beq (keys : List (Edge P)) (e : Edge P) :
    toggleBy (· == ·) keys e = toggle keys e := by
  have hcomm : (fun f => e == f) = (fun f => f == e) := funext fun f => BEq.comm
  rw [toggleBy, toggle, List.contains_eq_any_beq, List.erase_eq_eraseP', hcomm]

theorem contains_lastMet (edges : List (Edge P)) (e : Edge P) :
    (lastMet edges).contains e = edges.contains e := by
  induction edges with
  | nil => rfl
  | cons f rest ih =>
      rw [lastMet, List.contains_cons]
      split
      · rename_i hagain
        rw [ih]
        cases hef : e == f with
        | true => rw [List.contains_congr hef, hagain, Bool.true_or]
        | false => rw [Bool.false_or]
      · rw [List.contains_cons, ih]

theorem isOdd_congr (edges : List (Edge P)) {e f : Edge P} (hef : (e == f) = true) :
    isOdd edges e = isOdd edges f := by
  have hcount : edges.countP (· == e) = edges.countP (· == f) :=
    List.countP_congr fun g _ => by rw [BEq.congr_right hef]
  rw [isOdd, isOdd, hcount]

theorem contains_of_isOdd {e : Edge P} (he : isOdd edges e = true) :
    edges.contains e = true := by
  have hcount : edges.countP (· == e) ≠ 0 := by
    intro hzero
    rw [isOdd, hzero] at he
    cases he
  obtain ⟨f, hf, hfe⟩ := List.countP_pos_iff.1 (Nat.pos_of_ne_zero hcount)
  exact List.contains_iff_exists_mem_beq.2 ⟨f, hf, BEq.symm hfe⟩

theorem contains_oddMet (edges : List (Edge P)) (e : Edge P) :
    (oddMet edges).contains e = isOdd edges e := by
  have hsplit : (oddMet edges).contains e = (edges.contains e && isOdd edges e) := by
    rw [oddMet, List.contains_filter, ← contains_lastMet edges e,
      List.contains_eq_any_beq, Bool.eq_iff_iff]
    simp only [List.any_eq_true, Bool.and_eq_true, ← exists_and_right, and_assoc]
    refine exists_congr fun f => and_congr_right fun _ => and_congr_right fun hef => ?_
    rw [isOdd_congr edges hef]
  rw [hsplit]
  cases hodd : isOdd edges e with
  | true => rw [contains_of_isOdd hodd, Bool.true_and]
  | false => rw [Bool.and_false]

/-- One more edge moves its equals out of sight, and is seen itself if it
makes their number odd. -/
theorem oddMet_concat {x : Edge P} (hself : (x == x) = true) :
    oddMet (edges ++ [x]) =
      (oddMet edges).filter (fun e => !(e == x)) ++
        if isOdd edges x then [] else [x] := by
  have hlast :
      [x].filter (isOdd (edges ++ [x])) = if isOdd edges x then [] else [x] := by
    rw [List.filter_singleton, isOdd_concat, hself]
    cases isOdd edges x <;> rfl
  rw [oddMet, oddMet, lastMet_concat, List.filter_append, hlast, List.filter_filter,
    List.filter_filter]
  congr 1
  apply List.filter_congr
  intro e _
  rw [isOdd_concat, BEq.comm (a := x)]
  cases e == x <;> simp

theorem border_eq_oddMet (hself : ∀ e ∈ edges, (e == e) = true) :
    border edges = oddMet edges := by
  induction edges using List.reverseRecOn with
  | nil => rfl
  | append_singleton edges x ih =>
      have hold := ih fun e he => hself e (by simp [he])
      rw [border_concat, hold, toggle, contains_oddMet,
        oddMet_concat (hself x (by simp)), (distinct_oddMet edges).erase_eq_filter]
      split
      · rw [List.append_nil]
      · rename_i heven
        rw [filter_ne_of_contains]
        rw [contains_oddMet, Bool.eq_false_of_not_eq_true heven]

end Equivalence

/-- Between finite points the border is what a table of keys holds after all edges
were put in or taken out: the edges that are met an odd number of times, each once,
where it is met last. -/
theorem border_keeps_odd {edges : List (Edge Point)}
    (hfinite : ∀ e ∈ edges, e.IsFinite) :
    border edges = oddMet edges ∧ edges.foldl (toggleBy sameKey) [] = oddMet edges ∧
      Distinct (border edges) ∧
      ∀ e, (border edges).contains e = isOdd edges e := by
  have hself : ∀ e ∈ edges, (e == e) = true := fun e he => (hfinite e he).beq_self
  have hborder := border_eq_oddMet hself
  have hkeys : edges.foldl (toggleBy sameKey) [] = border edges := by
    apply List.foldl_ext
    intro keys e he
    have hsame : e.sameKey = (e == ·) := funext (sameKey_eq (hfinite e he))
    rw [← toggleBy_beq, toggleBy, toggleBy, hsame]
  refine ⟨hborder, hkeys.trans hborder, ?_, ?_⟩
  · rw [hborder]
    exact distinct_oddMet edges
  · rw [hborder]
    exact contains_oddMet edges

/-- Three edges between two points, one of them given with a zero of the other sign, and
another edge that is met in between. -/
def fan : List (Edge Point) :=
  [⟨⟨0, 0, 0⟩, ⟨1, 0, 0⟩⟩, ⟨⟨1, 0, 0⟩, ⟨0, 1, 0⟩⟩, ⟨⟨1, 0, 0⟩, ⟨-0.0, 0, 0⟩⟩,
    ⟨⟨0, 0, -0.0⟩, ⟨1, 0, 0⟩⟩]

theorem border_keeps_odd_fan :
    (∀ e ∈ fan, e.IsFinite) ∧
      border fan = [⟨⟨1, 0, 0⟩, ⟨0, 1, 0⟩⟩, ⟨⟨0, 0, -0.0⟩, ⟨1, 0, 0⟩⟩] ∧
      fan.foldl (toggleBy sameKey) [] = border fan ∧
      (border fan).contains ⟨⟨1, 0, 0⟩, ⟨0, 0, 0⟩⟩ = true := by
  have hfinite : ∀ e ∈ fan, e.IsFinite := by decide
  obtain ⟨hborder, hkeys, -, hcontains⟩ := border_keeps_odd hfinite
  exact ⟨hfinite, hborder.trans (by decide), hkeys.trans hborder.symm,
    (hcontains _).trans (by decide)⟩

end Edge
end LatticeHull
