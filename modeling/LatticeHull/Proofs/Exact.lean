import LatticeHull.Mesh
import LatticeHull.Proofs.Binary.Whole
import LatticeHull.Proofs.Equality
import LatticeHull.Proofs.Mesh.Convex

/-!
# Exact geometry on small blocks

The half-space test takes the product of three coordinates.  For blocks whose coordinates
are at most `2 ^ 16` in absolute value every number that it meets is a whole number below
`2 ^ 53`, so machine numbers give the answers of whole numbers.
-/

namespace LatticeHull

/-!
## Numbers with their history

A traced number is computed like any other number and keeps all numbers that were
met on the way to it.  The geometry is written once for all kinds of scalars, so the
same definitions that run on machine numbers also run on traced ones, and then say
which numbers they meet.

If whole numbers go in and no result is too large, whole numbers are all that is met.
-/

/-- A number and all numbers that were met on the way to it, itself among them. -/
structure Traced (α : Type) where
  value : α
  steps : List α

namespace Traced

section Scalars

variable {α : Type}

def given (a : α) : Traced α where
  value := a
  steps := [a]

def join (f : α → α → α) (u v : Traced α) : Traced α where
  value := f u.value v.value
  steps := f u.value v.value :: (u.steps ++ v.steps)

variable [Scalar α]

instance : Scalar (Traced α) where
  add := join (· + ·)
  sub := join (· - ·)
  mul := join (· * ·)
  beq u v := u.value == v.value
  less u v := Scalar.less u.value v.value
  ofInt n := given (Scalar.ofInt n)

@[simp] theorem value_larger (u v : Traced α) :
    (Scalar.larger u v).value = Scalar.larger u.value v.value := by
  have hless : Scalar.less u v = Scalar.less u.value v.value := rfl
  rw [Scalar.larger, Scalar.larger, hless]
  split <;> rfl

end Scalars

end Traced

/-! ### The geometry of traced numbers -/

section Geometry

variable {α : Type}

def Vec3.traced (p : Vec3 α) : Vec3 (Traced α) :=
  p.map .given

def Triangle.traced (t : Triangle α) : Triangle (Traced α) :=
  ⟨t.a.traced, t.b.traced, t.c.traced⟩

variable [Scalar α]

namespace Triangle

/-- All numbers that the half-space tests of a triangle meet at a point: those on the way
to the heights of the corners and of the point, and the greatest height of a corner. -/
def steps (t : Triangle α) (p : Vec3 α) : List α :=
  t.offset :: (t.corners ++ [p]).flatMap fun q => (t.traced.normal.dot q.traced).steps

theorem value_dot_traced (t : Triangle α) (p : Vec3 α) :
    (t.traced.normal.dot p.traced).value = t.normal.dot p := rfl

theorem value_offset_traced (t : Triangle α) : t.traced.offset.value = t.offset := by
  simp only [offset, Traced.value_larger]
  rfl

/-- Tracing only looks on: traced triangles answer as the triangles themselves do. -/
theorem above_traced (t : Triangle α) (p : Vec3 α) :
    t.traced.above p.traced = t.above p := by
  have hless : t.traced.above p.traced =
      Scalar.less t.traced.offset.value (t.traced.normal.dot p.traced).value := rfl
  rw [hless, value_offset_traced, value_dot_traced, above]

theorem below_traced (t : Triangle α) (p : Vec3 α) :
    t.traced.below p.traced = t.below p := by
  have hless : t.traced.below p.traced =
      Scalar.less (t.traced.normal.dot p.traced).value t.traced.offset.value := rfl
  rw [hless, value_offset_traced, value_dot_traced, below]

end Triangle
end Geometry

/-! ### Whole numbers on the way -/

namespace Binary

/-- Whether a machine number equals a whole number below `2 ^ 53` in absolute value. -/
def IsExact (x : Float) : Prop :=
  ∃ n : Int, Holds x n ∧ n.natAbs < 2 ^ 53

end Binary

namespace Traced

/-- Whether a traced number equals a whole number up to a bound, and only whole numbers
were met on the way to it. -/
structure Holds (u : Traced Float) (n : Int) (bound : Nat) : Prop where
  value : Binary.Holds u.value n
  le : n.natAbs ≤ bound
  exact : ∀ x ∈ u.steps, Binary.IsExact x

namespace Holds

variable {u v : Traced Float} {a b : Int} {m n : Nat}

theorem given {x : Float} (hx : Binary.Holds x a) (ha : a.natAbs ≤ m) (hm : m < 2 ^ 53) :
    (Traced.given x).Holds a m where
  value := hx
  le := ha
  exact := by
    intro y hy
    obtain rfl := List.mem_singleton.1 hy
    exact ⟨a, hx, by omega⟩

/-- What is computed from two numbers is one more number on the way. -/
theorem join (hu : u.Holds a m) (hv : v.Holds b n) {f : Float → Float → Float} {c : Int}
    {k : Nat} (hf : Binary.Holds (f u.value v.value) c) (hc : c.natAbs ≤ k)
    (hk : k < 2 ^ 53) :
    (Traced.join f u v).Holds c k where
  value := hf
  le := hc
  exact := by
    intro x hx
    rcases List.mem_cons.1 hx with rfl | hx
    · exact ⟨c, hf, by omega⟩
    · exact (List.mem_append.1 hx).elim (hu.exact x) (hv.exact x)

theorem add (hu : u.Holds a m) (hv : v.Holds b n) (hsmall : m + n < 2 ^ 53) :
    (u + v).Holds (a + b) (m + n) := by
  have hle : (a + b).natAbs ≤ m + n :=
    (Int.natAbs_add_le a b).trans (Nat.add_le_add hu.le hv.le)
  exact hu.join hv (Binary.holds_add hu.value hv.value (by omega)) hle hsmall

theorem sub (hu : u.Holds a m) (hv : v.Holds b n) (hsmall : m + n < 2 ^ 53) :
    (u - v).Holds (a - b) (m + n) := by
  have hle : (a - b).natAbs ≤ m + n :=
    (Int.natAbs_sub_le a b).trans (Nat.add_le_add hu.le hv.le)
  exact hu.join hv (Binary.holds_sub hu.value hv.value (by omega)) hle hsmall

theorem mul (hu : u.Holds a m) (hv : v.Holds b n) (hsmall : m * n < 2 ^ 53) :
    (u * v).Holds (a * b) (m * n) := by
  have hle : (a * b).natAbs ≤ m * n := by
    rw [Int.natAbs_mul]
    exact Nat.mul_le_mul hu.le hv.le
  exact hu.join hv (Binary.holds_mul hu.value hv.value (by omega)) hle hsmall

end Holds
end Traced

namespace Vec3

/-- Whether traced numbers equal the coordinates of a block, none of which
exceeds a bound. -/
structure HoldsTraced (p : Vec3 (Traced Float)) (b : Block) (bound : Nat) : Prop where
  x : p.x.Holds b.x bound
  y : p.y.Holds b.y bound
  z : p.z.Holds b.z bound

namespace HoldsTraced

variable {p q : Vec3 (Traced Float)} {u v : Block} {m n : Nat}

theorem sub (hp : p.HoldsTraced u m) (hq : q.HoldsTraced v n) (hsmall : m + n < 2 ^ 53) :
    (p - q).HoldsTraced (u - v) (m + n) :=
  ⟨hp.x.sub hq.x hsmall, hp.y.sub hq.y hsmall, hp.z.sub hq.z hsmall⟩

theorem cross (hp : p.HoldsTraced u m) (hq : q.HoldsTraced v n)
    (hsmall : m * n + m * n < 2 ^ 53) :
    (p.cross q).HoldsTraced (u.cross v) (m * n + m * n) := by
  have hproduct : m * n < 2 ^ 53 := by omega
  exact ⟨((hp.y.mul hq.z hproduct).sub (hp.z.mul hq.y hproduct) hsmall),
    ((hp.z.mul hq.x hproduct).sub (hp.x.mul hq.z hproduct) hsmall),
    ((hp.x.mul hq.y hproduct).sub (hp.y.mul hq.x hproduct) hsmall)⟩

theorem dot (hp : p.HoldsTraced u m) (hq : q.HoldsTraced v n)
    (hsmall : m * n + m * n + m * n < 2 ^ 53) :
    (p.dot q).Holds (u.dot v) (m * n + m * n + m * n) := by
  have hproduct : m * n < 2 ^ 53 := by omega
  have hpartial := (hp.x.mul hq.x hproduct).add (hp.y.mul hq.y hproduct) (by omega)
  exact hpartial.add (hp.z.mul hq.z hproduct) hsmall

end HoldsTraced
end Vec3

/-! ## Half-space tests -/

open Binary

namespace Vec3

def InRange (b : Block) : Prop :=
  b.x.natAbs ≤ 2 ^ 16 ∧ b.y.natAbs ≤ 2 ^ 16 ∧ b.z.natAbs ≤ 2 ^ 16

instance (b : Block) : Decidable b.InRange :=
  inferInstanceAs (Decidable (_ ∧ _ ∧ _))

/-- Whether machine numbers equal the coordinates of a block, none of
which exceeds a bound. -/
structure Holds (p : Point) (b : Block) (bound : Nat) : Prop where
  x : Binary.Holds p.x b.x
  y : Binary.Holds p.y b.y
  z : Binary.Holds p.z b.z
  x_le : b.x.natAbs ≤ bound
  y_le : b.y.natAbs ≤ bound
  z_le : b.z.natAbs ≤ bound

theorem holds_ofBlock {b : Block} (hb : b.InRange) : Holds (ofBlock b) b (2 ^ 16) where
  x := holds_ofInt (by have := hb.1; omega)
  y := holds_ofInt (by have := hb.2.1; omega)
  z := holds_ofInt (by have := hb.2.2; omega)
  x_le := hb.1
  y_le := hb.2.1
  z_le := hb.2.2

/-- A point that compares equal to a block of exact coordinates stands for it. -/
theorem holds_of_beq_of_le {p : Point} {b : Block} {bound : Nat}
    (hbound : bound < 2 ^ 53)
    (hb : b.x.natAbs ≤ bound ∧ b.y.natAbs ≤ bound ∧ b.z.natAbs ≤ bound)
    (heq : (p == ofBlock b) = true) : Holds p b bound := by
  obtain ⟨hx, hy, hz⟩ := beq_iff_coordinates.1 heq
  obtain ⟨hbx, hby, hbz⟩ := hb
  exact ⟨Binary.holds_of_beq (holds_ofInt (by omega)) hx,
    Binary.holds_of_beq (holds_ofInt (by omega)) hy,
    Binary.holds_of_beq (holds_ofInt (by omega)) hz, hbx, hby, hbz⟩

theorem holds_of_beq {p : Point} {b : Block} (hb : b.InRange)
    (heq : (p == ofBlock b) = true) : Holds p b (2 ^ 16) :=
  holds_of_beq_of_le (by norm_num) hb heq

theorem Holds.traced {p : Point} {b : Block} {bound : Nat} (hp : Holds p b bound)
    (hbound : bound < 2 ^ 53) : p.traced.HoldsTraced b bound where
  x := .given hp.x hp.x_le hbound
  y := .given hp.y hp.y_le hbound
  z := .given hp.z hp.z_le hbound

end Vec3

theorem larger_of_holds {x y : Float} {a b : Int} (hx : Binary.Holds x a)
    (hy : Binary.Holds y b) (ha : a.natAbs < 2 ^ 53) (hb : b.natAbs < 2 ^ 53) :
    Binary.Holds (Scalar.larger x y) (Scalar.larger a b) ∧
      (Scalar.larger a b).natAbs < 2 ^ 53 := by
  have hless : Scalar.less a b = decide (a < b) := rfl
  rw [Scalar.larger, Scalar.larger, less_of_holds hx hy ha hb, hless]
  split
  · exact ⟨hy, hb⟩
  · exact ⟨hx, ha⟩

namespace Triangle

def machine (t : Triangle Int) : Triangle Float :=
  t.map Vec3.ofBlock

def InRange (t : Triangle Int) : Prop :=
  ∀ c ∈ t.corners, c.InRange

instance (t : Triangle Int) : Decidable t.InRange :=
  inferInstanceAs (Decidable (∀ c ∈ t.corners, c.InRange))

/-- Whether the corners of a triangle of machine numbers equal those of a
triangle in range. -/
structure Holds (T : Triangle Float) (t : Triangle Int) : Prop where
  a : T.a.Holds t.a (2 ^ 16)
  b : T.b.Holds t.b (2 ^ 16)
  c : T.c.Holds t.c (2 ^ 16)

theorem holds_machine {t : Triangle Int} (ht : t.InRange) : t.machine.Holds t := by
  obtain ⟨ha, hb, hc⟩ := forall_mem_corners.1 ht
  exact ⟨Vec3.holds_ofBlock ha, Vec3.holds_ofBlock hb, Vec3.holds_ofBlock hc⟩

namespace Holds

variable {T : Triangle Float} {t : Triangle Int} (hT : T.Holds t)

include hT

/-- The height of a point along the normal, and all that is met on the way to it. -/
theorem dot {p : Point} {q : Block} (hp : p.Holds q (2 ^ 16)) :
    (T.traced.normal.dot p.traced).Holds (t.normal.dot q) (3 * 2 ^ 51) := by
  have ha := hT.a.traced (by norm_num)
  have hb := hT.b.traced (by norm_num)
  have hc := hT.c.traced (by norm_num)
  have hnormal : T.traced.normal.HoldsTraced t.normal _ :=
    (hb.sub ha (by norm_num)).cross (hc.sub ha (by norm_num)) (by norm_num)
  exact hnormal.dot (hp.traced (by norm_num)) (by norm_num)

theorem dot_value {p : Point} {q : Block} (hp : p.Holds q (2 ^ 16)) :
    Binary.Holds (T.normal.dot p) (t.normal.dot q) ∧
      (t.normal.dot q).natAbs < 2 ^ 53 := by
  have hdot := hT.dot hp
  exact ⟨hdot.value, hdot.le.trans_lt (by norm_num)⟩

theorem offset : Binary.Holds T.offset t.offset ∧ t.offset.natAbs < 2 ^ 53 := by
  obtain ⟨ha, ha_lt⟩ := hT.dot_value hT.a
  obtain ⟨hb, hb_lt⟩ := hT.dot_value hT.b
  obtain ⟨hc, hc_lt⟩ := hT.dot_value hT.c
  obtain ⟨hfirst, hfirst_lt⟩ := larger_of_holds ha hb ha_lt hb_lt
  exact larger_of_holds hfirst hc hfirst_lt hc_lt

/-- On small blocks the half-space tests of machine numbers are exact. -/
theorem above_eq {p : Point} {q : Block} (hp : p.Holds q (2 ^ 16)) :
    T.above p = t.above q := by
  obtain ⟨hoffset, hoffset_lt⟩ := hT.offset
  obtain ⟨hdot, hdot_lt⟩ := hT.dot_value hp
  exact less_of_holds hoffset hdot hoffset_lt hdot_lt

theorem below_eq {p : Point} {q : Block} (hp : p.Holds q (2 ^ 16)) :
    T.below p = t.below q := by
  obtain ⟨hoffset, hoffset_lt⟩ := hT.offset
  obtain ⟨hdot, hdot_lt⟩ := hT.dot_value hp
  exact less_of_holds hdot hoffset hdot_lt hoffset_lt

end Holds

theorem above_machine {t : Triangle Int} (ht : t.InRange) {p : Point} {q : Block}
    (hp : p.Holds q (2 ^ 16)) : t.machine.above p = t.above q :=
  (holds_machine ht).above_eq hp

end Triangle

/-!
## Exact growth of small meshes

A mesh of machine numbers grows as the mesh of whole numbers does, as long as all
corners and the new point are in range: the half-space tests agree, and so do the
comparisons that find the border.
-/

namespace Vec3

theorem beq_ofBlock {u v : Block} (hu : u.InRange) (hv : v.InRange) :
    ((ofBlock u : Point) == ofBlock v) = (u == v) := by
  have hcoordinate : ∀ a b : Int, a.natAbs ≤ 2 ^ 16 → b.natAbs ≤ 2 ^ 16 →
      (Float.ofInt a == Float.ofInt b) = (a == b) := by
    intro a b ha hb
    exact beq_of_holds (holds_ofInt (by omega)) (holds_ofInt (by omega)) (by omega)
      (by omega)
  have hx := hcoordinate u.x v.x hu.1 hv.1
  have hy := hcoordinate u.y v.y hu.2.1 hv.2.1
  have hz := hcoordinate u.z v.z hu.2.2 hv.2.2
  change (Float.ofInt u.x == Float.ofInt v.x && (Float.ofInt u.y == Float.ofInt v.y &&
    Float.ofInt u.z == Float.ofInt v.z)) = _
  rw [hx, hy, hz]
  rfl

end Vec3

namespace Edge

def InRange (e : Edge Block) : Prop :=
  e.start.InRange ∧ e.stop.InRange

def machine (e : Edge Block) : Edge Point :=
  e.map Vec3.ofBlock

theorem beq_machine {e f : Edge Block} (he : e.InRange) (hf : f.InRange) :
    (e.machine == f.machine) = (e == f) := by
  change (((Vec3.ofBlock e.start : Point) == Vec3.ofBlock f.start &&
      (Vec3.ofBlock e.stop : Point) == Vec3.ofBlock f.stop) ||
    ((Vec3.ofBlock e.start : Point) == Vec3.ofBlock f.stop &&
      (Vec3.ofBlock e.stop : Point) == Vec3.ofBlock f.start)) = _
  rw [Vec3.beq_ofBlock he.1 hf.1, Vec3.beq_ofBlock he.2 hf.2, Vec3.beq_ofBlock he.1 hf.2,
    Vec3.beq_ofBlock he.2 hf.1]
  rfl

end Edge

namespace Mesh

def machine (m : Mesh Int) : Mesh Float :=
  List.map Triangle.machine m

def InRange (m : Mesh Int) : Prop :=
  ∀ t ∈ m, t.InRange

variable {m : Mesh Int} {p : Block}

theorem InRange.edge (h : m.InRange) {e : Edge Block} (he : e ∈ m.edges) :
    e.InRange := by
  obtain ⟨t, ht, het⟩ := List.mem_flatMap.1 he
  obtain ⟨ha, hb, hc⟩ := Triangle.forall_mem_corners.1 (h t ht)
  simp only [Triangle.edges, List.mem_cons, List.not_mem_nil, or_false] at het
  rcases het with rfl | rfl | rfl
  · exact ⟨ha, hb⟩
  · exact ⟨hb, hc⟩
  · exact ⟨hc, ha⟩

theorem InRange.filter (h : m.InRange) (keep : Triangle Int → Bool) :
    InRange (List.filter keep m) :=
  fun t ht => h t (List.mem_of_mem_filter ht)

theorem InRange.grow (h : m.InRange) (hp : p.InRange) :
    InRange (m.grow Triangle.above p) := by
  intro t ht
  simp only [Mesh.grow, List.partition_eq_filter_filter, List.mem_append,
    List.mem_filter, cone, List.mem_map] at ht
  rcases ht with ⟨hmem, -⟩ | ⟨e, he, rfl⟩
  · exact h t hmem
  · have hedge := (h.filter _).edge (Edge.border_subset _ he)
    intro c hc
    simp only [Edge.cone, Triangle.corners, List.mem_cons, List.not_mem_nil, or_false]
      at hc
    rcases hc with rfl | rfl | rfl
    · exact hedge.1
    · exact hedge.2
    · exact hp

/-- On small blocks a mesh of machine numbers grows as the mesh of whole numbers does. -/
theorem grow_machine (h : m.InRange) (hp : p.InRange) :
    m.machine.grow Triangle.above (Vec3.ofBlock p) = (m.grow Triangle.above p).machine :=
  grow_map_of (fun t ht => Triangle.above_machine (h t ht) (Vec3.holds_ofBlock hp))
    fun _ he _ hf => Edge.beq_machine (h.edge he) (h.edge hf)

end Mesh
end LatticeHull
