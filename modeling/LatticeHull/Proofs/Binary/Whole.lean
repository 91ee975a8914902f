import LatticeHull.Proofs.Binary.Rounding
import LatticeHull.Vec3

/-!
# Whole numbers among machine numbers

On whole numbers below `2 ^ 53` the operations of machine numbers are exact, as long as
the results are below `2 ^ 53` too.  The one thing that tells them from whole numbers is
the sign of zero, which no comparison sees.
-/

namespace LatticeHull
namespace Binary

open Float.Model Float.Model.UnpackedFloat

def signOf (n : Int) : Sign :=
  if n < 0 then .negative else .positive

/-- The machine number for a whole number below `2 ^ 53`. -/
def whole (n : Int) : UnpackedFloat :=
  if hn : n.natAbs = 0 then .zero .positive
  else .finite (signOf n) (n.natAbs * 2 ^ places n.natAbs) (-(places n.natAbs : Int))
    (stored_pos hn)

/-- Whether a machine number stands for a whole number.  Both zeros stand for zero. -/
def IsWhole (u : UnpackedFloat) (n : Int) : Prop :=
  if n = 0 then ∃ s, u = .zero s else u = whole n

theorem whole_zero : whole 0 = .zero .positive := rfl

theorem whole_of_ne {n : Int} (hn : n ≠ 0) :
    whole n = .finite (signOf n) (n.natAbs * 2 ^ places n.natAbs)
      (-(places n.natAbs : Int))
      (stored_pos (Int.natAbs_ne_zero.2 hn)) :=
  dif_neg (Int.natAbs_ne_zero.2 hn)

theorem IsWhole.zero (s : Sign) : IsWhole (.zero s) 0 := by
  rw [IsWhole, if_pos rfl]
  exact ⟨s, rfl⟩

theorem isWhole_zero_iff {u : UnpackedFloat} : IsWhole u 0 ↔ ∃ s, u = .zero s := by
  rw [IsWhole, if_pos rfl]

theorem isWhole_iff_of_ne {u : UnpackedFloat} {n : Int} (hn : n ≠ 0) :
    IsWhole u n ↔ u = whole n := by
  rw [IsWhole, if_neg hn]

theorem isWhole_whole (n : Int) : IsWhole (whole n) n := by
  by_cases hn : n = 0
  · rw [hn]
    exact IsWhole.zero .positive
  · exact (isWhole_iff_of_ne hn).2 rfl

theorem whole_of_neg {n : Int} (hn : n < 0) :
    whole n = .finite .negative (n.natAbs * 2 ^ places n.natAbs)
      (-(places n.natAbs : Int))
      (stored_pos (Int.natAbs_ne_zero.2 hn.ne)) := by
  rw [whole_of_ne hn.ne]
  simp only [signOf, hn, if_true]

theorem whole_of_pos {n : Int} (hn : 0 < n) :
    whole n = .finite .positive (n.natAbs * 2 ^ places n.natAbs)
      (-(places n.natAbs : Int))
      (stored_pos (Int.natAbs_ne_zero.2 hn.ne')) := by
  rw [whole_of_ne hn.ne']
  simp only [signOf, not_lt.2 hn.le, if_false]

theorem neg_whole {n : Int} (hn : n ≠ 0) : UnpackedFloat.neg (whole n) = whole (-n) := by
  rcases lt_or_gt_of_ne hn with hneg | hpos
  · simp only [whole_of_neg hneg, whole_of_pos (Int.neg_pos_of_neg hneg), Int.natAbs_neg]
    rfl
  · simp only [whole_of_pos hpos, whole_of_neg (Int.neg_neg_of_pos hpos), Int.natAbs_neg]
    rfl

theorem log2_natAbs_le {n : Int} (hn : n.natAbs < 2 ^ 53) : n.natAbs.log2 ≤ 52 := by
  by_cases hzero : n.natAbs = 0
  · simp [hzero]
  · exact Nat.le_of_lt_succ ((Nat.log2_lt hzero).2 hn)

theorem apply_signOf (n : Int) (k : Nat) :
    (signOf n).apply ((n.natAbs * k : Nat) : Int) = n * k := by
  unfold signOf
  split
  · rw [Sign.apply]
    push_cast
    rw [← neg_mul, abs_of_neg ‹_›, neg_neg]
  · rw [Sign.apply]
    push_cast
    rw [abs_of_nonneg (not_lt.1 ‹_›)]

theorem unpack_pack_whole {n : Int} (hn : n.natAbs < 2 ^ 53) :
    (Float.Model.pack (whole n)).unpack = whole n := by
  by_cases hzero : n = 0
  · rw [hzero, whole_zero, unpack_pack_zero]
  · have hplaces : places n.natAbs ≤ 52 := Nat.sub_le _ _
    rw [whole_of_ne hzero]
    exact unpack_pack_normal _ _ (log2_stored (Int.natAbs_ne_zero.2 hzero)
      (log2_natAbs_le hn))
      (by omega) (by omega)

/-! ### Arithmetic -/

theorem normalize_exact {n : Int} (hn : n.natAbs < 2 ^ 53) (k : Nat) :
    UnpackedFloat.normalize Format.binary64 (n * (2 ^ k : Nat)) (-k) .positive =
      whole n := by
  have hpow : 0 < ((2 ^ k : Nat) : Int) := by positivity
  rcases lt_trichotomy n 0 with hneg | rfl | hpos
  · have hproduct : n * (2 ^ k : Nat) < 0 := mul_neg_of_neg_of_pos hneg hpow
    have hnat : (-(n * (2 ^ k : Nat))).toNat = n.natAbs * 2 ^ k := by
      have heq : -(n * (2 ^ k : Nat)) = ((n.natAbs * 2 ^ k : Nat) : Int) := by
        rw [Nat.cast_mul, Int.natCast_natAbs, abs_of_neg hneg, neg_mul]
      rw [heq, Int.toNat_natCast]
    have hround :=
      round_exact .negative (Int.natAbs_ne_zero.2 hneg.ne) (log2_natAbs_le hn) k
    rw [UnpackedFloat.normalize, compare_lt_iff_lt.2 hproduct, hnat, whole_of_ne hneg.ne,
      signOf, if_pos hneg]
    exact hround
  · rw [zero_mul, UnpackedFloat.normalize, compare_eq_iff_eq.2 rfl, whole_zero]
  · have hproduct : 0 < n * (2 ^ k : Nat) := mul_pos hpos hpow
    have hnat : (n * (2 ^ k : Nat)).toNat = n.natAbs * 2 ^ k := by
      have heq : n * (2 ^ k : Nat) = ((n.natAbs * 2 ^ k : Nat) : Int) := by
        rw [Nat.cast_mul, Int.natCast_natAbs, abs_of_pos hpos]
      rw [heq, Int.toNat_natCast]
    have hround :=
      round_exact .positive (Int.natAbs_ne_zero.2 hpos.ne') (log2_natAbs_le hn) k
    rw [UnpackedFloat.normalize, compare_gt_iff_gt.2 hproduct, hnat,
      whole_of_ne hpos.ne', signOf, if_neg (by omega)]
    exact hround

/-- Two stored significands brought to a common exponent. -/
theorem decrease_stored (n : Int) {p k : Nat} (hp : p ≤ k) :
    (signOf n).apply
      ((decreaseExponent (n.natAbs * 2 ^ p) (-(p : Int)) (-(k : Int))).1 : Nat) =
      n * (2 ^ k : Nat) := by
  have hshift : (-(p : Int) - -(k : Int)).toNat = k - p := by omega
  simp only [decreaseExponent, hshift, Nat.shiftLeft_eq]
  rw [Nat.mul_assoc, ← pow_add, Nat.add_sub_cancel' hp, apply_signOf]

theorem add_of_ne {a b : Int} (ha : a ≠ 0) (hb : b ≠ 0)
    (hsum : (a + b).natAbs < 2 ^ 53) :
    UnpackedFloat.add Format.binary64 (whole a) (whole b) = whole (a + b) := by
  have hmin : min (-(places a.natAbs : Int)) (-(places b.natAbs : Int)) =
      -((max (places a.natAbs) (places b.natAbs) : Nat) : Int) := by omega
  rw [whole_of_ne ha, whole_of_ne hb]
  simp only [UnpackedFloat.add, hmin]
  rw [decrease_stored a (le_max_left _ _), decrease_stored b (le_max_right _ _),
    ← add_mul]
  exact normalize_exact hsum _

theorem sub_of_ne {a b : Int} (ha : a ≠ 0) (hb : b ≠ 0)
    (hdiff : (a - b).natAbs < 2 ^ 53) :
    UnpackedFloat.sub Format.binary64 (whole a) (whole b) = whole (a - b) := by
  have hmin : min (-(places a.natAbs : Int)) (-(places b.natAbs : Int)) =
      -((max (places a.natAbs) (places b.natAbs) : Nat) : Int) := by omega
  rw [whole_of_ne ha, whole_of_ne hb]
  simp only [UnpackedFloat.sub, hmin]
  rw [decrease_stored a (le_max_left _ _), decrease_stored b (le_max_right _ _),
    ← sub_mul]
  exact normalize_exact hdiff _

/-- The sum of two whole numbers is exact, also in the sign of zero. -/
theorem add_whole {a b : Int} (hsum : (a + b).natAbs < 2 ^ 53) :
    UnpackedFloat.add Format.binary64 (whole a) (whole b) = whole (a + b) := by
  by_cases ha : a = 0
  · by_cases hb : b = 0
    · rw [ha, hb]
      rfl
    · rw [ha, zero_add, whole_zero, whole_of_ne hb]
      rfl
  · by_cases hb : b = 0
    · rw [hb, add_zero, whole_zero, whole_of_ne ha]
      rfl
    · exact add_of_ne ha hb hsum

theorem signOf_mul {a b : Int} (ha : a ≠ 0) (hb : b ≠ 0) :
    signOf a * signOf b = signOf (a * b) := by
  rcases lt_or_gt_of_ne ha with haneg | hapos
  · rcases lt_or_gt_of_ne hb with hbneg | hbpos
    · have hproduct := mul_pos_of_neg_of_neg haneg hbneg
      simp only [signOf, haneg, hbneg, if_true, not_lt.2 hproduct.le, if_false]
      rfl
    · have hproduct := mul_neg_of_neg_of_pos haneg hbpos
      simp only [signOf, haneg, not_lt.2 hbpos.le, hproduct, if_true, if_false]
      rfl
  · rcases lt_or_gt_of_ne hb with hbneg | hbpos
    · have hproduct := mul_neg_of_pos_of_neg hapos hbneg
      simp only [signOf, not_lt.2 hapos.le, hbneg, hproduct, if_true, if_false]
      rfl
    · have hproduct := mul_pos hapos hbpos
      simp only [signOf, not_lt.2 hapos.le, not_lt.2 hbpos.le,
        not_lt.2 hproduct.le, if_false]
      rfl

theorem places_mul_le {m n : Nat} (hm : m ≠ 0) (hn : n ≠ 0) :
    places (m * n) ≤ places m + places n := by
  have hlog : m.log2 + n.log2 ≤ (m * n).log2 := by
    rw [Nat.le_log2 (Nat.mul_ne_zero hm hn), pow_add]
    exact Nat.mul_le_mul (Nat.log2_self_le hm) (Nat.log2_self_le hn)
  unfold places
  omega

theorem mul_of_ne {a b : Int} (ha : a ≠ 0) (hb : b ≠ 0)
    (hproduct : (a * b).natAbs < 2 ^ 53) :
    UnpackedFloat.mul Format.binary64 (whole a) (whole b) = whole (a * b) := by
  have ha' := Int.natAbs_ne_zero.2 ha
  have hb' := Int.natAbs_ne_zero.2 hb
  have hab := mul_ne_zero ha hb
  have hplaces := places_mul_le ha' hb'
  rw [← Int.natAbs_mul] at hplaces
  have hmantissa : a.natAbs * 2 ^ places a.natAbs * (b.natAbs * 2 ^ places b.natAbs) =
      (a * b).natAbs * 2 ^ (places a.natAbs + places b.natAbs) := by
    rw [Int.natAbs_mul, pow_add]
    ring
  have hexponent : -(places a.natAbs : Int) + -(places b.natAbs : Int) =
      -((places a.natAbs + places b.natAbs : Nat) : Int) := by
    push_cast
    ring
  have hround := roundWithAccuracy_exact (signOf (a * b)) (Int.natAbs_ne_zero.2 hab)
    (log2_natAbs_le hproduct) hplaces
  rw [whole_of_ne ha, whole_of_ne hb, whole_of_ne hab]
  simp only [UnpackedFloat.mul, signOf_mul ha hb, hmantissa, hexponent]
  exact hround

/-! ### Comparison -/

theorem compare_stored {a b : Nat} (ha : a ≠ 0) (hb : b ≠ 0) (ha' : a.log2 ≤ 52)
    (hb' : b.log2 ≤ 52) :
    (compare (-(places a : Int)) (-(places b : Int))).then
      (compare (a * 2 ^ places a) (b * 2 ^ places b)) = compare a b := by
  have hless : ∀ {m n : Nat}, m ≠ 0 → n ≠ 0 → m.log2 ≤ 52 → n.log2 ≤ 52 → m < n →
      -(places m : Int) < -(places n : Int) ∨
        (places m = places n ∧ m * 2 ^ places m < n * 2 ^ places n) := by
    intro m n hm hn hm' hn' hmn
    have hlog : m.log2 ≤ n.log2 := by
      rw [Nat.le_log2 hn]
      exact (Nat.log2_self_le hm).trans hmn.le
    rcases hlog.lt_or_eq with hlt | heq
    · left
      unfold places
      omega
    · right
      have hplaces : places m = places n := by rw [places, places, heq]
      refine ⟨hplaces, ?_⟩
      rw [hplaces]
      exact Nat.mul_lt_mul_of_pos_right hmn (Nat.two_pow_pos _)
  rcases lt_trichotomy a b with hlt | rfl | hgt
  · rw [compare_lt_iff_lt.2 hlt]
    rcases hless ha hb ha' hb' hlt with hexponent | ⟨hexponent, hmantissa⟩
    · rw [compare_lt_iff_lt.2 hexponent]
      rfl
    · rw [compare_eq_iff_eq.2 (by rw [hexponent]), compare_lt_iff_lt.2 hmantissa]
      rfl
  · rw [compare_eq_iff_eq.2 rfl, compare_eq_iff_eq.2 rfl, compare_eq_iff_eq.2 rfl]
    rfl
  · rw [compare_gt_iff_gt.2 hgt]
    rcases hless hb ha hb' ha' hgt with hexponent | ⟨hexponent, hmantissa⟩
    · rw [compare_gt_iff_gt.2 hexponent]
      rfl
    · rw [compare_eq_iff_eq.2 (by rw [hexponent]), compare_gt_iff_gt.2 hmantissa]
      rfl

theorem compare_natAbs_of_neg {a b : Int} (ha : a < 0) (hb : b < 0) :
    (compare a.natAbs b.natAbs).swap = compare a b := by
  rcases lt_trichotomy a b with hlt | rfl | hgt
  · rw [compare_lt_iff_lt.2 hlt, compare_gt_iff_gt.2 (show b.natAbs < a.natAbs by omega)]
    rfl
  · rw [compare_eq_iff_eq.2 rfl, compare_eq_iff_eq.2 rfl]
    rfl
  · rw [compare_gt_iff_gt.2 hgt, compare_lt_iff_lt.2 (show a.natAbs < b.natAbs by omega)]
    rfl

theorem compare_natAbs_of_pos {a b : Int} (ha : 0 < a) (hb : 0 < b) :
    compare a.natAbs b.natAbs = compare a b := by
  rcases lt_trichotomy a b with hlt | rfl | hgt
  · rw [compare_lt_iff_lt.2 hlt, compare_lt_iff_lt.2 (show a.natAbs < b.natAbs by omega)]
  · rw [compare_eq_iff_eq.2 rfl, compare_eq_iff_eq.2 rfl]
  · rw [compare_gt_iff_gt.2 hgt, compare_gt_iff_gt.2 (show b.natAbs < a.natAbs by omega)]

/-- Comparison of whole numbers is exact and does not see the sign of zero. -/
theorem compare_isWhole {a b : Int} (ha : a.natAbs < 2 ^ 53) (hb : b.natAbs < 2 ^ 53)
    {u v : UnpackedFloat} (hu : IsWhole u a) (hv : IsWhole v b) :
    UnpackedFloat.compare u v = some (compare a b) := by
  rcases lt_trichotomy a 0 with haneg | rfl | hapos
  · rw [isWhole_iff_of_ne haneg.ne, whole_of_neg haneg] at hu
    rcases lt_trichotomy b 0 with hbneg | rfl | hbpos
    · rw [isWhole_iff_of_ne hbneg.ne, whole_of_neg hbneg] at hv
      have hstored :=
        compare_stored (Int.natAbs_ne_zero.2 haneg.ne) (Int.natAbs_ne_zero.2 hbneg.ne)
          (log2_natAbs_le ha) (log2_natAbs_le hb)
      rw [hu, hv, UnpackedFloat.compare, hstored, compare_natAbs_of_neg haneg hbneg]
    · obtain ⟨s, rfl⟩ := isWhole_zero_iff.1 hv
      rw [hu, compare_lt_iff_lt.2 haneg]
      rfl
    · rw [isWhole_iff_of_ne hbpos.ne', whole_of_pos hbpos] at hv
      rw [hu, hv, compare_lt_iff_lt.2 (haneg.trans hbpos)]
      rfl
  · obtain ⟨s, rfl⟩ := isWhole_zero_iff.1 hu
    rcases lt_trichotomy b 0 with hbneg | rfl | hbpos
    · rw [isWhole_iff_of_ne hbneg.ne, whole_of_neg hbneg] at hv
      rw [hv, compare_gt_iff_gt.2 hbneg]
      rfl
    · obtain ⟨s', rfl⟩ := isWhole_zero_iff.1 hv
      rfl
    · rw [isWhole_iff_of_ne hbpos.ne', whole_of_pos hbpos] at hv
      rw [hv, compare_lt_iff_lt.2 hbpos]
      rfl
  · rw [isWhole_iff_of_ne hapos.ne', whole_of_pos hapos] at hu
    rcases lt_trichotomy b 0 with hbneg | rfl | hbpos
    · rw [isWhole_iff_of_ne hbneg.ne, whole_of_neg hbneg] at hv
      rw [hu, hv, compare_gt_iff_gt.2 (hbneg.trans hapos)]
      rfl
    · obtain ⟨s, rfl⟩ := isWhole_zero_iff.1 hv
      rw [hu, compare_gt_iff_gt.2 hapos]
      rfl
    · rw [isWhole_iff_of_ne hbpos.ne', whole_of_pos hbpos] at hv
      have hstored :=
        compare_stored (Int.natAbs_ne_zero.2 hapos.ne') (Int.natAbs_ne_zero.2 hbpos.ne')
          (log2_natAbs_le ha) (log2_natAbs_le hb)
      rw [hu, hv, UnpackedFloat.compare, hstored, compare_natAbs_of_pos hapos hbpos]

theorem IsWhole.eq_zero {s : Sign} {n : Int} (h : IsWhole (.zero s) n) : n = 0 := by
  by_contra hn
  rw [isWhole_iff_of_ne hn, whole_of_ne hn] at h
  cases h

theorem isWhole_of_beq {u v : UnpackedFloat} {n : Int}
    (heq : UnpackedFloat.beq u v = true) (hv : IsWhole v n) : IsWhole u n := by
  obtain ⟨-, -, rfl | ⟨rfl, rfl⟩ | ⟨rfl, rfl⟩⟩ :=
    (beq_iff_ne_notANumber_and_eq u v).1 heq
  · exact hv
  · rw [hv.eq_zero]
    exact IsWhole.zero .positive
  · rw [hv.eq_zero]
    exact IsWhole.zero .negative

/-! ### Both zeros -/

theorem isWhole_unpack_pack {u : UnpackedFloat} {n : Int} (hn : n.natAbs < 2 ^ 53)
    (hu : IsWhole u n) : IsWhole (Float.Model.pack u).unpack n := by
  by_cases hzero : n = 0
  · subst hzero
    obtain ⟨s, rfl⟩ := isWhole_zero_iff.1 hu
    exact isWhole_zero_iff.2 ⟨s, unpack_pack_zero s⟩
  · rw [isWhole_iff_of_ne hzero] at hu ⊢
    rw [hu, unpack_pack_whole hn]

theorem isWhole_add {a b : Int} {u v : UnpackedFloat} (hu : IsWhole u a)
    (hv : IsWhole v b) (hsum : (a + b).natAbs < 2 ^ 53) :
    IsWhole (UnpackedFloat.add Format.binary64 u v) (a + b) := by
  by_cases ha : a = 0
  · subst ha
    obtain ⟨s, rfl⟩ := isWhole_zero_iff.1 hu
    by_cases hb : b = 0
    · subst hb
      obtain ⟨s', rfl⟩ := isWhole_zero_iff.1 hv
      cases s <;> cases s' <;> exact IsWhole.zero _
    · rw [(isWhole_iff_of_ne hb).1 hv, zero_add, whole_of_ne hb]
      exact (isWhole_iff_of_ne hb).2 (whole_of_ne hb).symm
  · rw [(isWhole_iff_of_ne ha).1 hu]
    by_cases hb : b = 0
    · subst hb
      obtain ⟨s, rfl⟩ := isWhole_zero_iff.1 hv
      rw [add_zero, whole_of_ne ha]
      exact (isWhole_iff_of_ne ha).2 (whole_of_ne ha).symm
    · rw [(isWhole_iff_of_ne hb).1 hv, add_of_ne ha hb hsum]
      exact isWhole_whole _

theorem isWhole_sub {a b : Int} {u v : UnpackedFloat} (hu : IsWhole u a)
    (hv : IsWhole v b) (hdiff : (a - b).natAbs < 2 ^ 53) :
    IsWhole (UnpackedFloat.sub Format.binary64 u v) (a - b) := by
  by_cases ha : a = 0
  · subst ha
    obtain ⟨s, rfl⟩ := isWhole_zero_iff.1 hu
    by_cases hb : b = 0
    · subst hb
      obtain ⟨s', rfl⟩ := isWhole_zero_iff.1 hv
      cases s <;> cases s' <;> exact IsWhole.zero _
    · have hneg : UnpackedFloat.sub Format.binary64 (.zero s) (whole b) =
          UnpackedFloat.neg (whole b) := by
        rw [whole_of_ne hb]
        rfl
      rw [(isWhole_iff_of_ne hb).1 hv, zero_sub, hneg, neg_whole hb]
      exact isWhole_whole _
  · rw [(isWhole_iff_of_ne ha).1 hu]
    by_cases hb : b = 0
    · subst hb
      obtain ⟨s, rfl⟩ := isWhole_zero_iff.1 hv
      rw [sub_zero, whole_of_ne ha]
      exact (isWhole_iff_of_ne ha).2 (whole_of_ne ha).symm
    · rw [(isWhole_iff_of_ne hb).1 hv, sub_of_ne ha hb hdiff]
      exact isWhole_whole _

theorem isWhole_mul {a b : Int} {u v : UnpackedFloat} (hu : IsWhole u a)
    (hv : IsWhole v b) (hproduct : (a * b).natAbs < 2 ^ 53) :
    IsWhole (UnpackedFloat.mul Format.binary64 u v) (a * b) := by
  by_cases ha : a = 0
  · subst ha
    obtain ⟨s, rfl⟩ := isWhole_zero_iff.1 hu
    rw [zero_mul]
    by_cases hb : b = 0
    · subst hb
      obtain ⟨s', rfl⟩ := isWhole_zero_iff.1 hv
      exact IsWhole.zero _
    · rw [(isWhole_iff_of_ne hb).1 hv, whole_of_ne hb]
      exact IsWhole.zero _
  · rw [(isWhole_iff_of_ne ha).1 hu]
    by_cases hb : b = 0
    · subst hb
      obtain ⟨s, rfl⟩ := isWhole_zero_iff.1 hv
      rw [mul_zero, whole_of_ne ha]
      exact IsWhole.zero _
    · rw [(isWhole_iff_of_ne hb).1 hv, mul_of_ne ha hb hproduct]
      exact isWhole_whole _

/-! ### Machine numbers -/

def Holds (x : Float) (n : Int) : Prop :=
  IsWhole x.toModel.unpack n

section Operations

variable {x y : Float} {a b : Int}

theorem holds_add (hx : Holds x a) (hy : Holds y b) (hsum : (a + b).natAbs < 2 ^ 53) :
    Holds (x + y) (a + b) :=
  isWhole_unpack_pack hsum (isWhole_add hx hy hsum)

theorem holds_sub (hx : Holds x a) (hy : Holds y b) (hdiff : (a - b).natAbs < 2 ^ 53) :
    Holds (x - y) (a - b) :=
  isWhole_unpack_pack hdiff (isWhole_sub hx hy hdiff)

theorem holds_mul (hx : Holds x a) (hy : Holds y b)
    (hproduct : (a * b).natAbs < 2 ^ 53) :
    Holds (x * y) (a * b) :=
  isWhole_unpack_pack hproduct (isWhole_mul hx hy hproduct)

theorem less_eq (x y : Float) :
    Scalar.less x y = UnpackedFloat.lt x.toModel.unpack y.toModel.unpack := by
  change decide (Float.lt x y = true) = _
  rw [Bool.decide_eq_true]
  exact Bool.decide_eq_true

theorem less_of_holds (hx : Holds x a) (hy : Holds y b) (ha : a.natAbs < 2 ^ 53)
    (hb : b.natAbs < 2 ^ 53) : Scalar.less x y = decide (a < b) := by
  rw [less_eq, UnpackedFloat.lt, compare_isWhole ha hb hx hy]
  rcases lt_trichotomy a b with hlt | heq | hgt
  · rw [compare_lt_iff_lt.2 hlt, decide_eq_true hlt]
    rfl
  · rw [compare_eq_iff_eq.2 heq, decide_eq_false heq.not_lt]
    rfl
  · rw [compare_gt_iff_gt.2 hgt, decide_eq_false hgt.not_gt]
    rfl

theorem beq_of_holds (hx : Holds x a) (hy : Holds y b) (ha : a.natAbs < 2 ^ 53)
    (hb : b.natAbs < 2 ^ 53) : (x == y) = (a == b) := by
  have hbeq : (x == y) = UnpackedFloat.beq x.toModel.unpack y.toModel.unpack := rfl
  rw [hbeq, UnpackedFloat.beq, compare_isWhole ha hb hx hy]
  rcases lt_trichotomy a b with hlt | rfl | hgt
  · rw [compare_lt_iff_lt.2 hlt, beq_false_of_ne hlt.ne]
    rfl
  · rw [compare_eq_iff_eq.2 rfl]
    exact (beq_self_eq_true a).symm
  · rw [compare_gt_iff_gt.2 hgt, beq_false_of_ne hgt.ne']
    rfl

theorem holds_of_beq (hy : Holds y b) (heq : (x == y) = true) : Holds x b := by
  have hunpacked : UnpackedFloat.beq x.toModel.unpack y.toModel.unpack = true := heq
  exact isWhole_of_beq hunpacked hy

theorem isFinite_of_holds (hx : Holds x a) : x.isFinite = true := by
  change x.toModel.unpack.isFinite = true
  by_cases ha : a = 0
  · subst ha
    obtain ⟨s, hs⟩ := isWhole_zero_iff.1 hx
    rw [hs]
    rfl
  · rw [(isWhole_iff_of_ne ha).1 hx, whole_of_ne ha]
    rfl

end Operations

/-! ### Whole numbers as machine numbers -/

theorem toModel_ofNat {n : Nat} (hn : n < 2 ^ 53) :
    (Float.ofNat n).toModel = Float.Model.pack (whole n) := by
  have hfast : Float.ofNat n = n.toUInt64.toFloat * Float.ofBits 0x3FF0000000000000 :=
    dif_pos ⟨hn, by decide⟩
  have hword : n.toUInt64.toNat = n := by
    change (UInt64.ofNat n).toNat = n
    rw [UInt64.toNat_ofNat', Nat.mod_eq_of_lt (by omega)]
  have hconvert : n.toUInt64.toFloat.toModel = Float.Model.pack (whole n) := by
    have hnormalize := normalize_exact (n := (n : Int)) (by omega) 0
    rw [pow_zero, Nat.cast_one, mul_one, Nat.cast_zero, neg_zero] at hnormalize
    change Float.Model.pack (UnpackedFloat.normalize Format.binary64
      (n.toUInt64.toNat : Int) 0 .positive) = _
    rw [hword, hnormalize]
  have hone : (Float.ofBits 0x3FF0000000000000).toModel.unpack = whole 1 := by
    rfl
  have hproduct : UnpackedFloat.mul Format.binary64 (whole n) (whole 1) = whole n := by
    by_cases hzero : (n : Int) = 0
    · rw [hzero]
      rfl
    · rw [mul_of_ne hzero one_ne_zero (by omega), mul_one]
  rw [hfast]
  change Float.Model.pack (UnpackedFloat.mul Format.binary64
    n.toUInt64.toFloat.toModel.unpack
      (Float.ofBits 0x3FF0000000000000).toModel.unpack) = _
  rw [hconvert, unpack_pack_whole (by omega), hone, hproduct]

theorem toModel_ofInt {n : Int} (hn : n.natAbs < 2 ^ 53) :
    (Float.ofInt n).toModel = Float.Model.pack (whole n) := by
  cases n with
  | ofNat n => exact toModel_ofNat hn
  | negSucc n =>
      have hn' : n + 1 < 2 ^ 53 := hn
      change Float.Model.pack (UnpackedFloat.neg
        (Float.ofNat (n + 1)).toModel.unpack) = _
      rw [toModel_ofNat hn', unpack_pack_whole (by omega), neg_whole (by omega)]
      rfl

theorem holds_ofInt {n : Int} (hn : n.natAbs < 2 ^ 53) : Holds (Float.ofInt n) n := by
  rw [Holds, toModel_ofInt hn, unpack_pack_whole hn]
  exact isWhole_whole n

theorem ofInt_add {a b : Int} (ha : a.natAbs < 2 ^ 53) (hb : b.natAbs < 2 ^ 53)
    (hsum : (a + b).natAbs < 2 ^ 53) :
    Float.ofInt a + Float.ofInt b = Float.ofInt (a + b) := by
  have hmodel :
      (Float.ofInt a + Float.ofInt b).toModel = (Float.ofInt (a + b)).toModel := by
    change Float.Model.pack (UnpackedFloat.add Format.binary64
      (Float.ofInt a).toModel.unpack (Float.ofInt b).toModel.unpack) = _
    rw [toModel_ofInt ha, toModel_ofInt hb, toModel_ofInt hsum, unpack_pack_whole ha,
      unpack_pack_whole hb, add_whole hsum]
  exact congrArg Float.ofModel hmodel

end Binary
end LatticeHull
