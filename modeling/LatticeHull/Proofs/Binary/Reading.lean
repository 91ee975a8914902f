import LatticeHull.Hull.Saving
import LatticeHull.Proofs.Binary.Whole

/-!
# Whole numbers among machine numbers

Whole numbers below `2 ^ 53` are read as themselves.  Greater ones compare with these as
they should, and as they are even their sums with these are exact.
-/

namespace LatticeHull
namespace Binary

/-!
## The order of whole numbers of any size

A whole number of `2 ^ 53` or more is rounded, or even becomes infinite.  Against whole
numbers below that bound it still compares as it should.
-/

open Float.Model Float.Model.UnpackedFloat

/-- A machine number with an exponent above zero, or infinity. -/
def IsHuge (s : Sign) (u : UnpackedFloat) : Prop :=
  u = .infinity s ∨
    ∃ m e, ∃ hm : 0 < m, m.log2 = 52 ∧ 1 ≤ e ∧ e ≤ 971 ∧ u = .finite s m e hm

theorem isHuge_ofNat {n : Nat} (hn : 2 ^ 53 ≤ n) :
    IsHuge .positive (Float.ofNat n).toModel.unpack := by
  have hslow : (Float.ofNat n).toModel = Float.Model.ofScientific n 0 :=
    congrArg Float.toModel (dif_neg (fun hfast => absurd hfast.1 (not_lt.2 hn)))
  have hn0 : n ≠ 0 := by omega
  have hpower : (0 : Int) ≤ 2 ^ Format.binary64.exponentBits := by positivity
  have hround : UnpackedFloat.ofScientific Format.binary64 n 0 =
      roundWithAccuracy Format.binary64 .positive (n * 2 ^ 53) (-(53 : Nat)) .exact := by
    rw [UnpackedFloat.ofScientific, dif_neg hn0, if_neg (by decide), if_neg (by omega),
      if_pos (le_refl 0)]
    simp only [UnpackedFloat.mul, Nat.shiftLeft_eq, Int.toNat_zero, pow_zero, mul_one]
    rfl
  obtain ⟨m, e, hm, hleading, he, hlarge⟩ := roundWithAccuracy_large .positive hn 53
  rw [hslow]
  change IsHuge .positive
    (Float.Model.pack (UnpackedFloat.ofScientific Format.binary64 n 0)).unpack
  rw [hround, hlarge]
  by_cases hfit : e ≤ 971
  · rw [unpack_pack_normal _ hm hleading (by omega) hfit]
    exact Or.inr ⟨m, e, hm, hleading, he, hfit, rfl⟩
  · rw [unpack_pack_overflow _ hm (not_le.1 hfit)]
    exact Or.inl rfl

theorem isHuge_ofInt {n : Int} (hn : 2 ^ 53 ≤ n.natAbs) :
    IsHuge (signOf n) (Float.ofInt n).toModel.unpack := by
  cases n with
  | ofNat n =>
      have hsign : signOf (Int.ofNat n) = .positive := if_neg (by simp)
      rw [hsign]
      exact isHuge_ofNat hn
  | negSucc n =>
      have hsign : signOf (Int.negSucc n) = .negative := if_pos (Int.negSucc_lt_zero n)
      rw [hsign]
      change IsHuge .negative (Float.Model.pack
        (UnpackedFloat.neg (Float.ofNat (n + 1)).toModel.unpack)).unpack
      rcases isHuge_ofNat (n := n + 1) hn with hinfinite |
        ⟨m, e, hm, hleading, hlow, hhigh, heq⟩
      · rw [hinfinite]
        exact Or.inl (unpack_pack_infinity .negative)
      · rw [heq]
        exact Or.inr ⟨m, e, hm, hleading, hlow, hhigh,
          unpack_pack_normal .negative hm hleading (by omega) hhigh⟩

/-- A number with an exponent above zero is beyond all whole numbers below `2 ^ 53`. -/
theorem compare_huge {u v : UnpackedFloat} {b : Int} (hv : IsWhole v b) :
    (IsHuge .positive u →
      UnpackedFloat.compare u v = some .gt ∧ UnpackedFloat.compare v u = some .lt) ∧
    (IsHuge .negative u →
      UnpackedFloat.compare u v = some .lt ∧ UnpackedFloat.compare v u = some .gt) := by
  have hexponent : ∀ e : Int, 1 ≤ e → -(places b.natAbs : Int) < e := by
    intro e he
    omega
  rcases lt_trichotomy b 0 with hneg | rfl | hpos
  · rw [isWhole_iff_of_ne hneg.ne, whole_of_neg hneg] at hv
    subst hv
    constructor
    · rintro (rfl | ⟨m, e, hm, -, he, -, rfl⟩) <;> exact ⟨rfl, rfl⟩
    · rintro (rfl | ⟨m, e, hm, -, he, -, rfl⟩)
      · exact ⟨rfl, rfl⟩
      · simp only [UnpackedFloat.compare, compare_gt_iff_gt.2 (hexponent e he),
          compare_lt_iff_lt.2 (hexponent e he)]
        exact ⟨rfl, rfl⟩
  · obtain ⟨s, rfl⟩ := isWhole_zero_iff.1 hv
    constructor
    · rintro (rfl | ⟨m, e, hm, -, he, -, rfl⟩) <;> exact ⟨rfl, rfl⟩
    · rintro (rfl | ⟨m, e, hm, -, he, -, rfl⟩) <;> exact ⟨rfl, rfl⟩
  · rw [isWhole_iff_of_ne hpos.ne', whole_of_pos hpos] at hv
    subst hv
    constructor
    · rintro (rfl | ⟨m, e, hm, -, he, -, rfl⟩)
      · exact ⟨rfl, rfl⟩
      · simp only [UnpackedFloat.compare, compare_gt_iff_gt.2 (hexponent e he),
          compare_lt_iff_lt.2 (hexponent e he)]
        exact ⟨rfl, rfl⟩
    · rintro (rfl | ⟨m, e, hm, -, he, -, rfl⟩) <;> exact ⟨rfl, rfl⟩

/-- A whole number of any size compares as it should with one below `2 ^ 53`. -/
theorem less_ofInt (a : Int) {b : Int} (hb : b.natAbs < 2 ^ 53) :
    Scalar.less (Float.ofInt a) (Float.ofInt b) = decide (a < b) ∧
      Scalar.less (Float.ofInt b) (Float.ofInt a) = decide (b < a) := by
  have hholds := holds_ofInt hb
  by_cases ha : a.natAbs < 2 ^ 53
  · exact ⟨less_of_holds (holds_ofInt ha) hholds ha hb,
      less_of_holds hholds (holds_ofInt ha) hb ha⟩
  · have hhuge := isHuge_ofInt (not_lt.1 ha)
    obtain ⟨habove, hbelow⟩ := compare_huge (u := (Float.ofInt a).toModel.unpack) hholds
    rw [less_eq, less_eq, UnpackedFloat.lt, UnpackedFloat.lt]
    by_cases hneg : a < 0
    · have hsign : signOf a = .negative := if_pos hneg
      rw [hsign] at hhuge
      rw [(hbelow hhuge).1, (hbelow hhuge).2, decide_eq_true (show a < b by omega),
        decide_eq_false (show ¬b < a by omega)]
      exact ⟨rfl, rfl⟩
    · have hsign : signOf a = .positive := if_neg hneg
      rw [hsign] at hhuge
      rw [(habove hhuge).1, (habove hhuge).2, decide_eq_false (show ¬a < b by omega),
        decide_eq_true (show b < a by omega)]
      exact ⟨rfl, rfl⟩

/-!
## Reading whole coordinates

A whole number below `2 ^ 53` is read as a machine number and found again in the
bits of that number.  So a lattice point, given as a list of three whole
numbers, is read as itself.
-/

/-! ### The fields of a word -/

theorem toNat_packComponents (s : Sign) (f : BitVec 11) (m : BitVec 52) :
    (packComponents Format.binary64 s f m).toNat =
      (s.toBitVec.toNat * 2 ^ 11 + f.toNat) * 2 ^ 52 + m.toNat := by
  simp only [packComponents]
  rw [BitVec.toNat_append, BitVec.toNat_append,
    ← Nat.shiftLeft_add_eq_or_of_lt (BitVec.isLt _),
    ← Nat.shiftLeft_add_eq_or_of_lt (BitVec.isLt _), Nat.shiftLeft_eq, Nat.shiftLeft_eq]

theorem signField_eq (w : UInt64) : (w >>> 63 == 1) = decide (2 ^ 63 ≤ w.toNat) := by
  have hlt := w.toNat_lt
  rw [Bool.eq_iff_iff, beq_iff_eq, decide_eq_true_eq, ← UInt64.toNat_inj,
    UInt64.toNat_shiftRight, Nat.shiftRight_eq_div_pow]
  change w.toNat / 2 ^ 63 = 1 ↔ _
  omega

theorem exponentField_eq (w : UInt64) :
    ((w >>> 52) &&& 0x7FF).toNat = w.toNat / 2 ^ 52 % 2 ^ 11 := by
  have hmask : (0x7FF : UInt64).toNat = 2 ^ 11 - 1 := by decide
  rw [UInt64.toNat_and, UInt64.toNat_shiftRight, hmask, Nat.and_two_pow_sub_one_eq_mod,
    Nat.shiftRight_eq_div_pow]
  rfl

theorem fractionField_eq (w : UInt64) :
    (w &&& 0xFFFFFFFFFFFFF).toNat = w.toNat % 2 ^ 52 := by
  have hmask : (0xFFFFFFFFFFFFF : UInt64).toNat = 2 ^ 52 - 1 := by decide
  rw [UInt64.toNat_and, hmask, Nat.and_two_pow_sub_one_eq_mod]

/-! ### The parts of a whole number -/

theorem toNat_toBits_ofInt {n : Int} (hn : n.natAbs < 2 ^ 53) (hne : n ≠ 0) :
    (Float.ofInt n).toBits.toNat =
      ((signOf n).toBitVec.toNat * 2 ^ 11 + (1075 - places n.natAbs)) * 2 ^ 52 +
        (n.natAbs * 2 ^ places n.natAbs) % 2 ^ 52 := by
  have hplaces : places n.natAbs ≤ 52 := Nat.sub_le _ _
  have hleading := log2_stored (Int.natAbs_ne_zero.2 hne) (log2_natAbs_le hn)
  have hfield : (-(places n.natAbs : Int) + 1075).toNat = 1075 - places n.natAbs := by
    omega
  change (Float.ofInt n).toModel.toBits.toNat = _
  rw [toModel_ofInt hn, whole_of_ne hne]
  change (UnpackedFloat.pack Format.binary64 _).toNat = _
  rw [pack_normal _ _ hleading (by omega) (by omega), toNat_packComponents, hfield,
    BitVec.toNat_ofNat, BitVec.toNat_ofNat, Nat.mod_eq_of_lt (by omega)]

theorem isNegative_ofInt {n : Int} (hn : n.natAbs < 2 ^ 53) :
    isNegative (Float.ofInt n) = decide (n < 0) := by
  by_cases hne : n = 0
  · subst hne
    rfl
  · have hplaces : places n.natAbs ≤ 52 := Nat.sub_le _ _
    rw [isNegative, signField_eq, toNat_toBits_ofInt hn hne]
    by_cases hneg : n < 0
    · have hsign : (signOf n).toBitVec.toNat = 1 := by
        rw [signOf, if_pos hneg]
        rfl
      rw [hsign, decide_eq_true hneg]
      apply decide_eq_true
      omega
    · have hsign : (signOf n).toBitVec.toNat = 0 := by
        rw [signOf, if_neg hneg]
        rfl
      rw [hsign, decide_eq_false hneg]
      apply decide_eq_false
      omega

theorem magnitude_ofInt {n : Int} (hn : n.natAbs < 2 ^ 53) (hne : n ≠ 0) :
    magnitude (Float.ofInt n) =
      { significand := n.natAbs * 2 ^ places n.natAbs,
        exponent := -(places n.natAbs : Int) } := by
  have hplaces : places n.natAbs ≤ 52 := Nat.sub_le _ _
  have hpos := stored_pos (Int.natAbs_ne_zero.2 hne)
  obtain ⟨hlow, hhigh⟩ := (Nat.log2_eq_iff hpos.ne').1
    (log2_stored (Int.natAbs_ne_zero.2 hne) (log2_natAbs_le hn))
  have hsign : (signOf n).toBitVec.toNat < 2 := BitVec.isLt _
  have hfield :
      (((Float.ofInt n).toBits >>> 52) &&& 0x7FF).toNat = 1075 - places n.natAbs := by
    rw [exponentField_eq, toNat_toBits_ofInt hn hne]
    omega
  have hfraction : ((Float.ofInt n).toBits &&& 0xFFFFFFFFFFFFF).toNat =
      n.natAbs * 2 ^ places n.natAbs - 2 ^ 52 := by
    rw [fractionField_eq, toNat_toBits_ofInt hn hne]
    omega
  rw [magnitude, hfield, hfraction, if_neg (by omega), Magnitude.mk.injEq]
  constructor
  · rw [storedBits, Nat.shiftLeft_eq]
    omega
  · rw [leastExponent]
    omega

theorem whole_magnitude_ofInt {n : Int} (hn : n.natAbs < 2 ^ 53) :
    (magnitude (Float.ofInt n)).whole = n.natAbs ∧
      (magnitude (Float.ofInt n)).isWhole = true := by
  by_cases hne : n = 0
  · subst hne
    exact ⟨by decide, by decide⟩
  · have hshift : (- -(places n.natAbs : Int)).toNat = places n.natAbs := by omega
    have hwhole : (magnitude (Float.ofInt n)).whole = n.natAbs := by
      rw [magnitude_ofInt hn hne, Magnitude.whole]
      simp only [hshift]
      split
      · have hzero : places n.natAbs = 0 := by omega
        simp [hzero]
      · rw [Nat.shiftRight_eq_div_pow, Nat.mul_div_cancel _ (Nat.two_pow_pos _)]
    refine ⟨hwhole, ?_⟩
    rw [Magnitude.isWhole, hwhole, magnitude_ofInt hn hne]
    simp only [hshift, Nat.shiftLeft_eq, beq_self_eq_true, Bool.or_true]

theorem floor_ofInt {n : Int} (hn : n.natAbs < 2 ^ 53) : floor (Float.ofInt n) = n := by
  obtain ⟨hwhole, hisWhole⟩ := whole_magnitude_ofInt hn
  rw [floor, hisWhole, Bool.not_true, Bool.and_false, if_neg Bool.false_ne_true,
    truncate, isNegative_ofInt hn, hwhole]
  split
  · rename_i hneg
    have hneg' : n < 0 := of_decide_eq_true hneg
    omega
  · rename_i hneg
    have hneg' : ¬n < 0 := fun hlt => hneg (decide_eq_true hlt)
    omega

/-- The fraction that a finite machine number stands for. -/
def toRat (x : Float) : Rat :=
  if isNegative x then -(magnitude x).toRat else (magnitude x).toRat

theorem toRat_magnitude_ofInt {n : Int} (hn : n.natAbs < 2 ^ 53) :
    (magnitude (Float.ofInt n)).toRat = n.natAbs := by
  by_cases hne : n = 0
  · subst hne
    have hzero :
        magnitude (Float.ofInt 0) = { significand := 0, exponent := leastExponent } := by
      decide
    rw [hzero, Magnitude.toRat, if_neg (by decide)]
    simp
  · have hshift : (- -(places n.natAbs : Int)).toNat = places n.natAbs := by omega
    rw [magnitude_ofInt hn hne, Magnitude.toRat]
    simp only [hshift, Nat.one_shiftLeft]
    split
    · have hzero : places n.natAbs = 0 := by omega
      simp [hzero]
    · have hpower : (2 : ℚ) ^ places n.natAbs ≠ 0 := by positivity
      rw [Rat.mkRat_eq_div, Int.cast_natCast, Nat.cast_mul, Nat.cast_pow, Nat.cast_ofNat,
        mul_div_cancel_right₀ _ hpower]

theorem toRat_ofInt {n : Int} (hn : n.natAbs < 2 ^ 53) : toRat (Float.ofInt n) = n := by
  rw [toRat, isNegative_ofInt hn, toRat_magnitude_ofInt hn, Nat.cast_natAbs]
  split
  · rename_i hneg
    have hneg' : n < 0 := of_decide_eq_true hneg
    rw [abs_of_neg hneg']
    push_cast
    ring
  · rename_i hneg
    have hneg' : ¬n < 0 := fun hlt => hneg (decide_eq_true hlt)
    rw [abs_of_nonneg (not_lt.1 hneg')]

theorem isFinite_ofInt {n : Int} (hn : n.natAbs < 2 ^ 53) :
    (Float.ofInt n).isFinite = true :=
  isFinite_of_holds (holds_ofInt hn)

end Binary

/-! ### Lattice points -/

namespace Block

def toDatum (b : Block) : Datum :=
  .list [.whole b.x, .whole b.y, .whole b.z]

theorem toEntry_whole (n : Int) :
    Datum.toEntry (.whole n) =
      if (Float.ofInt n).isFinite then .ok (Float.ofInt n) else .error .tooLarge := by
  by_cases hfinite : (Float.ofInt n).isFinite = true
  · simp [Datum.toEntry, Datum.toCoordinate, Binary.ofInt?, hfinite]
  · simp [Datum.toEntry, Datum.toCoordinate, Binary.ofInt?, hfinite]

/-- A lattice point is read as itself, unless one of its coordinates is too large. -/
theorem pointOfDatum_toDatum (b : Block) :
    Point.ofDatum b.toDatum =
      if Point.isFinite (Vec3.ofBlock b) then .ok (Vec3.ofBlock b)
        else .error .tooLarge := by
  have hshape : b.toDatum.shape? = some [3] := rfl
  have hentries : b.toDatum.entries = [.whole b.x, .whole b.y, .whole b.z] := rfl
  have hgrid : Grid.ofDatum b.toDatum =
      if Point.isFinite (Vec3.ofBlock b) then
        .ok { shape := [3],
              entries := [Float.ofInt b.x, Float.ofInt b.y, Float.ofInt b.z] }
      else .error .tooLarge := by
    simp only [Grid.ofDatum, hshape, hentries, List.mapM_cons, List.mapM_nil,
      toEntry_whole, Point.isFinite, Vec3.all, Vec3.ofBlock, Vec3.map, Scalar.ofInt]
    by_cases hx : (Float.ofInt b.x).isFinite = true
    · by_cases hy : (Float.ofInt b.y).isFinite = true
      · by_cases hz : (Float.ofInt b.z).isFinite = true
        · simp [hx, hy, hz]
          rfl
        · simp [hx, hy, hz]
          rfl
      · simp [hx, hy]
        rfl
    · simp [hx]
      rfl
  unfold Point.ofDatum
  split
  · rename_i hnull
    cases hnull
  · by_cases hfinite : Point.isFinite (Vec3.ofBlock b) = true
    · rw [if_pos hfinite] at hgrid ⊢
      simp only [hgrid]
      rfl
    · rw [if_neg hfinite] at hgrid ⊢
      simp only [hgrid, Point.faultOf]

theorem isFinite_ofBlock {b : Block} (hx : b.x.natAbs < 2 ^ 53)
    (hy : b.y.natAbs < 2 ^ 53) (hz : b.z.natAbs < 2 ^ 53) :
    Point.isFinite (Vec3.ofBlock b) = true := by
  simp only [Point.isFinite, Vec3.all, Vec3.ofBlock, Vec3.map, Bool.and_eq_true]
  exact ⟨⟨Binary.isFinite_ofInt hx, Binary.isFinite_ofInt hy⟩, Binary.isFinite_ofInt hz⟩

theorem ofDatum_toDatum {b : Block} (hx : b.x.natAbs < 2 ^ 53) (hy : b.y.natAbs < 2 ^ 53)
    (hz : b.z.natAbs < 2 ^ 53) : Block.ofDatum b.toDatum = .ok b := by
  have hfinite := isFinite_ofBlock hx hy hz
  have hfloor : (Vec3.ofBlock b : Point).map Binary.floor = b :=
    Vec3.ext (Binary.floor_ofInt hx) (Binary.floor_ofInt hy) (Binary.floor_ofInt hz)
  have hread : Block.ofDatum b.toDatum = Point.ofDatum b.toDatum >>= Block.ofPoint := rfl
  rw [hread, pointOfDatum_toDatum, if_pos hfinite]
  change Block.ofPoint (Vec3.ofBlock b) = _
  rw [Block.ofPoint, if_pos hfinite, hfloor]

end Block

/-!
## Sums with large even numbers

From `2 ^ 53` on only even numbers are machine numbers, and below `2 ^ 54` all of them
are.  So the floor of a machine number is even if it is that large, and added to a whole
number below `2 ^ 53` it gives the exact sum, as long as the sum is below `2 ^ 53` again.
-/

namespace Binary

open Float.Model Float.Model.UnpackedFloat

/-! ### Floors -/

theorem significand_magnitude_lt (x : Float) : (magnitude x).significand < 2 ^ 53 := by
  have hfraction := fractionField_eq x.toBits
  rw [magnitude]
  split
  · simp only [hfraction]
    omega
  · simp only [hfraction, storedBits, Nat.one_shiftLeft]
    omega

theorem natAbs_truncate (x : Float) : (truncate x).natAbs = (magnitude x).whole := by
  rw [truncate]
  split <;> simp

theorem floor_of_isWhole {x : Float} (hwhole : (magnitude x).isWhole = true) :
    floor x = truncate x := by
  rw [floor, hwhole, Bool.not_true, Bool.and_false, if_neg Bool.false_ne_true]

theorem natAbs_floor_le (x : Float) : (floor x).natAbs ≤ (magnitude x).whole + 1 := by
  have htruncate := natAbs_truncate x
  rw [floor]
  split <;> omega

/-- A floor of `2 ^ 53` or more is even. -/
theorem two_dvd_floor {x : Float} (hlarge : 2 ^ 53 ≤ (floor x).natAbs) :
    2 ∣ floor x := by
  have hsmall := significand_magnitude_lt x
  by_cases hexponent : 0 ≤ (magnitude x).exponent
  · have hwhole : (magnitude x).isWhole = true := by
      rw [Magnitude.isWhole, decide_eq_true hexponent, Bool.true_or]
    have hshift : (magnitude x).whole =
        (magnitude x).significand * 2 ^ (magnitude x).exponent.toNat := by
      rw [Magnitude.whole, if_pos hexponent, Nat.shiftLeft_eq]
    have hfloor : (floor x).natAbs = (magnitude x).whole := by
      rw [floor_of_isWhole hwhole, natAbs_truncate]
    have hne : (magnitude x).exponent.toNat ≠ 0 := by
      intro hzero
      rw [hzero, pow_zero, mul_one] at hshift
      omega
    have heven : 2 ∣ (magnitude x).whole := by
      rw [hshift]
      exact Dvd.dvd.mul_left (dvd_pow_self 2 hne) _
    omega
  · have hhalf : (magnitude x).whole ≤ (magnitude x).significand / 2 := by
      rw [Magnitude.whole, if_neg hexponent, Nat.shiftRight_eq_div_pow]
      refine Nat.div_le_div_left ?_ two_pos
      exact Nat.le_self_pow (by omega) 2
    have hle := natAbs_floor_le x
    omega

/-! ### Large even numbers -/

theorem shiftToTarget_double {m : Nat} (hm : m.log2 = 52) (hpos : 0 < m) (k : Nat) :
    shiftToTargetExponent Format.binary64 (m * 2 ^ k) (1 - (k : Int)) .exact =
      (⟨m, false, false⟩, 1) := by
  have htarget : Format.binary64.targetExponent
      (totalExponent (m * 2 ^ k) (1 - (k : Int))) = 1 := by
    simp only [Format.targetExponent, totalExponent, log2_mul_two_pow hpos.ne', hm,
      Format.mantissaBits, Format.minExponent]
    push_cast
    omega
  have hshift : ((1 : Int) - (1 - (k : Int))).toNat = k := by omega
  simp only [shiftToTargetExponent, htarget, shiftToExponent, hshift,
    ExtendedMantissa.ofMantissaAndAccuracy, shiftRight_exact]
  congr 1
  omega

theorem roundWithAccuracy_double (s : Sign) {m : Nat} (hm : m.log2 = 52) (hpos : 0 < m)
    (k : Nat) :
    roundWithAccuracy Format.binary64 s (m * 2 ^ k) (1 - (k : Int)) .exact =
      .finite s m 1 hpos := by
  have hagain := shiftToTarget_double hm hpos 0
  rw [pow_zero, mul_one, Nat.cast_zero, sub_zero] at hagain
  have hrounded : ExtendedMantissa.roundedMantissa ⟨m, false, false⟩ = m := rfl
  simp only [roundWithAccuracy, shiftToTarget_double hm hpos k, hrounded, hagain]
  exact dif_neg hpos.ne'

/-- Twice a significand with its leading one in place is stored with that significand. -/
theorem unpack_ofNat_double {m : Nat} (hm : m.log2 = 52) (hpos : 0 < m) :
    (Float.ofNat (2 * m)).toModel.unpack = .finite .positive m 1 hpos := by
  have hlow : 2 ^ 52 ≤ m := by
    rw [← hm]
    exact Nat.log2_self_le hpos.ne'
  have hslow : (Float.ofNat (2 * m)).toModel = Float.Model.ofScientific (2 * m) 0 :=
    congrArg Float.toModel (dif_neg (fun hfast => absurd hfast.1 (by omega)))
  have hpower : (0 : Int) ≤ 2 ^ Format.binary64.exponentBits := by positivity
  have hround : UnpackedFloat.ofScientific Format.binary64 (2 * m) 0 =
      roundWithAccuracy Format.binary64 .positive (2 * m * 2 ^ 53) (-(53 : Nat))
        .exact := by
    rw [UnpackedFloat.ofScientific, dif_neg (by omega), if_neg (by decide),
      if_neg (by omega), if_pos (le_refl 0)]
    simp only [UnpackedFloat.mul, Nat.shiftLeft_eq, Int.toNat_zero, pow_zero, mul_one]
    rfl
  have hproduct : 2 * m * 2 ^ 53 = m * 2 ^ 54 := by ring
  have hexponent : (-(53 : Nat) : Int) = 1 - (54 : Nat) := by norm_num
  rw [hslow]
  change (Float.Model.pack
    (UnpackedFloat.ofScientific Format.binary64 (2 * m) 0)).unpack = _
  rw [hround, hproduct, hexponent, roundWithAccuracy_double .positive hm hpos 54,
    unpack_pack_normal _ hpos hm (by omega) (by omega)]

theorem unpack_ofInt_double {n : Int} {m : Nat} (hm : m.log2 = 52) (hpos : 0 < m)
    (hn : n.natAbs = 2 * m) :
    (Float.ofInt n).toModel.unpack = .finite (signOf n) m 1 hpos := by
  cases n with
  | ofNat n =>
      have hsign : signOf (Int.ofNat n) = .positive := if_neg (by simp)
      obtain rfl : n = 2 * m := hn
      rw [hsign]
      exact unpack_ofNat_double hm hpos
  | negSucc n =>
      have hsign : signOf (Int.negSucc n) = .negative := if_pos (Int.negSucc_lt_zero n)
      have hn' : n + 1 = 2 * m := hn
      rw [hsign]
      change (Float.Model.pack
        (UnpackedFloat.neg (Float.ofNat (n + 1)).toModel.unpack)).unpack = _
      rw [hn', unpack_ofNat_double hm hpos]
      exact unpack_pack_normal .negative hpos hm (by omega) (by omega)

/-! ### Sums -/

theorem ofInt_add_double {a d : Int} {m : Nat} (hm : m.log2 = 52) (hd : d.natAbs = 2 * m)
    (ha : a.natAbs < 2 ^ 53) (hsum : (a + d).natAbs < 2 ^ 53) :
    Float.ofInt a + Float.ofInt d = Float.ofInt (a + d) := by
  have hpos : 0 < m := by
    by_contra hzero
    rw [Nat.eq_zero_of_not_pos hzero] at hm
    simp at hm
  have hlow : 2 ^ 52 ≤ m := by
    rw [← hm]
    exact Nat.log2_self_le hpos.ne'
  have hne : a ≠ 0 := by
    rintro rfl
    omega
  have hmin : min (-(places a.natAbs : Int)) 1 = -(places a.natAbs : Int) := by omega
  have hdecrease : (signOf d).apply
      ((decreaseExponent m 1 (-(places a.natAbs : Int))).1 : Nat) =
        d * (2 ^ places a.natAbs : Nat) := by
    have hshift :
        ((1 : Int) - -(places a.natAbs : Int)).toNat = places a.natAbs + 1 := by omega
    simp only [decreaseExponent, hshift, Nat.shiftLeft_eq]
    rw [pow_succ', ← mul_assoc, mul_comm m 2, ← hd, apply_signOf]
  have hadd : UnpackedFloat.add Format.binary64 (whole a) (.finite (signOf d) m 1 hpos) =
      whole (a + d) := by
    rw [whole_of_ne hne]
    simp only [UnpackedFloat.add, hmin]
    rw [decrease_stored a le_rfl, hdecrease, ← add_mul]
    exact normalize_exact hsum _
  have hmodel :
      (Float.ofInt a + Float.ofInt d).toModel = (Float.ofInt (a + d)).toModel := by
    change Float.Model.pack (UnpackedFloat.add Format.binary64
      (Float.ofInt a).toModel.unpack (Float.ofInt d).toModel.unpack) = _
    rw [toModel_ofInt ha, unpack_pack_whole ha, unpack_ofInt_double hm hpos hd, hadd,
      toModel_ofInt hsum]
  exact congrArg Float.ofModel hmodel

/-- A whole number below `2 ^ 53` and the floor of a machine number add up exactly, as
long as the sum is below `2 ^ 53`. -/
theorem ofInt_add_floor {a : Int} {x : Float} (ha : a.natAbs < 2 ^ 53)
    (hsum : (a + floor x).natAbs < 2 ^ 53) :
    Float.ofInt a + Float.ofInt (floor x) = Float.ofInt (a + floor x) := by
  by_cases hsmall : (floor x).natAbs < 2 ^ 53
  · exact ofInt_add ha hsmall hsum
  · obtain ⟨m, hdvd⟩ := Int.natAbs_dvd_natAbs.2 (two_dvd_floor (not_lt.1 hsmall))
    have hdouble : (floor x).natAbs = 2 * m := hdvd
    have hlog : m.log2 = 52 := by
      rw [Nat.log2_eq_iff (by omega)]
      omega
    exact ofInt_add_double hlog hdouble ha hsum

end Binary
end LatticeHull
