import LatticeHull.Proofs.Binary.Nearest

/-!
# The places of machine numbers

A machine number that is defined has a place among the real numbers and the two
infinities.  The order of machine numbers is that of their places: a number with a
greater exponent is greater, since only the least exponent goes with significands
that do not fill their bits.
-/

namespace LatticeHull
namespace Binary

open Float.Model Float.Model.UnpackedFloat

/-! ### Numbers taken apart -/

/-- The sign of a machine number. -/
def signBit (x : Float) : Sign :=
  if isNegative x then .negative else .positive

theorem ofBitVec_unpackSign (x : Float) :
    Sign.ofBitVec (@unpackSign Format.binary64 x.toBits.toBitVec) = signBit x := by
  obtain ⟨-, -, hsign⟩ := toNat_unpack x.toBits.toBitVec
  have hlt := x.toBits.toNat_lt
  rw [UInt64.toNat_toBitVec] at hsign
  rw [signBit, isNegative, signField_eq]
  cases hfield : Sign.ofBitVec (@unpackSign Format.binary64 x.toBits.toBitVec) with
  | negative =>
      rw [hfield] at hsign
      have hone : Sign.negative.toBitVec.toNat = 1 := rfl
      rw [if_pos (decide_eq_true (by omega))]
  | positive =>
      rw [hfield] at hsign
      have hzero : Sign.positive.toBitVec.toNat = 0 := rfl
      rw [if_neg (by simp only [decide_eq_true_eq]; omega)]

theorem unpack_of_infinite {x : Float} (hinfinite : x.isInf = true) :
    x.toModel.unpack = .infinity (signBit x) := by
  obtain ⟨hfull, hzero⟩ := (kind_unpack x.toBits.toBitVec).2.1 hinfinite
  change UnpackedFloat.unpack Format.binary64 x.toBits.toBitVec = _
  rw [UnpackedFloat.unpack]
  simp only [if_pos hfull, if_pos hzero, ofBitVec_unpackSign]

section Fields

variable (x : Float)

theorem toNat_unpackExponent :
    (@unpackExponent Format.binary64 x.toBits.toBitVec).toNat =
      ((x.toBits >>> 52) &&& 0x7FF).toNat := by
  rw [(toNat_unpack x.toBits.toBitVec).1, UInt64.toNat_toBitVec, exponentField_eq]

theorem toNat_unpackMantissa :
    (@unpackMantissa Format.binary64 x.toBits.toBitVec).toNat =
      (x.toBits &&& 0xFFFFFFFFFFFFF).toNat := by
  rw [(toNat_unpack x.toBits.toBitVec).2.1, UInt64.toNat_toBitVec, fractionField_eq]

theorem unpackExponent_eq_zero_iff :
    @unpackExponent Format.binary64 x.toBits.toBitVec = 0#_ ↔
      ((x.toBits >>> 52) &&& 0x7FF).toNat = 0 := by
  rw [BitVec.toNat_eq, toNat_unpackExponent]
  exact Iff.rfl

end Fields

theorem unpackExponent_ne_full {x : Float} (hx : x.isNaN = false)
    (hfinite : x.isInf = false) :
    ¬@unpackExponent Format.binary64 x.toBits.toBitVec = -1#_ := by
  intro heq
  have hlt := lt_infinityBits hx hfinite
  have hfield : 2 ^ 11 - 1 = x.toBits.toNat / 2 ^ 52 % 2 ^ 11 := by
    rw [← exponentField_eq, ← toNat_unpackExponent, heq]
    rfl
  rw [infinityBits] at hlt
  omega

/-- A subnormal number keeps its fraction for a significand. -/
theorem unpack_of_subnormal {x : Float} (hx : x.isNaN = false)
    (hfinite : x.isInf = false) (hempty : ((x.toBits >>> 52) &&& 0x7FF).toNat = 0) :
    ((magnitude x).significand = 0 ∧ x.toModel.unpack = .zero (signBit x)) ∨
      ∃ hm, x.toModel.unpack =
        .finite (signBit x) (magnitude x).significand (magnitude x).exponent hm := by
  have hfull := unpackExponent_ne_full hx hfinite
  have hmantissa := toNat_unpackMantissa x
  change (_ ∧ UnpackedFloat.unpack Format.binary64 x.toBits.toBitVec = _) ∨
    ∃ hm, UnpackedFloat.unpack Format.binary64 x.toBits.toBitVec = _
  rw [UnpackedFloat.unpack, magnitude]
  simp only [if_neg hfull, if_pos hempty,
    if_pos ((unpackExponent_eq_zero_iff x).2 hempty), ofBitVec_unpackSign]
  by_cases hzero : @unpackMantissa Format.binary64 x.toBits.toBitVec = 0#_
  · left
    rw [hzero] at hmantissa
    exact ⟨hmantissa.symm, dif_pos hzero⟩
  · right
    simp only [dif_neg hzero, hmantissa, toNat_unpackExponent, hempty]
    refine ⟨?_, rfl⟩
    rw [← hmantissa]
    exact Nat.pos_of_ne_zero fun h => hzero (BitVec.eq_of_toNat_eq h)

theorem unpack_of_normal {x : Float} (hx : x.isNaN = false) (hfinite : x.isInf = false)
    (hfield : ¬((x.toBits >>> 52) &&& 0x7FF).toNat = 0) :
    ∃ hm, x.toModel.unpack =
      .finite (signBit x) (magnitude x).significand (magnitude x).exponent hm := by
  have hfull := unpackExponent_ne_full hx hfinite
  have hleading : (1#1 ++ @unpackMantissa Format.binary64 x.toBits.toBitVec).toNat =
      (x.toBits &&& 0xFFFFFFFFFFFFF).toNat + 1 <<< storedBits := by
    rw [BitVec.toNat_append, ← Nat.shiftLeft_add_eq_or_of_lt (BitVec.isLt _),
      toNat_unpackMantissa]
    exact Nat.add_comm _ _
  have hexponent : (((x.toBits >>> 52) &&& 0x7FF).toNat : Int) -
      (Format.binary64.exponentBias + Format.binary64.mantissaBitsWithoutImplicit) =
        ((x.toBits >>> 52) &&& 0x7FF).toNat - 1 + leastExponent := by
    have hbias : (Format.binary64.exponentBias : Int) +
        Format.binary64.mantissaBitsWithoutImplicit = 1075 := rfl
    rw [hbias, leastExponent]
    omega
  change ∃ hm, UnpackedFloat.unpack Format.binary64 x.toBits.toBitVec = _
  rw [UnpackedFloat.unpack, magnitude]
  simp only [if_neg hfull, if_neg (mt (unpackExponent_eq_zero_iff x).1 hfield),
    if_neg hfield, ofBitVec_unpackSign, toNat_unpackExponent, hleading, hexponent,
    exists_prop, and_true]
  rw [storedBits]
  exact Nat.add_pos_right _ (by decide)

theorem unpack_of_finite {x : Float} (hx : x.isNaN = false) (hfinite : x.isInf = false) :
    ((magnitude x).significand = 0 ∧ x.toModel.unpack = .zero (signBit x)) ∨
      ∃ hm, x.toModel.unpack =
        .finite (signBit x) (magnitude x).significand (magnitude x).exponent hm := by
  by_cases hempty : ((x.toBits >>> 52) &&& 0x7FF).toNat = 0
  · exact unpack_of_subnormal hx hfinite hempty
  · exact Or.inr (unpack_of_normal hx hfinite hempty)

/-! ### Places -/

/-- Whether a magnitude is one of the format: its significand fills its bits, unless its
exponent is the least one. -/
def Magnitude.Stored (a : Magnitude) : Prop :=
  a.significand < 2 ^ 53 ∧ leastExponent ≤ a.exponent ∧
    (2 ^ 52 ≤ a.significand ∨ a.exponent = leastExponent)

/-- A magnitude with a greater exponent, or with the same exponent and a greater
significand, is greater. -/
theorem Magnitude.Stored.lt {a b : Magnitude} (ha : a.Stored) (hb : b.Stored)
    (hless : a.exponent < b.exponent ∨
      (a.exponent = b.exponent ∧ a.significand < b.significand)) :
        a.toRat < b.toRat := by
  rw [toRat_eq, toRat_eq]
  rcases hless with hexponent | ⟨hexponent, hsignificand⟩
  · have hfull : 2 ^ 52 ≤ b.significand := by
      rcases hb.2.2 with hfull | hleast
      · exact hfull
      · exact absurd ha.2.1 (by omega)
    calc (a.significand * 2 ^ a.exponent : ℚ) < 2 ^ 53 * 2 ^ a.exponent := by
          gcongr
          exact_mod_cast ha.1
      _ = 2 ^ 52 * 2 ^ (a.exponent + 1) := by
          rw [zpow_add₀ two_ne_zero]
          ring
      _ ≤ b.significand * 2 ^ b.exponent := by
          gcongr
          · exact_mod_cast hfull
          · norm_num
          · omega
  · rw [hexponent]
    gcongr

theorem Magnitude.Stored.isLE_iff {a b : Magnitude} (ha : a.Stored) (hb : b.Stored) :
    ((compare a.exponent b.exponent).then
      (compare a.significand b.significand)).isLE = true ↔ a.toRat ≤ b.toRat := by
  rcases lt_trichotomy a.exponent b.exponent with hlt | heq | hgt
  · rw [compare_lt_iff_lt.2 hlt]
    exact iff_of_true rfl (ha.lt hb (Or.inl hlt)).le
  · rw [compare_eq_iff_eq.2 heq, Ordering.eq_then, Std.isLE_compare]
    rcases lt_trichotomy a.significand b.significand with hlt | heq' | hgt
    · exact iff_of_true hlt.le (ha.lt hb (Or.inr ⟨heq, hlt⟩)).le
    · exact iff_of_true heq'.le (by rw [toRat_eq, toRat_eq, heq, heq'])
    · exact iff_of_false hgt.not_ge (hb.lt ha (Or.inr ⟨heq.symm, hgt⟩)).not_ge
  · rw [compare_gt_iff_gt.2 hgt]
    exact iff_of_false nofun (hb.lt ha (Or.inl hgt)).not_ge

noncomputable def placeOf : UnpackedFloat → EReal
  | .notANumber => 0
  | .infinity .positive => ⊤
  | .infinity .negative => ⊥
  | .zero _ => 0
  | .finite .positive m e _ => (Magnitude.toRat ⟨m, e⟩ : ℝ)
  | .finite .negative m e _ => (-Magnitude.toRat ⟨m, e⟩ : ℝ)

/-- Whether a number that has been taken apart is one of the format. -/
def IsStored : UnpackedFloat → Prop
  | .finite _ m e _ => Magnitude.Stored ⟨m, e⟩
  | _ => True

theorem placeOf_finite {m : Nat} (e : Int) (hm : 0 < m) :
    (0 < placeOf (.finite .positive m e hm) ∧ placeOf (.finite .positive m e hm) < ⊤) ∧
      ⊥ < placeOf (.finite .negative m e hm) ∧
      placeOf (.finite .negative m e hm) < 0 := by
  have hpos : (0 : ℝ) < Magnitude.toRat ⟨m, e⟩ := by
    rw [Magnitude.toRat_eq, Rat.cast_pos]
    positivity
  refine ⟨⟨EReal.coe_pos.2 hpos, EReal.coe_lt_top _⟩, EReal.bot_lt_coe _, ?_⟩
  exact EReal.coe_neg'.2 (neg_neg_of_pos hpos)

section Comparison

variable {v : UnpackedFloat} (hv : v.isNaN = false)

include hv

theorem infinity_le_iff (s : Sign) :
    UnpackedFloat.le (.infinity s) v = true ↔ placeOf (.infinity s) ≤ placeOf v := by
  cases v with
  | notANumber => cases hv
  | infinity s' =>
      cases s with
      | positive =>
          cases s' with
          | positive => exact iff_of_true rfl le_rfl
          | negative => exact iff_of_false nofun bot_lt_top.not_ge
      | negative => exact iff_of_true (by cases s' <;> rfl) bot_le
  | zero s' =>
      cases s with
      | positive => exact iff_of_false nofun EReal.zero_lt_top.not_ge
      | negative => exact iff_of_true rfl bot_le
  | finite s' n f hn =>
      obtain ⟨⟨-, htop⟩, -, hneg⟩ := placeOf_finite f hn
      cases s with
      | positive =>
          cases s' with
          | positive => exact iff_of_false nofun htop.not_ge
          | negative => exact iff_of_false nofun (hneg.trans EReal.zero_lt_top).not_ge
      | negative => exact iff_of_true (by cases s' <;> rfl) bot_le

theorem zero_le_iff (s : Sign) :
    UnpackedFloat.le (.zero s) v = true ↔ placeOf (.zero s) ≤ placeOf v := by
  cases v with
  | notANumber => cases hv
  | infinity s' =>
      cases s' with
      | positive => exact iff_of_true rfl le_top
      | negative => exact iff_of_false nofun EReal.bot_lt_zero.not_ge
  | zero s' => exact iff_of_true rfl le_rfl
  | finite s' n f hn =>
      obtain ⟨⟨hpos, -⟩, -, hneg⟩ := placeOf_finite f hn
      cases s' with
      | positive => exact iff_of_true rfl hpos.le
      | negative => exact iff_of_false nofun hneg.not_ge

/-- Numbers with the same sign are ordered as their magnitudes are, or the
other way round. -/
theorem finite_le_iff (hv' : IsStored v) (s : Sign) {m : Nat} {e : Int} (hm : 0 < m)
    (hstored : Magnitude.Stored ⟨m, e⟩) :
    UnpackedFloat.le (.finite s m e hm) v = true ↔
      placeOf (.finite s m e hm) ≤ placeOf v := by
  obtain ⟨⟨hpos, htop⟩, hbot, hneg⟩ := placeOf_finite e hm
  cases v with
  | notANumber => cases hv
  | infinity s' =>
      cases s' with
      | positive => exact iff_of_true (by cases s <;> rfl) le_top
      | negative =>
          refine iff_of_false (by cases s <;> nofun) ?_
          cases s with
          | positive => exact (EReal.bot_lt_zero.trans hpos).not_ge
          | negative => exact hbot.not_ge
  | zero s' =>
      cases s with
      | positive => exact iff_of_false nofun hpos.not_ge
      | negative => exact iff_of_true rfl hneg.le
  | finite s' n f hn =>
      obtain ⟨⟨hpos', -⟩, -, hneg'⟩ := placeOf_finite f hn
      cases s with
      | positive =>
          cases s' with
          | positive =>
              rw [placeOf, placeOf, EReal.coe_le_coe_iff, Rat.cast_le]
              exact hstored.isLE_iff hv'
          | negative => exact iff_of_false nofun (hneg'.trans hpos).not_ge
      | negative =>
          cases s' with
          | positive => exact iff_of_true rfl (hneg.trans hpos').le
          | negative =>
              have hswap : ((compare e f).then (compare m n)).swap =
                  (compare f e).then (compare n m) := by
                rw [Ordering.swap_then, ← Std.OrientedOrd.eq_swap,
                  ← Std.OrientedOrd.eq_swap]
              rw [placeOf, placeOf, EReal.coe_le_coe_iff, neg_le_neg_iff, Rat.cast_le,
                ← Magnitude.Stored.isLE_iff hv' hstored, ← hswap]
              exact Iff.rfl

/-- Numbers of the format are ordered as their places are. -/
theorem le_iff_placeOf_le {u : UnpackedFloat} (hu : u.isNaN = false) (hu' : IsStored u)
    (hv' : IsStored v) : UnpackedFloat.le u v = true ↔ placeOf u ≤ placeOf v := by
  cases u with
  | notANumber => cases hu
  | infinity s => exact infinity_le_iff hv s
  | zero s => exact zero_le_iff hv s
  | finite s m e hm => exact finite_le_iff hv hv' s hm hu'

end Comparison

noncomputable def place (x : Float) : EReal :=
  placeOf x.toModel.unpack

theorem isFinite_iff {x : Float} :
    x.isFinite = true ↔ x.isNaN = false ∧ x.isInf = false := by
  change x.toModel.unpack.isFinite = true ↔
    x.toModel.unpack.isNaN = false ∧ x.toModel.unpack.isInf = false
  cases x.toModel.unpack <;>
    simp [UnpackedFloat.isFinite, UnpackedFloat.isNaN, UnpackedFloat.isInf]

theorem isStored_unpack (x : Float) (hx : x.isNaN = false) :
    IsStored x.toModel.unpack := by
  cases hinfinite : x.isInf with
  | true =>
      rw [unpack_of_infinite hinfinite]
      trivial
  | false =>
      obtain ⟨hs, he, hnormal, -⟩ := magnitude_spec (lt_infinityBits hx hinfinite)
      rcases unpack_of_finite hx hinfinite with ⟨-, hzero⟩ | ⟨hm, hunpack⟩
      · rw [hzero]
        trivial
      · rw [hunpack]
        exact ⟨hs, he, hnormal⟩

/-- Machine numbers are ordered as their places are. -/
theorem le_iff_place_le {x y : Float} (hx : x.isNaN = false) (hy : y.isNaN = false) :
    x ≤ y ↔ place x ≤ place y := by
  have hle : x ≤ y ↔ UnpackedFloat.le x.toModel.unpack y.toModel.unpack = true := by
    change decide (UnpackedFloat.le x.toModel.unpack y.toModel.unpack = true) = true ↔ _
    rw [decide_eq_true_iff]
  rw [hle]
  exact le_iff_placeOf_le hy hx (isStored_unpack x hx) (isStored_unpack y hy)

theorem place_of_finite {x : Float} (hfinite : x.isFinite = true) :
    place x = ((toRat x : ℝ) : EReal) := by
  obtain ⟨hx, hfinite⟩ := isFinite_iff.1 hfinite
  rw [place, toRat]
  rcases unpack_of_finite hx hfinite with ⟨hzero, hunpack⟩ | ⟨hm, hunpack⟩
  · rw [hunpack, placeOf, Magnitude.toRat_eq, hzero]
    simp
  · rw [hunpack, signBit]
    cases isNegative x with
    | false => rfl
    | true => exact congrArg Real.toEReal (Rat.cast_neg _).symm

theorem place_of_infinite {x : Float} (hinfinite : x.isInf = true) :
    place x = if isNegative x then ⊥ else ⊤ := by
  rw [place, unpack_of_infinite hinfinite, signBit]
  cases isNegative x <;> rfl

/-! ### Whole parts -/

theorem Magnitude.toRat_of_neg {a : Magnitude} (hneg : ¬0 ≤ a.exponent) :
    a.toRat = (a.significand : ℚ) / ((2 ^ (-a.exponent).toNat : Nat) : ℚ) := by
  rw [Magnitude.toRat, if_neg hneg, Nat.one_shiftLeft, Rat.mkRat_eq_div,
    Int.cast_natCast]

theorem Magnitude.floor_toRat (a : Magnitude) : ⌊a.toRat⌋ = a.whole := by
  rw [Magnitude.whole]
  split
  · rename_i hnonneg
    rw [Magnitude.toRat, if_pos hnonneg]
    exact Int.floor_natCast _
  · rename_i hneg
    rw [Magnitude.toRat_of_neg hneg, ← Int.natCast_floor_eq_floor (by positivity),
      Nat.floor_div_eq_div, Nat.shiftRight_eq_div_pow]

theorem Magnitude.isWhole_iff (a : Magnitude) :
    a.isWhole = true ↔ (a.whole : ℚ) = a.toRat := by
  rw [Magnitude.isWhole, Magnitude.whole]
  split
  · rename_i hnonneg
    rw [Magnitude.toRat, if_pos hnonneg]
    simp [hnonneg]
  · rename_i hneg
    have hpower : ((2 ^ (-a.exponent).toNat : Nat) : ℚ) ≠ 0 := by positivity
    rw [Magnitude.toRat_of_neg hneg, eq_div_iff hpower, Nat.shiftLeft_eq]
    simp only [hneg, decide_false, Bool.false_or, beq_iff_eq]
    exact_mod_cast Iff.rfl

/-- The whole part of a machine number is that of the fraction it stands for. -/
theorem truncate_eq (x : Float) :
    truncate x = if 0 ≤ toRat x then ⌊toRat x⌋ else ⌈toRat x⌉ := by
  have hnonneg := (magnitude x).toRat_nonneg
  have hfloor := (magnitude x).floor_toRat
  rw [truncate, toRat]
  cases isNegative x with
  | false => simp only [Bool.false_eq_true, if_false, if_pos hnonneg, hfloor]
  | true =>
      simp only [if_true, Int.ceil_neg, hfloor]
      split
      · rename_i hneg
        have hzero : (magnitude x).toRat = 0 := le_antisymm (neg_nonneg.1 hneg) hnonneg
        rw [hzero, Int.floor_zero] at hfloor
        rw [hzero, ← hfloor]
        simp
      · rfl

/-- The floor of a machine number is that of the fraction it stands for. -/
theorem floor_eq (x : Float) : floor x = ⌊toRat x⌋ := by
  have hfloor := (magnitude x).floor_toRat
  have hwhole := (magnitude x).isWhole_iff
  rw [floor, truncate, toRat]
  cases isNegative x with
  | false => simp only [Bool.false_and, Bool.false_eq_true, if_false, hfloor]
  | true =>
      simp only [Bool.true_and, if_true, Int.floor_neg]
      cases hplaces : (magnitude x).isWhole with
      | true =>
          rw [← hwhole.1 hplaces]
          simp
      | false =>
          have hne : ((magnitude x).whole : ℚ) ≠ (magnitude x).toRat := by
            intro heq
            rw [hwhole.2 heq] at hplaces
            cases hplaces
          have hceil : ⌈(magnitude x).toRat⌉ = (magnitude x).whole + 1 := by
            obtain ⟨hlow, hhigh⟩ := Int.floor_eq_iff.1 hfloor
            rw [Int.ceil_eq_iff]
            push_cast at hlow hhigh ⊢
            exact ⟨by rw [add_sub_cancel_right]; exact lt_of_le_of_ne hlow hne, hhigh.le⟩
          simp only [Bool.not_false, if_true, hceil]
          omega

/-! ### Opposites -/

section Opposite

variable {x : Float} (hx : x.isNaN = false)

include hx

theorem isNaN_neg : (-x).isNaN = false := by
  have hnumber := isNumber_toBits hx
  have hneg := toNat_toBits_neg hx
  by_contra hnan
  refine isNaN_iff.1 (Bool.eq_true_of_not_eq_false hnan) ?_
  rw [IsNumber] at hnumber ⊢
  omega

theorem isInf_neg : (-x).isInf = x.isInf := by
  have hneg := toNat_toBits_neg hx
  rw [Bool.eq_iff_iff, isInf_iff, isInf_iff]
  omega

theorem isNegative_neg : isNegative (-x) = !isNegative x := by
  have hneg := toNat_toBits_neg hx
  have hlt := x.toBits.toNat_lt
  rw [isNegative, isNegative, signField_eq, signField_eq, Bool.eq_iff_iff]
  simp only [decide_eq_true_eq, Bool.not_eq_true', decide_eq_false_iff_not]
  omega

theorem magnitude_neg : magnitude (-x) = magnitude x := by
  have hneg := toNat_toBits_neg hx
  have hfield :
      (((-x).toBits >>> 52) &&& 0x7FF).toNat = ((x.toBits >>> 52) &&& 0x7FF).toNat := by
    rw [exponentField_eq, exponentField_eq]
    omega
  have hfraction : ((-x).toBits &&& 0xFFFFFFFFFFFFF).toNat =
      (x.toBits &&& 0xFFFFFFFFFFFFF).toNat := by
    rw [fractionField_eq, fractionField_eq]
    omega
  rw [magnitude, magnitude, hfield, hfraction]

theorem toRat_neg : toRat (-x) = -toRat x := by
  rw [toRat, toRat, isNegative_neg hx, magnitude_neg hx]
  cases isNegative x <;> simp

theorem place_neg : place (-x) = -place x := by
  cases hinfinite : x.isInf with
  | true =>
      rw [place_of_infinite hinfinite,
        place_of_infinite ((isInf_neg hx).trans hinfinite), isNegative_neg hx]
      cases isNegative x <;> simp
  | false =>
      rw [place_of_finite (isFinite_iff.2 ⟨hx, hinfinite⟩),
        place_of_finite (isFinite_iff.2 ⟨isNaN_neg hx, (isInf_neg hx).trans hinfinite⟩),
        toRat_neg hx, Rat.cast_neg, EReal.coe_neg]

end Opposite

/-! ### Whole numbers -/

theorem isNaN_ofInt (n : Int) : (Float.ofInt n).isNaN = false := by
  by_cases hn : n.natAbs < 2 ^ 53
  · exact isNaN_of_holds (holds_ofInt hn)
  · change (Float.ofInt n).toModel.unpack.isNaN = false
    rcases isHuge_ofInt (not_lt.1 hn) with hinfinite | ⟨m, e, hm, -, -, -, hfinite⟩
    · rw [hinfinite]
      rfl
    · rw [hfinite]
      rfl

/-- A whole number that is rounded stays beyond `2 ^ 53`. -/
theorem place_of_isHuge {u : UnpackedFloat} :
    (IsHuge .positive u → ((2 ^ 53 : ℝ) : EReal) ≤ placeOf u) ∧
      (IsHuge .negative u → placeOf u ≤ ((-2 ^ 53 : ℝ) : EReal)) := by
  have hlarge : ∀ {m : Nat} {e : Int}, 0 < m → m.log2 = 52 → 1 ≤ e →
      (2 ^ 53 : ℝ) ≤ Magnitude.toRat ⟨m, e⟩ := by
    intro m e hm hleading he
    have hlow : 2 ^ 52 ≤ m := by
      rw [← hleading]
      exact Nat.log2_self_le hm.ne'
    have hle : (2 ^ 53 : ℚ) ≤ Magnitude.toRat ⟨m, e⟩ := by
      rw [Magnitude.toRat_eq]
      calc (2 ^ 53 : ℚ) = 2 ^ 52 * 2 ^ (1 : Int) := by norm_num
        _ ≤ m * 2 ^ e := by
            gcongr
            · exact_mod_cast hlow
            · norm_num
    exact_mod_cast hle
  constructor
  · rintro (rfl | ⟨m, e, hm, hleading, he, -, rfl⟩)
    · exact le_top
    · exact EReal.coe_le_coe_iff.2 (hlarge hm hleading he)
  · rintro (rfl | ⟨m, e, hm, hleading, he, -, rfl⟩)
    · exact bot_le
    · exact EReal.coe_le_coe_iff.2 (neg_le_neg (hlarge hm hleading he))

/-- A whole number of any size lies on the same side of a number below `2 ^ 53`
after it has been rounded. -/
theorem place_ofInt_iff {v : ℚ} (hv : |v| < 2 ^ 53) (n : Int) :
    (((v : ℝ) : EReal) ≤ place (Float.ofInt n) ↔ v ≤ n) ∧
      (place (Float.ofInt n) ≤ ((v : ℝ) : EReal) ↔ (n : ℚ) ≤ v) := by
  by_cases hn : n.natAbs < 2 ^ 53
  · rw [place_of_finite (isFinite_ofInt hn), toRat_ofInt hn, EReal.coe_le_coe_iff,
      EReal.coe_le_coe_iff, Rat.cast_le, Rat.cast_le]
    exact ⟨Iff.rfl, Iff.rfl⟩
  · obtain ⟨hlow, hhigh⟩ := abs_lt.1 hv
    have hlow' : ((-2 ^ 53 : ℝ) : EReal) < ((v : ℝ) : EReal) := by
      rw [EReal.coe_lt_coe_iff]
      exact_mod_cast hlow
    have hhigh' : ((v : ℝ) : EReal) < ((2 ^ 53 : ℝ) : EReal) := by
      rw [EReal.coe_lt_coe_iff]
      exact_mod_cast hhigh
    have hhuge := isHuge_ofInt (not_lt.1 hn)
    by_cases hneg : n < 0
    · have hsign : signOf n = .negative := if_pos hneg
      have hbelow : (n : ℚ) < v := by
        have hle : n ≤ -2 ^ 53 := by omega
        exact lt_of_le_of_lt (by exact_mod_cast hle) hlow
      rw [hsign] at hhuge
      have hplace : place (Float.ofInt n) < ((v : ℝ) : EReal) :=
        (place_of_isHuge.2 hhuge).trans_lt hlow'
      exact ⟨iff_of_false hplace.not_ge hbelow.not_ge, iff_of_true hplace.le hbelow.le⟩
    · have hsign : signOf n = .positive := if_neg hneg
      have habove : v < n := by
        have hle : 2 ^ 53 ≤ n := by omega
        exact lt_of_lt_of_le hhigh (by exact_mod_cast hle)
      rw [hsign] at hhuge
      have hplace : ((v : ℝ) : EReal) < place (Float.ofInt n) :=
        hhigh'.trans_le (place_of_isHuge.1 hhuge)
      exact ⟨iff_of_true hplace.le habove.le, iff_of_false hplace.not_ge habove.not_ge⟩

end Binary
end LatticeHull
