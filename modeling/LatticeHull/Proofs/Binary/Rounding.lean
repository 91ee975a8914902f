import Mathlib

/-!
# Rounding of whole numbers

A whole number below `2 ^ 53` is stored exactly: its significand is shifted left
until the leading one is in place, and the binary places that this appends are
zero.  However many binary places an operation leaves behind such a number,
rounding finds the same significand again.  A greater whole number is stored with
an exponent above zero, or as infinity.
-/

namespace LatticeHull
namespace Binary

/-!
## Normal numbers survive packing

A machine number is packed into a sign, an exponent field and the bits of its significand
below the leading one.  Unpacking returns a number whose significand has its leading one
in place and whose exponent field is neither the least nor the greatest.
-/

open Float.Model Float.Model.UnpackedFloat

theorem unpack_pack_zero (s : Sign) : (Float.Model.pack (.zero s)).unpack = .zero s := by
  cases s <;> rfl

theorem toNat_leading_append {m : Nat} (hlow : 2 ^ 52 ≤ m) (hhigh : m < 2 ^ 53) :
    (1#1 ++ BitVec.ofNat 52 m).toNat = m := by
  rw [BitVec.toNat_append, ← Nat.shiftLeft_add_eq_or_of_lt (BitVec.isLt _),
    BitVec.toNat_ofNat]
  simp only [BitVec.toNat_ofNat, Nat.shiftLeft_eq]
  omega

theorem pack_normal (s : Sign) {m : Nat} {e : Int} (hm : 0 < m) (hleading : m.log2 = 52)
    (hlow : -1075 < e) (hhigh : e ≤ 971) :
    UnpackedFloat.pack Format.binary64 (.finite s m e hm) =
      packComponents Format.binary64 s (BitVec.ofNat _ (e + 1075).toNat)
        (BitVec.ofNat _ m) := by
  have hbiased : (e + Format.binary64.exponentBias +
      Format.binary64.mantissaBitsWithoutImplicit).toNat = (e + 1075).toNat := by
    simp only [Format.exponentBias]
    omega
  have hfit : ¬2 ^ Format.binary64.exponentBits ≤ (e + 1075).toNat + 1 := by
    simp only
    omega
  simp only [UnpackedFloat.pack, hbiased, hfit, if_false, hleading]
  rfl

theorem unpack_pack_normal (s : Sign) {m : Nat} {e : Int} (hm : 0 < m)
    (hleading : m.log2 = 52) (hlow : -1075 < e) (hhigh : e ≤ 971) :
    (Float.Model.pack (.finite s m e hm)).unpack = .finite s m e hm := by
  obtain ⟨hmlow, hmhigh⟩ := (Nat.log2_eq_iff hm.ne').1 hleading
  have hexponent : (BitVec.ofNat 11 (e + 1075).toNat).toNat = (e + 1075).toNat := by
    rw [BitVec.toNat_ofNat]
    omega
  have hinfinite : BitVec.ofNat 11 (e + 1075).toNat ≠ -1#11 := by
    intro heq
    have htoNat := congrArg BitVec.toNat heq
    rw [hexponent] at htoNat
    simp at htoNat
    omega
  have hsubnormal : BitVec.ofNat 11 (e + 1075).toNat ≠ 0#11 := by
    intro heq
    have htoNat := congrArg BitVec.toNat heq
    rw [hexponent] at htoNat
    simp at htoNat
    omega
  simp only [Float.Model.unpack, Float.Model.pack, pack_normal s hm hleading hlow hhigh,
    UnpackedFloat.unpack, unpackMantissa_packComponents, unpackExponent_packComponents,
    unpackSign_packComponents, Sign.ofBitVec_toBitVec, hinfinite, hsubnormal, if_false]
  congr 1
  · exact toNat_leading_append hmlow hmhigh
  · rw [hexponent]
    simp only [Format.exponentBias]
    omega

theorem unpack_pack_infinity (s : Sign) :
    (Float.Model.pack (.infinity s)).unpack = .infinity s := by
  cases s <;> rfl

/-- A number that is too large for the exponent field is packed as infinity. -/
theorem unpack_pack_overflow (s : Sign) {m : Nat} {e : Int} (hm : 0 < m) (he : 971 < e) :
    (Float.Model.pack (.finite s m e hm)).unpack = .infinity s := by
  have hbiased : (e + Format.binary64.exponentBias +
      Format.binary64.mantissaBitsWithoutImplicit).toNat = (e + 1075).toNat := by
    simp only [Format.exponentBias]
    omega
  have hfull : 2 ^ Format.binary64.exponentBits ≤ (e + 1075).toNat + 1 := by
    simp only
    omega
  have hpack : UnpackedFloat.pack Format.binary64 (.finite s m e hm) =
      UnpackedFloat.pack Format.binary64 (.infinity s) := by
    simp only [UnpackedFloat.pack, hbiased, hfull, if_true]
  rw [← unpack_pack_infinity s]
  simp only [Float.Model.unpack, Float.Model.pack, hpack]

/-! ## Storing whole numbers -/

theorem log2_mul_two_pow {n : Nat} (hn : n ≠ 0) (k : Nat) :
    (n * 2 ^ k).log2 = n.log2 + k := by
  have hpow : 0 < 2 ^ k := Nat.two_pow_pos k
  apply (Nat.log2_eq_iff (Nat.mul_ne_zero hn hpow.ne')).2
  have hlow := Nat.log2_self_le hn
  have hhigh := Nat.lt_log2_self (n := n)
  constructor
  · rw [pow_add]
    exact Nat.mul_le_mul_right _ hlow
  · rw [show n.log2 + k + 1 = (n.log2 + 1) + k by omega, pow_add]
    exact Nat.mul_lt_mul_of_pos_right hhigh hpow

/-- The binary places that a whole number below `2 ^ 53` is stored with. -/
def places (n : Nat) : Nat :=
  52 - n.log2

theorem log2_stored {n : Nat} (hn : n ≠ 0) (hlog : n.log2 ≤ 52) :
    (n * 2 ^ places n).log2 = 52 := by
  rw [log2_mul_two_pow hn]
  exact Nat.add_sub_of_le hlog

theorem stored_pos {n : Nat} (hn : n ≠ 0) : 0 < n * 2 ^ places n :=
  Nat.mul_pos (Nat.pos_of_ne_zero hn) (Nat.two_pow_pos _)

/-! ### Exact rounding -/

theorem shiftRight_exact (m k : Nat) :
    ExtendedMantissa.mk (m * 2 ^ k) false false >>> k =
      ExtendedMantissa.mk m false false := by
  change k.repeat ExtendedMantissa.shiftRightOne _ = _
  induction k generalizing m with
  | zero => simp [Nat.repeat]
  | succ k ih =>
      have hsplit : m * 2 ^ (k + 1) = (m * 2) * 2 ^ k := by ring
      rw [hsplit, Nat.repeat, ih]
      simp [ExtendedMantissa.shiftRightOne]

theorem target_exact {n : Nat} (hn : n ≠ 0) (hlog : n.log2 ≤ 52) (k : Nat) :
    Format.binary64.targetExponent (totalExponent (n * 2 ^ k) (-k)) =
      -(places n : Int) := by
  simp only [Format.targetExponent, totalExponent, log2_mul_two_pow hn,
    Format.mantissaBits, Format.minExponent, places]
  push_cast
  omega

theorem shiftToTarget_exact {n : Nat} (hn : n ≠ 0) (hlog : n.log2 ≤ 52)
    {k : Nat} (hk : places n ≤ k) :
    shiftToTargetExponent Format.binary64 (n * 2 ^ k) (-k) .exact =
      (⟨n * 2 ^ places n, false, false⟩, -(places n : Int)) := by
  have hshift : (-(places n : Int) - -(k : Int)).toNat = k - places n := by omega
  have hsplit : n * 2 ^ k = n * 2 ^ places n * 2 ^ (k - places n) := by
    rw [Nat.mul_assoc, ← pow_add, Nat.add_sub_cancel' hk]
  simp only [shiftToTargetExponent, target_exact hn hlog, shiftToExponent, hshift,
    ExtendedMantissa.ofMantissaAndAccuracy]
  rw [hsplit, shiftRight_exact]
  congr 1
  omega

theorem roundWithAccuracy_exact (s : Sign) {n : Nat} (hn : n ≠ 0) (hlog : n.log2 ≤ 52)
    {k : Nat} (hk : places n ≤ k) :
    roundWithAccuracy Format.binary64 s (n * 2 ^ k) (-k) .exact =
      .finite s (n * 2 ^ places n) (-(places n : Int)) (stored_pos hn) := by
  have hsecond := shiftToTarget_exact hn hlog (Nat.le_refl (places n))
  have hrounded : ExtendedMantissa.roundedMantissa ⟨n * 2 ^ places n, false, false⟩ =
      n * 2 ^ places n := rfl
  simp only [roundWithAccuracy, shiftToTarget_exact hn hlog hk, hrounded, hsecond]
  exact dif_neg (stored_pos hn).ne'

theorem round_exact (s : Sign) {n : Nat} (hn : n ≠ 0) (hlog : n.log2 ≤ 52) (k : Nat) :
    UnpackedFloat.round Format.binary64 s (n * 2 ^ k) (-k) =
      .finite s (n * 2 ^ places n) (-(places n : Int)) (stored_pos hn) := by
  have hmantissa : (n * 2 ^ k) <<< (-(k : Int) - -(places n : Int)).toNat =
      n * 2 ^ max k (places n) := by
    rw [Nat.shiftLeft_eq, Nat.mul_assoc, ← pow_add]
    congr 2
    omega
  have hexponent : -(k : Int) - ((-(k : Int) - -(places n : Int)).toNat : Int) =
      -((max k (places n) : Nat) : Int) := by omega
  simp only [UnpackedFloat.round, target_exact hn hlog, decreaseExponent, hmantissa,
    hexponent]
  exact roundWithAccuracy_exact s hn hlog (le_max_right _ _)

/-! ### Rounding of large numbers -/

theorem mantissa_shiftRight (em : ExtendedMantissa) (k : Nat) :
    (em >>> k).mantissa = em.mantissa / 2 ^ k := by
  change (k.repeat ExtendedMantissa.shiftRightOne em).mantissa = _
  induction k with
  | zero => simp [Nat.repeat]
  | succ k ih =>
      rw [Nat.repeat, ExtendedMantissa.shiftRightOne, ih,
        Nat.div_div_eq_div_mul, pow_succ]

theorem roundedMantissa_bounds (em : ExtendedMantissa) :
    em.mantissa ≤ em.roundedMantissa ∧ em.roundedMantissa ≤ em.mantissa + 1 := by
  simp only [ExtendedMantissa.roundedMantissa, Accuracy.roundToNearestEven]
  split <;> omega

/-- A significand with its leading one in place, or the next power of two above, comes
out of the last shift with its leading one in place. -/
theorem shiftToTarget_leading {m : Nat} {e : Int} (hlow : 2 ^ 52 ≤ m)
    (hhigh : m ≤ 2 ^ 53) (he : 1 ≤ e) :
    ((shiftToTargetExponent Format.binary64 m e .exact).1.mantissa).log2 = 52 ∧
      1 ≤ (shiftToTargetExponent Format.binary64 m e .exact).2 := by
  have hm : m ≠ 0 := by omega
  simp only [shiftToTargetExponent, shiftToExponent, mantissa_shiftRight,
    ExtendedMantissa.ofMantissaAndAccuracy, Format.targetExponent, totalExponent,
    Format.mantissaBits, Format.minExponent]
  by_cases htop : m = 2 ^ 53
  · have hlog : m.log2 = 53 := by rw [htop, Nat.log2_two_pow]
    have hshift : (max ((m.log2 : Int) + 1 + e - ((1 + 52 : Nat) : Int))
        (3 - 2 ^ (11 - 1) - ((1 + 52 : Nat) : Int)) - e).toNat = 1 := by omega
    rw [hshift, htop]
    refine ⟨by decide, by omega⟩
  · have hlog : m.log2 = 52 := (Nat.log2_eq_iff hm).2 ⟨hlow, by omega⟩
    have hshift : (max ((m.log2 : Int) + 1 + e - ((1 + 52 : Nat) : Int))
        (3 - 2 ^ (11 - 1) - ((1 + 52 : Nat) : Int)) - e).toNat = 0 := by omega
    rw [hshift, pow_zero, Nat.div_one]
    exact ⟨hlog, by omega⟩

theorem roundWithAccuracy_large (s : Sign) {n : Nat} (hn : 2 ^ 53 ≤ n) (k : Nat) :
    ∃ m e, ∃ hm : 0 < m, m.log2 = 52 ∧ 1 ≤ e ∧
      roundWithAccuracy Format.binary64 s (n * 2 ^ k) (-k) .exact =
        .finite s m e hm := by
  have hne : n ≠ 0 := by omega
  have hlog : 53 ≤ n.log2 := (Nat.le_log2 hne).2 hn
  have htarget : Format.binary64.targetExponent (totalExponent (n * 2 ^ k) (-k)) =
      (n.log2 : Int) - 52 := by
    simp only [Format.targetExponent, totalExponent, log2_mul_two_pow hne,
      Format.mantissaBits, Format.minExponent]
    push_cast
    omega
  have hshift : ((n.log2 : Int) - 52 - -(k : Int)).toNat = (n.log2 - 52) + k := by omega
  have hfirst :
      (shiftToTargetExponent Format.binary64 (n * 2 ^ k) (-k) .exact).1.mantissa =
      n / 2 ^ (n.log2 - 52) := by
    simp only [shiftToTargetExponent, htarget, shiftToExponent, hshift,
      mantissa_shiftRight, ExtendedMantissa.ofMantissaAndAccuracy]
    rw [pow_add, Nat.mul_div_mul_right _ _ (Nat.two_pow_pos k)]
  have hfirst_exponent :
      (shiftToTargetExponent Format.binary64 (n * 2 ^ k) (-k) .exact).2 =
      (n.log2 : Int) - 52 := by
    simp only [shiftToTargetExponent, htarget, shiftToExponent, hshift]
    push_cast
    omega
  have hlow : 2 ^ 52 ≤ n / 2 ^ (n.log2 - 52) := by
    rw [Nat.le_div_iff_mul_le (Nat.two_pow_pos _), ← pow_add,
      Nat.add_sub_cancel' (by omega)]
    exact Nat.log2_self_le hne
  have hhigh : n / 2 ^ (n.log2 - 52) < 2 ^ 53 := by
    rw [Nat.div_lt_iff_lt_mul (Nat.two_pow_pos _), ← pow_add,
      show 53 + (n.log2 - 52) = n.log2 + 1 by omega]
    exact Nat.lt_log2_self
  obtain ⟨hroundlow, hroundhigh⟩ := roundedMantissa_bounds
    (shiftToTargetExponent Format.binary64 (n * 2 ^ k) (-k) .exact).1
  rw [hfirst] at hroundlow hroundhigh
  obtain ⟨hleading, hexponent⟩ := shiftToTarget_leading
    (e := (n.log2 : Int) - 52) (hlow.trans hroundlow) (by omega) (by omega)
  rw [← hfirst_exponent] at hleading hexponent
  have hpos : 0 < (shiftToTargetExponent Format.binary64
      (shiftToTargetExponent Format.binary64 (n * 2 ^ k) (-k) .exact).1.roundedMantissa
      (shiftToTargetExponent Format.binary64 (n * 2 ^ k) (-k) .exact).2
        .exact).1.mantissa := by
    by_contra hzero
    rw [Nat.eq_zero_of_not_pos hzero] at hleading
    simp at hleading
  exact ⟨_, _, hpos, hleading, hexponent, dif_neg hpos.ne'⟩

end Binary
end LatticeHull
