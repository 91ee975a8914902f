import LatticeHull.Proofs.Binary.Reading

/-!
# Signs, bits and rounding

A machine number is settled by its bits, and the bits of a number with another sign
differ in the first one only.  There is a single undefined number; every other word of 64
bits whose exponent field is full is infinite.
-/

namespace LatticeHull
namespace Binary

open Float.Model Float.Model.UnpackedFloat

/-! ### The fields of an unpacked word -/

theorem toNat_unpack (b : BitVec Format.binary64.numBits) :
    (unpackExponent b).toNat = b.toNat / 2 ^ 52 % 2 ^ 11 ∧
      (unpackMantissa b).toNat = b.toNat % 2 ^ 52 ∧
      (Sign.ofBitVec (unpackSign b)).toBitVec.toNat = b.toNat / 2 ^ 63 := by
  have hword :=
    congrArg BitVec.toNat (packComponents_unpackSign_unpackExponent_unpackMantissa b)
  have hexponent : (unpackExponent b).toNat < 2 ^ 11 := BitVec.isLt _
  have hmantissa : (unpackMantissa b).toNat < 2 ^ 52 := BitVec.isLt _
  rw [toNat_packComponents] at hword
  omega

def resign (f : Sign → Sign) : UnpackedFloat → UnpackedFloat
  | .notANumber => .notANumber
  | .infinity s => .infinity (f s)
  | .zero s => .zero (f s)
  | .finite s m e hm => .finite (f s) m e hm

theorem resign_id (u : UnpackedFloat) : resign id u = u := by
  cases u <;> rfl

section Resigning

variable (f : Sign → Sign) {b : BitVec Format.binary64.numBits}

theorem pack_resign_subnormal (hempty : unpackExponent b = 0#_)
    (hzero : unpackMantissa b ≠ 0#_) :
    UnpackedFloat.pack Format.binary64
      (resign f (UnpackedFloat.unpack Format.binary64 b)) =
      packComponents Format.binary64 (f (Sign.ofBitVec (unpackSign b)))
        (unpackExponent b)
        (unpackMantissa b) := by
  have hfull : unpackExponent b ≠ -1#_ := by
    rw [hempty]
    decide
  have hpos : (unpackMantissa b).toNat ≠ 0 := by
    simpa [BitVec.toNat_eq] using hzero
  have hlog : (unpackMantissa b).toNat.log2 < 52 := (Nat.log2_lt hpos).2 (BitVec.isLt _)
  have hbiased : (((unpackExponent b).toNat : Int) - (Format.binary64.exponentBias +
      Format.binary64.mantissaBitsWithoutImplicit) + 1 + Format.binary64.exponentBias +
      Format.binary64.mantissaBitsWithoutImplicit).toNat = 1 := by
    rw [hempty]
    rfl
  have hleading : ¬(unpackMantissa b).toNat.log2 + 1 = Format.binary64.mantissaBits := by
    simp only [Format.mantissaBits]
    omega
  rw [UnpackedFloat.unpack]
  simp only [if_neg hfull, if_pos hempty, dif_neg hzero, resign, UnpackedFloat.pack,
    hbiased, if_neg hleading]
  rw [if_neg (by decide), BitVec.ofNat_toNat, BitVec.setWidth_eq, hempty]

theorem pack_resign_normal (hempty : unpackExponent b ≠ 0#_)
    (hfull : unpackExponent b ≠ -1#_) :
    UnpackedFloat.pack Format.binary64
      (resign f (UnpackedFloat.unpack Format.binary64 b)) =
      packComponents Format.binary64 (f (Sign.ofBitVec (unpackSign b)))
        (unpackExponent b)
        (unpackMantissa b) := by
  have hmantissa : (unpackMantissa b).toNat < 2 ^ 52 := BitVec.isLt _
  have hexponent : (unpackExponent b).toNat < 2 ^ 11 := BitVec.isLt _
  have hne : (unpackExponent b).toNat ≠ 0 := by
    simpa [BitVec.toNat_eq] using hempty
  have hlt : (unpackExponent b).toNat ≠ 2 ^ 11 - 1 := by
    simpa [BitVec.toNat_eq] using hfull
  have happend :
      (1#1 ++ unpackMantissa b).toNat = 2 ^ 52 + (unpackMantissa b).toNat := by
    rw [BitVec.toNat_append, ← Nat.shiftLeft_add_eq_or_of_lt (BitVec.isLt _)]
    simp [Nat.shiftLeft_eq]
  have hleading :
      (1#1 ++ unpackMantissa b).toNat.log2 + 1 = Format.binary64.mantissaBits := by
    have hlog : (1#1 ++ unpackMantissa b).toNat.log2 = 52 := by
      rw [happend, Nat.log2_eq_iff (by omega)]
      omega
    rw [hlog]
    rfl
  have hbiased : (((unpackExponent b).toNat : Int) - (Format.binary64.exponentBias +
      Format.binary64.mantissaBitsWithoutImplicit) + Format.binary64.exponentBias +
      Format.binary64.mantissaBitsWithoutImplicit).toNat = (unpackExponent b).toNat := by
    omega
  have hsmall : ¬2 ^ Format.binary64.exponentBits ≤ (unpackExponent b).toNat + 1 := by
    simp only
    omega
  rw [UnpackedFloat.unpack]
  simp only [if_neg hfull, if_neg hempty, resign, UnpackedFloat.pack, hbiased,
    if_neg hsmall, if_pos hleading]
  congr 1
  · rw [BitVec.ofNat_toNat, BitVec.setWidth_eq]
  · apply BitVec.eq_of_toNat_eq
    rw [BitVec.toNat_ofNat, happend]
    simp only
    omega

theorem pack_resign_unpack (hb : unpackExponent b = -1#_ → unpackMantissa b = 0#_) :
    UnpackedFloat.pack Format.binary64
      (resign f (UnpackedFloat.unpack Format.binary64 b)) =
      packComponents Format.binary64 (f (Sign.ofBitVec (unpackSign b)))
        (unpackExponent b)
        (unpackMantissa b) := by
  by_cases hfull : unpackExponent b = -1#_
  · rw [UnpackedFloat.unpack]
    simp only [if_pos hfull, if_pos (hb hfull), resign, UnpackedFloat.pack,
      packedInfinity]
    rw [hfull, hb hfull]
    rfl
  · by_cases hempty : unpackExponent b = 0#_
    · by_cases hzero : unpackMantissa b = 0#_
      · rw [UnpackedFloat.unpack]
        simp only [if_neg hfull, if_pos hempty, dif_pos hzero, resign,
          UnpackedFloat.pack, packedZero]
        rw [hempty, hzero]
        rfl
      · exact pack_resign_subnormal f hempty hzero
    · exact pack_resign_normal f hempty hfull

end Resigning

/-! ### Words that are numbers -/

/-- Whether a word stands for a number: apart from its sign it lies up to infinity. -/
def IsNumber (w : UInt64) : Prop :=
  w.toNat % 2 ^ 63 ≤ infinityBits

theorem isNumber_iff {w : UInt64} :
    IsNumber w ↔ (@unpackExponent Format.binary64 w.toBitVec = -1#_ →
      @unpackMantissa Format.binary64 w.toBitVec = 0#_) := by
  obtain ⟨hexponent, hmantissa, -⟩ := toNat_unpack w.toBitVec
  have hlt : w.toBitVec.toNat < 2 ^ 64 := BitVec.isLt _
  have hfull : @unpackExponent Format.binary64 w.toBitVec = -1#_ ↔
      w.toBitVec.toNat / 2 ^ 52 % 2 ^ 11 = 2 ^ 11 - 1 := by
    rw [← hexponent, BitVec.toNat_eq]
    rfl
  have hzero : @unpackMantissa Format.binary64 w.toBitVec = 0#_ ↔
      w.toBitVec.toNat % 2 ^ 52 = 0 := by
    rw [← hmantissa, BitVec.toNat_eq]
    rfl
  rw [IsNumber, hfull, hzero, infinityBits, ← UInt64.toNat_toBitVec]
  omega

theorem toNat_pack_resign (f : Sign → Sign) {w : UInt64} (hw : IsNumber w) :
    (Float.Model.pack
      (resign f (UnpackedFloat.unpack Format.binary64 w.toBitVec))).toBits.toNat =
      (f (Sign.ofBitVec (@unpackSign Format.binary64 w.toBitVec))).toBitVec.toNat *
        2 ^ 63 + w.toNat % 2 ^ 63 := by
  obtain ⟨hexponent, hmantissa, -⟩ := toNat_unpack w.toBitVec
  change (UnpackedFloat.pack Format.binary64 _).toNat = _
  rw [pack_resign_unpack f (isNumber_iff.1 hw), toNat_packComponents, hexponent,
    hmantissa, ← UInt64.toNat_toBitVec]
  omega

theorem toBits_ofBits {w : UInt64} (hw : IsNumber w) : (Float.ofBits w).toBits = w := by
  have hpack := toNat_pack_resign id hw
  obtain ⟨-, -, hsign⟩ := toNat_unpack w.toBitVec
  rw [resign_id, id, hsign, UInt64.toNat_toBitVec] at hpack
  apply UInt64.toNat_inj.1
  refine hpack.trans ?_
  omega

/-! ### Undefined and infinite numbers -/

theorem kind_unpack (b : BitVec Format.binary64.numBits) :
    ((UnpackedFloat.unpack Format.binary64 b).isNaN = true ↔
      unpackExponent b = -1#_ ∧ ¬unpackMantissa b = 0#_) ∧
    ((UnpackedFloat.unpack Format.binary64 b).isInf = true ↔
      unpackExponent b = -1#_ ∧ unpackMantissa b = 0#_) := by
  rw [UnpackedFloat.unpack]
  split
  · rename_i hfull
    split
    · rename_i hzero
      exact ⟨⟨nofun, fun h => absurd hzero h.2⟩, fun _ => ⟨hfull, hzero⟩, fun _ => rfl⟩
    · rename_i hzero
      exact ⟨⟨fun _ => ⟨hfull, hzero⟩, fun _ => rfl⟩, nofun, fun h => absurd h.2 hzero⟩
  · rename_i hfull
    split
    · split <;>
        exact ⟨⟨nofun, fun h => absurd h.1 hfull⟩, nofun, fun h => absurd h.1 hfull⟩
    · exact ⟨⟨nofun, fun h => absurd h.1 hfull⟩, nofun, fun h => absurd h.1 hfull⟩

theorem isNaN_iff {x : Float} : x.isNaN = true ↔ ¬IsNumber x.toBits := by
  rw [isNumber_iff, Classical.not_imp]
  exact (kind_unpack x.toBits.toBitVec).1

/-- There is only one undefined number. -/
theorem eq_undefined_of_isNaN {x : Float} (hx : x.isNaN = true) : x = 0.0 / 0.0 := by
  rw [Float.isNaN_eq_decide_eq_nan, decide_eq_true_iff] at hx
  rw [hx]
  decide

theorem isInf_iff {x : Float} :
    x.isInf = true ↔ x.toBits.toNat % 2 ^ 63 = infinityBits := by
  obtain ⟨hexponent, hmantissa, -⟩ := toNat_unpack x.toBits.toBitVec
  have hlt : x.toBits.toBitVec.toNat < 2 ^ 64 := BitVec.isLt _
  have hword : (@unpackExponent Format.binary64 x.toBits.toBitVec = -1#_ ∧
      @unpackMantissa Format.binary64 x.toBits.toBitVec = 0#_) ↔
      x.toBits.toNat % 2 ^ 63 = infinityBits := by
    rw [BitVec.toNat_eq, BitVec.toNat_eq, hexponent, hmantissa, infinityBits,
      ← UInt64.toNat_toBitVec]
    simp
    omega
  exact (kind_unpack x.toBits.toBitVec).2.trans hword

theorem lt_infinityBits {x : Float} (hnumber : x.isNaN = false)
    (hfinite : x.isInf = false) :
    x.toBits.toNat % 2 ^ 63 < infinityBits := by
  have hle : IsNumber x.toBits := by
    by_contra hnot
    rw [isNaN_iff.2 hnot] at hnumber
    cases hnumber
  refine lt_of_le_of_ne hle fun heq => ?_
  rw [isInf_iff.2 heq] at hfinite
  cases hfinite

/-! ### Negation and absolute value -/

section Operations

variable {x : Float} (hx : x.isNaN = false)

include hx

theorem isNumber_toBits : IsNumber x.toBits := by
  by_contra hnot
  rw [isNaN_iff.2 hnot] at hx
  cases hx

theorem toNat_toBits_abs : x.abs.toBits.toNat = x.toBits.toNat % 2 ^ 63 := by
  have hpack := toNat_pack_resign (fun _ => .positive) (isNumber_toBits hx)
  have habs : (resign (fun _ => .positive) x.toModel.unpack) = x.toModel.unpack.abs := by
    cases x.toModel.unpack <;> rfl
  change (Float.Model.pack x.toModel.unpack.abs).toBits.toNat = _
  rw [← habs]
  exact hpack.trans (by simp [Sign.toBitVec])

theorem toNat_toBits_neg :
    (-x).toBits.toNat =
      (1 - x.toBits.toNat / 2 ^ 63) * 2 ^ 63 + x.toBits.toNat % 2 ^ 63 := by
  have hpack := toNat_pack_resign (fun s => -s) (isNumber_toBits hx)
  have hneg : (resign (fun s => -s) x.toModel.unpack) = x.toModel.unpack.neg := by
    cases x.toModel.unpack <;> rfl
  obtain ⟨-, -, hsign⟩ := toNat_unpack x.toBits.toBitVec
  have hflip : ∀ s : Sign, (-s).toBitVec.toNat = 1 - s.toBitVec.toNat := by
    intro s
    cases s <;> rfl
  change (Float.Model.pack x.toModel.unpack.neg).toBits.toNat = _
  rw [← hneg]
  refine hpack.trans ?_
  rw [hflip, hsign, UInt64.toNat_toBitVec]

theorem isNaN_abs : x.abs.isNaN = false := by
  have hnumber := isNumber_toBits hx
  have habs := toNat_toBits_abs hx
  by_contra hnan
  refine isNaN_iff.1 (Bool.eq_true_of_not_eq_false hnan) ?_
  rw [IsNumber] at hnumber ⊢
  omega

/-- A number is its absolute value with its sign. -/
theorem neg_abs_or_abs : (if isNegative x then -x.abs else x.abs) = x := by
  have habs := toNat_toBits_abs hx
  have hneg := toNat_toBits_neg (isNaN_abs hx)
  have hlt := x.toBits.toNat_lt
  apply Float.toBits_inj.1
  apply UInt64.toNat_inj.1
  rw [isNegative, signField_eq]
  split
  · rename_i hsign
    have hlarge := of_decide_eq_true hsign
    omega
  · rename_i hsign
    have hsmall := of_decide_eq_false (Bool.eq_false_of_not_eq_true hsign)
    omega

end Operations

/-! ### Whole numbers -/

section Whole

variable {x : Float} {n : Int}

theorem isNaN_of_holds (hx : Holds x n) : x.isNaN = false := by
  change x.toModel.unpack.isNaN = false
  by_cases hn : n = 0
  · subst hn
    obtain ⟨s, hs⟩ := isWhole_zero_iff.1 hx
    rw [hs]
    rfl
  · rw [(isWhole_iff_of_ne hn).1 hx, whole_of_ne hn]
    rfl

/-- A machine number is packed again from what it unpacks to. -/
theorem ofModel_pack_unpack (hx : x.isNaN = false) :
    Float.ofModel (Float.Model.pack x.toModel.unpack) = x :=
  Float.toBits_inj.1 (toBits_ofBits (isNumber_toBits hx))

/-- A machine number that equals a whole number has it for its floor. -/
theorem floor_of_holds (hx : Holds x n) (hn : n.natAbs < 2 ^ 53) : floor x = n := by
  have hpack := ofModel_pack_unpack (isNaN_of_holds hx)
  by_cases hzero : n = 0
  · subst hzero
    obtain ⟨s, hs⟩ := isWhole_zero_iff.1 hx
    rw [← hpack, hs]
    cases s <;> decide
  · rw [(isWhole_iff_of_ne hzero).1 hx, ← toModel_ofInt hn] at hpack
    have hsame : x = Float.ofInt n := hpack.symm
    rw [hsame, floor_ofInt hn]

end Whole

end Binary

/-!
## Rounding leaves machine numbers alone

A finite machine number is a significand times a power of two, and rounding that product
to the nearest machine number gives the number back, normal or subnormal.
-/

namespace Binary

/-! ### The binary order of a fraction -/

theorem shiftLeft_le_iff {num den : Nat} (hden : 0 < den) (k : Int) :
    den <<< k.toNat ≤ num <<< (-k).toNat ↔ (2 : ℚ) ^ k ≤ num / den := by
  have hden' : (0 : ℚ) < den := by exact_mod_cast hden
  obtain ⟨n, rfl | rfl⟩ := k.eq_nat_or_neg
  · have hshift : (-(n : Int)).toNat = 0 := by omega
    rw [Int.toNat_natCast, hshift, Nat.shiftLeft_zero, Nat.shiftLeft_eq, zpow_natCast,
      le_div_iff₀ hden', mul_comm den]
    exact_mod_cast Iff.rfl
  · have hshift : (-(n : Int)).toNat = 0 := by omega
    rw [neg_neg, Int.toNat_natCast, hshift, Nat.shiftLeft_zero, Nat.shiftLeft_eq,
      zpow_neg, zpow_natCast, inv_le_iff_one_le_mul₀ (by positivity), div_mul_eq_mul_div,
      le_div_iff₀ hden', one_mul]
    exact_mod_cast Iff.rfl

/-- The binary order of a fraction is the greatest exponent of a power of
two below it. -/
theorem binaryOrder_spec {num den : Nat} (hnum : 0 < num) (hden : 0 < den) :
    (2 : ℚ) ^ binaryOrder num den ≤ num / den ∧
      (num / den : ℚ) < 2 ^ (binaryOrder num den + 1) := by
  have hden' : (0 : ℚ) < den := by exact_mod_cast hden
  have hnumlow : (2 : ℚ) ^ num.log2 ≤ num := by exact_mod_cast Nat.log2_self_le hnum.ne'
  have hnumhigh : (num : ℚ) < 2 ^ (num.log2 + 1) := by exact_mod_cast Nat.lt_log2_self
  have hdenlow : (2 : ℚ) ^ den.log2 ≤ den := by exact_mod_cast Nat.log2_self_le hden.ne'
  have hdenhigh : (den : ℚ) < 2 ^ (den.log2 + 1) := by exact_mod_cast Nat.lt_log2_self
  rw [binaryOrder]
  split
  · rename_i hle
    refine ⟨(shiftLeft_le_iff hden _).1 hle, ?_⟩
    rw [div_lt_iff₀ hden']
    calc (num : ℚ) < 2 ^ (num.log2 + 1) := hnumhigh
      _ = 2 ^ ((num.log2 : Int) - den.log2 + 1) * 2 ^ den.log2 := by
          rw [← zpow_natCast, ← zpow_natCast, ← zpow_add₀ two_ne_zero]
          congr 1
          push_cast
          ring
      _ ≤ 2 ^ ((num.log2 : Int) - den.log2 + 1) * den := by gcongr
  · rename_i hnot
    rw [shiftLeft_le_iff hden, not_le] at hnot
    rw [sub_add_cancel]
    refine ⟨?_, hnot⟩
    rw [le_div_iff₀ hden']
    calc (2 : ℚ) ^ ((num.log2 : Int) - den.log2 - 1) * den
        ≤ 2 ^ ((num.log2 : Int) - den.log2 - 1) * 2 ^ (den.log2 + 1) := by gcongr
      _ = 2 ^ num.log2 := by
          rw [← zpow_natCast, ← zpow_natCast, ← zpow_add₀ two_ne_zero]
          congr 1
          push_cast
          ring
      _ ≤ num := hnumlow

/-- No two powers of a base have the same number between themselves and the next one. -/
theorem zpow_order_unique {b v : ℚ} (hb : 1 < b) {j k : Int} (hj : b ^ j ≤ v)
    (hj' : v < b ^ (j + 1)) (hk : b ^ k ≤ v) (hk' : v < b ^ (k + 1)) : j = k := by
  have hjk := (zpow_lt_zpow_iff_right₀ hb).1 (hj.trans_lt hk')
  have hkj := (zpow_lt_zpow_iff_right₀ hb).1 (hk.trans_lt hj')
  omega

/-! ### Exact quotients -/

theorem roundQuotient_mul {den : Nat} (hden : 0 < den) (n : Nat) :
    roundQuotient (n * den) den = n := by
  rw [roundQuotient, Nat.mul_div_cancel _ hden, Nat.mul_mod_left]
  exact if_pos (Or.inl (by omega))

theorem storedExponent_eq {s num den : Nat} {e : Int} (hnum : 0 < num) (hden : 0 < den)
    (hvalue : (num / den : ℚ) = s * 2 ^ e) (hs : s < 2 ^ 53) (he : leastExponent ≤ e)
    (hnormal : 2 ^ 52 ≤ s ∨ e = leastExponent) :
    max (binaryOrder num den - storedBits) leastExponent = e := by
  obtain ⟨hlow, hhigh⟩ := binaryOrder_spec hnum hden
  have hupper : (num / den : ℚ) < 2 ^ (52 + e + 1) := by
    rw [hvalue, show (52 + e + 1 : Int) = 53 + e by ring, zpow_add₀ two_ne_zero]
    gcongr
    exact_mod_cast hs
  have hle := (zpow_lt_zpow_iff_right₀ one_lt_two).1 (hlow.trans_lt hupper)
  rcases hnormal with hnormal | hleast
  · have hlower : (2 : ℚ) ^ (52 + e) ≤ num / den := by
      rw [hvalue, zpow_add₀ two_ne_zero]
      gcongr
      exact_mod_cast hnormal
    have horder := zpow_order_unique one_lt_two hlow hhigh hlower hupper
    rw [horder, storedBits]
    omega
  · rw [storedBits]
    omega

theorem shiftLeft_eq_of_value {s num den : Nat} {e : Int} (hden : 0 < den)
    (hvalue : (num / den : ℚ) = s * 2 ^ e) :
    num <<< (-e).toNat = s * den <<< e.toNat := by
  have hden' : (den : ℚ) ≠ 0 := by exact_mod_cast hden.ne'
  rw [div_eq_iff hden'] at hvalue
  obtain ⟨n, rfl | rfl⟩ := e.eq_nat_or_neg
  · have hshift : (-(n : Int)).toNat = 0 := by omega
    rw [zpow_natCast] at hvalue
    rw [hshift, Int.toNat_natCast, Nat.shiftLeft_zero, Nat.shiftLeft_eq]
    have hcast : (num : ℚ) = ((s * (den * 2 ^ n) : Nat) : ℚ) := by
      rw [hvalue]
      push_cast
      ring
    exact_mod_cast hcast
  · have hshift : (-(n : Int)).toNat = 0 := by omega
    rw [zpow_neg, zpow_natCast] at hvalue
    rw [hshift, neg_neg, Int.toNat_natCast, Nat.shiftLeft_zero, Nat.shiftLeft_eq]
    have hcast : ((num * 2 ^ n : Nat) : ℚ) = ((s * den : Nat) : ℚ) := by
      push_cast
      rw [hvalue]
      field_simp
    exact_mod_cast hcast

/-- The bits nearest to a significand and an exponent of the format are
these two themselves. -/
theorem nearestBits_of_value {s num den : Nat} {e : Int} (hnum : 0 < num)
    (hden : 0 < den) (hvalue : (num / den : ℚ) = s * 2 ^ e) (hs : s < 2 ^ 53)
    (he : leastExponent ≤ e) (hnormal : 2 ^ 52 ≤ s ∨ e = leastExponent) :
    nearestBits num den =
      min ((e - leastExponent).toNat <<< storedBits + s) infinityBits := by
  have hpos : 0 < den <<< e.toNat := by
    rw [Nat.shiftLeft_eq]
    positivity
  rw [nearestBits, if_neg hnum.ne', storedExponent_eq hnum hden hvalue hs he hnormal]
  simp only [shiftLeft_eq_of_value hden hvalue, roundQuotient_mul hpos]

/-! ### Machine numbers -/

theorem Magnitude.toRat_eq (a : Magnitude) :
    a.toRat = a.significand * 2 ^ a.exponent := by
  obtain ⟨s, e⟩ := a
  obtain ⟨n, rfl | rfl⟩ := e.eq_nat_or_neg
  · rw [Magnitude.toRat, if_pos (Int.natCast_nonneg n), Nat.shiftLeft_eq,
      Int.toNat_natCast, zpow_natCast]
    push_cast
    rfl
  · rw [Magnitude.toRat]
    split
    · rename_i hnonneg
      have hzero : n = 0 := by
        simp only at hnonneg
        omega
      subst hzero
      simp
    · rw [neg_neg, Int.toNat_natCast, Nat.one_shiftLeft, Rat.mkRat_eq_div, zpow_neg,
        zpow_natCast, div_eq_mul_inv]
      push_cast
      rfl

theorem Magnitude.toRat_nonneg (a : Magnitude) : 0 ≤ a.toRat := by
  rw [a.toRat_eq]
  positivity

theorem magnitude_spec {x : Float} (hfinite : x.toBits.toNat % 2 ^ 63 < infinityBits) :
    (magnitude x).significand < 2 ^ 53 ∧ leastExponent ≤ (magnitude x).exponent ∧
      (2 ^ 52 ≤ (magnitude x).significand ∨ (magnitude x).exponent = leastExponent) ∧
      ((magnitude x).exponent - leastExponent).toNat <<< storedBits +
        (magnitude x).significand =
        x.toBits.toNat % 2 ^ 63 := by
  have hfield := exponentField_eq x.toBits
  have hfraction := fractionField_eq x.toBits
  rw [infinityBits] at hfinite
  rw [magnitude]
  split
  · rename_i hzero
    rw [hfield] at hzero
    simp only [hfraction, storedBits, leastExponent, Nat.shiftLeft_eq]
    exact ⟨by omega, by omega, Or.inr trivial, by omega⟩
  · rename_i hne
    rw [hfield] at hne
    simp only [hfield, hfraction, storedBits, leastExponent, Nat.shiftLeft_eq]
    refine ⟨?_, ?_, ?_, ?_⟩ <;> omega

theorem toNat_toBits_mod {x : Float} (hfinite : x.toBits.toNat < infinityBits) :
    x.toBits.toNat % 2 ^ 63 = x.toBits.toNat := by
  rw [infinityBits] at hfinite
  omega

theorem bits_of_significand_eq_zero {x : Float}
    (hfinite : x.toBits.toNat % 2 ^ 63 < infinityBits)
    (hzero : (magnitude x).significand = 0) : x.toBits.toNat % 2 ^ 63 = 0 := by
  obtain ⟨-, -, hnormal, hbits⟩ := magnitude_spec hfinite
  have hleast : (magnitude x).exponent = leastExponent := by
    rcases hnormal with hlow | hleast
    · omega
    · exact hleast
  rw [hzero, hleast, sub_self] at hbits
  exact hbits.symm

/-- A finite machine number without a sign is the one nearest to its value. -/
theorem nearest_toRat {x : Float} (hfinite : x.toBits.toNat < infinityBits) :
    nearest (magnitude x).toRat = x := by
  have hmod := toNat_toBits_mod hfinite
  obtain ⟨hs, he, hnormal, hbits⟩ := magnitude_spec (x := x) (by rwa [hmod])
  have hvalue := (magnitude x).toRat_eq
  have hnonneg := (magnitude x).toRat_nonneg
  have hnearest : nearestBits (magnitude x).toRat.num.natAbs (magnitude x).toRat.den =
      x.toBits.toNat := by
    by_cases hzero : (magnitude x).significand = 0
    · rw [hvalue, hzero, Nat.cast_zero, zero_mul, ← hmod,
        bits_of_significand_eq_zero (by rwa [hmod]) hzero]
      rfl
    · have hpos : 0 < (magnitude x).toRat := by
        rw [hvalue]
        have hs' : 0 < (magnitude x).significand := Nat.pos_of_ne_zero hzero
        positivity
      have hnum : 0 < (magnitude x).toRat.num := Rat.num_pos.2 hpos
      have hquotient :
          (((magnitude x).toRat.num.natAbs : Nat) / (magnitude x).toRat.den : ℚ) =
          (magnitude x).toRat := by
        rw [Nat.cast_natAbs, abs_of_pos hnum, Rat.num_div_den]
      rw [nearestBits_of_value (by omega) (Rat.den_pos _) (hquotient.trans hvalue) hs
        he hnormal, hbits, hmod, min_eq_left hfinite.le]
  rw [nearest, if_neg (not_lt.2 hnonneg), hnearest]
  apply Float.toBits_inj.1
  have hword : (x.toBits.toNat).toUInt64 = x.toBits := by simp
  rw [hword]
  refine toBits_ofBits ?_
  rw [IsNumber, hmod]
  exact hfinite.le

end Binary
end LatticeHull
