import LatticeHull.Coordinate
import LatticeHull.Proofs.Decimal

/-!
# Coordinates read back

The text of a machine number reads as that number, whichever layout is chosen for its
digits and whichever number it is: signed zeros, infinities and the undefined number
too.  No blank is in it.
-/

namespace LatticeHull

open Numeral Text

namespace Layout

/-! ### Significant digits -/

theorem exists_toDigits_eq (d : Decimal) :
    ∃ k, Nat.toDigits 10 d.digits = significant d ++ zeros k := by
  have hsplit := List.takeWhile_append_dropWhile (p := (· == '0'))
    (l := (Nat.toDigits 10 d.digits).reverse)
  obtain ⟨k, hk⟩ :
      ∃ k, (Nat.toDigits 10 d.digits).reverse.takeWhile (· == '0') = zeros k :=
    ⟨_, List.eq_replicate_of_mem fun c hc =>
      beq_iff_eq.1 (List.mem_takeWhile_imp (p := (· == '0')) hc)⟩
  rw [hk] at hsplit
  have hreverse := congrArg List.reverse hsplit
  rw [List.reverse_append, List.reverse_reverse, zeros, List.reverse_replicate]
    at hreverse
  exact ⟨k, hreverse.symm⟩

theorem allDigits_significant (d : Decimal) : AllDigits (significant d) := by
  obtain ⟨k, hk⟩ := exists_toDigits_eq d
  intro c hc
  refine allDigits_toDigits d.digits c ?_
  rw [hk]
  exact List.mem_append_left _ hc

/-- The number that the significant digits spell, with the exponent of the
last of them. -/
theorem toRat_eq_significant (d : Decimal) :
    d.toRat = Nat.ofDigitChars 10 (significant d) 0 *
      (10 : ℚ) ^ (d.order - (significant d).length) := by
  obtain ⟨k, hk⟩ := exists_toDigits_eq d
  have hnumber : d.digits = 10 ^ k * Nat.ofDigitChars 10 (significant d) 0 := by
    have hread := Nat.ofDigitChars_ten_toDigits (n := d.digits)
    rw [hk, Nat.ofDigitChars_append, zeros, Nat.ofDigitChars_replicate_zero] at hread
    exact hread.symm
  have horder : d.order - (significant d).length = k + d.exponent := by
    rw [Decimal.order, hk, List.length_append, zeros, List.length_replicate]
    push_cast
    ring
  rw [Decimal.toRat_eq, horder, zpow_add₀ (by norm_num), zpow_natCast, hnumber]
  push_cast
  ring

theorem significant_ne_nil {d : Decimal} (hd : d.digits ≠ 0) : significant d ≠ [] := by
  intro hnil
  have hvalue := toRat_eq_significant d
  rw [hnil, Nat.ofDigitChars_nil, Nat.cast_zero, zero_mul, Decimal.toRat_eq_zero_iff]
    at hvalue
  exact hd hvalue

/-! ### Layouts -/

theorem ofDigitChars_append_zeros (digits : List Char) (n : Nat) :
    Nat.ofDigitChars 10 (digits ++ zeros n) 0 =
      10 ^ n * Nat.ofDigitChars 10 digits 0 := by
  rw [Nat.ofDigitChars_append, zeros, Nat.ofDigitChars_replicate_zero]

theorem ofDigitChars_zeros_append (digits : List Char) (n : Nat) :
    Nat.ofDigitChars 10 (zeros n ++ digits) 0 = Nat.ofDigitChars 10 digits 0 := by
  rw [Nat.ofDigitChars_append, zeros, Nat.ofDigitChars_replicate_zero, Nat.mul_zero]

/-- The digits before a point and behind it that stand for the given digits with
the point at a place. -/
structure Pointed (digits : List Char) (place : Int) (whole fraction : List Char) :
    Prop where
  digits_whole : AllDigits whole
  whole_ne : whole ≠ []
  digits_fraction : AllDigits fraction
  value : (Nat.ofDigitChars 10 (whole ++ fraction) 0 : ℚ) *
    10 ^ (-(fraction.length : Int)) =
    Nat.ofDigitChars 10 digits 0 * (10 : ℚ) ^ (place - digits.length)

section Digits

variable {digits : List Char} (hdigits : AllDigits digits) {place : Int}

include hdigits

theorem pointed_before (hplace : place ≤ 0) :
    Pointed digits place ['0'] (zeros (-place).toNat ++ digits) where
  digits_whole := allDigits_zeros 1
  whole_ne := by simp
  digits_fraction := (allDigits_zeros _).append hdigits
  value := by
    have hnumber : Nat.ofDigitChars 10 (['0'] ++ (zeros (-place).toNat ++ digits)) 0 =
        Nat.ofDigitChars 10 digits 0 :=
      (ofDigitChars_zeros_append (zeros (-place).toNat ++ digits) 1).trans
        (ofDigitChars_zeros_append digits _)
    have hscale :
        -((zeros (-place).toNat ++ digits).length : Int) = place - digits.length := by
      rw [List.length_append, zeros, List.length_replicate]
      omega
    rw [hnumber, hscale]

variable (hne : digits ≠ [])

include hne

theorem pointed_behind (hplace : digits.length ≤ place) :
    Pointed digits place (digits ++ zeros (place - digits.length).toNat) ['0'] where
  digits_whole := hdigits.append (allDigits_zeros _)
  whole_ne := by simp [hne]
  digits_fraction := allDigits_zeros 1
  value := by
    have hnumber :
        Nat.ofDigitChars 10 (digits ++ zeros (place - digits.length).toNat ++ ['0']) 0 =
        10 * (10 ^ (place - digits.length).toNat * Nat.ofDigitChars 10 digits 0) := by
      rw [← ofDigitChars_append_zeros]
      exact ofDigitChars_append_zeros _ 1
    have hscale : place - digits.length = ((place - digits.length).toNat : Int) := by
      omega
    rw [hnumber]
    nth_rewrite 2 [hscale]
    rw [zpow_natCast, List.length_singleton]
    push_cast
    ring

theorem pointed_among (hbefore : 0 < place) (hbehind : place < digits.length) :
    Pointed digits place (digits.take place.toNat) (digits.drop place.toNat) where
  digits_whole := fun c hc => hdigits c (List.mem_of_mem_take hc)
  whole_ne := by
    rw [Ne, List.take_eq_nil_iff]
    rintro (hzero | hnil)
    · omega
    · exact hne hnil
  digits_fraction := fun c hc => hdigits c (List.mem_of_mem_drop hc)
  value := by
    have hscale : -((digits.drop place.toNat).length : Int) = place - digits.length := by
      rw [List.length_drop]
      omega
    rw [List.take_append_drop, hscale]

theorem exists_pointed (place : Int) :
    ∃ whole fraction, positional digits place = whole ++ '.' :: fraction ∧
      Pointed digits place whole fraction := by
  by_cases hbefore : place ≤ 0
  · refine ⟨_, _, ?_, pointed_before hdigits hbefore⟩
    rw [positional, if_pos hbefore]
    rfl
  · by_cases hbehind : digits.length ≤ place
    · refine ⟨_, _, ?_, pointed_behind hdigits hne hbehind⟩
      rw [positional, if_neg hbefore, if_pos hbehind]
    · refine ⟨_, _, ?_, pointed_among hdigits hne (not_le.1 hbefore) (not_le.1 hbehind)⟩
      rw [positional, if_neg hbefore, if_neg hbehind]

/-- Digits with a point among them are read as the number of the digits, scaled by
the place of the point. -/
theorem unsignedDecimal?_positional (place : Int) :
    ∃ d, unsignedDecimal? (positional digits place) = some d ∧
      d.toRat = Nat.ofDigitChars 10 digits 0 * (10 : ℚ) ^ (place - digits.length) := by
  obtain ⟨whole, fraction, heq, hpointed⟩ := exists_pointed hdigits hne place
  have hread := unsignedDecimal?_point hpointed.digits_whole hpointed.whole_ne
    hpointed.digits_fraction endsRun_nil (e := 0) rfl
  rw [List.append_nil, zero_sub] at hread
  rw [heq]
  refine ⟨_, hread, ?_⟩
  rw [Decimal.toRat_eq]
  exact hpointed.value

end Digits

theorem exponent?_signedExponent (width : Nat) (exponent : Int) :
    exponent? ('e' :: signedExponent width exponent) = some exponent := by
  have hdigits : AllDigits (zeros (width - (Nat.toDigits 10 exponent.natAbs).length) ++
      Nat.toDigits 10 exponent.natAbs) :=
    (allDigits_zeros _).append (allDigits_toDigits _)
  have hrun := digitRun_append hdigits endsRun_nil
  have hnumber :=
    ofDigits_map (zeros (width - (Nat.toDigits 10 exponent.natAbs).length) ++
      Nat.toDigits 10 exponent.natAbs)
  rw [ofDigitChars_zeros_append, Nat.ofDigitChars_ten_toDigits] at hnumber
  have hne : (zeros (width - (Nat.toDigits 10 exponent.natAbs).length) ++
      Nat.toDigits 10 exponent.natAbs).map (fun c => c.toNat - 48) ≠ [] := by
    simp
  obtain ⟨d, ds, hds⟩ := List.exists_cons_of_ne_nil hne
  rw [List.append_nil, hds] at hrun
  rw [hds] at hnumber
  by_cases hnegative : exponent < 0
  · simp only [signedExponent, if_pos hnegative, exponent?, true_or, if_true, sign,
      hrun, hnumber]
    rw [← Int.eq_neg_natAbs_of_nonpos hnegative.le]
  · simp only [signedExponent, if_neg hnegative, exponent?, true_or, if_true, sign,
      hrun, hnumber]
    rw [if_neg Bool.false_ne_true, Int.natAbs_of_nonneg (not_lt.1 hnegative)]

theorem unsignedDecimal?_scientific {digits : List Char} (hdigits : AllDigits digits)
    (hne : digits ≠ []) (layout : Layout) (exponent : Int) :
    ∃ d, unsignedDecimal? (scientific layout digits exponent) = some d ∧
      d.toRat = Nat.ofDigitChars 10 digits 0 *
        (10 : ℚ) ^ (exponent + 1 - digits.length) := by
  have hends : EndsRun ('e' :: signedExponent layout.exponentWidth exponent) :=
    endsRun_cons ⟨by decide, by decide⟩
  have hexponent := exponent?_signedExponent layout.exponentWidth exponent
  obtain ⟨c, fraction, rfl⟩ := List.exists_cons_of_ne_nil hne
  have hscale :
      exponent - (fraction.length : Int) = exponent + 1 - (c :: fraction).length := by
    rw [List.length_cons]
    omega
  have hc : AllDigits [c] :=
    fun d hd => hdigits d (List.mem_cons.2 (Or.inl (List.mem_singleton.1 hd)))
  have hfraction : AllDigits fraction :=
    fun d hd => hdigits d (List.mem_cons_of_mem _ hd)
  cases fraction with
  | nil =>
      refine ⟨_, unsignedDecimal?_whole hc (by simp) hends (by simp) hexponent, ?_⟩
      rw [Decimal.toRat_eq, ← hscale]
      simp
  | cons d fraction =>
      refine ⟨_, unsignedDecimal?_point hc (by simp) hfraction hends hexponent, ?_⟩
      rw [Decimal.toRat_eq, ← hscale]
      rfl

/-! ### Decimals -/

theorem unsignedDecimal?_decimal (layout : Layout) {d : Decimal} (hd : d.digits ≠ 0) :
    ∃ e, unsignedDecimal? (layout.decimal d) = some e ∧ e.toRat = d.toRat := by
  rw [toRat_eq_significant, decimal]
  split
  · exact unsignedDecimal?_positional (allDigits_significant d) (significant_ne_nil hd) _
  · have hread :=
      unsignedDecimal?_scientific (allDigits_significant d) (significant_ne_nil hd)
        layout (d.order - 1)
    rwa [sub_add_cancel] at hread

/-! ### The characters of a decimal -/

def IsPlain (text : List Char) : Prop :=
  (∃ c ∈ text.head?, c.isDigit = true) ∧ ∀ c ∈ text, IsGraphic c

theorem AllDigits.isGraphic {digits : List Char} (hdigits : AllDigits digits) :
    ∀ c ∈ digits, IsGraphic c :=
  fun c hc => IsGraphic.of_isDigit (hdigits c hc)

theorem isPlain_append {digits rest : List Char} (hdigits : AllDigits digits)
    (hne : digits ≠ []) (hrest : ∀ c ∈ rest, IsGraphic c) :
    IsPlain (digits ++ rest) := by
  obtain ⟨c, digits, rfl⟩ := List.exists_cons_of_ne_nil hne
  refine ⟨⟨c, rfl, hdigits c (List.mem_cons_self ..)⟩, fun d hd => ?_⟩
  rcases List.mem_append.1 hd with hd | hd
  · exact AllDigits.isGraphic hdigits d hd
  · exact hrest d hd

theorem isGraphic_cons {c : Char} {text : List Char} (hc : IsGraphic c)
    (htext : ∀ d ∈ text, IsGraphic d) : ∀ d ∈ c :: text, IsGraphic d := by
  intro d hd
  rcases List.mem_cons.1 hd with rfl | hd
  · exact hc
  · exact htext d hd

theorem isPlain_positional {digits : List Char} (hdigits : AllDigits digits)
    (hne : digits ≠ []) (place : Int) : IsPlain (positional digits place) := by
  obtain ⟨whole, fraction, heq, hpointed⟩ := exists_pointed hdigits hne place
  rw [heq]
  exact isPlain_append hpointed.digits_whole hpointed.whole_ne
    (isGraphic_cons ⟨by decide, by decide⟩
      (AllDigits.isGraphic hpointed.digits_fraction))

theorem isGraphic_signedExponent (width : Nat) (exponent : Int) :
    ∀ c ∈ signedExponent width exponent, IsGraphic c := by
  refine isGraphic_cons ?_ (AllDigits.isGraphic
    ((allDigits_zeros _).append (allDigits_toDigits _)))
  split <;> exact ⟨by decide, by decide⟩

theorem isPlain_scientific {digits : List Char} (hdigits : AllDigits digits)
    (hne : digits ≠ []) (layout : Layout) (exponent : Int) :
    IsPlain (scientific layout digits exponent) := by
  obtain ⟨c, fraction, rfl⟩ := List.exists_cons_of_ne_nil hne
  have hexponent :
      ∀ d ∈ 'e' :: signedExponent layout.exponentWidth exponent, IsGraphic d :=
    isGraphic_cons ⟨by decide, by decide⟩ (isGraphic_signedExponent _ _)
  have hc : AllDigits [c] :=
    fun d hd => hdigits d (List.mem_cons.2 (Or.inl (List.mem_singleton.1 hd)))
  rw [scientific, List.append_assoc]
  cases fraction with
  | nil => exact isPlain_append hc (by simp) hexponent
  | cons d fraction =>
      refine isPlain_append hc (by simp)
        (isGraphic_cons ⟨by decide, by decide⟩ fun b hb => ?_)
      rcases List.mem_append.1 hb with hb | hb
      · exact IsGraphic.of_isDigit (hdigits b (List.mem_cons_of_mem _ hb))
      · exact hexponent b hb

theorem isPlain_decimal (layout : Layout) {d : Decimal} (hd : d.digits ≠ 0) :
    IsPlain (layout.decimal d) := by
  rw [decimal]
  split
  · exact isPlain_positional (allDigits_significant d) (significant_ne_nil hd) _
  · exact isPlain_scientific (allDigits_significant d) (significant_ne_nil hd) _ _

/-- The text of a positive decimal reads as the decimal does. -/
theorem unsignedFloat?_decimal (layout : Layout) {d : Decimal} (hd : d.digits ≠ 0) :
    unsignedFloat? (layout.decimal d) = some d.toFloat := by
  obtain ⟨e, hread, hvalue⟩ := unsignedDecimal?_decimal layout hd
  obtain ⟨⟨c, hc, hdigit⟩, -⟩ := isPlain_decimal layout hd
  obtain ⟨rest, hrest⟩ := List.head?_eq_some_iff.1 hc
  rw [hrest] at hread ⊢
  rw [unsignedFloat?_of_digit hdigit, hread, Option.map_some,
    Decimal.toFloat_congr hvalue]

end Layout

/-! ### Signs -/

namespace Numeral

theorem float?_signed {size : List Char} {x : Float} (isNegative : Bool)
    (hgraphic : ∀ c ∈ size, IsGraphic c) (hhead : ∀ c ∈ size.head?, c ≠ '-' ∧ c ≠ '+')
    (hread : unsignedFloat? size = some x) :
    float? (String.ofList (if isNegative then '-' :: size else size)) =
      some (if isNegative then -x else x) := by
  have hpadding : ∀ c ∈ size, isPadding c = false := fun c hc =>
    isPadding_of_isGraphic (hgraphic c hc)
  cases isNegative with
  | true =>
      have htrim : trim ('-' :: size) = '-' :: size := trim_eq_self (by
        intro c hc
        rcases List.mem_cons.1 hc with rfl | hc
        · decide
        · exact hpadding c hc)
      simp only [if_true, float?, String.toList_ofList, htrim, sign, hread,
        Option.map_some]
  | false =>
      simp only [Bool.false_eq_true, if_false, float?, String.toList_ofList,
        trim_eq_self hpadding, sign_eq_self hhead, hread, Option.map_some]

end Numeral

namespace Coordinate

open Binary

def size (x : Float) : List Char :=
  if x.isInf then ['i', 'n', 'f']
  else if (magnitude x).significand = 0 then ['0', '.', '0']
  else layout.decimal (Decimal.shortest x.abs)

theorem text_of_isNaN {x : Float} (hx : x.isNaN = true) : text x = "nan" := by
  rw [text, Layout.render, if_pos hx]
  rfl

theorem text_eq {x : Float} (hx : x.isNaN = false) :
    text x = String.ofList (if isNegative x then '-' :: size x else size x) := by
  rw [text, Layout.render, hx, if_neg Bool.false_ne_true]
  rfl

theorem magnitude_abs {x : Float} (hx : x.isNaN = false) :
    magnitude x.abs = magnitude x := by
  have hbits := toNat_toBits_abs hx
  have hfield :
      ((x.abs.toBits >>> 52) &&& 0x7FF).toNat = ((x.toBits >>> 52) &&& 0x7FF).toNat := by
    rw [exponentField_eq, exponentField_eq, hbits]
    omega
  have hfraction : (x.abs.toBits &&& 0xFFFFFFFFFFFFF).toNat =
      (x.toBits &&& 0xFFFFFFFFFFFFF).toNat := by
    rw [fractionField_eq, fractionField_eq, hbits]
    omega
  rw [magnitude, magnitude, hfield, hfraction]

theorem abs_eq_zero {x : Float} (hx : x.isNaN = false) (hfinite : x.isInf = false)
    (hzero : (magnitude x).significand = 0) : x.abs = 0.0 := by
  apply Float.toBits_inj.1
  apply UInt64.toNat_inj.1
  rw [toNat_toBits_abs hx, bits_of_significand_eq_zero
    (lt_infinityBits hx hfinite) hzero]
  rfl

theorem abs_eq_infinity {x : Float} (hx : x.isNaN = false) (hinf : x.isInf = true) :
    x.abs = Float.ofBits infinityBits.toUInt64 := by
  apply Float.toBits_inj.1
  apply UInt64.toNat_inj.1
  have hnumber : IsNumber infinityBits.toUInt64 := by
    rw [IsNumber]
    decide
  rw [toNat_toBits_abs hx, isInf_iff.1 hinf, toBits_ofBits hnumber]
  rfl

section Finite

variable {x : Float} (hx : x.isNaN = false) (hfinite : x.isInf = false)
  (hne : (magnitude x).significand ≠ 0)

include hx hfinite hne

theorem digits_shortest_abs_ne_zero : (Decimal.shortest x.abs).digits ≠ 0 := by
  refine Decimal.digits_shortest_ne_zero ?_ ?_
  · rw [toNat_toBits_abs hx]
    exact lt_infinityBits hx hfinite
  · rwa [magnitude_abs hx]

theorem toFloat_shortest_abs : (Decimal.shortest x.abs).toFloat = x.abs := by
  refine Decimal.toFloat_shortest ?_ ?_
  · rw [toNat_toBits_abs hx]
    exact lt_infinityBits hx hfinite
  · rwa [magnitude_abs hx]

end Finite

theorem unsignedFloat?_size {x : Float} (hx : x.isNaN = false) :
    unsignedFloat? (size x) = some x.abs := by
  rw [size]
  split
  · rename_i hinf
    rw [abs_eq_infinity hx hinf]
    rfl
  · rename_i hinf
    have hfinite : x.isInf = false := Bool.eq_false_of_not_eq_true hinf
    split
    · rename_i hzero
      rw [abs_eq_zero hx hfinite hzero]
      rfl
    · rename_i hne
      rw [Layout.unsignedFloat?_decimal layout
        (digits_shortest_abs_ne_zero hx hfinite hne),
        toFloat_shortest_abs hx hfinite hne]

theorem size_spec {x : Float} (hx : x.isNaN = false) :
    (∀ c ∈ size x, IsGraphic c) ∧ ∀ c ∈ (size x).head?, c ≠ '-' ∧ c ≠ '+' := by
  rw [size]
  split
  · constructor <;> simp [IsGraphic]
  · rename_i hinf
    split
    · constructor <;> simp [IsGraphic]
    · rename_i hne
      obtain ⟨⟨c, hc, hdigit⟩, hgraphic⟩ := Layout.isPlain_decimal layout
        (digits_shortest_abs_ne_zero hx (Bool.eq_false_of_not_eq_true hinf) hne)
      refine ⟨hgraphic, fun d hd => ?_⟩
      obtain rfl : c = d := Option.some.inj (hc.symm.trans hd)
      constructor <;> rintro rfl <;> exact absurd hdigit (by decide)

theorem float?_text (x : Float) : Numeral.float? (text x) = some x := by
  by_cases hx : x.isNaN = true
  · rw [text_of_isNaN hx, eq_undefined_of_isNaN hx]
    rfl
  · have hnumber := Bool.eq_false_of_not_eq_true hx
    obtain ⟨hgraphic, hhead⟩ := size_spec hnumber
    rw [text_eq hnumber, float?_signed (isNegative x) hgraphic hhead
      (unsignedFloat?_size hnumber), neg_abs_or_abs hnumber]

theorem isGraphic_text (x : Float) : ∀ c ∈ (text x).toList, IsGraphic c := by
  by_cases hx : x.isNaN = true
  · rw [text_of_isNaN hx]
    simp [IsGraphic]
  · have hnumber := Bool.eq_false_of_not_eq_true hx
    obtain ⟨hgraphic, -⟩ := size_spec hnumber
    rw [text_eq hnumber, String.toList_ofList]
    split
    · exact Layout.isGraphic_cons ⟨by decide, by decide⟩ hgraphic
    · exact hgraphic

theorem text_ne_empty (x : Float) : (text x).toList ≠ [] := by
  intro hempty
  have hread := float?_text x
  rw [float?, hempty] at hread
  cases hread

end Coordinate
end LatticeHull
