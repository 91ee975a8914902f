import LatticeHull.Coordinate
import LatticeHull.Proofs.Binary.Nearest
import Mathlib

/-!
# Decimals read back

What a decimal reads as depends on its value only, not on how many zeros its
digits end in.  The exact decimal of a finite machine number reads as that number,
and so does the shortest one.
-/

namespace LatticeHull
namespace Decimal

open Binary

/-! ### The value of a decimal -/

theorem toRat_eq (d : Decimal) : d.toRat = d.digits * 10 ^ d.exponent := by
  obtain ⟨m, e⟩ := d
  obtain ⟨n, rfl | rfl⟩ := e.eq_nat_or_neg
  · rw [toRat, if_pos (Int.natCast_nonneg n), Int.toNat_natCast, zpow_natCast,
      Nat.pow_eq]
    push_cast
    rfl
  · rw [toRat]
    split
    · rename_i hnonneg
      have hzero : n = 0 := by
        simp only at hnonneg
        omega
      subst hzero
      simp
    · rw [neg_neg, Int.toNat_natCast, Rat.mkRat_eq_div, zpow_neg, zpow_natCast,
        div_eq_mul_inv, Nat.pow_eq]
      push_cast
      rfl

theorem digits_spec {n : Nat} (hn : n ≠ 0) :
    10 ^ ((Nat.toDigits 10 n).length - 1) ≤ n ∧ n < 10 ^ (Nat.toDigits 10 n).length := by
  have hpos : 0 < (Nat.toDigits 10 n).length := Nat.length_toDigits_pos
  refine ⟨?_, (Nat.length_toDigits_le_iff (by decide) hpos).1 le_rfl⟩
  by_cases hone : (Nat.toDigits 10 n).length = 1
  · rw [hone]
    exact Nat.one_le_iff_ne_zero.2 hn
  · by_contra hlt
    have hle :=
      (Nat.length_toDigits_le_iff (b := 10) (by decide) (by omega)).2 (not_le.1 hlt)
    omega

theorem order_spec {d : Decimal} (hd : d.digits ≠ 0) :
    (10 : ℚ) ^ (d.order - 1) ≤ d.toRat ∧ d.toRat < 10 ^ (d.order - 1 + 1) := by
  obtain ⟨hlow, hhigh⟩ := digits_spec hd
  have hpos : 0 < (Nat.toDigits 10 d.digits).length := Nat.length_toDigits_pos
  have hten : (10 : ℚ) ≠ 0 := by norm_num
  have hlow' : (10 : ℚ) ^ ((Nat.toDigits 10 d.digits).length - 1 : Nat) ≤ d.digits := by
    exact_mod_cast hlow
  have hhigh' : (d.digits : ℚ) < 10 ^ (Nat.toDigits 10 d.digits).length := by
    exact_mod_cast hhigh
  have hfirst : d.order - 1 =
      (((Nat.toDigits 10 d.digits).length - 1 : Nat) : Int) + d.exponent := by
    rw [order]
    omega
  have hnext :
      d.order - 1 + 1 = ((Nat.toDigits 10 d.digits).length : Int) + d.exponent := by
    rw [order]
    omega
  rw [toRat_eq, hnext, hfirst, zpow_add₀ hten, zpow_add₀ hten, zpow_natCast,
    zpow_natCast]
  constructor <;> gcongr

theorem toRat_eq_zero_iff {d : Decimal} : d.toRat = 0 ↔ d.digits = 0 := by
  have hpow : (10 : ℚ) ^ d.exponent ≠ 0 := zpow_ne_zero _ (by norm_num)
  rw [toRat_eq, mul_eq_zero, or_iff_left hpow, Nat.cast_eq_zero]

theorem toFloat_congr {d e : Decimal} (hvalue : d.toRat = e.toRat) :
    d.toFloat = e.toFloat := by
  by_cases hd : d.digits = 0
  · have he : e.digits = 0 := by
      rw [← toRat_eq_zero_iff, ← hvalue, toRat_eq_zero_iff]
      exact hd
    rw [toFloat, toFloat, if_pos (Or.inl hd), if_pos (Or.inl he)]
  · have he : e.digits ≠ 0 := by
      rwa [Ne, ← toRat_eq_zero_iff, ← hvalue, toRat_eq_zero_iff]
    obtain ⟨hlow, hhigh⟩ := order_spec hd
    obtain ⟨hlow', hhigh'⟩ := order_spec he
    rw [hvalue] at hlow hhigh
    have horder := zpow_order_unique (by norm_num) hlow hhigh hlow' hhigh'
    have horder' : d.order = e.order := by omega
    simp only [toFloat, hd, he, horder', hvalue]

/-! ### The exact decimal -/

theorem toRat_ofMagnitude (a : Magnitude) : (ofMagnitude a).toRat = a.toRat := by
  rw [toRat_eq, Magnitude.toRat_eq]
  obtain ⟨s, e⟩ := a
  obtain ⟨n, rfl | rfl⟩ := e.eq_nat_or_neg
  · rw [ofMagnitude, if_pos (Int.natCast_nonneg n), Nat.shiftLeft_eq, Int.toNat_natCast,
      zpow_natCast]
    push_cast
    simp
  · rw [ofMagnitude]
    split
    · rename_i hnonneg
      have hzero : n = 0 := by
        simp only at hnonneg
        omega
      subst hzero
      simp
    · have hten : (10 : ℚ) ^ n = 2 ^ n * 5 ^ n := by
        rw [← mul_pow]
        norm_num
      simp only [neg_neg, Int.toNat_natCast, zpow_neg, zpow_natCast, hten]
      push_cast
      rw [Nat.pow_eq]
      push_cast
      field_simp

theorem ten_zpow_underflowOrder_lt : (10 : ℚ) ^ underflowOrder < 2 ^ leastExponent := by
  have hpow : 2 ^ 1074 < 10 ^ 324 := by decide +kernel
  have hcast : (2 : ℚ) ^ 1074 < 10 ^ 324 := by exact_mod_cast hpow
  exact inv_strictAnti₀ (pow_pos two_pos _) hcast

theorem two_zpow_lt_overflowOrder :
    (2 : ℚ) ^ (1024 : Int) < 10 ^ (overflowOrder - 1) := by
  have hpow : 2 ^ 1024 < 10 ^ 309 := by decide +kernel
  have hcast : (2 : ℚ) ^ 1024 < 10 ^ 309 := by exact_mod_cast hpow
  have horder : overflowOrder - 1 = 309 := by decide
  rw [horder, zpow_ofNat, zpow_ofNat]
  exact hcast

theorem digits_ofMagnitude_ne_zero {a : Magnitude} (ha : a.significand ≠ 0) :
    (ofMagnitude a).digits ≠ 0 := by
  have hpos : (0 : ℚ) < a.significand := by exact_mod_cast Nat.pos_of_ne_zero ha
  rw [Ne, ← toRat_eq_zero_iff, toRat_ofMagnitude, Magnitude.toRat_eq]
  positivity

/-- A finite machine number lies between the powers of ten beyond which
reading does not look. -/
theorem order_ofMagnitude {x : Float} (hfinite : x.toBits.toNat % 2 ^ 63 < infinityBits)
    (hx : (magnitude x).significand ≠ 0) :
    underflowOrder < (ofMagnitude (magnitude x)).order ∧
      (ofMagnitude (magnitude x)).order < overflowOrder := by
  obtain ⟨hs, he, hnormal, hbits⟩ := magnitude_spec hfinite
  have hexponent : 53 + (magnitude x).exponent ≤ 1024 := by
    simp only [infinityBits, storedBits, leastExponent, Nat.shiftLeft_eq]
      at hfinite hbits he hnormal
    omega
  have hvalue := (toRat_ofMagnitude (magnitude x)).trans (Magnitude.toRat_eq _)
  have hpos : (1 : ℚ) ≤ (magnitude x).significand := by
    exact_mod_cast Nat.one_le_iff_ne_zero.2 hx
  have hsmall : ((magnitude x).significand : ℚ) ≤ 2 ^ (53 : Int) := by
    exact_mod_cast hs.le
  obtain ⟨hlow, hhigh⟩ := order_spec (digits_ofMagnitude_ne_zero hx)
  rw [hvalue] at hlow hhigh
  constructor
  · have hbound :
        (10 : ℚ) ^ underflowOrder < 10 ^ ((ofMagnitude (magnitude x)).order - 1 + 1) :=
      calc (10 : ℚ) ^ underflowOrder < 2 ^ leastExponent := ten_zpow_underflowOrder_lt
        _ ≤ 2 ^ (magnitude x).exponent := zpow_le_zpow_right₀ one_le_two he
        _ ≤ (magnitude x).significand * 2 ^ (magnitude x).exponent :=
            le_mul_of_one_le_left (by positivity) hpos
        _ < _ := hhigh
    have hlt := (zpow_lt_zpow_iff_right₀ (by norm_num)).1 hbound
    omega
  · have hbound :
        (10 : ℚ) ^ ((ofMagnitude (magnitude x)).order - 1) < 10 ^ (overflowOrder - 1) :=
      calc (10 : ℚ) ^ ((ofMagnitude (magnitude x)).order - 1)
          ≤ (magnitude x).significand * 2 ^ (magnitude x).exponent := hlow
        _ ≤ 2 ^ (53 : Int) * 2 ^ (magnitude x).exponent :=
            mul_le_mul_of_nonneg_right hsmall (by positivity)
        _ = 2 ^ (53 + (magnitude x).exponent) := (zpow_add₀ two_ne_zero _ _).symm
        _ ≤ 2 ^ (1024 : Int) := zpow_le_zpow_right₀ one_le_two hexponent
        _ < _ := two_zpow_lt_overflowOrder
    have hlt := (zpow_lt_zpow_iff_right₀ (by norm_num)).1 hbound
    omega

/-- The exact decimal of a finite machine number without a sign reads as that number. -/
theorem toFloat_ofMagnitude {x : Float} (hfinite : x.toBits.toNat < infinityBits)
    (hx : (magnitude x).significand ≠ 0) : (ofMagnitude (magnitude x)).toFloat = x := by
  have hmod := toNat_toBits_mod hfinite
  obtain ⟨hlow, hhigh⟩ := order_ofMagnitude (by rwa [hmod]) hx
  have hsmall : ¬((ofMagnitude (magnitude x)).digits = 0 ∨
      (ofMagnitude (magnitude x)).order ≤ underflowOrder) :=
    not_or.2 ⟨digits_ofMagnitude_ne_zero hx, not_le.2 hlow⟩
  rw [toFloat, if_neg hsmall, if_neg (not_le.2 hhigh), toRat_ofMagnitude]
  exact nearest_toRat hfinite

/-! ### The shortest decimal -/

theorem readsAs_of_onGrid {x : Float} {value : Rat} {exponent : Int} {d : Decimal}
    (hd : onGrid? x value exponent = some d) : readsAs x d = true := by
  simp only [onGrid?] at hd
  split at hd
  · rename_i hbelow habove
    split at hd
    · exact Option.some.inj hd ▸ hbelow
    · exact Option.some.inj hd ▸ habove
  · rename_i hbelow _
    exact Option.some.inj hd ▸ hbelow
  · rename_i _ habove
    exact Option.some.inj hd ▸ habove
  · cases hd

/-- The shortest decimal of a finite machine number without a sign reads
as that number. -/
theorem toFloat_shortest {x : Float} (hfinite : x.toBits.toNat < infinityBits)
    (hx : (magnitude x).significand ≠ 0) : (shortest x).toFloat = x := by
  rw [shortest]
  cases hsearch : ((List.range maxDigits).map fun i : Nat =>
      (ofMagnitude (magnitude x)).order - 1 - i).findSome?
        (onGrid? x (ofMagnitude (magnitude x)).toRat) with
  | none => exact toFloat_ofMagnitude hfinite hx
  | some d =>
      obtain ⟨exponent, -, hgrid⟩ := List.exists_of_findSome?_eq_some hsearch
      exact Float.toBits_inj.1 (beq_iff_eq.1 (readsAs_of_onGrid hgrid))

theorem digits_shortest_ne_zero {x : Float} (hfinite : x.toBits.toNat < infinityBits)
    (hx : (magnitude x).significand ≠ 0) : (shortest x).digits ≠ 0 := by
  intro hzero
  have hread := toFloat_shortest hfinite hx
  rw [toFloat, if_pos (Or.inl hzero)] at hread
  rw [← hread] at hx
  exact hx (by decide)

end Decimal

/-!
## Reading numerals

A run of decimal digits is read as the number that they spell, whatever follows it that
is no digit.  From this come the numbers that a decimal numeral with a point, and one
with an exponent, spell.
-/

namespace Text

/-- Whether a character is printed and takes one place: the printable characters of the
first script but for the blank. -/
def IsGraphic (c : Char) : Prop :=
  0x21 ≤ c.toNat ∧ c.toNat ≤ 0x7E

theorem isBlank_of_isGraphic {c : Char} (hc : IsGraphic c) : isBlank c = false := by
  obtain ⟨hlow, hhigh⟩ := hc
  simp only [isBlank, isPadding, isInformationSeparator, Bool.or_eq_false_iff,
    decide_eq_false_iff_not]
  omega

theorem isPadding_of_isGraphic {c : Char} (hc : IsGraphic c) : isPadding c = false :=
  (Bool.or_eq_false_iff.1 (isBlank_of_isGraphic hc)).1

theorem isDigit_iff {c : Char} : c.isDigit = true ↔ 48 ≤ c.toNat ∧ c.toNat ≤ 57 := by
  simp only [Char.isDigit, Bool.and_eq_true, decide_eq_true_eq]
  exact Iff.rfl

theorem IsGraphic.of_isDigit {c : Char} (hc : c.isDigit = true) : IsGraphic c := by
  obtain ⟨hlow, hhigh⟩ := isDigit_iff.1 hc
  exact ⟨by omega, by omega⟩

theorem digitValue?_of_isDigit {c : Char} (hc : c.isDigit = true) :
    digitValue? c = some (c.toNat - 48) := by
  obtain ⟨hlow, hhigh⟩ := isDigit_iff.1 hc
  have hfirst : decide (0x30 ≤ c.toNat ∧ c.toNat < 0x30 + 10) = true :=
    decide_eq_true ⟨hlow, by omega⟩
  have hzeros : zeroDigits = 0x30 :: zeroDigits.tail := rfl
  rw [digitValue?, hzeros, List.find?_cons]
  simp only [hfirst, Option.map_some]

theorem trim_eq_self {text : List Char} (htext : ∀ c ∈ text, isPadding c = false) :
    trim text = text := by
  have hdrop : ∀ {l : List Char}, (∀ c ∈ l, isPadding c = false) →
      l.dropWhile isPadding = l := by
    intro l hl
    cases l with
    | nil => rfl
    | cons c l =>
      exact List.dropWhile_cons_of_neg (by simp [hl c (List.mem_cons_self ..)])
  rw [trim, hdrop htext, hdrop fun c hc => htext c (List.mem_reverse.1 hc),
    List.reverse_reverse]

end Text

namespace Numeral

open Text

def AllDigits (text : List Char) : Prop :=
  ∀ c ∈ text, c.isDigit = true

theorem AllDigits.append {s t : List Char} (hs : AllDigits s) (ht : AllDigits t) :
    AllDigits (s ++ t) := by
  intro c hc
  exact (List.mem_append.1 hc).elim (hs c) (ht c)

theorem allDigits_toDigits (n : Nat) : AllDigits (Nat.toDigits 10 n) := fun _ hc =>
  Nat.isDigit_of_mem_toDigits (by decide) (by decide) hc

theorem allDigits_zeros (n : Nat) : AllDigits (List.replicate n '0') := by
  intro c hc
  rw [List.eq_of_mem_replicate hc]
  rfl

def EndsRun (rest : List Char) : Prop :=
  ∀ c ∈ rest.head?, c ≠ '_' ∧ digitValue? c = none

theorem endsRun_nil : EndsRun [] := nofun

theorem endsRun_cons {c : Char} {rest : List Char}
    (hc : c ≠ '_' ∧ digitValue? c = none) :
    EndsRun (c :: rest) := by
  intro d hd
  obtain rfl : c = d := by simpa using hd
  exact hc

theorem ne_underscore_of_isDigit {c : Char} (hc : c.isDigit = true) : c ≠ '_' := by
  rintro rfl
  exact absurd hc (by decide)

theorem moreDigits_cons {c : Char} (hc : c ≠ '_') (rest : List Char) :
    moreDigits (c :: rest) =
      match digitValue? c with
      | some d => (d :: (moreDigits rest).1, (moreDigits rest).2)
      | none => ([], c :: rest) := by
  have hlone : c = '_' → rest = [] → False := fun heq _ => hc heq
  have hbetween : ∀ d others, c = '_' → rest = d :: others → False :=
    fun _ _ heq _ => hc heq
  exact moreDigits.eq_4 c rest hlone hbetween

theorem moreDigits_append {digits rest : List Char} (hdigits : AllDigits digits)
    (hrest : EndsRun rest) :
    moreDigits (digits ++ rest) = (digits.map fun c => c.toNat - 48, rest) := by
  induction digits with
  | nil =>
      cases rest with
      | nil => rfl
      | cons c rest =>
          obtain ⟨hne, hnone⟩ := hrest c rfl
          rw [List.nil_append, moreDigits_cons hne, hnone]
          rfl
  | cons c digits ih =>
      have hc := hdigits c (List.mem_cons_self ..)
      have htail := ih fun d hd => hdigits d (List.mem_cons_of_mem _ hd)
      rw [List.cons_append, moreDigits_cons (ne_underscore_of_isDigit hc),
        digitValue?_of_isDigit hc, htail]
      rfl

theorem digitRun_eq_moreDigits {text : List Char} (htext : ∀ c ∈ text.head?, c ≠ '_') :
    digitRun text = moreDigits text := by
  unfold digitRun
  split
  · exact absurd rfl (htext '_' rfl)
  · rfl

theorem digitRun_append {digits rest : List Char} (hdigits : AllDigits digits)
    (hrest : EndsRun rest) :
    digitRun (digits ++ rest) = (digits.map fun c => c.toNat - 48, rest) := by
  rw [digitRun_eq_moreDigits, moreDigits_append hdigits hrest]
  intro c hc
  cases digits with
  | nil => exact (hrest c hc).1
  | cons d digits =>
      obtain rfl : d = c := by simpa using hc
      exact ne_underscore_of_isDigit (hdigits d (List.mem_cons_self ..))

theorem ofDigits_map (digits : List Char) :
    ofDigits (digits.map fun c => c.toNat - 48) = Nat.ofDigitChars 10 digits 0 := by
  rw [ofDigits, List.foldl_map, Nat.ofDigitChars_eq_foldl]
  rfl

theorem sign_eq_self {text : List Char} (htext : ∀ c ∈ text.head?, c ≠ '-' ∧ c ≠ '+') :
    sign text = (false, text) := by
  cases text with
  | nil => rfl
  | cons c text =>
      obtain ⟨hminus, hplus⟩ := htext c rfl
      rw [sign]
      · exact fun _ heq => hminus (List.cons.inj heq).1
      · exact fun _ heq => hplus (List.cons.inj heq).1

/-! ### Whole numerals -/

/-- The digits of a number are read as that number, unless there are too many of them. -/
theorem whole_toDigits {n : Nat}
    (hlength : (Nat.toDigits 10 n).length ≤ maxWholeDigits) :
    whole (String.ofList (Nat.toDigits 10 n)) = .value n := by
  have hdigits := allDigits_toDigits n
  have htrim : trim (Nat.toDigits 10 n) = Nat.toDigits 10 n := trim_eq_self fun c hc =>
    isPadding_of_isGraphic (.of_isDigit (hdigits c hc))
  have hsign : sign (Nat.toDigits 10 n) = (false, Nat.toDigits 10 n) := by
    refine sign_eq_self fun c hc => ?_
    have hdigit := hdigits c (List.mem_of_mem_head? hc)
    constructor <;> rintro rfl <;> exact absurd hdigit (by decide)
  have hrun := digitRun_append hdigits endsRun_nil
  rw [List.append_nil] at hrun
  obtain ⟨d, ds, hds⟩ :
      ∃ d ds, (Nat.toDigits 10 n).map (fun c => c.toNat - 48) = d :: ds :=
    List.exists_cons_of_ne_nil (by simp)
  have hvalue : ofDigits (d :: ds) = n := by
    rw [← hds, ofDigits_map, Nat.ofDigitChars_ten_toDigits]
  have hcount : ¬maxWholeDigits < (d :: ds).length := by
    rw [← hds, List.length_map]
    exact not_lt.2 hlength
  simp only [whole, String.toList_ofList, htrim, hsign, hrun, hds, if_neg hcount, hvalue]
  rfl

/-! ### Decimal numerals -/

theorem unsignedDecimal?_point {whole fraction tail : List Char} {e : Int}
    (hwhole : AllDigits whole) (hne : whole ≠ []) (hfraction : AllDigits fraction)
    (htail : EndsRun tail) (hexponent : exponent? tail = some e) :
    unsignedDecimal? (whole ++ '.' :: (fraction ++ tail)) =
      some { digits := Nat.ofDigitChars 10 (whole ++ fraction) 0,
             exponent := e - fraction.length } := by
  have hpoint : EndsRun ('.' :: (fraction ++ tail)) :=
    endsRun_cons ⟨by decide, by decide⟩
  have hempty : (whole.map fun c => c.toNat - 48).isEmpty = false := by
    rw [List.isEmpty_map, List.isEmpty_eq_false_iff]
    exact hne
  simp only [unsignedDecimal?, digitRun_append hwhole hpoint,
    digitRun_append hfraction htail, hempty, Bool.false_and, hexponent,
    ← List.map_append, ofDigits_map, List.length_map]
  rfl

theorem unsignedDecimal?_whole {whole tail : List Char} {e : Int}
    (hwhole : AllDigits whole) (hne : whole ≠ []) (htail : EndsRun tail)
    (hpoint : ∀ rest, tail ≠ '.' :: rest) (hexponent : exponent? tail = some e) :
    unsignedDecimal? (whole ++ tail) =
      some { digits := Nat.ofDigitChars 10 whole 0, exponent := e } := by
  have hempty : (whole.map fun c => c.toNat - 48).isEmpty = false := by
    rw [List.isEmpty_map, List.isEmpty_eq_false_iff]
    exact hne
  simp only [unsignedDecimal?, digitRun_append hwhole htail, hempty, Bool.false_and,
    hexponent, List.append_nil, ofDigits_map]
  simp

/-- What begins with a digit is not one of the words for infinity and for
an undefined number. -/
theorem unsignedFloat?_of_digit {c : Char} {text : List Char} (hc : c.isDigit = true) :
    unsignedFloat? (c :: text) = (unsignedDecimal? (c :: text)).map Decimal.toFloat := by
  have hlower : c.toLower = c := by
    obtain ⟨-, hhigh⟩ := isDigit_iff.1 hc
    have hsmall : c.val.toNat ≤ 57 := hhigh
    rw [Char.toLower, dif_neg]
    rintro ⟨hlow, -⟩
    have hlarge : 65 ≤ c.val.toNat := hlow
    omega
  have hword : ∀ {w : String} {d : Char}, w.toList.head? = some d → d.isDigit = false →
      String.ofList ((c :: text).map Char.toLower) ≠ w := by
    intro w d hd hnot heq
    have hhead := congrArg (fun s : String => s.toList.head?) heq
    simp only [String.toList_ofList, List.map_cons, List.head?_cons, hd, hlower,
      Option.some.injEq] at hhead
    rw [hhead, hnot] at hc
    cases hc
  have hinf := hword (w := "inf") (d := 'i') rfl rfl
  have hinfinity := hword (w := "infinity") (d := 'i') rfl rfl
  have hnan := hword (w := "nan") (d := 'n') rfl rfl
  simp only [unsignedFloat?, hinf, hinfinity, hnan, or_self, if_false]

end Numeral
end LatticeHull
