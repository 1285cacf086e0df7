import LuaMachine.Proofs.ShortestDecimals
import LuaMachine.Proofs.WrittenDecimals

/-!
# Floats in texts

A float is written with the digits of its shortest decimal, positionally and without an exponent.
Read back as a decimal number, these digits are rounded to the float again. What is lost is the
subtype: from `10 ^ 16` on a float has no digit after the point, and as long as the digits fit in an
integer of 64 bits, an integer is what is read.
-/
namespace LuaMachine

open Numeral

namespace Binary64

/-! ## Floats of one value -/

section Values
variable {x y : Float} {s : Bool} {m : ℕ} {q : ℤ}

theorem Normalized.eq_of_value {n : ℕ} {p : ℤ} (hm : Normalized m q) (hn : Normalized n p)
    (h : (m * 2 ^ q : ℚ) = n * 2 ^ p) : m = n ∧ q = p := by
  rcases lt_trichotomy q p with hlt | rfl | hgt
  · exact absurd h (hm.lt_of_exponent_lt hn hlt).ne
  · rw [mul_left_inj' (by positivity), Nat.cast_inj] at h
    exact ⟨h, rfl⟩
  · exact absurd h (hn.lt_of_exponent_lt hm hgt).ne'

/-- A float that is not zero is determined by its magnitude and its sign. -/
theorem eq_of_magnitude (hx : parts x = .finite s m q) (hm : 0 < m)
    (hy : value? y = some ((m * 2 ^ q : ℚ) : WithBotTop ℚ)) : (if s then -y else y) = x := by
  obtain ⟨t, n, p, hparts, heq⟩ := finite_of_value? (value?_signed s hy)
  have hn := (finite_of_parts hparts).1
  have hpos : (0 : ℚ) < m * 2 ^ q := by positivity
  have hnonneg : (0 : ℚ) ≤ n * 2 ^ p := by positivity
  have hsame : t = s ∧ (n * 2 ^ p : ℚ) = m * 2 ^ q := by
    cases s <;> cases t <;> simp only [signed, if_true, Bool.false_eq_true, if_false, Int.cast_neg,
      Int.cast_natCast, neg_mul, neg_inj] at heq
    · exact ⟨rfl, heq⟩
    · linarith
    · linarith
    · exact ⟨rfl, heq⟩
  obtain ⟨rfl, rfl⟩ := hn.eq_of_value (finite_of_parts hx).1 hsame.2
  exact eq_of_parts (hsame.1 ▸ hparts) hx

end Values

/-! ## The layout of a decimal -/

section Layout
variable {d : Decimal} {places : ℕ}

/-- The digits before the point. -/
def Decimal.whole (d : Decimal) : List Char :=
  if d.point ≤ 0 then ['0']
  else (Nat.toDigits 10 d.digits).take d.point.toNat ++
    List.replicate (d.point.toNat - digitCount d.digits) '0'

/-- The digits after the point, before they are padded. -/
def Decimal.rest (d : Decimal) : List Char :=
  List.replicate (-d.point).toNat '0' ++ (Nat.toDigits 10 d.digits).drop d.point.toNat

/-- The digits after the point. -/
def Decimal.fraction (d : Decimal) (places : ℕ) : List Char :=
  d.rest ++ List.replicate (places - d.rest.length) '0'

theorem positional_eq (d : Decimal) (places : ℕ) : d.positional places = String.ofList d.whole ++
    if d.fraction places = [] then "" else "." ++ String.ofList (d.fraction places) := by
  have hwhole :
      (if d.point ≤ 0 then "0" else String.ofList ((Nat.toDigits 10 d.digits).take d.point.toNat) ++
      zeros (d.point.toNat - (Nat.toDigits 10 d.digits).length)) = String.ofList d.whole := by
    unfold Decimal.whole
    split_ifs
    · rfl
    · rw [String.ofList_append]
      rfl
  have hrest : zeros (-d.point).toNat ++
      String.ofList ((Nat.toDigits 10 d.digits).drop d.point.toNat) = String.ofList d.rest := by
    rw [Decimal.rest, String.ofList_append]
    rfl
  have hfraction : String.ofList d.rest ++ zeros (places - (String.ofList d.rest).length) =
      String.ofList (d.fraction places) := by
    rw [Decimal.fraction, String.ofList_append, String.length_ofList]
    rfl
  simp only [Decimal.positional, hwhole, hrest, hfraction]
  by_cases hnil : d.fraction places = []
  · simp [hnil]
  · simp [hnil, String.append_assoc]

theorem digitsOnly_whole (d : Decimal) : DigitsOnly d.whole := by
  unfold Decimal.whole
  split_ifs
  · exact .replicate 1
  · exact ((DigitsOnly.toDigits _).sublist (List.take_sublist _ _)).append (.replicate _)

theorem digitsOnly_fraction (d : Decimal) (places : ℕ) : DigitsOnly (d.fraction places) :=
  ((DigitsOnly.replicate _).append ((DigitsOnly.toDigits _).sublist (List.drop_sublist _ _))).append
    (.replicate _)

theorem whole_ne_nil (d : Decimal) : d.whole ≠ [] := by
  have hpos := digitCount_pos d.digits
  unfold Decimal.whole
  split_ifs with hpoint
  · exact List.cons_ne_nil _ _
  · rw [← List.length_pos_iff, List.length_append, List.length_take, List.length_replicate]
    unfold digitCount at *
    omega

theorem length_rest (d : Decimal) : d.rest.length = (digitCount d.digits - d.point).toNat := by
  rw [Decimal.rest, List.length_append, List.length_replicate, List.length_drop, digitCount]
  omega

theorem length_fraction (d : Decimal) (places : ℕ) :
    (d.fraction places).length = max (digitCount d.digits - d.point).toNat places := by
  rw [Decimal.fraction, List.length_append, List.length_replicate, length_rest]
  omega

/-- All digits together are those of the decimal with zeros after them. -/
theorem ofDigitChars_layout (d : Decimal) (places : ℕ) :
    Nat.ofDigitChars 10 (d.whole ++ d.fraction places) 0 =
      d.digits * 10 ^ ((d.point - digitCount d.digits).toNat + (places - d.rest.length)) := by
  have hdigits : Nat.ofDigitChars 10 (d.whole ++ d.rest) 0 =
      d.digits * 10 ^ (d.point - digitCount d.digits).toNat := by
    have hvalue := Nat.ofDigitChars_ten_toDigits (n := d.digits)
    rw [Decimal.whole, Decimal.rest, digitCount]
    rcases le_or_gt d.point 0 with hle | hgt
    · have hzero : d.point.toNat = 0 := by omega
      have hexponent : (d.point - (Nat.toDigits 10 d.digits).length).toNat = 0 := by omega
      have hfirst : Nat.ofDigitChars 10 ['0'] 0 = 0 := rfl
      rw [if_pos hle, hzero, List.drop_zero, Nat.ofDigitChars_append,
        Nat.ofDigitChars_append, hfirst,
        Nat.ofDigitChars_replicate_zero, mul_zero, hvalue, hexponent, pow_zero, mul_one]
    · have hzero : (-d.point).toNat = 0 := by omega
      rw [if_neg hgt.not_ge, hzero, List.replicate_zero, List.nil_append]
      rcases le_or_gt (Nat.toDigits 10 d.digits).length d.point.toNat with hlong | hshort
      · have hexponent : (d.point - (Nat.toDigits 10 d.digits).length).toNat =
            d.point.toNat - (Nat.toDigits 10 d.digits).length := by omega
        rw [List.take_of_length_le hlong, List.drop_of_length_le hlong, List.append_nil,
          Nat.ofDigitChars_append, hvalue, Nat.ofDigitChars_replicate_zero, mul_comm, hexponent]
      · have hexponent : (d.point - (Nat.toDigits 10 d.digits).length).toNat = 0 := by omega
        rw [Nat.sub_eq_zero_of_le hshort.le, List.replicate_zero, List.append_nil,
          List.take_append_drop, hvalue, hexponent, pow_zero, mul_one]
  rw [Decimal.fraction, ← List.append_assoc, Nat.ofDigitChars_append, hdigits,
    Nat.ofDigitChars_replicate_zero, pow_add]
  ring

/-- The digits with their point have the value of the decimal. -/
theorem layout_value (d : Decimal) (places : ℕ) :
    (Nat.ofDigitChars 10 (d.whole ++ d.fraction places) 0 * 10 ^
      (-((d.fraction places).length : ℤ)) : ℚ) =
      d.digits * 10 ^ (d.point - digitCount d.digits) := by
  rw [ofDigitChars_layout, Nat.cast_mul, Nat.cast_pow, ← zpow_natCast, mul_assoc, Nat.cast_ofNat,
    ← zpow_add₀ (by norm_num), length_fraction, length_rest]
  congr 2
  omega

/-- The bytes of a decimal with its sign. -/
theorem bytesOf_positional (s : Bool) (d : Decimal) (places : ℕ) :
    bytesOf (signText s ++ d.positional places) = (if s then Sign.minus else Sign.none).text ++
      (codes d.whole ++
      pointed (if d.fraction places = [] then none else some (codes (d.fraction places)))) := by
  have hsign : bytesOf (signText s) = (if s then Sign.minus else Sign.none).text := by
    cases s <;> rfl
  have hpoint : bytesOf "." = [46] := rfl
  rw [bytesOf_append, hsign, positional_eq, bytesOf_append, (digitsOnly_whole d).bytesOf]
  by_cases hnil : d.fraction places = []
  · rw [if_pos hnil, if_pos hnil]
    rfl
  · rw [if_neg hnil, if_neg hnil, bytesOf_append, hpoint, (digitsOnly_fraction d places).bytesOf]
    rfl

end Layout

/-! ## Reading it back -/

section Reading
variable {d : Decimal} {places : ℕ} {s : Bool}

/-- The number that all digits of a decimal stand for, without the point. -/
def Decimal.numeral (d : Decimal) (places : ℕ) : ℕ :=
  Nat.ofDigitChars 10 (d.whole ++ d.fraction places) 0

theorem digitsValue_codes (d : Decimal) (places : ℕ) :
    digitsValue 10 (codes d.whole ++ codes (d.fraction places)) = d.numeral places := by
  rw [codes, codes, ← List.map_append]
  exact ((digitsOnly_whole d).append (digitsOnly_fraction d places)).digitsValue

theorem digitsValue_whole (h : d.fraction places = []) :
    digitsValue 10 (codes d.whole) = d.numeral places := by
  rw [← digitsValue_codes, h]
  exact congrArg _ (List.append_nil _).symm

theorem read_positional (s : Bool) (d : Decimal) (places : ℕ) :
    read (bytesOf (signText s ++ d.positional places)) = some (decimalNumber s ⟨codes d.whole,
      if d.fraction places = [] then none else some (codes (d.fraction places)), none⟩) := by
  have hne : codes d.whole ≠ [] := by simp [codes, whole_ne_nil]
  have hread := read_decimal [] [] (if s then Sign.minus else Sign.none)
    (if d.fraction places = [] then none else some (codes (d.fraction places))) hne
      (digitsOnly_whole d).isDigit
    (by
      intro ds hds
      split_ifs at hds
      · cases hds
      · cases hds
        exact (digitsOnly_fraction d places).isDigit)
  have hsign : (if s then Sign.minus else Sign.none).negative = s := by cases s <;> rfl
  rw [hsign] at hread
  rw [bytesOf_positional, ← hread]
  simp

/-- The float that a decimal with its sign is rounded to. -/
def Decimal.asFloat (s : Bool) (d : Decimal) (places : ℕ) : Float :=
  let magnitude := scaleTen (d.numeral places) (-((d.fraction places).length : ℤ))
  if s then -magnitude else magnitude

/-- With a point, or if it is too large for an integer, a decimal is read as a float. -/
theorem read_positional_float
    (h : d.fraction places ≠ [] ∨ int64OfInt? (signed s (d.numeral places)) = none) :
    read (bytesOf (signText s ++ d.positional places)) = some (.float (d.asFloat s places)) := by
  have hlength : (codes (d.fraction places)).length = (d.fraction places).length :=
    List.length_map _
  rw [read_positional]
  by_cases hnil : d.fraction places = []
  · have hnone := h.resolve_left (not_not.mpr hnil)
    simp only [hnil, if_true, decimalNumber, digitsValue_whole hnil, hnone, Option.getD_none,
      List.append_nil, List.length_nil, Decimal.asFloat, Nat.cast_zero, neg_zero, sub_zero]
  · simp only [hnil, if_false, decimalNumber, Option.getD_some, Option.getD_none,
      digitsValue_codes, hlength, Decimal.asFloat, zero_sub]

/-- Without a point it is read as an integer, if there is one. -/
theorem read_positional_int (h : d.fraction places = []) {n : Int64}
    (hn : n.toInt = signed s (d.numeral places)) :
    read (bytesOf (signText s ++ d.positional places)) = some (.int n) := by
  rw [read_positional, if_pos h]
  simp only [decimalNumber, digitsValue_whole h, int64OfInt?_eq_some.mpr hn]

end Reading

/-! ## Decimals that stand for a float -/

section Standing
variable {x : Float} {s : Bool} {m : ℕ} {q : ℤ} {d : Decimal}

theorem Decimal.StandsFor.encloses (h : d.StandsFor m q) (places : ℕ) :
    Encloses m q (d.numeral places * 10 ^ (-((d.fraction places).length : ℤ))) := by
  rw [Decimal.numeral, layout_value, ← h.count]
  exact h.value

theorem Decimal.StandsFor.encloses_numeral (h : d.StandsFor m q) {places : ℕ}
    (hnil : d.fraction places = []) : Encloses m q (d.numeral places) := by
  have hin := h.encloses places
  rwa [hnil, List.length_nil, Nat.cast_zero, neg_zero, zpow_zero, mul_one] at hin

theorem Encloses.half_le {v : ℚ} (h : Encloses m q v) (hm : 0 < m) : 1 / 2 * 2 ^ q ≤ v := by
  have hone : (1 : ℚ) ≤ m := by exact_mod_cast hm
  rw [← le_div_iff₀ (by positivity)]
  linarith [h.near.bounds.1]

theorem Encloses.pos {v : ℚ} (h : Encloses m q v) (hm : 0 < m) : 0 < v :=
  lt_of_lt_of_le (by positivity) (h.half_le hm)

/-- A decimal fraction in the interval around a float has enough digits, however small it is. -/
theorem Encloses.places_le {n places : ℕ} (h : Encloses m q (n * 10 ^ (-(places : ℤ)))) (hm : 0 < m)
    (hq : -1074 ≤ q) : 0 < n ∧ places ≤ 2 ^ 11 + n.log2 := by
  have hleast : (2 : ℚ) ^ (-1075 : ℤ) ≤ n * 10 ^ (-(places : ℤ)) := by
    refine le_trans ?_ (h.half_le hm)
    calc (2 : ℚ) ^ (-1075 : ℤ) = 1 / 2 * 2 ^ (-1074 : ℤ) := by
          rw [show (-1075 : ℤ) = -1 + -1074 by norm_num, zpow_add₀ two_ne_zero]
          norm_num
      _ ≤ 1 / 2 * 2 ^ q := by gcongr; exact one_le_two
  have hlt : (2 : ℚ) ^ (-1075 + 3 * places : ℤ) < 2 ^ (n.log2 + 1 : ℤ) := by
    calc (2 : ℚ) ^ (-1075 + 3 * places : ℤ) = 2 ^ (-1075 : ℤ) * 8 ^ places := by
          rw [zpow_add₀ two_ne_zero, zpow_mul, zpow_natCast]
          norm_num
      _ ≤ n * 10 ^ (-(places : ℤ)) * 10 ^ places := by
          gcongr
          norm_num
      _ = n := by
          rw [mul_assoc, ← zpow_natCast, ← zpow_add₀ (by norm_num), neg_add_cancel,
            zpow_zero, mul_one]
      _ < 2 ^ (n.log2 + 1 : ℤ) := by exact_mod_cast Nat.lt_log2_self
  have hexponent := lt_of_zpow_lt hlt
  refine ⟨?_, by omega⟩
  have hpos := pos_of_mul_pos_left (h.pos hm) (by positivity)
  exact_mod_cast hpos

/-- The digits of a decimal that stands for a float are read as the float. -/
theorem Decimal.StandsFor.asFloat_eq (h : d.StandsFor m q) (hx : parts x = .finite s m q)
    (hm : 0 < m) (places : ℕ) : d.asFloat s places = x := by
  have hnormal := (finite_of_parts hx).1
  obtain ⟨hpos, hplaces⟩ := (h.encloses places).places_le hm hnormal.exponent
  have hround :=
    scaleTen_rounded (e := -((d.fraction places).length : ℤ)) hpos (by omega) (by omega)
  exact eq_of_magnitude hx hm
    (hround.value?_of_encloses hnormal hm (exponent_le_of_parts hx) (h.encloses places))

/-- From `10 ^ 16` on there are no digits after the point. -/
theorem Decimal.StandsFor.fraction_eq_nil (h : d.StandsFor m q)
    (hlarge : (10 : ℚ) ^ (16 : ℤ) ≤ m * 2 ^ q) : d.fraction 0 = [] := by
  have hpoint : 16 < d.point :=
    (zpow_lt_zpow_iff_right₀ (by norm_num : (1 : ℚ) < 10)).mp (hlarge.trans_lt h.point)
  have hshort := h.short
  rw [← List.length_eq_zero_iff, length_fraction, ← h.count]
  omega

end Standing

/-! ## Integers in the interval around a float -/

section Integral
variable {m n : ℕ} {q : ℤ}

/-- A float that is next to an integer is an integer. -/
theorem Encloses.integral (h : Encloses m q n) : ∃ k : ℕ, (m * 2 ^ q : ℚ) = k := by
  rcases le_or_gt 0 q with hq | hq
  · obtain ⟨k, rfl⟩ := Int.eq_ofNat_of_zero_le hq
    exact ⟨m * 2 ^ k, by push_cast; rfl⟩
  · -- In the unit of the float both are integers, at most half a unit apart.
    obtain ⟨k, rfl⟩ : ∃ k : ℕ, q = -k := ⟨(-q).toNat, by omega⟩
    obtain ⟨hlow, hhigh⟩ := h.near.bounds
    have hscaled : (n / 2 ^ (-(k : ℤ)) : ℚ) = (n * 2 ^ k : ℕ) := by
      rw [zpow_neg, div_inv_eq_mul, zpow_natCast]
      push_cast
      rfl
    rw [hscaled] at hlow hhigh
    have hle : m < n * 2 ^ k + 1 := by exact_mod_cast (by linarith : (m : ℚ) < (n * 2 ^ k : ℕ) + 1)
    have hge : n * 2 ^ k < m + 1 := by exact_mod_cast (by linarith : ((n * 2 ^ k : ℕ) : ℚ) < m + 1)
    refine ⟨n, ?_⟩
    rw [show m = n * 2 ^ k by omega, zpow_neg, zpow_natCast]
    push_cast
    field_simp

theorem Encloses.lt_of_lt (h : Encloses m q n) (hn : Normalized m q)
    (hlt : (m * 2 ^ q : ℚ) < 2 ^ (63 : ℤ)) : n < 2 ^ 63 := by
  have hq : q ≤ 10 := by
    by_contra hq
    have hleading : (2 ^ (52 : ℤ) : ℚ) ≤ m := by exact_mod_cast hn.leading.resolve_left (by omega)
    refine absurd hlt (not_lt.mpr ?_)
    calc (2 : ℚ) ^ (63 : ℤ) ≤ 2 ^ (52 + q) := zpow_le_zpow_right₀ one_le_two (by omega)
      _ = 2 ^ (52 : ℤ) * 2 ^ q := zpow_add₀ two_ne_zero _ _
      _ ≤ m * 2 ^ q := by gcongr
  have hmantissa : (m + 1 : ℚ) ≤ 2 ^ (53 : ℤ) := by exact_mod_cast hn.mantissa
  have hhigh := h.near.bounds.2
  rw [div_le_iff₀ (by positivity)] at hhigh
  have hcast : (n : ℚ) < 2 ^ (63 : ℤ) := by
    calc (n : ℚ) ≤ (m + 1 / 2) * 2 ^ q := hhigh
      _ < 2 ^ (53 : ℤ) * 2 ^ q := by gcongr; linarith
      _ = 2 ^ (53 + q) := (zpow_add₀ two_ne_zero _ _).symm
      _ ≤ 2 ^ (63 : ℤ) := zpow_le_zpow_right₀ one_le_two (by omega)
  exact_mod_cast hcast

theorem Encloses.lt_of_gt (h : Encloses m q n) (hn : Normalized m q)
    (hgt : (2 : ℚ) ^ (63 : ℤ) < m * 2 ^ q) : 2 ^ 63 < n := by
  have hunit : (0 : ℚ) < 2 ^ q := by positivity
  have hmantissa : (m + 1 : ℚ) ≤ 2 ^ (53 : ℤ) := by exact_mod_cast hn.mantissa
  have hq : 11 ≤ q := by
    have hlt : (2 : ℚ) ^ (63 : ℤ) < 2 ^ (53 + q) := by
      calc (2 : ℚ) ^ (63 : ℤ) < m * 2 ^ q := hgt
        _ ≤ 2 ^ (53 : ℤ) * 2 ^ q := by gcongr; linarith
        _ = 2 ^ (53 + q) := (zpow_add₀ two_ne_zero _ _).symm
    have := lt_of_zpow_lt hlt
    omega
  have hleading : 2 ^ 52 ≤ m := hn.leading.resolve_left (by omega)
  -- With the unit of `2 ^ 63` itself the mantissa is larger than the least one.
  have hbelow : (2 : ℚ) ^ (63 : ℤ) < (m - 1 / 2) * 2 ^ q := by
    rcases hq.eq_or_lt with rfl | hq
    · have hless : 2 ^ 52 < m := by
        norm_num at hgt
        exact_mod_cast (by linarith : (2 ^ 52 : ℚ) < m)
      have hcast : (2 ^ 52 + 1 : ℚ) ≤ m := by exact_mod_cast hless
      norm_num
      linarith
    · have hcast : (2 ^ 52 : ℚ) ≤ m := by exact_mod_cast hleading
      have htwelve : (2 : ℚ) ^ (12 : ℤ) ≤ 2 ^ q := zpow_le_zpow_right₀ one_le_two (by omega)
      calc (2 : ℚ) ^ (63 : ℤ) < (2 ^ 52 - 1 / 2) * 2 ^ (12 : ℤ) := by norm_num
        _ ≤ (m - 1 / 2) * 2 ^ q := mul_le_mul (by linarith) htwelve (by positivity) (by linarith)
  have hlow := h.near.bounds.1
  rw [le_div_iff₀ hunit] at hlow
  exact_mod_cast hbelow.trans_le hlow

end Integral

/-! ## The text of a float -/

section Texts
variable {x : Float} {s : Bool} {m : ℕ} {q : ℤ}

theorem floatText_eq (hx : parts x = .finite s m q) (hm : 0 < m) :
    floatText x = signText s ++ (shortest m q).positional (if isShortIntegral x then 1 else 0) := by
  obtain ⟨k, rfl⟩ : ∃ k, m = k + 1 := ⟨m - 1, by omega⟩
  simp only [floatText, positionalText, hx]

theorem isShortIntegral_iff (hx : parts x = .finite s m q) :
    isShortIntegral x = true ↔ ∃ k : ℕ, (m * 2 ^ q : ℚ) = k ∧ k < 10 ^ 16 := by
  have hvalue : value? x = some ((signed s m * 2 ^ q : ℚ) : WithBotTop ℚ) := by
    rw [value?, hx, Parts.value?]
  constructor
  · intro h
    unfold isShortIntegral at h
    split at h
    · next n hn =>
      rw [exactInt?_eq_some, hvalue] at hn
      have heq : (signed s m * 2 ^ q : ℚ) = n := WithBotTop.coe_injective (Option.some.inj hn)
      have hmagnitude := (natAbs_of_signed heq le_rfl).1
      rw [sub_self, Int.toNat_zero, pow_zero, mul_one] at hmagnitude
      exact ⟨n.natAbs, hmagnitude, of_decide_eq_true h⟩
    · cases h
  · rintro ⟨k, hk, hlt⟩
    rw [signed_scaled s hk, ← exactInt?_eq_some] at hvalue
    unfold isShortIntegral
    rw [hvalue]
    simp only [natAbs_signed]
    exact decide_eq_true hlt

/-- Below `10 ^ 16` there is a digit after the point. -/
theorem read_floatText_small (hx : parts x = .finite s m q) (hm : 0 < m)
    (hsmall : (m * 2 ^ q : ℚ) < 10 ^ 16) : read (bytesOf (floatText x)) = some (.float x) := by
  have hstands := shortest_standsFor (finite_of_parts hx).1 hm
  rw [floatText_eq hx hm, read_positional_float, hstands.asFloat_eq hx hm]
  left
  intro hnil
  have hlength := length_fraction (shortest m q) (if isShortIntegral x then 1 else 0)
  rw [hnil, List.length_nil] at hlength
  split_ifs at hlength hnil with hshort
  · omega
  · obtain ⟨k, hk⟩ := (hstands.encloses_numeral hnil).integral
    refine hshort ((isShortIntegral_iff hx).mpr ⟨k, hk, ?_⟩)
    rw [hk] at hsmall
    exact_mod_cast hsmall

/-- From there on there is none. -/
theorem floatText_large (hx : parts x = .finite s m q) (hm : 0 < m)
    (hlarge : (10 ^ 16 : ℚ) ≤ m * 2 ^ q) :
    floatText x = signText s ++ (shortest m q).positional 0 ∧ (shortest m q).fraction 0 = [] ∧
      Encloses m q ((shortest m q).numeral 0) := by
  have hstands := shortest_standsFor (finite_of_parts hx).1 hm
  have hnil := hstands.fraction_eq_nil (by exact_mod_cast hlarge)
  have hshort : ¬ isShortIntegral x = true := by
    rw [isShortIntegral_iff hx]
    rintro ⟨k, hk, hlt⟩
    rw [hk] at hlarge
    exact absurd hlt (not_lt.mpr (by exact_mod_cast hlarge))
  rw [floatText_eq hx hm, if_neg hshort]
  exact ⟨rfl, hnil, hstands.encloses_numeral hnil⟩

/-- An integer in the interval around a float has it as its nearest float. -/
theorem ofInt64_eq {n : Int64} {k : ℕ} (hx : parts x = .finite s m q) (hm : 0 < m)
    (hn : n.toInt = signed s k) (hin : Encloses m q k) : ofInt64 n = x := by
  have hpos : 0 < k := by exact_mod_cast hin.pos hm
  have hword : (UInt64.ofNat n.toInt.natAbs).toNat = k := by
    have hlow := n.le_toInt
    have hhigh := n.toInt_lt
    have hk : n.toInt.natAbs = k := by rw [hn, natAbs_signed]
    rw [UInt64.toNat_ofNat']
    omega
  have hround := toFloat_rounded (hpos.trans_eq hword.symm)
  rw [hword] at hround
  have hmagnitude :=
    hround.value?_of_encloses (finite_of_parts hx).1 hm (exponent_le_of_parts hx) hin
  have hnegative : n < 0 ↔ s = true := by
    rw [Int64.lt_iff_toInt_lt, hn, Int64.toInt_zero]
    cases s with
    | true => exact iff_of_true (Int.neg_neg_of_pos (by exact_mod_cast hpos)) rfl
    | false => exact iff_of_false (Int.natCast_nonneg k).not_gt Bool.false_ne_true
  rw [← eq_of_magnitude hx hm hmagnitude, ofInt64]
  simp only [hnegative]

theorem int64OfInt?_signed_eq_none {k : ℕ} (h : 2 ^ 63 < k) : int64OfInt? (signed s k) = none := by
  refine Option.eq_none_iff_forall_ne_some.mpr fun n hn => ?_
  have hvalue := int64OfInt?_eq_some.mp hn
  have hlow := n.le_toInt
  have hhigh := n.toInt_lt
  unfold signed at hvalue
  split_ifs at hvalue <;> omega

/-- Digits below `2 ^ 63` are read as an integer, which is rounded to the float when it is needed as
one. -/
theorem read_floatText_middle (hx : parts x = .finite s m q) (hm : 0 < m)
    (hlarge : (10 ^ 16 : ℚ) ≤ m * 2 ^ q) (hlt : (m * 2 ^ q : ℚ) < 2 ^ 63) :
    ∃ n, read (bytesOf (floatText x)) = some (.int n) ∧ ofInt64 n = x := by
  obtain ⟨htext, hnil, hin⟩ := floatText_large hx hm hlarge
  have hrange := hin.lt_of_lt (finite_of_parts hx).1 (by exact_mod_cast hlt)
  obtain ⟨n, hn⟩ : ∃ n : Int64, n.toInt = signed s ((shortest m q).numeral 0) := by
    refine ⟨_, Int64.toInt_ofInt_of_le ?_ ?_⟩ <;> unfold signed <;> split_ifs <;> omega
  refine ⟨n, ?_, ofInt64_eq hx hm hn hin⟩
  rw [htext, read_positional_int hnil hn]

/-- Digits from `2 ^ 63` on are not. -/
theorem read_floatText_large (hx : parts x = .finite s m q) (hm : 0 < m)
    (hlarge : (2 ^ 63 : ℚ) ≤ m * 2 ^ q) : read (bytesOf (floatText x)) = some (.float x) := by
  obtain ⟨htext, hnil, hin⟩ := floatText_large hx hm (le_trans (by norm_num) hlarge)
  have hnormal := (finite_of_parts hx).1
  have hrange : 2 ^ 63 < (shortest m q).numeral 0 := by
    rcases hlarge.eq_or_lt with heq | hgt
    · have hleast : Normalized (2 ^ 52) 11 := ⟨by norm_num, by norm_num, .inr le_rfl⟩
      obtain ⟨rfl, rfl⟩ := hnormal.eq_of_value hleast (by rw [← heq]; norm_num)
      have hdigits : (shortest (2 ^ 52) 11).numeral 0 = 9223372036854776000 := by decide +kernel
      rw [hdigits]
      norm_num
    · exact hin.lt_of_gt hnormal (by exact_mod_cast hgt)
  rw [htext, read_positional_float (.inr (int64OfInt?_signed_eq_none hrange)),
    (shortest_standsFor hnormal hm).asFloat_eq hx hm]

end Texts

end Binary64

/-- A finite float survives its text, except from `10 ^ 16` up to `2 ^ 63` in magnitude. There its
text is that of an integer, and is read as one that is rounded to the float. -/
theorem Number.float_survives_text_iff {x : Float} {v : ℚ}
    (hx : Binary64.value? x = some (v : WithBotTop ℚ)) :
    (read (bytesOf (Number.float x).text) = some (.float x) ↔ ¬ (10 ^ 16 ≤ |v| ∧ |v| < 2 ^ 63)) ∧
      (10 ^ 16 ≤ |v| ∧ |v| < 2 ^ 63 →
        ∃ n, read (bytesOf (Number.float x).text) = some (.int n) ∧
          (Number.int n).toFloat = x) := by
  obtain ⟨s, m, q, hparts, rfl⟩ := Binary64.finite_of_value? hx
  have hmagnitude : |(Binary64.signed s m * 2 ^ q : ℚ)| = m * 2 ^ q := by
    cases s <;> simp [Binary64.signed]
  rw [hmagnitude]
  change (read (bytesOf (floatText x)) = _ ↔ _) ∧
    (_ → ∃ n, read (bytesOf (floatText x)) = _ ∧ Binary64.ofInt64 n = x)
  rcases Nat.eq_zero_or_pos m with rfl | hm
  · have hread : read (bytesOf (floatText x)) = some (.float x) := by
      rcases Binary64.eq_zero_of_parts hparts with rfl | rfl <;> decide +kernel
    rw [Nat.cast_zero, zero_mul]
    norm_num [hread]
  by_cases hrange : (10 ^ 16 : ℚ) ≤ m * 2 ^ q ∧ (m * 2 ^ q : ℚ) < 2 ^ 63
  · obtain ⟨n, hread, hfloat⟩ := Binary64.read_floatText_middle hparts hm hrange.1 hrange.2
    refine ⟨iff_of_false ?_ (not_not.mpr hrange), fun _ => ⟨n, hread, hfloat⟩⟩
    rw [hread]
    simp
  · have hread : read (bytesOf (floatText x)) = some (.float x) := by
      rcases lt_or_ge (m * 2 ^ q : ℚ) (10 ^ 16) with hsmall | hlarge
      · exact Binary64.read_floatText_small hparts hm hsmall
      · exact Binary64.read_floatText_large hparts hm (not_lt.mp fun hlt => hrange ⟨hlarge, hlt⟩)
    exact ⟨iff_of_true hread hrange, fun h => absurd h hrange⟩

/-- The float `2 ^ 60` is written as an integer that is not even its value. -/
theorem Number.float_survives_text_iff_integral :
    (Number.float (Float.ofBits 0x43b0000000000000)).text = "1152921504606847000" ∧
      read (bytesOf (Number.float (Float.ofBits 0x43b0000000000000)).text) ≠
        some (.float (Float.ofBits 0x43b0000000000000)) ∧
      ∃ n, read (bytesOf (Number.float (Float.ofBits 0x43b0000000000000)).text) =
        some (.int n) := by
  have hexact : Binary64.exactInt? (Float.ofBits 0x43b0000000000000) =
      some 1152921504606846976 := by decide +kernel
  obtain ⟨hiff, hint⟩ := Number.float_survives_text_iff (Binary64.exactInt?_eq_some.mp hexact)
  have hrange : (10 ^ 16 : ℚ) ≤ |((1152921504606846976 : ℤ) : ℚ)| ∧
      |((1152921504606846976 : ℤ) : ℚ)| < 2 ^ 63 := by
    norm_num
  obtain ⟨n, hread, -⟩ := hint hrange
  exact ⟨by decide +kernel, fun h => hiff.mp h hrange, n, hread⟩

end LuaMachine
