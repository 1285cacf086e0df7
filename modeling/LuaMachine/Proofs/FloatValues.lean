import Mathlib
import LuaMachine.Proofs.CanonicalKeys

/-!
# Floats as exact numbers

A float that is not NaN stands for a rational number or for one of the two infinities. The order of
floats is the order of these values, and rounding a float to an integer is the rounding of its
value. The order is proved on the form that comparisons compute with, in which a finite float has a
normalized mantissa: there the exponents are compared first.
-/
namespace LuaMachine

namespace Binary64
open Float.Model

/-- The number that the content of a float stands for, if it is not NaN. -/
def Parts.value? : Parts → Option (WithBotTop ℚ)
  | .nan => none
  | .infinite true => some ⊥
  | .infinite false => some ⊤
  | .finite s m q => some ((signed s m * 2 ^ q : ℚ) : WithBotTop ℚ)

/-- The number that a float stands for, if it is not NaN. -/
def value? (x : Float) : Option (WithBotTop ℚ) := (parts x).value?

/-- The content of a float in the form that arithmetic and comparisons compute with. -/
def Parts.ofUnpacked : UnpackedFloat → Parts
  | .notANumber => .nan
  | .infinity s => .infinite (s == .negative)
  | .zero s => .finite (s == .negative) 0 (-1074)
  | .finite s m e _ => .finite (s == .negative) m e

/-! ## The fields of the bit pattern -/

section Fields
variable (b : BitVec Format.binary64.numBits)

theorem toNat_unpackMantissa : (UnpackedFloat.unpackMantissa b).toNat = b.toNat % 2 ^ 52 := by
  rw [UnpackedFloat.unpackMantissa_def, BitVec.extractLsb'_toNat, Nat.shiftRight_zero]

theorem toNat_unpackExponent :
    (UnpackedFloat.unpackExponent b).toNat = b.toNat / 2 ^ 52 % 2 ^ 11 := by
  rw [UnpackedFloat.unpackExponent_def, BitVec.extractLsb'_toNat, Nat.shiftRight_eq_div_pow]

theorem negative_unpackSign :
    (UnpackedFloat.Sign.ofBitVec (UnpackedFloat.unpackSign b) == .negative) =
      (b.toNat / 2 ^ 63 == 1) := by
  have hlt : b.toNat < 2 ^ 64 := b.isLt
  have hsign : (UnpackedFloat.unpackSign b).toNat = b.toNat / 2 ^ 63 := by
    rw [UnpackedFloat.unpackSign_def, BitVec.extractLsb'_toNat, Nat.shiftRight_eq_div_pow]
    show b.toNat / 2 ^ 63 % 2 ^ 1 = b.toNat / 2 ^ 63
    omega
  rw [← hsign]
  generalize UnpackedFloat.unpackSign b = v
  revert v
  decide

end Fields

theorem toNat_leading (v : BitVec 52) : (1#1 ++ v).toNat = v.toNat + 2 ^ 52 := by
  rw [BitVec.toNat_append, ← Nat.shiftLeft_add_eq_or_of_lt v.isLt, Nat.add_comm]
  rfl

/-- The content of a float is the one that its bits are unpacked to. -/
theorem parts_eq (x : Float) : parts x = .ofUnpacked x.toModel.unpack := by
  have hm := toNat_unpackMantissa x.toBits.toBitVec
  have he := toNat_unpackExponent x.toBits.toBitVec
  have hs := negative_unpackSign x.toBits.toBitVec
  change parts x = .ofUnpacked (UnpackedFloat.unpack Format.binary64 x.toBits.toBitVec)
  unfold parts
  simp only [isNegative, Nat.pow_eq, ← UInt64.toNat_toBitVec, ← hm, ← he, ← hs]
  clear hm he hs
  generalize (x.toBits.toBitVec : BitVec Format.binary64.numBits) = b
  fun_cases UnpackedFloat.unpack Format.binary64 b with
  | case1 mantissa exponent sign s hspecial hzero =>
    have hspecial : exponent.toNat = 2047 := congrArg BitVec.toNat hspecial
    have hzero : mantissa.toNat = 0 := congrArg BitVec.toNat hzero
    rw [if_pos hspecial, if_pos hzero]
    rfl
  | case2 mantissa exponent hspecial hzero =>
    have hspecial : exponent.toNat = 2047 := congrArg BitVec.toNat hspecial
    have hzero : mantissa.toNat ≠ 0 := fun h => hzero (BitVec.eq_of_toNat_eq h)
    rw [if_pos hspecial, if_neg hzero]
    rfl
  | case3 mantissa exponent sign s _ hlow hzero =>
    have hlow : exponent.toNat = 0 := congrArg BitVec.toNat hlow
    have hzero : mantissa.toNat = 0 := congrArg BitVec.toNat hzero
    have hspecial : exponent.toNat ≠ 2047 := by omega
    rw [if_neg hspecial, if_pos hlow, hzero]
    rfl
  | case4 mantissa exponent e sign s _ hlow _ =>
    have hlow : exponent.toNat = 0 := congrArg BitVec.toNat hlow
    have hleast : e + 1 = -1074 := by
      simp only [e, hlow]
      rfl
    have hspecial : exponent.toNat ≠ 2047 := by omega
    rw [if_neg hspecial, if_pos hlow, Parts.ofUnpacked, hleast]
  | case5 mantissa exponent e sign s hspecial hlow =>
    have hspecial : exponent.toNat ≠ 2047 := fun h => hspecial (BitVec.eq_of_toNat_eq h)
    have hlow : exponent.toNat ≠ 0 := fun h => hlow (BitVec.eq_of_toNat_eq h)
    have hleading : (1#1 ++ mantissa).toNat = mantissa.toNat + 2 ^ 52 := toNat_leading mantissa
    simp only [Parts.ofUnpacked, hleading]
    rw [if_neg hspecial, if_neg hlow]
    rfl

theorem exponent_le_of_parts {x : Float} {s : Bool} {m : ℕ} {q : ℤ} (h : parts x = .finite s m q) :
    q ≤ 971 := by
  unfold parts at h
  simp only [Nat.pow_eq] at h
  split_ifs at h with hspecial hfraction hsubnormal
  · cases h
    omega
  · cases h
    omega

/-! ## Order -/

section Order
variable {m n : ℕ} {q p : ℤ} {x y : Float}

/-- Of two normalized floats, the one with the larger exponent is larger. -/
theorem Normalized.lt_of_exponent_lt (hm : Normalized m q) (hn : Normalized n p) (h : q < p) :
    (m * 2 ^ q : ℚ) < n * 2 ^ p := by
  have hleading : (2 ^ 52 : ℚ) ≤ n := by
    have := hm.exponent
    exact_mod_cast hn.leading.resolve_left (by omega)
  have hmantissa : (m : ℚ) < 2 ^ 53 := by exact_mod_cast hm.mantissa
  calc (m * 2 ^ q : ℚ) < 2 ^ 53 * 2 ^ q := by gcongr
    _ = 2 ^ 52 * 2 ^ (q + 1) := by rw [zpow_add_one₀ two_ne_zero]; ring
    _ ≤ n * 2 ^ p := by gcongr; norm_num; omega

/-- The order of normalized floats is lexicographic in exponent and mantissa. -/
theorem Normalized.cmp_eq (hm : Normalized m q) (hn : Normalized n p) :
    (compare q p).then (compare m n) = cmp (m * 2 ^ q : ℚ) (n * 2 ^ p) := by
  rcases lt_trichotomy q p with h | rfl | h
  · rw [compare_lt_iff_lt.mpr h, cmp_eq_lt_iff _ _ |>.mpr (hm.lt_of_exponent_lt hn h)]
    rfl
  · have hmono : StrictMono fun k : ℕ => (k * 2 ^ q : ℚ) := by
      intro k l h
      have hcast : (k : ℚ) < l := by exact_mod_cast h
      exact mul_lt_mul_of_pos_right hcast (by positivity)
    rw [compare_eq_iff_eq.mpr rfl, ← cmp_eq_compare]
    exact (hmono.cmp_map_eq m n).symm
  · rw [compare_gt_iff_gt.mpr h, cmp_eq_gt_iff _ _ |>.mpr (hn.lt_of_exponent_lt hm h)]
    rfl

/-- A finite number in unpacked form has the mantissa and the exponent of a float. -/
def Canonical : UnpackedFloat → Prop
  | .finite _ m e _ => Normalized m e ∧ e ≤ 971
  | _ => True

/-- The number that an unpacked float stands for. -/
def unpackedValue? (u : UnpackedFloat) : Option (WithBotTop ℚ) := (Parts.ofUnpacked u).value?

theorem unpackedValue?_zero (s : UnpackedFloat.Sign) :
    unpackedValue? (.zero s) = some ((0 : ℚ) : WithBotTop ℚ) := by
  simp [unpackedValue?, Parts.ofUnpacked, Parts.value?, signed]

theorem unpackedValue?_positive (m : ℕ) (e : ℤ) (h : 0 < m) :
    unpackedValue? (.finite .positive m e h) = some ((m * 2 ^ e : ℚ) : WithBotTop ℚ) := rfl

theorem unpackedValue?_negative (m : ℕ) (e : ℤ) (h : 0 < m) :
    unpackedValue? (.finite .negative m e h) = some ((-(m * 2 ^ e) : ℚ) : WithBotTop ℚ) := by
  simp [unpackedValue?, Parts.ofUnpacked, Parts.value?, signed]

theorem unpackedValue?_finite (s : UnpackedFloat.Sign) (m : ℕ) (e : ℤ) (h : 0 < m) :
    unpackedValue? (.finite s m e h) = some ((s.apply m * 2 ^ e : ℚ) : WithBotTop ℚ) := by
  cases s <;> rfl

theorem cmp_coe (r t : ℚ) : cmp (r : WithBotTop ℚ) (t : WithBotTop ℚ) = cmp r t :=
  WithBotTop.coe_strictMono.cmp_map_eq r t

theorem bot_lt_coe (r : ℚ) : ⊥ < (r : WithBotTop ℚ) := WithBot.bot_lt_coe _

theorem coe_lt_top (r : ℚ) : (r : WithBotTop ℚ) < ⊤ := WithBot.coe_lt_coe.mpr (WithTop.coe_lt_top r)

/-- Finite floats are compared by their signs, and those of one sign by their magnitudes. -/
theorem compare_finite (s t : UnpackedFloat.Sign) {e f : ℤ} (hm : 0 < m) (hn : 0 < n)
    (hmnormal : Normalized m e) (hnnormal : Normalized n f) :
    (UnpackedFloat.finite s m e hm).compare (.finite t n f hn) =
      Option.map₂ cmp (unpackedValue? (.finite s m e hm)) (unpackedValue? (.finite t n f hn)) := by
  have hcmp := hmnormal.cmp_eq hnnormal
  have hmpos : (0 : ℚ) < m * 2 ^ e := by positivity
  have hnpos : (0 : ℚ) < n * 2 ^ f := by positivity
  have hanti : StrictAnti fun r : ℚ => -r := fun _ _ h => neg_lt_neg h
  cases s with
  | negative =>
    rw [unpackedValue?_negative]
    cases t with
    | negative =>
      rw [unpackedValue?_negative, Option.map₂_some_some, cmp_coe, hanti.cmp_map_eq,
        ← cmp_swap, ← hcmp]
      rfl
    | positive =>
      rw [unpackedValue?_positive, Option.map₂_some_some, cmp_coe,
        ((neg_neg_of_pos hmpos).trans hnpos).cmp_eq_lt]
      rfl
  | positive =>
    rw [unpackedValue?_positive]
    cases t with
    | negative =>
      rw [unpackedValue?_negative, Option.map₂_some_some, cmp_coe,
        ((neg_neg_of_pos hnpos).trans hmpos).cmp_eq_gt]
      rfl
    | positive =>
      rw [unpackedValue?_positive, Option.map₂_some_some, cmp_coe, ← hcmp]
      rfl

/-- Unpacked floats are compared by their values. -/
theorem compare_eq_cmp (u v : UnpackedFloat) (hu : Canonical u) (hv : Canonical v) :
    u.compare v = Option.map₂ cmp (unpackedValue? u) (unpackedValue? v) := by
  have hpos : ∀ {m : ℕ} (e : ℤ), 0 < m → (0 : ℚ) < m * 2 ^ e := by
    intro m e h
    positivity
  cases u with
  | notANumber => rfl
  | infinity s =>
    cases v with
    | notANumber => cases s <;> rfl
    | infinity t => cases s <;> cases t <;> rfl
    | zero | finite =>
      cases s with
      | negative => exact congrArg some (bot_lt_coe _).cmp_eq_lt.symm
      | positive => exact congrArg some (coe_lt_top _).cmp_eq_gt.symm
  | zero s =>
    cases v with
    | notANumber => rfl
    | infinity t =>
      cases t with
      | negative => exact congrArg some (bot_lt_coe _).cmp_eq_gt.symm
      | positive => exact congrArg some (coe_lt_top _).cmp_eq_lt.symm
    | zero t =>
      rw [unpackedValue?_zero, unpackedValue?_zero]
      rfl
    | finite t n f hn =>
      rw [unpackedValue?_zero]
      cases t with
      | negative =>
        rw [unpackedValue?_negative, Option.map₂_some_some, cmp_coe,
          (neg_neg_of_pos (hpos f hn)).cmp_eq_gt]
        rfl
      | positive =>
        rw [unpackedValue?_positive, Option.map₂_some_some, cmp_coe, (hpos f hn).cmp_eq_lt]
        rfl
  | finite s m e hm =>
    cases v with
    | notANumber => rfl
    | infinity t =>
      cases t with
      | negative => exact congrArg some (bot_lt_coe _).cmp_eq_gt.symm
      | positive => exact congrArg some (coe_lt_top _).cmp_eq_lt.symm
    | zero t =>
      rw [unpackedValue?_zero]
      cases s with
      | negative =>
        rw [unpackedValue?_negative, Option.map₂_some_some, cmp_coe,
          (neg_neg_of_pos (hpos e hm)).cmp_eq_lt]
        rfl
      | positive =>
        rw [unpackedValue?_positive, Option.map₂_some_some, cmp_coe, (hpos e hm).cmp_eq_gt]
        rfl
    | finite t n f hn => exact compare_finite s t hm hn hu.1 hv.1

theorem canonical_unpack (x : Float) : Canonical x.toModel.unpack := by
  have hparts := parts_eq x
  cases hu : x.toModel.unpack with
  | finite s m e hm =>
    rw [hu] at hparts
    exact ⟨(finite_of_parts hparts).1, exponent_le_of_parts hparts⟩
  | _ => trivial

theorem value?_eq (x : Float) : value? x = unpackedValue? x.toModel.unpack := by
  rw [value?, parts_eq, unpackedValue?]

theorem compare_toModel (x y : Float) :
    x.toModel.unpack.compare y.toModel.unpack = Option.map₂ cmp (value? x) (value? y) := by
  rw [value?_eq, value?_eq, compare_eq_cmp _ _ (canonical_unpack x) (canonical_unpack y)]

/-- A float is below another one exactly when its value is. -/
theorem lt_iff : x < y ↔ ∃ u v, value? x = some u ∧ value? y = some v ∧ u < v := by
  change decide ((x.toModel.unpack.compare y.toModel.unpack == some .lt) = true) = true ↔ _
  rw [decide_eq_true_iff, beq_iff_eq, compare_toModel, Option.map₂_eq_some_iff]
  simp only [Option.mem_def, cmp_eq_lt_iff]

theorem le_iff : x ≤ y ↔ ∃ u v, value? x = some u ∧ value? y = some v ∧ u ≤ v := by
  change decide ((x.toModel.unpack.compare y.toModel.unpack).any Ordering.isLE = true) = true ↔ _
  have hle : ∀ u v : WithBotTop ℚ, (cmp u v).isLE = true ↔ u ≤ v := fun u v => by
    rw [← (cmp_compares u v).ne_gt, Ordering.isLE_iff_ne_gt]
  rw [decide_eq_true_iff, compare_toModel]
  cases value? x <;> cases value? y <;> simp [hle]

theorem beq_iff : (x == y) = true ↔ ∃ u v, value? x = some u ∧ value? y = some v ∧ u = v := by
  change (x.toModel.unpack.compare y.toModel.unpack == some .eq) = true ↔ _
  rw [beq_iff_eq, compare_toModel, Option.map₂_eq_some_iff]
  simp only [Option.mem_def, cmp_eq_eq_iff]

end Order

/-! ## Rounding to integers -/

section Integers
variable {x : Float} {r : ℚ} {n : ℤ}

/-- A number with an exponent that is not negative is an integer. -/
theorem scaled_eq_intCast (k : ℤ) {q : ℤ} (h : 0 ≤ q) :
    (k * 2 ^ q : ℚ) = ((k * 2 ^ q.toNat : ℤ) : ℚ) := by
  lift q to ℕ using h
  simp

/-- A number with a negative exponent is a quotient of integers. -/
theorem scaled_eq_div (k : ℤ) {q : ℤ} (h : ¬ 0 ≤ q) :
    (k * 2 ^ q : ℚ) = k / ((2 ^ (-q).toNat : ℕ) : ℚ) := by
  obtain ⟨e, rfl⟩ : ∃ e : ℕ, q = -e := ⟨(-q).toNat, by omega⟩
  simp [div_eq_mul_inv]

theorem fdiv_eq_floor (k : ℤ) (e : ℕ) : Int.fdiv k (2 ^ e) = ⌊(k / ((2 ^ e : ℕ) : ℚ))⌋ := by
  rw [Rat.floor_intCast_div_natCast, Int.fdiv_eq_ediv_of_nonneg _ (by positivity)]
  norm_cast

theorem finite_of_value? (h : value? x = some (r : WithBotTop ℚ)) :
    ∃ s m q, parts x = .finite s m q ∧ (signed s m * 2 ^ q : ℚ) = r := by
  unfold value? at h
  cases hparts : parts x with
  | nan => simp [hparts, Parts.value?] at h
  | infinite s =>
    rw [hparts] at h
    cases s
    · exact absurd (Option.some.inj h).symm (WithBotTop.coe_ne_top r)
    · exact absurd (Option.some.inj h).symm (WithBotTop.coe_ne_bot r)
  | finite s m q =>
    rw [hparts] at h
    exact ⟨s, m, q, rfl, WithBotTop.coe_injective (Option.some.inj h)⟩

theorem floorInt?_eq (h : value? x = some (r : WithBotTop ℚ)) : floorInt? x = some ⌊r⌋ := by
  obtain ⟨s, m, q, hparts, rfl⟩ := finite_of_value? h
  simp only [floorInt?, hparts, Int.pow_eq]
  split_ifs with hq
  · rw [scaled_eq_intCast _ hq, Int.floor_intCast]
  · rw [scaled_eq_div _ hq, fdiv_eq_floor]

theorem ceilInt?_eq (h : value? x = some (r : WithBotTop ℚ)) : ceilInt? x = some ⌈r⌉ := by
  obtain ⟨s, m, q, hparts, rfl⟩ := finite_of_value? h
  simp only [ceilInt?, hparts, Int.pow_eq]
  split_ifs with hq
  · rw [scaled_eq_intCast _ hq, Int.ceil_intCast]
  · rw [scaled_eq_div _ hq, fdiv_eq_floor, Int.cast_neg, neg_div, Int.floor_neg, neg_neg]

theorem signed_mul (s : Bool) (m k : ℕ) : signed s (m * k) = signed s m * k := by
  cases s <;> simp [signed]

theorem exactInt?_eq_some : exactInt? x = some n ↔ value? x = some ((n : ℚ) : WithBotTop ℚ) := by
  cases hparts : parts x with
  | nan => simp [exactInt?, value?, Parts.value?, hparts]
  | infinite s =>
    cases s <;>
      simp [exactInt?, value?, Parts.value?, hparts, (WithBotTop.coe_ne_top _).symm,
        (WithBotTop.coe_ne_bot _).symm]
  | finite s m q =>
    simp only [exactInt?, value?, Parts.value?, hparts, Int.pow_eq, Nat.pow_eq, Option.some.injEq,
      WithBotTop.coe_injective.eq_iff]
    split_ifs with hq hdvd
    · rw [scaled_eq_intCast _ hq, Option.some.injEq, Int.cast_inj]
    all_goals
      have hpos : 0 < 2 ^ (-q).toNat := by positivity
      rw [scaled_eq_div _ hq, div_eq_iff (by exact_mod_cast hpos.ne'), ← Int.cast_natCast,
        ← Int.cast_mul, Int.cast_inj]
    · have hsplit : signed s m = signed s (m / 2 ^ (-q).toNat) * ((2 ^ (-q).toNat : ℕ) : ℤ) := by
        rw [← signed_mul, Nat.div_mul_cancel (Nat.dvd_of_mod_eq_zero hdvd)]
      rw [Option.some.injEq, hsplit, Int.mul_eq_mul_right_iff (by exact_mod_cast hpos.ne')]
    · refine iff_of_false (by simp) fun h => hdvd ?_
      rw [← natAbs_signed s m, h, Int.natAbs_mul, Int.natAbs_natCast, Nat.mul_mod_left]

end Integers

theorem value?_zero : value? 0 = some ((0 : ℚ) : WithBotTop ℚ) := by
  have hparts : parts 0 = .finite false 0 (-1074) := by decide +kernel
  simp [value?, hparts, Parts.value?, signed]

theorem value?_eq_none_iff {x : Float} : value? x = none ↔ x.isNaN = true := by
  have hself : (x == x) = true ↔ value? x ≠ none := by
    rw [beq_iff, Option.ne_none_iff_exists']
    constructor
    · rintro ⟨u, -, hu, -⟩
      exact ⟨u, hu⟩
    · rintro ⟨u, hu⟩
      exact ⟨u, u, hu, hu, rfl⟩
  rw [Float.isNaN_eq_decide_eq_nan, decide_eq_true_iff, ← not_iff_not, ← Ne.eq_def,
    ← Ne.eq_def, ← hself, Float.beq_self_iff]

end Binary64

/-! ## Numbers -/

/-- The value of an integer among the values of floats. -/
abbrev intValue (n : Int64) : WithBotTop ℚ := ((n.toInt : ℚ) : WithBotTop ℚ)

/-- The value of a number: that of an integer, and that of a float unless it is NaN. -/
def Number.value? : Number → Option (WithBotTop ℚ)
  | .int n => some (intValue n)
  | .float x => Binary64.value? x

/-- Every integer of 64 bits lies on the same side of the value. -/
def Outside (v : WithBotTop ℚ) : Prop := (∀ n, intValue n < v) ∨ ∀ n, v < intValue n

/-- The integer to which a rational number is rounded, down unless asked to go up. -/
def IntRounding.round : IntRounding → ℚ → ℤ
  | .ceil, r => ⌈r⌉
  | _, r => ⌊r⌋

section Conversion
variable {mode : IntRounding} {x : Float} {v : WithBotTop ℚ}

theorem IntRounding.round_lt (mode : IntRounding) (r : ℚ) : mode.round r < r + 1 := by
  cases mode with
  | ceil => exact Int.ceil_lt_add_one r
  | _ => exact (Int.floor_le r).trans_lt (lt_add_one r)

theorem IntRounding.lt_round (mode : IntRounding) (r : ℚ) : r < mode.round r + 1 := by
  cases mode with
  | ceil => exact (Int.le_ceil r).trans_lt (lt_add_one _)
  | _ => exact Int.lt_floor_add_one r

theorem pos_iff : x > 0 ↔ ∃ v, Binary64.value? x = some v ∧ intValue 0 < v := by
  simp [Binary64.lt_iff, Binary64.value?_zero, intValue]

theorem neg_iff : x < 0 ↔ ∃ v, Binary64.value? x = some v ∧ v < intValue 0 := by
  simp [Binary64.lt_iff, Binary64.value?_zero, intValue]

theorem floatToInt?_nonfinite (h : ∀ r : ℚ, Binary64.value? x ≠ some (r : WithBotTop ℚ)) :
    floatToInt? mode x = none := by
  unfold Binary64.value? at h
  cases hparts : Binary64.parts x with
  | nan | infinite =>
    cases mode <;> simp [floatToInt?, Binary64.exactInt?, Binary64.floorInt?,
      Binary64.ceilInt?, hparts]
  | finite s m q => exact absurd (by rw [hparts]; rfl) (h (Binary64.signed s m * 2 ^ q))

theorem floatToInt?_eq {r : ℚ} (hmode : mode ≠ .exact)
    (h : Binary64.value? x = some (r : WithBotTop ℚ)) :
    floatToInt? mode x = int64OfInt? (mode.round r) := by
  cases mode with
  | exact => exact absurd rfl hmode
  | floor => simp [floatToInt?, Binary64.floorInt?_eq h, IntRounding.round]
  | ceil => simp [floatToInt?, Binary64.ceilInt?_eq h, IntRounding.round]

/-- A float is rounded to an integer next to it, unless every integer lies on the same side of
it. -/
theorem floatToInt?_cases (hmode : mode ≠ .exact) (h : Binary64.value? x = some v) :
    (∃ c r, floatToInt? mode x = some c ∧ v = ((r : ℚ) : WithBotTop ℚ) ∧ c.toInt = mode.round r) ∨
      floatToInt? mode x = none ∧ Outside v := by
  induction v using WithBotTop.rec with
  | bot =>
    refine .inr ⟨floatToInt?_nonfinite ?_, .inr fun n => Binary64.bot_lt_coe _⟩
    simp [h, (WithBotTop.coe_ne_bot _).symm]
  | top =>
    refine .inr ⟨floatToInt?_nonfinite ?_, .inl fun n => Binary64.coe_lt_top _⟩
    simp [h, (WithBotTop.coe_ne_top _).symm]
  | coe r =>
    rw [floatToInt?_eq hmode h]
    have hlow := mode.lt_round r
    have hhigh := mode.round_lt r
    simp only [Outside, WithBotTop.coe_lt_coe]
    cases hc : int64OfInt? (mode.round r) with
    | some c => exact .inl ⟨c, r, rfl, rfl, int64OfInt?_eq_some.mp hc⟩
    | none =>
      refine .inr ⟨rfl, ?_⟩
      have hrange : 2 ^ 63 ≤ mode.round r ∨ mode.round r < -2 ^ 63 := by
        by_contra hrange
        rw [not_or, not_le, not_lt] at hrange
        have := int64OfInt?_eq_some.mpr (Int64.toInt_ofInt_of_le hrange.2 hrange.1)
        rw [hc] at this
        cases this
      refine hrange.imp (fun hrange n => ?_) (fun hrange n => ?_)
      · have hn : ((n.toInt + 1 : ℤ) : ℚ) ≤ mode.round r := by
          exact_mod_cast n.toInt_lt.trans_le hrange
        push_cast at hn
        linarith
      · have hn : ((mode.round r + 1 : ℤ) : ℚ) ≤ n.toInt := by
          exact_mod_cast hrange.trans_le n.le_toInt
        push_cast at hn
        linarith

/-- A number is rounded to an integer next to it, unless it is a float with every integer on the
same side. -/
theorem Number.toInt?_cases {a : Number} (hmode : mode ≠ .exact) (h : a.value? = some v) :
    (∃ c r, a.toInt? mode = some c ∧ v = ((r : ℚ) : WithBotTop ℚ) ∧ c.toInt = mode.round r) ∨
      a.toInt? mode = none ∧ Outside v ∧ (a.toFloat > 0 ↔ intValue 0 < v) := by
  cases a with
  | int n =>
    refine .inl ⟨n, n.toInt, rfl, (Option.some.inj h).symm, ?_⟩
    cases mode <;> simp [IntRounding.round]
  | float x =>
    refine (floatToInt?_cases hmode h).imp_right fun hnone => ⟨hnone.1, hnone.2, ?_⟩
    rw [toFloat, pos_iff]
    have hx : Binary64.value? x = some v := h
    simp [hx]

end Conversion

end LuaMachine
