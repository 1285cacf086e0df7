import LuaMachine.Proofs.NearestRounding
import LuaMachine.Proofs.NumeralGrammar

/-!
# Hexadecimal floats

The digits of a hexadecimal float are gathered in a float, and the result is multiplied by a power
of two. If the number has a float, then no step rounds: the digits have at most 53 significant bits.
What can go wrong is the range. Many digits are infinite although a small power makes up for them,
the power is infinite or zero although the product has a float, and its exponent is cut to a word.
The numerals that are read right are those without any of these.
-/
namespace LuaMachine
namespace Binary64
open Float.Model Float.Model.UnpackedFloat

/-! ## Products and sums beyond the finite range -/

section Special
variable {x y : Float} {a b : ℚ}

theorem unpack_of_top (h : value? x = some ⊤) : x.toModel.unpack = .infinity .positive := by
  rw [value?_eq] at h
  cases hu : x.toModel.unpack with
  | notANumber => rw [hu] at h; cases h
  | infinity s =>
    cases s
    · rw [hu] at h
      exact absurd (Option.some.inj h) (by decide)
    · rfl
  | zero s =>
    rw [hu, unpackedValue?_zero] at h
    exact absurd (Option.some.inj h) (WithBotTop.coe_ne_top 0)
  | finite s m e hm =>
    rw [hu, unpackedValue?_finite] at h
    exact absurd (Option.some.inj h) (WithBotTop.coe_ne_top _)

theorem unpack_neg (x : Float) : (-x).toModel.unpack = x.toModel.unpack.neg := by
  have hcanonical := canonical_unpack x
  refine unpack_pack ?_
  cases hu : x.toModel.unpack with
  | finite s m e hm => rwa [hu] at hcanonical
  | _ => trivial

theorem value?_neg_eq_none : value? (-x) = none ↔ value? x = none := by
  rw [value?_eq, value?_eq, unpack_neg]
  cases x.toModel.unpack with
  | notANumber => exact iff_of_true rfl rfl
  | _ s => cases s <;> exact iff_of_false (Option.some_ne_none _) (Option.some_ne_none _)

theorem value?_neg_eq_some :
    value? (-x) = some ((-a : ℚ) : WithBotTop ℚ) ↔ value? x = some (a : WithBotTop ℚ) := by
  refine ⟨fun h => ?_, value?_neg⟩
  have htwice : value? (- -x) = value? x := by
    rw [value?_eq, unpack_neg, unpack_neg, value?_eq]
    cases x.toModel.unpack with
    | notANumber => rfl
    | _ s => cases s <;> rfl
  rw [← htwice, value?_neg h, neg_neg]

/-- Without the sign, the value of a float is that of a float. -/
theorem exists_value?_of_signed {s : Bool} {n : ℕ} {k : ℤ}
    (h : value? x = some ((signed s n * 2 ^ k : ℚ) : WithBotTop ℚ)) :
    ∃ y, value? y = some ((n * 2 ^ k : ℚ) : WithBotTop ℚ) := by
  cases s with
  | true =>
    have hneg := value?_neg h
    rw [signed, if_pos rfl, Int.cast_neg, neg_mul, neg_neg] at hneg
    exact ⟨-x, hneg⟩
  | false => exact ⟨x, h⟩

theorem value?_signed_eq_some (s : Bool) {n : ℕ} {k : ℤ} :
    value? (if s then -x else x) = some ((signed s n * 2 ^ k : ℚ) : WithBotTop ℚ) ↔
      value? x = some ((n * 2 ^ k : ℚ) : WithBotTop ℚ) := by
  refine ⟨fun h => ?_, value?_signed s⟩
  cases s with
  | true =>
    rw [signed, if_pos rfl, if_pos rfl, Int.cast_neg, neg_mul] at h
    exact value?_neg_eq_some.mp h
  | false => exact h

theorem value?_signed_eq_none (s : Bool) :
    value? (if s then -x else x) = none ↔ value? x = none := by
  cases s with
  | true => exact value?_neg_eq_none
  | false => rfl

/-- A product of which the factors are not both finite and positive. -/
theorem value?_mul_of_unpack {u v : UnpackedFloat} (hx : x.toModel.unpack = u)
    (hy : y.toModel.unpack = v) (h : Canonical (UnpackedFloat.mul Format.binary64 u v)) :
    value? (x * y) = unpackedValue? (UnpackedFloat.mul Format.binary64 u v) := by
  change value? (.ofModel (Float.Model.pack
    (UnpackedFloat.mul Format.binary64 x.toModel.unpack y.toModel.unpack))) = _
  rw [hx, hy, value?_pack h]

theorem value?_mul_zero (hx : value? x = some (a : WithBotTop ℚ))
    (hy : value? y = some (b : WithBotTop ℚ)) (ha : 0 ≤ a) (hb : 0 ≤ b) (hzero : a = 0 ∨ b = 0) :
    value? (x * y) = some ((0 : ℚ) : WithBotTop ℚ) := by
  rcases ha.eq_or_lt with rfl | hapos
  · obtain ⟨s, hux⟩ := unpack_of_zero hx
    rcases hb.eq_or_lt with rfl | hbpos
    · obtain ⟨t, huy⟩ := unpack_of_zero hy
      exact (value?_mul_of_unpack hux huy trivial).trans (unpackedValue?_zero _)
    · obtain ⟨n, f, hn, huy, -⟩ := unpack_of_pos hy hbpos
      exact (value?_mul_of_unpack hux huy trivial).trans (unpackedValue?_zero _)
  · obtain rfl : b = 0 := hzero.resolve_left hapos.ne'
    obtain ⟨m, e, hm, hux, -⟩ := unpack_of_pos hx hapos
    obtain ⟨t, huy⟩ := unpack_of_zero hy
    exact (value?_mul_of_unpack hux huy trivial).trans (unpackedValue?_zero _)

theorem value?_top_mul (hx : value? x = some ⊤) (hy : value? y = some (b : WithBotTop ℚ))
    (hb : 0 < b) : value? (x * y) = some ⊤ := by
  obtain ⟨n, f, hn, huy, -⟩ := unpack_of_pos hy hb
  exact value?_mul_of_unpack (unpack_of_top hx) huy trivial

theorem value?_mul_top (hx : value? x = some (a : WithBotTop ℚ)) (hy : value? y = some ⊤)
    (ha : 0 < a) : value? (x * y) = some ⊤ := by
  obtain ⟨m, e, hm, hux, -⟩ := unpack_of_pos hx ha
  exact value?_mul_of_unpack hux (unpack_of_top hy) trivial

theorem value?_top_mul_top (hx : value? x = some ⊤) (hy : value? y = some ⊤) :
    value? (x * y) = some ⊤ :=
  value?_mul_of_unpack (unpack_of_top hx) (unpack_of_top hy) trivial

theorem value?_zero_mul_top (hx : value? x = some ((0 : ℚ) : WithBotTop ℚ))
    (hy : value? y = some ⊤) : value? (x * y) = none := by
  obtain ⟨s, hux⟩ := unpack_of_zero hx
  exact value?_mul_of_unpack hux (unpack_of_top hy) trivial

theorem value?_top_mul_zero (hx : value? x = some ⊤)
    (hy : value? y = some ((0 : ℚ) : WithBotTop ℚ)) : value? (x * y) = none := by
  obtain ⟨t, huy⟩ := unpack_of_zero hy
  exact value?_mul_of_unpack (unpack_of_top hx) huy trivial

theorem value?_top_add (hx : value? x = some ⊤) (hy : value? y = some (b : WithBotTop ℚ))
    (hb : 0 ≤ b) : value? (x + y) = some ⊤ := by
  change value? (.ofModel (Float.Model.pack
    (UnpackedFloat.add Format.binary64 x.toModel.unpack y.toModel.unpack))) = _
  rw [unpack_of_top hx]
  rcases hb.eq_or_lt with rfl | hbpos
  · obtain ⟨t, huy⟩ := unpack_of_zero hy
    rw [huy]
    exact value?_pack_infinity
  · obtain ⟨n, f, hn, huy, -⟩ := unpack_of_pos hy hbpos
    rw [huy]
    exact value?_pack_infinity

end Special

/-! ## Integers with few significant bits -/

/-- The integer has at most 53 significant bits. -/
def Fits (n : ℕ) : Prop := ∃ m k, m < 2 ^ 53 ∧ n = m * 2 ^ k

section Fitting
variable {n : ℕ}

theorem Fits.mul_sixteen (h : Fits n) : Fits (n * 16) := by
  obtain ⟨m, k, hm, rfl⟩ := h
  exact ⟨m, k + 4, hm, by ring⟩

/-- Leaving off the last digit leaves off bits. -/
theorem Fits.of_push {d : ℕ} (h : Fits (n * 16 + d)) (hd : d < 16) : Fits n := by
  obtain ⟨m, k, hm, heq⟩ := h
  rcases le_or_gt 4 k with hk | hk
  · obtain ⟨j, rfl⟩ := Nat.exists_eq_add_of_le' hk
    refine ⟨m, j, hm, ?_⟩
    rw [pow_add, ← mul_assoc] at heq
    omega
  · have hpow : 2 ^ k ≤ 2 ^ 3 := Nat.pow_le_pow_right two_pos (by omega)
    have hle : m * 2 ^ k ≤ m * 2 ^ 3 := Nat.mul_le_mul_left m hpow
    exact ⟨n, 0, by omega, by ring⟩

/-- A multiple of a power of two that is a multiple of another one by few bits. -/
theorem Fits.of_scaled {m : ℕ} {q s : ℤ} (hm : m < 2 ^ 53) (h : (n * 2 ^ s : ℚ) = m * 2 ^ q) :
    Fits n := by
  rcases le_or_gt s q with hle | hlt
  · obtain ⟨k, rfl⟩ : ∃ k : ℕ, q = k + s := ⟨(q - s).toNat, by omega⟩
    refine ⟨m, k, hm, ?_⟩
    rw [zpow_add₀ two_ne_zero, ← mul_assoc, zpow_natCast, mul_left_inj' (by positivity)] at h
    exact_mod_cast h
  · obtain ⟨k, rfl⟩ : ∃ k : ℕ, s = k + q := ⟨(s - q).toNat, by omega⟩
    rw [zpow_add₀ two_ne_zero, ← mul_assoc, zpow_natCast, mul_left_inj' (by positivity)] at h
    have hmul : n * 2 ^ k = m := by exact_mod_cast h
    exact ⟨n, 0, (Nat.le_mul_of_pos_right n (Nat.two_pow_pos k)).trans_lt (hmul ▸ hm), by ring⟩

theorem Fits.of_value? {s : ℤ} {x : Float} (h : value? x = some ((n * 2 ^ s : ℚ) : WithBotTop ℚ)) :
    Fits n := by
  rcases Nat.eq_zero_or_pos n with rfl | hn
  · exact ⟨0, 0, by norm_num, by norm_num⟩
  · have hcast : (0 : ℚ) < n := by exact_mod_cast hn
    obtain ⟨m, q, -, -, hnormal, -, hvalue⟩ := unpack_of_pos h (by positivity)
    exact .of_scaled hnormal.mantissa hvalue

/-- Such an integer has a float if it is in range. -/
theorem Fits.normalized (h : Fits n) (hpos : 0 < n) (hn : (n : ℚ) < 2 ^ (1024 : ℤ)) :
    ∃ m q, Normalized m q ∧ 0 < m ∧ q ≤ 971 ∧ (n : ℚ) = m * 2 ^ q := by
  obtain ⟨m, k, hm, rfl⟩ := h
  obtain ⟨p, q, hnormal, -, hvalue, -⟩ := ofParts_eq false (q := k) hm (by omega)
  rw [zpow_natCast] at hvalue
  have heq : ((m * 2 ^ k : ℕ) : ℚ) = p * 2 ^ q := by
    rw [hvalue]
    push_cast
    rfl
  refine ⟨p, q, hnormal, ?_, ?_, heq⟩
  · rcases Nat.eq_zero_or_pos p with rfl | hp
    · rw [Nat.cast_zero, zero_mul, Nat.cast_eq_zero] at heq
      omega
    · exact hp
  · exact hnormal.exponent_le (heq ▸ hn)

/-- Rounding such an integer loses nothing, unless it is beyond the range. -/
theorem Rounded.value?_of_fits {x : Float} (h : Rounded n x) (hfits : Fits n) (hpos : 0 < n) :
    value? x = some (limited n) := by
  rcases lt_or_ge (n : ℚ) (2 ^ (1024 : ℤ)) with hlt | hle
  · obtain ⟨m, q, hnormal, hm, hq, heq⟩ := hfits.normalized hpos hlt
    rw [limited_of_lt hlt, h.value?_of_eq hnormal hm hq heq]
  · rw [limited_of_le hle, h.value?_of_overflow hle]

end Fitting

/-! ## Powers of two -/

theorem value?_infinity : value? infinity = some ⊤ := by
  have hparts : parts infinity = .infinite false := by decide +kernel
  rw [value?, hparts]
  rfl

theorem value?_twoPow (n : ℤ) : value? (twoPow n) = some (if 1024 ≤ n then ⊤
    else if n ≤ -1024 then ((0 : ℚ) : WithBotTop ℚ) else ((2 ^ n : ℚ) : WithBotTop ℚ)) := by
  unfold twoPow
  split_ifs with hhigh hlow
  · exact value?_infinity
  · exact value?_zero
  · obtain ⟨m, q, hnormal, -, hvalue, hbits⟩ :=
      ofParts_eq false (m := 1) (q := n) (by norm_num) (by omega)
    rw [Nat.cast_one, one_mul] at hvalue
    have hq : q ≤ 971 := by
      refine hnormal.exponent_le ?_
      rw [hvalue]
      exact zpow_lt_zpow_right₀ one_lt_two (not_le.mp hhigh)
    rw [hbits, value?, parts_packed false hnormal hq, Parts.value?, signed,
      if_neg Bool.false_ne_true, Int.cast_natCast, hvalue]

/-- An integer is not the nearest one to half or twice itself. -/
theorem Nearest.exponent_eq_zero {r : ℕ} {k : ℤ} (h : Nearest (r * 2 ^ k) r) (hr : 0 < r) :
    k = 0 := by
  obtain ⟨j, rfl⟩ : ∃ j, r = j + 1 := ⟨r - 1, by omega⟩
  have hcast : (1 : ℚ) ≤ (j + 1 : ℕ) := by exact_mod_cast hr
  rcases lt_trichotomy k 0 with hneg | hzero | hpos
  · have hhalf : (2 : ℚ) ^ k ≤ 1 / 2 := by
      calc (2 : ℚ) ^ k ≤ 2 ^ (-1 : ℤ) := zpow_le_zpow_right₀ one_le_two (by omega)
        _ = 1 / 2 := by norm_num
    have hle : ((j + 1 : ℕ) : ℚ) * 2 ^ k ≤ (j + 1 : ℕ) * (1 / 2) := by gcongr
    push_cast at hle hcast h
    rcases (h j).mp (by omega) with hlt | ⟨heq, hodd⟩
    · linarith
    · have hzero : (j : ℚ) ≤ 0 := by linarith
      have : j = 0 := by exact_mod_cast le_antisymm hzero (Nat.cast_nonneg j)
      omega
  · exact hzero
  · have htwo : (2 : ℚ) ≤ 2 ^ k := by
      calc (2 : ℚ) = 2 ^ (1 : ℤ) := (zpow_one 2).symm
        _ ≤ 2 ^ k := zpow_le_zpow_right₀ one_le_two (by omega)
    have hle : ((j + 1 : ℕ) : ℚ) * 2 ≤ (j + 1 : ℕ) * 2 ^ k := by gcongr
    exact absurd ((h (j + 1)).mpr (.inl (by linarith))) (lt_irrefl _)

theorem eq_of_limited {v w : ℚ} (h : limited v = (w : WithBotTop ℚ)) : v = w := by
  rcases lt_or_ge v (2 ^ (1024 : ℤ)) with hlt | hle
  · rw [limited_of_lt hlt] at h
    exact WithBotTop.coe_injective h
  · rw [limited_of_le hle] at h
    exact absurd h.symm (WithBotTop.coe_ne_top w)

/-- A product with another power of two than the one in the value is not rounded to the value. -/
theorem Rounded.exponent_eq {n : ℕ} {s t : ℤ} {x : Float} (h : Rounded (n * 2 ^ t) x) (hn : 0 < n)
    (hx : value? x = some ((n * 2 ^ s : ℚ) : WithBotTop ℚ)) : t = s := by
  obtain ⟨u, r, -, hnearest, hvalue⟩ := h
  rw [hvalue] at hx
  have heq : (r * 2 ^ u : ℚ) = n * 2 ^ s := eq_of_limited (Option.some.inj hx)
  have hr : 0 < r := by
    rcases Nat.eq_zero_or_pos r with rfl | hr
    · rw [Nat.cast_zero, zero_mul] at heq
      exact absurd heq (by positivity)
    · exact hr
  have hscaled : (n * 2 ^ t / 2 ^ u : ℚ) = r * 2 ^ (t - s) := by
    rw [zpow_sub₀ two_ne_zero, div_eq_iff (by positivity)]
    calc (n * 2 ^ t : ℚ) = n * 2 ^ s * (2 ^ t / 2 ^ s) := by field_simp
      _ = r * 2 ^ u * (2 ^ t / 2 ^ s) := by rw [heq]
      _ = r * (2 ^ t / 2 ^ s) * 2 ^ u := by ring
  rw [hscaled] at hnearest
  have := hnearest.exponent_eq_zero hr
  omega

end Binary64

namespace Numeral
open Binary64

/-! ## Gathering digits -/

theorem value?_sixteen : value? 16 = some ((16 : ℚ) : WithBotTop ℚ) := by
  have hexact : exactInt? 16 = some 16 := by decide +kernel
  have h := exactInt?_eq_some.mp hexact
  push_cast at h
  exact h

/-- Making room for a digit does not round. -/
theorem value?_mul_sixteen {acc : Float} {n : ℕ} (hfits : Fits n)
    (hacc : value? acc = some (limited n)) : value? (acc * 16) = some (limited (n * 16 : ℕ)) := by
  rcases lt_or_ge (n : ℚ) (2 ^ (1024 : ℤ)) with hlt | hle
  · rw [limited_of_lt hlt] at hacc
    rcases Nat.eq_zero_or_pos n with rfl | hpos
    · rw [Nat.cast_zero] at hacc
      rw [value?_mul_zero hacc value?_sixteen le_rfl (by norm_num) (.inl rfl), zero_mul,
        Nat.cast_zero, limited_of_lt (by positivity)]
    · have hround := mul_rounded hacc value?_sixteen (by exact_mod_cast hpos) (by norm_num)
      rw [show (n * 16 : ℚ) = (n * 16 : ℕ) by push_cast; rfl] at hround
      exact hround.value?_of_fits hfits.mul_sixteen (by omega)
  · rw [limited_of_le hle] at hacc
    rw [value?_top_mul hacc value?_sixteen (by norm_num), limited_of_le]
    exact hle.trans (by exact_mod_cast Nat.le_mul_of_pos_right n (by norm_num))

/-- One more digit is added without rounding, until the range is left. -/
theorem value?_pushHexDigit {acc : Float} {n : ℕ} (d : Digit .hexadecimal)
    (hfits : Fits (n * 16 + d.value)) (hacc : value? acc = some (limited n)) :
    value? (pushHexDigit acc d.byte) = some (limited (n * 16 + d.value : ℕ)) := by
  have hdigit : value? (UInt64.ofNat (hexValue d.byte)).toFloat =
      some ((d.value.val : ℚ) : WithBotTop ℚ) := by
    have hlt := d.value_lt
    have hword : (UInt64.ofNat (hexValue d.byte)).toNat = d.value := by
      rw [hexValue_byte, UInt64.toNat_ofNat']
      omega
    rw [value?_toFloat (by omega), hword, Int.cast_natCast]
  have hscaled := value?_mul_sixteen (hfits.of_push d.value_lt) hacc
  unfold pushHexDigit
  rcases lt_or_ge ((n * 16 : ℕ) : ℚ) (2 ^ (1024 : ℤ)) with hlt | hle
  · rw [limited_of_lt hlt] at hscaled
    by_cases hzero : n * 16 = 0 ∨ d.value.val = 0
    · rw [value?_add_zero hscaled hdigit (Nat.cast_nonneg _) (Nat.cast_nonneg _)
        (by exact_mod_cast hzero), limited_of_lt, Nat.cast_add]
      rcases hzero with hzero | hzero
      · have hsmall : ((d.value.val : ℕ) : ℚ) < 16 := by exact_mod_cast d.value_lt
        rw [hzero, zero_add]
        calc ((d.value.val : ℕ) : ℚ) < 16 := hsmall
          _ = 2 ^ (4 : ℤ) := by norm_num
          _ ≤ 2 ^ (1024 : ℤ) := zpow_le_zpow_right₀ one_le_two (by norm_num)
      · rwa [hzero, add_zero]
    · obtain ⟨hpos, hdpos⟩ := not_or.mp hzero
      have hround := add_rounded hscaled hdigit (by exact_mod_cast Nat.pos_of_ne_zero hpos)
        (by exact_mod_cast Nat.pos_of_ne_zero hdpos)
      rw [← Nat.cast_add] at hround
      exact hround.value?_of_fits hfits (by omega)
  · rw [limited_of_le hle] at hscaled
    rw [value?_top_add hscaled hdigit (Nat.cast_nonneg _), limited_of_le]
    exact hle.trans (by exact_mod_cast Nat.le_add_right _ _)

theorem valueOf_concat {b : Base} (ds : List (Digit b)) (d : Digit b) :
    valueOf (ds ++ [d]) = valueOf ds * b.radix + d.value := by
  simp only [valueOf, List.reverse_append, List.reverse_singleton, List.singleton_append,
    List.map_cons, Nat.ofDigits_cons]
  ring

/-- The digits of a number with at most 53 significant bits are gathered without rounding. -/
theorem value?_gathered (ds : List (Digit .hexadecimal)) (h : Fits (valueOf ds)) :
    value? ((textOf ds).foldl pushHexDigit 0) = some (limited (valueOf ds)) := by
  induction ds using List.reverseRecOn with
  | nil =>
    rw [valueOf, List.reverse_nil, List.map_nil, Nat.ofDigits_nil, Nat.cast_zero,
      limited_of_lt (by positivity)]
    exact value?_zero
  | append_singleton ds d ih =>
    have hvalue : valueOf (ds ++ [d]) = valueOf ds * 16 + d.value := valueOf_concat ds d
    rw [hvalue] at h ⊢
    rw [textOf, List.map_append, List.foldl_append]
    exact value?_pushHexDigit d h (ih (h.of_push d.value_lt))

/-! ## The value of a numeral -/

namespace Unsigned

/-- All digits, those after the point included. -/
def digits {b : Base} (u : Unsigned b) : List (Digit b) :=
  u.mantissa.whole ++ u.mantissa.fraction.getD []

/-- How many digits there are after the point. -/
def places {b : Base} (u : Unsigned b) : ℕ :=
  (u.mantissa.fraction.getD []).length

/-- The exponent, which is zero if none is written. -/
def power {b : Base} (u : Unsigned b) : ℤ :=
  u.exponent.elim 0 fun e => signed e.sign.negative (valueOf e.digits)

/-- The number that a hexadecimal numeral stands for. -/
def hexValue (negative : Bool) (u : Unsigned .hexadecimal) : ℚ :=
  signed negative (valueOf u.digits) * 16 ^ (-(u.places : ℤ)) * 2 ^ u.power

/-- The power of two that the digits have to be multiplied with, without the point between them. -/
def scale (u : Unsigned .hexadecimal) : ℤ :=
  u.power - 4 * u.places

/-- The power of two that the reader multiplies with. -/
def readScale (u : Unsigned .hexadecimal) : ℤ :=
  hexScale u.places u.power

theorem hexValue_eq (negative : Bool) (u : Unsigned .hexadecimal) :
    u.hexValue negative = signed negative (valueOf u.digits) * 2 ^ u.scale := by
  have hsixteen : (16 : ℚ) ^ (-(u.places : ℤ)) = 2 ^ (-(4 * u.places : ℤ)) := by
    rw [← mul_neg, zpow_mul]
    norm_num
  rw [hexValue, scale, sub_eq_neg_add, zpow_add₀ two_ne_zero, hsixteen, mul_assoc]

theorem hexNumber_pieces {u : Unsigned .hexadecimal} (h : ¬ u.Plain) :
    hexNumber u.pieces = .float ((textOf u.digits).foldl pushHexDigit 0 * twoPow u.readScale) := by
  have hfraction : (u.mantissa.fraction.map textOf).getD [] =
      textOf (u.mantissa.fraction.getD []) := by
    cases u.mantissa.fraction <;> rfl
  have hpower : (u.exponent.map Exponent.value).getD 0 = u.power := by
    unfold power
    cases u.exponent with
    | none => rfl
    | some e => exact congrArg (signed e.sign.negative) (digitsValue_textOf e.digits)
  rw [plain_iff] at h
  unfold hexNumber
  split
  · next hf he => exact absurd ⟨hf, he⟩ h
  · simp only [Unsigned.pieces, hfraction, hpower, readScale, digits, places, textOf,
      List.map_append, List.length_map]

end Unsigned

/-! ## Scaling -/

section Scaling
variable {x y : Float} {n : ℕ} {s t : ℤ}

theorem value?_zero_scaled (hx : value? x = some ((0 : ℚ) : WithBotTop ℚ)) (t : ℤ) :
    value? (x * twoPow t) = if t < 1024 then some ((0 : ℚ) : WithBotTop ℚ) else none := by
  have hpower := value?_twoPow t
  split_ifs at hpower ⊢ with hlt hlow
  · omega
  · exact value?_mul_zero hx hpower le_rfl le_rfl (.inl rfl)
  · exact value?_mul_zero hx hpower le_rfl (by positivity) (.inl rfl)
  · exact value?_zero_mul_top hx hpower
  · omega
  · omega

theorem value?_top_scaled (hx : value? x = some ⊤) (t : ℤ) :
    value? (x * twoPow t) = if t ≤ -1024 then none else some ⊤ := by
  have hpower := value?_twoPow t
  split_ifs at hpower ⊢ with hlow hhigh
  · omega
  · exact value?_top_mul_zero hx hpower
  · exact value?_top_mul_top hx hpower
  · exact value?_top_mul hx hpower (by positivity)

/-- A positive integer is scaled right exactly by the right power, unless this one has no float. -/
theorem value?_scaled (hx : value? x = some ((n : ℚ) : WithBotTop ℚ)) (hn : 0 < n)
    (hy : value? y = some ((n * 2 ^ s : ℚ) : WithBotTop ℚ)) :
    (value? (x * twoPow t) = some ((n * 2 ^ s : ℚ) : WithBotTop ℚ) ↔ t = s ∧ -1024 < s) ∧
      value? (x * twoPow t) ≠ none := by
  have hcast : (1 : ℚ) ≤ n := by exact_mod_cast hn
  obtain ⟨m, q, hm, -, hnormal, hq, hvalue⟩ := unpack_of_pos hy (by positivity)
  have hs : s < 1024 := by
    refine lt_of_zpow_lt ?_
    calc (2 : ℚ) ^ s ≤ n * 2 ^ s := le_mul_of_one_le_left (by positivity) hcast
      _ = m * 2 ^ q := hvalue
      _ < 2 ^ (1024 : ℤ) := hnormal.lt_overflow hq
  have hpower := value?_twoPow t
  split_ifs at hpower with hhigh hlow
  · rw [value?_mul_top hx hpower (by positivity)]
    refine ⟨iff_of_false ?_ (by omega), Option.some_ne_none _⟩
    exact fun h => WithBotTop.coe_ne_top _ (Option.some.inj h).symm
  · rw [value?_mul_zero hx hpower (by positivity) le_rfl (.inr rfl)]
    refine ⟨iff_of_false ?_ (by omega), Option.some_ne_none _⟩
    intro h
    have hzero : (0 : ℚ) = n * 2 ^ s := WithBotTop.coe_injective (Option.some.inj h)
    exact absurd hzero (by positivity)
  · have hround := mul_rounded hx hpower (by positivity) (by positivity)
    refine ⟨⟨fun h => ?_, ?_⟩, ?_⟩
    · have heq := hround.exponent_eq hn h
      exact ⟨heq, by omega⟩
    · rintro ⟨rfl, -⟩
      exact hround.value?_of_eq hnormal hm hq hvalue
    · obtain ⟨u, r, -, -, hsome⟩ := hround
      rw [hsome]
      exact Option.some_ne_none _

/-- Gathered digits are scaled to their value exactly when they are in range, the power is the right
one and it has a float itself. For zero it is enough that the power is finite. -/
theorem value?_scaled_iff (hx : value? x = some (limited n))
    (hy : value? y = some ((n * 2 ^ s : ℚ) : WithBotTop ℚ)) (t : ℤ) :
    (value? (x * twoPow t) = some ((n * 2 ^ s : ℚ) : WithBotTop ℚ) ↔
      (n : ℚ) < 2 ^ (1024 : ℤ) ∧ if n = 0 then t < 1024 else t = s ∧ -1024 < s) ∧
    (value? (x * twoPow t) = none ↔ n = 0 ∧ 1024 ≤ t ∨ 2 ^ (1024 : ℤ) ≤ (n : ℚ) ∧ t ≤ -1024) := by
  rcases lt_or_ge (n : ℚ) (2 ^ (1024 : ℤ)) with hlt | hle
  · rw [limited_of_lt hlt] at hx
    simp only [hlt, hlt.not_ge, true_and, false_and, or_false]
    rcases Nat.eq_zero_or_pos n with rfl | hn
    · rw [Nat.cast_zero] at hx
      rw [value?_zero_scaled hx, if_pos rfl]
      split_ifs with ht
      · simp [ht]
      · simp [ht, not_lt.mp ht]
    · obtain ⟨hiff, hsome⟩ := value?_scaled (t := t) hx hn hy
      rw [if_neg hn.ne', hiff]
      exact ⟨Iff.rfl, iff_of_false hsome fun h => hn.ne' h.1⟩
  · have hn : n ≠ 0 := by
      rintro rfl
      exact absurd hle (by rw [Nat.cast_zero]; exact not_le.mpr (by positivity))
    rw [limited_of_le hle] at hx
    rw [value?_top_scaled hx]
    simp only [hle.not_gt, hle, hn, true_and, false_and, false_or, iff_false]
    split_ifs with ht
    · simp [ht]
    · simp [ht, (WithBotTop.coe_ne_top _).symm]

end Scaling

/-- A hexadecimal numeral with a point or an exponent is a float. If its value has a float, this is
the result exactly when the digits alone are below `2 ^ 1024` and the power of two that the reader
makes of point and exponent is neither cut off nor zero; for zero it need only not be infinite.
Otherwise the result may even be NaN. -/
theorem hexadecimal_exact_iff (w : Written) {capital : Bool} {u : Unsigned .hexadecimal}
    (hbody : w.body = .hexadecimal capital u) (hfloat : ¬ u.Plain) {y : Float}
    (hy : value? y = some (u.hexValue w.sign.negative : WithBotTop ℚ)) :
    ∃ x, read w.text = some (.float x) ∧
      (value? x = some (u.hexValue w.sign.negative : WithBotTop ℚ) ↔
        valueOf u.digits < 2 ^ 1024 ∧
          if valueOf u.digits = 0 then u.readScale < 1024 else u.readScale = u.scale ∧
            -1024 < u.scale) ∧
      (x.isNaN = true ↔ valueOf u.digits = 0 ∧ 1024 ≤ u.readScale ∨
        2 ^ 1024 ≤ valueOf u.digits ∧ u.readScale ≤ -1024) := by
  have hnumber : w.number = .float (if w.sign.negative then
      -((textOf u.digits).foldl pushHexDigit 0 * twoPow u.readScale)
      else (textOf u.digits).foldl pushHexDigit 0 * twoPow u.readScale) := by
    rw [Written.number, hbody, Body.number, Unsigned.hexNumber_pieces hfloat]
    cases w.sign.negative <;> rfl
  have hrange : (2 : ℚ) ^ (1024 : ℤ) = (2 ^ 1024 : ℕ) := by
    rw [Nat.cast_pow]
    rfl
  rw [Unsigned.hexValue_eq] at hy ⊢
  obtain ⟨z, hz⟩ := exists_value?_of_signed hy
  obtain ⟨hexact, hnan⟩ :=
    value?_scaled_iff (value?_gathered u.digits (.of_value? hz)) hz u.readScale
  rw [hrange, Nat.cast_lt] at hexact
  rw [hrange, Nat.cast_le] at hnan
  refine ⟨_, (read_text w).trans (congrArg some hnumber), ?_, ?_⟩
  · rw [value?_signed_eq_some, hexact]
  · rw [← value?_eq_none_iff, value?_signed_eq_none, hnan]

/-- The numeral `0x0p1024` is zero. It is read as NaN. -/
theorem hexadecimal_exact_iff_zero :
    ∃ x, read [48, 120, 48, 112, 49, 48, 50, 52] = some (.float x) ∧
    value? x ≠ some ((0 : ℚ) : WithBotTop ℚ) ∧ x.isNaN = true := by
  let digit (n : ℕ) (h : n < 10) : Digit .decimal := ⟨⟨n, h⟩, false⟩
  let zero : Digit .hexadecimal := ⟨⟨0, by decide⟩, false⟩
  let exponent : Exponent :=
    ⟨false, .none, digit 1 (by decide),
      [digit 0 (by decide), digit 2 (by decide), digit 4 (by decide)]⟩
  let u : Unsigned .hexadecimal := ⟨.digits zero [] none, some exponent⟩
  have hzero : valueOf u.digits = 0 := by decide
  have hscale : u.readScale = 1024 := by decide
  have hvalue : u.hexValue false = 0 := by
    rw [Unsigned.hexValue_eq, hzero]
    simp [signed]
  obtain ⟨x, hread, hexact, hnan⟩ := hexadecimal_exact_iff ⟨[], .none, .hexadecimal false u, []⟩ rfl
    (fun h => absurd h.2 (by simp [u])) (y := 0) (value?_zero.trans (by rw [← hvalue]; rfl))
  refine ⟨x, hread, ?_, hnan.mpr (.inl ⟨hzero, hscale.ge⟩)⟩
  intro h
  have hright := (hexact.mp (h.trans (by rw [← hvalue]; rfl))).2
  rw [if_pos hzero, hscale] at hright
  exact lt_irrefl _ hright

end Numeral
end LuaMachine
