import LuaMachine.Binary64.Shortest
import LuaMachine.Proofs.NearestRounding

/-!
# The shortest decimal is rounded to its float

The search for the shortest decimal compares natural numbers over a common denominator. Its tests
say what they should of rational numbers: the decimal lies in the interval of the values that are
rounded to the float. The grid of seventeen digits is finer than any of these intervals is wide, so
the search always ends with a decimal that reads back.
-/
namespace LuaMachine.Binary64

/-! ## Powers with a common denominator -/

/-- A power with an integer exponent as a quotient of powers with natural ones. -/
theorem pow_toNat_eq {b : ℚ} (hb : b ≠ 0) (k : ℤ) : b ^ k.toNat = b ^ k * b ^ (-k).toNat := by
  rw [← zpow_natCast, ← zpow_natCast, ← zpow_add₀ hb]
  congr 1
  omega

/-! ## The interval -/

section Intervals
variable {m d : ℕ} {q k : ℤ}

/-- A decimal in quarters of the unit of a float, over the denominator that it is compared in. -/
theorem decimal_cross_eq (d : ℕ) (q k : ℤ) :
    ((d * 10 ^ k.toNat * (4 * 2 ^ (-q).toNat) : ℕ) : ℚ) =
      d * 10 ^ k / 2 ^ q * (4 * 2 ^ q.toNat * 10 ^ (-k).toNat) := by
  push_cast
  rw [pow_toNat_eq two_ne_zero q, pow_toNat_eq (by norm_num) k]
  field_simp

theorem quarters_cross_eq (a : ℕ) (q k : ℤ) :
    ((a * 2 ^ q.toNat * 10 ^ (-k).toNat : ℕ) : ℚ) =
      a / 4 * (4 * 2 ^ q.toNat * 10 ^ (-k).toNat) := by
  push_cast
  ring

theorem quarters_le_iff (a : ℕ) :
    a * 2 ^ q.toNat * 10 ^ (-k).toNat ≤ d * 10 ^ k.toNat * (4 * 2 ^ (-q).toNat) ↔
    (a / 4 : ℚ) ≤ d * 10 ^ k / 2 ^ q := by
  rw [← Nat.cast_le (α := ℚ), quarters_cross_eq, decimal_cross_eq,
    mul_le_mul_iff_left₀ (by positivity)]

theorem le_quarters_iff (a : ℕ) :
    d * 10 ^ k.toNat * (4 * 2 ^ (-q).toNat) ≤ a * 2 ^ q.toNat * 10 ^ (-k).toNat ↔
    (d * 10 ^ k / 2 ^ q : ℚ) ≤ a / 4 := by
  rw [← Nat.cast_le (α := ℚ), quarters_cross_eq, decimal_cross_eq,
    mul_le_mul_iff_left₀ (by positivity)]

/-- The test for the interval compares the decimal with the ends of the interval around the
float. -/
theorem contains_iff (hm : 0 < m) :
    (roundingInterval m q).contains d k = true ↔ Encloses m q (d * 10 ^ k) := by
  obtain ⟨below, hbelow⟩ : ∃ below, (if m = 2 ^ 52 ∧ -1074 < q then 1 else 2) = below := ⟨_, rfl⟩
  have hgap : gapBelow m q = below / 4 := by
    rw [gapBelow, ← hbelow]
    split_ifs <;> norm_num
  have hlow : (m - gapBelow m q : ℚ) = (4 * m - below : ℕ) / 4 := by
    have hle : below ≤ 4 * m := by
      rw [← hbelow]
      split_ifs <;> omega
    rw [hgap, Nat.cast_sub hle]
    push_cast
    ring
  have hhigh : (m + 1 / 2 : ℚ) = (4 * m + 2 : ℕ) / 4 := by
    push_cast
    ring
  rw [Encloses, hlow, hhigh, ← not_le (a := ((4 * m + 2 : ℕ) / 4 : ℚ)),
    ← not_le (b := ((4 * m - below : ℕ) / 4 : ℚ)),
    ← quarters_le_iff, ← le_quarters_iff, ← quarters_le_iff, ← le_quarters_iff]
  simp only [RoundingInterval.contains, roundingInterval, Nat.pow_eq, hbelow, beq_iff_eq]
  split_ifs <;> simp

end Intervals

/-! ## The grid -/

section Grids
variable {i : RoundingInterval} {k : ℤ} {d : ℕ}

/-- The rational number that the interval is around. -/
def RoundingInterval.ratio (i : RoundingInterval) : ℚ := i.value / i.den

theorem ratio_roundingInterval (m : ℕ) (q : ℤ) : (roundingInterval m q).ratio = m * 2 ^ q := by
  simp only [RoundingInterval.ratio, roundingInterval, Nat.pow_eq]
  push_cast
  rw [pow_toNat_eq two_ne_zero q]
  field_simp

theorem den_roundingInterval_pos (m : ℕ) (q : ℤ) : 0 < (roundingInterval m q).den := by
  simp only [roundingInterval, Nat.pow_eq]
  positivity

/-- The number of steps of `10 ^ k` up to the value. -/
def RoundingInterval.steps (i : RoundingInterval) (k : ℤ) : ℕ :=
  i.value * Nat.pow 10 (-k).toNat / (i.den * Nat.pow 10 k.toNat)

theorem steps_bounds (hden : 0 < i.den) (k : ℤ) :
    i.steps k ≤ i.ratio / 10 ^ k ∧ i.ratio / 10 ^ k < i.steps k + 1 := by
  have hpos : 0 < i.den * 10 ^ k.toNat := by positivity
  have hratio : i.ratio / 10 ^ k = (i.value * 10 ^ (-k).toNat : ℕ) /
      (i.den * 10 ^ k.toNat : ℕ) := by
    have hcast : (i.den : ℚ) ≠ 0 := by exact_mod_cast hden.ne'
    push_cast
    rw [RoundingInterval.ratio, pow_toNat_eq (by norm_num) k]
    field_simp
  simp only [RoundingInterval.steps, Nat.pow_eq, hratio]
  constructor
  · exact Nat.cast_div_le
  · rw [div_lt_iff₀ (by exact_mod_cast hpos)]
    exact_mod_cast (Nat.lt_succ_self _).trans_le (Nat.lt_mul_of_div_lt (Nat.lt_succ_self _) hpos)

/-- The choice is one of the two neighbours of the value, and in the interval. -/
theorem pick_eq_some (h : i.pick k = some d) :
    i.contains d k = true ∧ (0 < i.steps k ∧ d = i.steps k ∨ d = i.steps k + 1) := by
  unfold RoundingInterval.pick at h
  unfold RoundingInterval.steps
  dsimp only at h
  split at h
  · next hdown hup =>
    rw [Bool.and_eq_true, decide_eq_true_eq] at hdown
    split_ifs at h with hnear <;> obtain rfl := Option.some.inj h
    · exact ⟨hdown.2, .inl ⟨hdown.1, rfl⟩⟩
    · exact ⟨hup, .inr rfl⟩
  · next hdown hup =>
    rw [Bool.and_eq_true, decide_eq_true_eq] at hdown
    obtain rfl := Option.some.inj h
    exact ⟨hdown.2, .inl ⟨hdown.1, rfl⟩⟩
  · next hdown hup =>
    obtain rfl := Option.some.inj h
    exact ⟨hup, .inr rfl⟩
  · cases h

/-- There is a choice if one of the neighbours is in the interval. -/
theorem pick_ne_none
    (h : 0 < i.steps k ∧ i.contains (i.steps k) k = true ∨ i.contains (i.steps k + 1) k = true) :
    i.pick k ≠ none := by
  unfold RoundingInterval.steps at h
  unfold RoundingInterval.pick
  dsimp only
  split
  · split_ifs <;> exact Option.some_ne_none _
  · exact Option.some_ne_none _
  · exact Option.some_ne_none _
  · next hdown hup =>
    rcases h with ⟨hpos, hin⟩ | hin
    · rw [hin, decide_eq_true hpos] at hdown
      cases hdown
    · rw [hin] at hup
      cases hup

/-- The choice on a grid on which the value has `n` digits before the point has as many, unless it
is `10 ^ n`. -/
theorem pick_bounds {n : ℕ} (hden : 0 < i.den) (hlow : (10 : ℚ) ^ n ≤ i.ratio / 10 ^ k)
    (hhigh : i.ratio / 10 ^ k < 10 ^ (n + 1)) (h : i.pick k = some d) :
    10 ^ n ≤ d ∧ d ≤ 10 ^ (n + 1) := by
  obtain ⟨hfloor, hceil⟩ := steps_bounds hden k
  have hge : 10 ^ n < i.steps k + 1 := by exact_mod_cast hlow.trans_lt hceil
  have hlt : i.steps k < 10 ^ (n + 1) := by exact_mod_cast hfloor.trans_lt hhigh
  rcases (pick_eq_some h).2 with ⟨-, rfl⟩ | rfl <;> omega

end Grids

/-! ## The magnitude -/

theorem digitCount_pos (n : ℕ) : 0 < digitCount n := Nat.length_toDigits_pos

theorem lt_pow_digitCount (n : ℕ) : n < 10 ^ digitCount n :=
  (Nat.length_toDigits_le_iff (by norm_num) (digitCount_pos n)).mp le_rfl

theorem pow_le_of_digitCount {n : ℕ} (hn : 0 < n) : 10 ^ (digitCount n - 1) ≤ n := by
  rcases Nat.lt_or_ge 1 (digitCount n) with hlong | hshort
  · by_contra hlt
    have hle : digitCount n ≤ digitCount n - 1 :=
      (Nat.length_toDigits_le_iff (by norm_num) (by omega)).mpr (not_le.mp hlt)
    omega
  · rw [Nat.sub_eq_zero_of_le hshort]
    exact hn

theorem digitCount_eq {n c : ℕ} (hlow : 10 ^ c ≤ n) (hhigh : n < 10 ^ (c + 1)) :
    digitCount n = c + 1 := by
  have hle : digitCount n ≤ c + 1 := (Nat.length_toDigits_le_iff (by norm_num) (by omega)).mpr hhigh
  have hlt : c < digitCount n :=
    (Nat.pow_lt_pow_iff_right (by norm_num)).mp (hlow.trans_lt (lt_pow_digitCount n))
  omega

/-- The digits of the integral part of a quotient are those of the quotient. -/
theorem div_digitCount_bounds {a b : ℕ} (hb : 0 < b) (hle : b ≤ a) :
    (10 : ℚ) ^ (digitCount (a / b) - 1) ≤ a / b ∧ (a / b : ℚ) < 10 ^ digitCount (a / b) := by
  have hcast : (0 : ℚ) < b := by exact_mod_cast hb
  constructor
  · calc (10 : ℚ) ^ (digitCount (a / b) - 1) ≤ (a / b : ℕ) := by
          exact_mod_cast pow_le_of_digitCount (Nat.div_pos hle hb)
      _ ≤ a / b := Nat.cast_div_le
  · rw [div_lt_iff₀ hcast]
    exact_mod_cast Nat.lt_mul_of_div_lt (lt_pow_digitCount (a / b)) hb

/-- The value lies between two powers of ten, of which the magnitude gives the larger one. -/
theorem magnitude_bounds {i : RoundingInterval} (hvalue : 0 < i.value) (hden : 0 < i.den) :
    (10 : ℚ) ^ (i.magnitude - 1) ≤ i.ratio ∧ i.ratio < 10 ^ i.magnitude := by
  have hnum : (0 : ℚ) < i.value := by exact_mod_cast hvalue
  have hcast : (0 : ℚ) < i.den := by exact_mod_cast hden
  unfold RoundingInterval.magnitude RoundingInterval.ratio
  dsimp only
  rcases le_or_gt i.den i.value with hle | hlt
  · obtain ⟨hlow, hhigh⟩ := div_digitCount_bounds hden hle
    have hpos := digitCount_pos (i.value / i.den)
    rw [if_pos hle, ← Nat.cast_pred hpos, zpow_natCast, zpow_natCast]
    exact ⟨hlow, hhigh⟩
  · -- The inverse has as many digits before the point as the value has zeros after it, or one more.
    obtain ⟨hlow, hhigh⟩ := div_digitCount_bounds hvalue hlt.le
    obtain ⟨c, hc⟩ : ∃ c, digitCount (i.den / i.value) = c + 1 :=
      ⟨digitCount (i.den / i.value) - 1, by have := digitCount_pos (i.den / i.value); omega⟩
    rw [hc] at hlow hhigh
    rw [Nat.add_sub_cancel, le_div_iff₀ hnum, mul_comm] at hlow
    rw [div_lt_iff₀ hnum, mul_comm] at hhigh
    have hpow : ∀ n : ℕ, (10 : ℚ) ^ (-(n : ℤ)) ≤ i.value / i.den ↔
        (i.den : ℚ) ≤ i.value * 10 ^ n := by
      intro n
      rw [le_div_iff₀ hcast, zpow_neg, zpow_natCast, inv_mul_le_iff₀ (by positivity), mul_comm]
    have hestimate : (1 : ℤ) - (c + 1 : ℕ) = -c := by omega
    rw [if_neg hlt.not_ge, hc, hestimate, neg_neg, Int.toNat_natCast, Nat.pow_eq]
    split_ifs with hless
    · have hnext : -(c : ℤ) - 1 = -(c + 1 : ℕ) := by omega
      rw [hnext, hpow, ← not_le, hpow, not_le]
      exact ⟨hhigh.le, by exact_mod_cast hless⟩
    · rw [add_sub_cancel_right, hpow]
      refine ⟨by exact_mod_cast not_lt.mp hless, ?_⟩
      calc (i.value / i.den : ℚ) ≤ 10 ^ (-(c : ℤ)) := by
            rw [div_le_iff₀ hcast, zpow_neg, zpow_natCast,
              le_inv_mul_iff₀ (by positivity), mul_comm]
            exact hlow
        _ < 10 ^ (-(c : ℤ) + 1) := zpow_lt_zpow_right₀ (by norm_num) (by omega)

/-! ## The search -/

theorem stripZeros_spec (fuel n : ℕ) : ∃ j ≤ fuel, stripZeros fuel n * 10 ^ j = n := by
  fun_induction stripZeros fuel n with
  | case1 n => exact ⟨0, le_rfl, by simp⟩
  | case2 fuel n h ih =>
    obtain ⟨j, hj, heq⟩ := ih
    refine ⟨j + 1, by omega, ?_⟩
    rw [pow_succ, ← mul_assoc, heq]
    omega
  | case3 fuel n h => exact ⟨0, Nat.zero_le _, by simp⟩

theorem stripZeros_pow (n : ℕ) : stripZeros n (10 ^ n) = 1 := by
  induction n with
  | zero => rfl
  | succ n ih =>
    have hzero : 10 ^ (n + 1) ≠ 0 ∧ 10 ^ (n + 1) % 10 = 0 := ⟨by positivity, by simp [pow_succ]⟩
    rw [stripZeros, if_pos hzero, pow_succ, Nat.mul_div_cancel _ (by norm_num), ih]

/-- Dropping zeros at the end drops digits. -/
theorem digitCount_mul_pow {n : ℕ} (hn : 0 < n) (j : ℕ) :
    digitCount (n * 10 ^ j) = digitCount n + j := by
  obtain ⟨c, hc⟩ : ∃ c, digitCount n = c + 1 :=
    ⟨digitCount n - 1, by have := digitCount_pos n; omega⟩
  have hlow := pow_le_of_digitCount hn
  have hhigh := lt_pow_digitCount n
  rw [hc] at hlow hhigh ⊢
  rw [add_right_comm]
  refine digitCount_eq ?_ ?_
  · rw [pow_add]
    exact Nat.mul_le_mul_right _ hlow
  · rw [add_right_comm, pow_add]
    exact Nat.mul_lt_mul_of_pos_right hhigh (by positivity)

/-- The decimal of a choice among numbers with `n` digits. -/
def Decimal.ofGrid (e : ℤ) (n d : ℕ) : Decimal :=
  ⟨stripZeros n d, digitCount (stripZeros n d), if 10 ^ n ≤ d then e + 1 else e⟩

/-- The search ends at the first grid with a choice. -/
theorem search_eq {i : RoundingInterval} {e : ℤ} {tries count last : ℕ} (hlow : count ≤ last)
    (hhigh : last < count + tries) (h : i.pick (e - last) ≠ none) :
    ∃ n d, count ≤ n ∧ n ≤ last ∧ i.pick (e - n) = some d ∧
      i.search e tries count = .ofGrid e n d := by
  fun_induction i.search e tries count with
  | case1 count => omega
  | case2 tries count d hpick => exact ⟨count, d, le_rfl, hlow, hpick, rfl⟩
  | case3 tries count hpick ih =>
    have hne : count ≠ last := by
      rintro rfl
      exact h hpick
    obtain ⟨n, d, hn, hlast, hd, heq⟩ := ih (by omega) (by omega)
    exact ⟨n, d, by omega, hlast, hd, heq⟩

section Seventeen
variable {m : ℕ} {q : ℤ}

/-- The interval is wider than the seventeenth digit of its float. -/
theorem seventeenth_lt (hn : Normalized m q) : (m / 10 ^ 16 : ℚ) < gapBelow m q + 1 / 2 := by
  unfold gapBelow
  split_ifs with hleast
  · rw [hleast.1]
    norm_num
  · have hmantissa : (m : ℚ) < 2 ^ 53 := by exact_mod_cast hn.mantissa
    rw [div_lt_iff₀ (by norm_num)]
    linarith

/-- On the grid of seventeen digits one of the two neighbours of the value is in the interval. -/
theorem pick_seventeen (hn : Normalized m q) (hm : 0 < m) {e : ℤ}
    (he : (10 : ℚ) ^ (e - 1) ≤ m * 2 ^ q) : (roundingInterval m q).pick (e - 17) ≠ none := by
  have hunit : (0 : ℚ) < 2 ^ q := by positivity
  have hgrid : (0 : ℚ) < 10 ^ (e - 17) := by positivity
  obtain ⟨hfloor, hceil⟩ := steps_bounds (den_roundingInterval_pos m q) (e - 17)
  rw [ratio_roundingInterval, le_div_iff₀ hgrid, ← div_le_iff₀ hunit] at hfloor
  rw [ratio_roundingInterval, div_lt_iff₀ hgrid, ← lt_div_iff₀ hunit] at hceil
  have hstep : (10 ^ (e - 17) / 2 ^ q : ℚ) ≤ m / 10 ^ 16 := by
    rw [div_le_div_iff₀ hunit (by norm_num)]
    calc (10 ^ (e - 17) * 10 ^ 16 : ℚ) = 10 ^ (e - 1) := by
          rw [← zpow_natCast, ← zpow_add₀ (by norm_num)]
          congr 1
          omega
      _ ≤ m * 2 ^ q := he
  have hwide := hstep.trans_lt (seventeenth_lt hn)
  refine pick_ne_none ?_
  rw [contains_iff hm, contains_iff hm]
  generalize (roundingInterval m q).steps (e - 17) = f at hfloor hceil ⊢
  by_cases hnear : m - gapBelow m q < f * 10 ^ (e - 17) / 2 ^ q
  · refine .inl ⟨?_, encloses_below hnear hfloor⟩
    rcases Nat.eq_zero_or_pos f with rfl | hpos
    · have hone : (1 : ℚ) ≤ m := by exact_mod_cast hm
      have hless : (m / 10 ^ 16 : ℚ) ≤ m := div_le_self (by positivity) (by norm_num)
      rw [Nat.cast_zero, zero_add, one_mul] at hceil
      linarith
    · exact hpos
  · refine .inr (encloses_above ?_ ?_)
    · rw [Nat.cast_add_one]
      exact hceil.le
    · rw [Nat.cast_add_one, add_mul, one_mul, add_div]
      linarith

/-- What is known of a decimal that is to stand for `m * 2 ^ q`: it has at most seventeen digits,
and it is rounded to that float. The point stands beyond the leading digit of the float. -/
structure Decimal.StandsFor (decimal : Decimal) (m : ℕ) (q : ℤ) : Prop where
  pos : 0 < decimal.digits
  count : decimal.count = digitCount decimal.digits
  short : decimal.count ≤ 17
  point : (m * 2 ^ q : ℚ) < 10 ^ decimal.point
  value : Encloses m q (decimal.digits * 10 ^ (decimal.point - decimal.count))

/-- A choice on a grid stands for the float, wherever its zeros end. -/
theorem Decimal.StandsFor.ofGrid {e : ℤ} {c d : ℕ} (hlow : 10 ^ c ≤ d) (hhigh : d ≤ 10 ^ (c + 1))
    (hc : c < 17) (hpoint : (m * 2 ^ q : ℚ) < 10 ^ e)
    (hin : Encloses m q (d * 10 ^ (e - (c + 1 : ℕ)))) :
    (Decimal.ofGrid e (c + 1) d).StandsFor m q := by
  obtain ⟨j, hj, hstrip⟩ := stripZeros_spec (c + 1) d
  have hpos : 0 < stripZeros (c + 1) d := by
    have hd : 0 < d := (by positivity : 0 < 10 ^ c).trans_le hlow
    rw [← hstrip] at hd
    exact Nat.pos_of_mul_pos_right hd
  have hcount := digitCount_mul_pow hpos j
  rw [hstrip] at hcount
  -- Both the number of digits and the point count one more for the power of ten above the grid.
  obtain ⟨k, hk, hpointEq⟩ : ∃ k : ℕ, digitCount d = c + 1 + k ∧
    (if 10 ^ (c + 1) ≤ d then e + 1 else e) = e + k := by
    split_ifs with hpow
    · obtain rfl : d = 10 ^ (c + 1) := le_antisymm hhigh hpow
      exact ⟨1, digitCount_eq le_rfl (Nat.pow_lt_pow_right (by norm_num) (by omega)), rfl⟩
    · exact ⟨0, digitCount_eq hlow (not_le.mp hpow), by simp⟩
  refine ⟨hpos, rfl, ?_, ?_, ?_⟩
  · rcases hhigh.eq_or_lt with rfl | hlt
    · change digitCount (stripZeros (c + 1) (10 ^ (c + 1))) ≤ 17
      rw [stripZeros_pow]
      decide
    · have hd := digitCount_eq hlow hlt
      change digitCount (stripZeros (c + 1) d) ≤ 17
      omega
  · refine hpoint.trans_le (zpow_le_zpow_right₀ (by norm_num) ?_)
    change e ≤ if 10 ^ (c + 1) ≤ d then e + 1 else e
    omega
  · have hexponent : (if 10 ^ (c + 1) ≤ d then e + 1 else e) - digitCount (stripZeros (c + 1) d) =
        j + (e - (c + 1 : ℕ)) := by
      omega
    change Encloses m q (stripZeros (c + 1) d * 10 ^ ((if 10 ^ (c + 1) ≤ d then e + 1 else e) -
      digitCount (stripZeros (c + 1) d)))
    rw [hexponent, zpow_add₀ (by norm_num), ← mul_assoc, zpow_natCast]
    rw [← hstrip] at hin
    push_cast at hin ⊢
    exact hin

/-- The shortest decimal stands for its float. -/
theorem shortest_standsFor (hn : Normalized m q) (hm : 0 < m) : (shortest m q).StandsFor m q := by
  have hvalue : 0 < (roundingInterval m q).value := by
    simp only [roundingInterval, Nat.pow_eq]
    positivity
  have hden := den_roundingInterval_pos m q
  obtain ⟨hlow, hhigh⟩ := magnitude_bounds hvalue hden
  have hratio := ratio_roundingInterval m q
  obtain ⟨n, d, hpos, hlast, hpick, hsearch⟩ :=
    search_eq (by norm_num : 1 ≤ 17) (by norm_num : 17 < 1 + 17)
      (pick_seventeen hn hm (hratio ▸ hlow))
  obtain ⟨c, rfl⟩ : ∃ c, n = c + 1 := ⟨n - 1, by omega⟩
  have hgrid : (0 : ℚ) < 10 ^ ((roundingInterval m q).magnitude - (c + 1 : ℕ)) := by positivity
  obtain ⟨hleast, hmost⟩ : 10 ^ c ≤ d ∧ d ≤ 10 ^ (c + 1) := by
    refine pick_bounds hden ?_ ?_ hpick
    · rw [le_div_iff₀ hgrid, ← zpow_natCast, ← zpow_add₀ (by norm_num)]
      refine le_trans (le_of_eq ?_) hlow
      congr 1
      omega
    · rw [div_lt_iff₀ hgrid, ← zpow_natCast, ← zpow_add₀ (by norm_num)]
      refine hhigh.trans_le (le_of_eq ?_)
      congr 1
      omega
  have hin := (contains_iff hm).mp (pick_eq_some hpick).1
  rw [shortest, hsearch]
  exact .ofGrid hleast hmost (by omega) (hratio ▸ hhigh) hin

end Seventeen

end LuaMachine.Binary64
