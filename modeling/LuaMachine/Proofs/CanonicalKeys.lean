import Mathlib
import LuaMachine.Value.Basic

/-!
# Keys are canonical

Two values that can index a table have the same key exactly when they are raw-equal. For numbers
this rests on the exact content of a float: its mantissa and exponent are determined by its value,
so that only the two zeros share one, and both have the integer zero as their key.
-/
namespace LuaMachine

namespace Binary64

/-- The bounds that make the mantissa and the exponent of a finite float unique. -/
structure Normalized (m : ℕ) (q : ℤ) : Prop where
  mantissa : m < 2 ^ 53
  exponent : -1074 ≤ q
  leading : q = -1074 ∨ 2 ^ 52 ≤ m

/-- Equal dyadic numbers in normalized form have the same mantissa and the same exponent. -/
theorem Normalized.unique {m n : ℕ} {q p : ℤ} (hm : Normalized m q) (hn : Normalized n p)
    (h : m * 2 ^ (q + 1074).toNat = n * 2 ^ (p + 1074).toNat) : m = n ∧ q = p := by
  -- The smaller exponent would need a mantissa of more than 53 bits.
  have hle : ∀ {m n : ℕ} {q p : ℤ}, Normalized m q → Normalized n p →
      m * 2 ^ (q + 1074).toNat = n * 2 ^ (p + 1074).toNat → p ≤ q := by
    intro m n q p hm hn h
    by_contra hlt
    have hsplit : (p + 1074).toNat = (q + 1074).toNat + 1 + (p - q - 1).toNat := by
      have := hm.exponent
      omega
    have hcancel : m = n * (2 * 2 ^ (p - q - 1).toNat) := by
      have hpos : 0 < 2 ^ (q + 1074).toNat := by positivity
      refine Nat.eq_of_mul_eq_mul_right hpos ?_
      rw [h, hsplit, pow_add, pow_add]
      ring
    have hleading : 2 ^ 52 ≤ n := by
      have := hm.exponent
      have := hn.leading
      omega
    have hpow : 1 ≤ 2 ^ (p - q - 1).toNat := Nat.one_le_two_pow
    have hmantissa := hm.mantissa
    have : 2 ^ 52 * (2 * 1) ≤ n * (2 * 2 ^ (p - q - 1).toNat) := by gcongr
    omega
  obtain rfl : q = p := le_antisymm (hle hn hm h.symm) (hle hm hn h)
  exact ⟨Nat.eq_of_mul_eq_mul_right (by positivity) h, rfl⟩

/-- The bit pattern of a finite float, from its content. -/
def packed (negative : Bool) (m : ℕ) (q : ℤ) : ℕ :=
  negative.toNat * 2 ^ 63 + if q = -1074 ∧
    m < 2 ^ 52 then m else (q + 1075).toNat * 2 ^ 52 + (m - 2 ^ 52)

/-- A finite float has normalized content, which gives its bits back. -/
theorem finite_of_parts {x : Float} {s : Bool} {m : ℕ} {q : ℤ} (h : parts x = .finite s m q) :
    Normalized m q ∧ x.toBits.toNat = packed s m q := by
  have hbits : x.toBits.toNat < 2 ^ 64 := x.toBits.toNat_lt
  have hsign : (x.toBits.toNat / 2 ^ 63 == 1).toNat = x.toBits.toNat / 2 ^ 63 := by
    have : x.toBits.toNat / 2 ^ 63 = 0 ∨ x.toBits.toNat / 2 ^ 63 = 1 := by omega
    rcases this with h | h <;> rw [h] <;> rfl
  simp only [parts, isNegative, Nat.pow_eq] at h
  split_ifs at h with hspecial hfraction hsubnormal
  · cases h
    refine ⟨⟨by omega, le_refl _, .inl rfl⟩, ?_⟩
    rw [packed, hsign, if_pos ⟨rfl, by omega⟩]
    omega
  · cases h
    refine ⟨⟨by omega, by omega, .inr (by omega)⟩, ?_⟩
    rw [packed, hsign, if_neg (by omega)]
    omega

theorem eq_of_parts {x y : Float} {s : Bool} {m : ℕ} {q : ℤ} (hx : parts x = .finite s m q)
    (hy : parts y = .finite s m q) : x = y := by
  rw [← Float.toBits_inj, ← UInt64.toNat_inj, (finite_of_parts hx).2, (finite_of_parts hy).2]

/-- How many times the least positive float fits into one. -/
def units : ℕ := 2 ^ 1074

theorem natAbs_signed (s : Bool) (m : ℕ) : (signed s m).natAbs = m := by
  cases s <;> simp [signed]

/-- A float that equals an integer holds it exactly, with its sign. -/
theorem finite_of_exactInt? {x : Float} {n : ℤ} (h : exactInt? x = some n) :
    ∃ s m q, parts x = .finite s m q ∧ m * 2 ^ (q + 1074).toNat = n.natAbs * units ∧
      n = signed s n.natAbs := by
  unfold exactInt? at h
  split at h
  case h_2 => cases h
  case h_1 s m q hparts =>
    obtain ⟨hnormal, -⟩ := finite_of_parts hparts
    have hexponent := hnormal.exponent
    refine ⟨s, m, q, hparts, ?_⟩
    simp only [Nat.pow_eq] at h
    split_ifs at h with hq hdvd
    · cases h
      have habs : (signed s m * Int.pow 2 q.toNat).natAbs = m * 2 ^ q.toNat := by
        rw [Int.natAbs_mul, natAbs_signed]
        congr 1
      rw [habs, show (q + 1074).toNat = q.toNat + 1074 by omega, pow_add, mul_assoc, units]
      refine ⟨rfl, ?_⟩
      cases s <;> simp [signed]
    · cases h
      refine ⟨?_, by rw [natAbs_signed]⟩
      have hsplit : 1074 = (-q).toNat + (q + 1074).toNat := by omega
      calc m * 2 ^ (q + 1074).toNat
          = m / 2 ^ (-q).toNat * 2 ^ (-q).toNat * 2 ^ (q + 1074).toNat := by
            rw [Nat.div_mul_cancel (Nat.dvd_of_mod_eq_zero hdvd)]
        _ = (signed s (m / 2 ^ (-q).toNat)).natAbs * units := by
            rw [natAbs_signed, mul_assoc, ← pow_add, ← hsplit, units]

/-- Only zero is its own negative. -/
theorem natAbs_eq_zero_of_signed {n : ℤ} {s t : Bool} (hs : n = signed s n.natAbs)
    (ht : n = signed t n.natAbs) (h : s ≠ t) : n.natAbs = 0 := by
  have hneg : n = -(n.natAbs : ℤ) ∧ n = n.natAbs := by
    cases s <;> cases t
    · exact absurd rfl h
    · exact ⟨ht, hs⟩
    · exact ⟨hs, ht⟩
    · exact absurd rfl h
  omega

theorem eq_zero_of_parts {x : Float} {s : Bool} {q : ℤ} (h : parts x = .finite s 0 q) :
    x = 0 ∨ x = -0 := by
  obtain ⟨hnormal, hbits⟩ := finite_of_parts h
  have hq : q = -1074 := by
    rcases hnormal.leading with hq | hle
    · exact hq
    · omega
  subst hq
  have hzero : (0 : Float).toBits.toNat = 0 := by decide +kernel
  have hnegative : (-0 : Float).toBits.toNat = 2 ^ 63 := by decide +kernel
  cases s with
  | false =>
    left
    rw [← Float.toBits_inj, ← UInt64.toNat_inj, hbits, hzero]
    rfl
  | true =>
    right
    rw [← Float.toBits_inj, ← UInt64.toNat_inj, hbits, hnegative]
    rfl

end Binary64

/-! ## Equality of numbers -/

section Numbers
variable {x y : Float} {n : Int64}

theorem floatToInt?_eq_some (h : floatToInt? .exact x = some n) :
    Binary64.exactInt? x = some n.toInt := by
  obtain ⟨k, hk, hn⟩ := Option.bind_eq_some_iff.mp h
  rw [int64OfInt?_eq_some.mp hn]
  exact hk

theorem floatToInt?_nan : floatToInt? .exact Float.nan = none := by decide +kernel

/-- Floats with the same integer are equal, the zeros of both signs included. -/
theorem beq_of_floatToInt? (hx : floatToInt? .exact x = some n)
    (hy : floatToInt? .exact y = some n) : (x == y) = true := by
  have hnan : ∀ {x : Float}, floatToInt? .exact x = some n → x ≠ Float.nan := by
    rintro x h rfl
    rw [floatToInt?_nan] at h
    cases h
  refine Float.beq_iff_ne_nan_and_eq.mpr ⟨hnan hx, hnan hy, ?_⟩
  obtain ⟨s, m, q, hpx, hmx, hsx⟩ := Binary64.finite_of_exactInt? (floatToInt?_eq_some hx)
  obtain ⟨t, k, p, hpy, hky, hty⟩ := Binary64.finite_of_exactInt? (floatToInt?_eq_some hy)
  obtain ⟨rfl, rfl⟩ :=
    (Binary64.finite_of_parts hpx).1.unique (Binary64.finite_of_parts hpy).1 (hmx.trans hky.symm)
  by_cases hs : s = t
  · subst hs
    exact .inl (Binary64.eq_of_parts hpx hpy)
  · have hzero := Binary64.natAbs_eq_zero_of_signed hsx hty hs
    obtain rfl : m = 0 := by
      rw [hzero, Nat.zero_mul] at hmx
      exact (Nat.mul_eq_zero.mp hmx).resolve_right (pow_ne_zero _ two_ne_zero)
    rcases Binary64.eq_zero_of_parts hpx with rfl | rfl <;> rcases Binary64.eq_zero_of_parts
      hpy with rfl | rfl
    · exact .inl rfl
    · exact .inr (.inl ⟨rfl, rfl⟩)
    · exact .inr (.inr ⟨rfl, rfl⟩)
    · exact .inl rfl

theorem toKey_float_of_beq (h : (x == y) = true) :
    (Value.float x).toKey = (Value.float y).toKey := by
  have hzeros : (Value.float 0).toKey = (Value.float (-0)).toKey := by decide +kernel
  obtain ⟨-, -, rfl | ⟨rfl, rfl⟩ | ⟨rfl, rfl⟩⟩ := Float.beq_iff_ne_nan_and_eq.mp h
  · rfl
  · exact hzeros
  · exact hzeros.symm

end Numbers

namespace Value

/-- The key of a float, which is not NaN. -/
theorem toKey_float_eq_ok {x : Float} {k : Key} (h : (Value.float x).toKey = .ok k) :
    x ≠ Float.nan ∧ ((∃ n, floatToInt? .exact x = some n ∧ k = .int n) ∨
      floatToInt? .exact x = none ∧ k = .float x) := by
  cases hn : floatToInt? .exact x with
  | none =>
    simp only [toKey, normalized, hn, Float.isNaN_eq_decide_eq_nan, decide_eq_true_eq] at h
    split_ifs at h with hnan
    cases h
    exact ⟨hnan, .inr ⟨rfl, rfl⟩⟩
  | some n =>
    simp only [toKey, normalized, hn] at h
    cases h
    refine ⟨?_, .inl ⟨n, rfl, rfl⟩⟩
    rintro rfl
    rw [floatToInt?_nan] at hn
    cases hn

theorem toKey_number_eq_iff {a b : Number} {k l : Key} (ha : (Value.number a).toKey = .ok k)
    (hb : (Value.number b).toKey = .ok l) : k = l ↔ a.equal b = true := by
  have hmixed : ∀ {n : Int64} {x : Float} {k : Key}, (Value.float x).toKey = .ok k →
      (Key.int n = k ↔ floatToInt? .exact x = some n) := by
    intro n x k hx
    obtain ⟨-, ⟨m, hm, rfl⟩ | ⟨hm, rfl⟩⟩ := toKey_float_eq_ok hx
    · simp [hm, eq_comm]
    · simp [hm]
  cases a with
  | int m =>
    cases ha
    cases b with
    | int n =>
      cases hb
      simp [Number.equal]
    | float y => simpa [Number.equal] using hmixed hb
  | float x =>
    cases b with
    | int n =>
      cases hb
      rw [eq_comm]
      simpa [Number.equal] using hmixed ha
    | float y =>
      show k = l ↔ (x == y) = true
      constructor
      · rintro rfl
        obtain ⟨hnan, ⟨n, hn, rfl⟩ | ⟨-, rfl⟩⟩ := toKey_float_eq_ok ha
        · obtain ⟨-, ⟨m, hm, he⟩ | ⟨-, he⟩⟩ := toKey_float_eq_ok hb
          · cases he
            exact beq_of_floatToInt? hn hm
          · cases he
        · obtain ⟨-, ⟨m, -, he⟩ | ⟨-, he⟩⟩ := toKey_float_eq_ok hb
          · cases he
          · cases he
            exact Float.beq_self_iff.mpr hnan
      · intro h
        rw [toKey_float_of_beq h] at ha
        exact Except.ok.inj (ha.symm.trans hb)

theorem toKey_number_cases {a : Number} {k : Key} (h : (Value.number a).toKey = .ok k) :
    (∃ n, k = .int n) ∨ ∃ x, k = .float x := by
  cases a with
  | int n => exact .inl ⟨n, (Except.ok.inj h).symm⟩
  | float x =>
    obtain ⟨-, ⟨n, -, rfl⟩ | ⟨-, rfl⟩⟩ := toKey_float_eq_ok h
    · exact .inl ⟨n, rfl⟩
    · exact .inr ⟨x, rfl⟩

/-- Values that can index a table have the same key exactly when they are raw-equal. -/
theorem toKey_eq_iff {v w : Value} {k l : Key} (hv : v.toKey = .ok k) (hw : w.toKey = .ok l) :
    k = l ↔ v.rawEqual w = true := by
  cases v with
  | nil => cases hv
  | number a =>
    cases w with
    | nil => cases hw
    | number b => exact toKey_number_eq_iff hv hw
    | _ =>
      cases hw
      obtain ⟨n, rfl⟩ | ⟨x, rfl⟩ := toKey_number_cases hv <;> simp [rawEqual]
  | _ =>
    cases hv
    cases w with
    | nil => cases hw
    | number b => obtain ⟨n, rfl⟩ | ⟨x, rfl⟩ := toKey_number_cases hw <;> simp [rawEqual]
    | _ =>
      cases hw
      simp [rawEqual]

theorem toKey_eq_error {v : Value} {why : InvalidKey} (h : v.toKey = .error why) :
    v = .nil ∨ v = .float Float.nan := by
  cases v with
  | nil => exact .inl rfl
  | number a =>
    cases a with
    | int n => cases h
    | float x =>
      cases hn : floatToInt? .exact x with
      | none =>
        simp only [toKey, normalized, hn, Float.isNaN_eq_decide_eq_nan, decide_eq_true_eq] at h
        split_ifs at h with hnan
        exact .inr (by rw [hnan])
      | some n =>
        simp only [toKey, normalized, hn] at h
        cases h
  | _ => cases h

/-- Nil and NaN, which have no key, are raw-equal to no value that has one. -/
theorem rawEqual_of_toKey_error {v w : Value} {k : Key} {why : InvalidKey} (hv : v.toKey = .ok k)
    (hw : w.toKey = .error why) : v.rawEqual w = false := by
  rcases toKey_eq_error hw with rfl | rfl
  · cases v with
    | nil => cases hv
    | _ => rfl
  · cases v with
    | number a =>
      cases a with
      | int n => simp [rawEqual, Number.equal, floatToInt?_nan]
      | float x => exact Float.beq_nan_eq_false x
    | _ => rfl

end Value

end LuaMachine
