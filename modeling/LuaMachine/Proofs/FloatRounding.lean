import LuaMachine.Proofs.FloatValues

/-!
# Arithmetic on floats that hold integers

Arithmetic computes with integers in a common unit and rounds the result to a mantissa of 53 bits.
Rounding crosses no multiple of the unit it rounds to, so a result that has a float is exact. From
this follow the conversion of integers up to `2 ^ 53`, the sum of two floats that hold integers, and
the remainder of their division.
-/
namespace LuaMachine.Binary64
open Float.Model Float.Model.UnpackedFloat

/-! ## Rounding to a mantissa -/

theorem targetExponent_eq (t : ℤ) : Format.binary64.targetExponent t = max (t - 53) (-1074) := rfl

theorem mantissa_shiftRight (em : ExtendedMantissa) (k : ℕ) :
    (em >>> k).mantissa = em.mantissa / 2 ^ k := by
  induction k with
  | zero => simp [HShiftRight.hShiftRight, Nat.repeat]
  | succ k ih =>
    change (em >>> k).mantissa / 2 = em.mantissa / 2 ^ (k + 1)
    rw [ih, Nat.div_div_eq_div_mul, pow_succ]

theorem shiftRight_of_dvd (m k : ℕ) :
    (ExtendedMantissa.mk (m * 2 ^ k) false false) >>> k = ⟨m, false, false⟩ := by
  induction k generalizing m with
  | zero =>
    simp [HShiftRight.hShiftRight, Nat.repeat]
  | succ k ih =>
    change ExtendedMantissa.shiftRightOne
      ((ExtendedMantissa.mk (m * 2 ^ (k + 1)) false false) >>> k) = _
    rw [pow_succ', ← mul_assoc, ih]
    simp [ExtendedMantissa.shiftRightOne]

theorem mantissa_le_rounded (em : ExtendedMantissa) : em.mantissa ≤ em.roundedMantissa := by
  obtain ⟨m, r, s⟩ := em
  cases r <;> cases s <;>
    simp [ExtendedMantissa.roundedMantissa, ExtendedMantissa.accuracy, Accuracy.roundToNearestEven]

theorem rounded_le (em : ExtendedMantissa) : em.roundedMantissa ≤ em.mantissa + 1 := by
  obtain ⟨m, r, s⟩ := em
  cases r <;> cases s <;>
    simp [ExtendedMantissa.roundedMantissa, ExtendedMantissa.accuracy, Accuracy.roundToNearestEven]
  omega

/-- The exponent of the unit in which a positive number is rounded. -/
def unitExponent (m : ℕ) (e : ℤ) : ℤ := max (m.log2 + e - 52) (-1074)

theorem targetExponent_totalExponent (m : ℕ) (e : ℤ) :
    Format.binary64.targetExponent (totalExponent m e) = unitExponent m e := by
  rw [targetExponent_eq, totalExponent, unitExponent]
  congr 1
  ring

/-- A mantissa that has come out one bit too long is shortened without loss. -/
theorem carry_spec {r : ℕ} {t : ℤ} (hr : r ≤ 2 ^ 53) (ht : -1074 ≤ t)
    (hlead : t = -1074 ∨ 2 ^ 52 ≤ r) :
    ∃ m q, shiftToTargetExponent Format.binary64 r t .exact = (⟨m, false, false⟩, q) ∧
      Normalized m q ∧ q ≤ t + 1 ∧ (m * 2 ^ q : ℚ) = r * 2 ^ t := by
  simp only [shiftToTargetExponent, targetExponent_totalExponent, shiftToExponent,
    ExtendedMantissa.ofMantissaAndAccuracy]
  rcases hr.lt_or_eq with hlt | rfl
  · have hlog : r.log2 ≤ 52 := by
      by_cases hzero : r = 0
      · simp [hzero]
      · have := (Nat.log2_lt hzero).mpr hlt
        omega
    have hshift : (unitExponent r t - t).toNat = 0 := by
      unfold unitExponent
      omega
    rw [hshift]
    refine ⟨r, t, ?_, ⟨hlt, ht, hlead⟩, by omega, rfl⟩
    simp [HShiftRight.hShiftRight, Nat.repeat]
  · have hshift : (unitExponent (2 ^ 53) t - t).toNat = 1 := by
      rw [unitExponent, Nat.log2_two_pow]
      omega
    rw [hshift]
    refine ⟨2 ^ 52, t + 1, ?_, ⟨by norm_num, by omega, .inr le_rfl⟩, le_rfl, ?_⟩
    · rw [show (2 : ℕ) ^ 53 = 2 ^ 52 * 2 ^ 1 by norm_num, shiftRight_of_dvd]
      rfl
    · rw [zpow_add_one₀ two_ne_zero]
      push_cast
      ring

/-- `r` units of `2 ^ t` are a rounding of a value: no multiple of the unit lies between the two. -/
def Rounds (v : ℚ) (t : ℤ) (r : ℕ) : Prop :=
  ∀ j : ℕ, ((j * 2 ^ t : ℚ) ≤ v → j ≤ r) ∧ (v ≤ j * 2 ^ t → r ≤ j)

/-- Dropping bits and rounding by those that were dropped is a rounding. -/
theorem rounds_shiftRight (m k : ℕ) (e : ℤ) :
    Rounds (m * 2 ^ e) (e + k) ((ExtendedMantissa.mk m false false) >>> k).roundedMantissa := by
  intro j
  have hscale : (j * 2 ^ (e + k) : ℚ) = ((j * 2 ^ k : ℕ) : ℚ) * 2 ^ e := by
    rw [zpow_add₀ two_ne_zero, zpow_natCast]
    push_cast
    ring
  have hunit : (0 : ℚ) < 2 ^ e := by positivity
  rw [hscale, mul_le_mul_iff_left₀ hunit, mul_le_mul_iff_left₀ hunit, Nat.cast_le, Nat.cast_le]
  have hlow := mantissa_le_rounded ((ExtendedMantissa.mk m false false) >>> k)
  have hhigh := rounded_le ((ExtendedMantissa.mk m false false) >>> k)
  rw [mantissa_shiftRight] at hlow hhigh
  have hpos : 0 < 2 ^ k := by positivity
  refine ⟨fun h => ((Nat.le_div_iff_mul_le hpos).mpr h).trans hlow, fun h => ?_⟩
  rcases h.lt_or_eq with hlt | rfl
  · exact hhigh.trans ((Nat.div_lt_iff_lt_mul hpos).mpr hlt)
  · rw [shiftRight_of_dvd]
    rfl

theorem log2_bounds {m : ℕ} (hm : 0 < m) (e : ℤ) :
    ((2 : ℚ) ^ (m.log2 + e) ≤ m * 2 ^ e) ∧ (m * 2 ^ e : ℚ) < 2 ^ (m.log2 + e + 1) := by
  have hlow : ((2 ^ m.log2 : ℕ) : ℚ) ≤ m := by exact_mod_cast Nat.log2_self_le hm.ne'
  have hhigh : (m : ℚ) < ((2 ^ (m.log2 + 1) : ℕ) : ℚ) := by exact_mod_cast Nat.lt_log2_self
  have hpos : (0 : ℚ) < 2 ^ e := by positivity
  push_cast at hlow hhigh
  constructor
  · rw [zpow_add₀ two_ne_zero, zpow_natCast]
    gcongr
  · rw [add_right_comm, zpow_add₀ two_ne_zero, zpow_add_one₀ two_ne_zero, zpow_natCast, ← pow_succ]
    gcongr

theorem Rounds.le {m : ℕ} {e : ℤ} {r : ℕ} (h : Rounds (m * 2 ^ e) (unitExponent m e) r)
    (hm : 0 < m) : r ≤ 2 ^ 53 := by
  refine (h (2 ^ 53)).2 ((log2_bounds hm e).2.le.trans ?_)
  have hexponent : (m.log2 + e + 1 : ℤ) ≤ 53 + unitExponent m e := by
    unfold unitExponent
    omega
  calc (2 : ℚ) ^ (m.log2 + e + 1 : ℤ) ≤ 2 ^ (53 + unitExponent m e) :=
        zpow_le_zpow_right₀ one_le_two hexponent
    _ = ((2 ^ 53 : ℕ) : ℚ) * 2 ^ unitExponent m e := by rw [zpow_add₀ two_ne_zero]; norm_num

theorem Rounds.leading {m : ℕ} {e : ℤ} {r : ℕ} (h : Rounds (m * 2 ^ e) (unitExponent m e) r)
    (hm : 0 < m) : unitExponent m e = -1074 ∨ 2 ^ 52 ≤ r := by
  by_cases hleast : unitExponent m e = -1074
  · exact .inl hleast
  · refine .inr ((h (2 ^ 52)).1 (le_trans ?_ (log2_bounds hm e).1))
    have hexponent : (m.log2 + e : ℤ) = 52 + unitExponent m e := by
      unfold unitExponent at hleast ⊢
      omega
    rw [hexponent, zpow_add₀ two_ne_zero]
    norm_num

/-- A number with an exponent below that of its unit is rounded to a normalized mantissa, the unit
of which may be the next one. -/
theorem roundWithAccuracy_eq (s : Sign) (acc : Accuracy) {m : ℕ} {e : ℤ} {k r : ℕ}
    (hk : unitExponent m e = e + k)
    (hr : ((ExtendedMantissa.ofMantissaAndAccuracy m acc) >>> k).roundedMantissa = r)
    (hle : r ≤ 2 ^ 53) (hlead : unitExponent m e = -1074 ∨ 2 ^ 52 ≤ r) :
    ∃ n q, Normalized n q ∧ q ≤ unitExponent m e + 1 ∧ (n * 2 ^ q : ℚ) = r * 2 ^ unitExponent m e ∧
      roundWithAccuracy Format.binary64 s m e acc =
        if h : n = 0 then .zero s else .finite s n q (Nat.pos_of_ne_zero h) := by
  have hfirst : shiftToTargetExponent Format.binary64 m e acc =
      ((ExtendedMantissa.ofMantissaAndAccuracy m acc) >>> k, unitExponent m e) := by
    simp only [shiftToTargetExponent, targetExponent_totalExponent, shiftToExponent]
    rw [show (unitExponent m e - e).toNat = k by omega, hk]
  obtain ⟨n, q, hcarry, hnormal, hq, hvalue⟩ := carry_spec hle (le_max_right _ _) hlead
  refine ⟨n, q, hnormal, hq, hvalue, ?_⟩
  unfold roundWithAccuracy
  simp only [hfirst, hr, unitExponent, hcarry]

theorem roundWithAccuracy_spec (s : Sign) {m : ℕ} {e : ℤ} (hm : 0 < m) (he : e ≤ unitExponent m e)
    (hhigh : unitExponent m e ≤ 970) :
    ∃ r, Rounds (m * 2 ^ e) (unitExponent m e) r ∧
      Canonical (roundWithAccuracy Format.binary64 s m e .exact) ∧
      unpackedValue? (roundWithAccuracy Format.binary64 s m e .exact) =
        some ((s.apply r * 2 ^ unitExponent m e : ℚ) : WithBotTop ℚ) := by
  obtain ⟨k, hk⟩ : ∃ k : ℕ, unitExponent m e = e + k := ⟨(unitExponent m e - e).toNat, by omega⟩
  have hrounds := rounds_shiftRight m k e
  rw [← hk] at hrounds
  generalize hr : ((ExtendedMantissa.mk m false false) >>> k).roundedMantissa = r at hrounds
  obtain ⟨n, q, hnormal, hq, hvalue, hround⟩ :=
    roundWithAccuracy_eq s .exact hk hr (hrounds.le hm) (hrounds.leading hm)
  have hsigned : (s.apply n * 2 ^ q : ℚ) = s.apply r * 2 ^ unitExponent m e := by
    cases s <;> simp [Sign.apply, hvalue]
  refine ⟨r, hrounds, ?_⟩
  rw [hround]
  split_ifs with hzero
  · refine ⟨trivial, ?_⟩
    rw [unpackedValue?_zero, ← hsigned, hzero]
    cases s <;> simp [Sign.apply]
  · exact ⟨⟨hnormal, by omega⟩, by rw [unpackedValue?_finite, hsigned]⟩

theorem log2_mul_pow {m : ℕ} (hm : 0 < m) (k : ℕ) : (m * 2 ^ k).log2 = m.log2 + k := by
  have hpos : 0 < 2 ^ k := by positivity
  rw [Nat.log2_eq_iff (Nat.mul_pos hm hpos).ne']
  constructor
  · rw [pow_add]
    exact Nat.mul_le_mul_right _ (Nat.log2_self_le hm.ne')
  · rw [add_right_comm, pow_add]
    exact Nat.mul_lt_mul_of_pos_right Nat.lt_log2_self hpos

/-- Before it is rounded, a number is written with an exponent that is not above that of its
unit. -/
theorem round_eq (s : Sign) {m : ℕ} (e : ℤ) (hm : 0 < m) :
    ∃ k : ℕ, UnpackedFloat.round Format.binary64 s m e =
      roundWithAccuracy Format.binary64 s (m * 2 ^ k) (e - k) .exact ∧
      e - k ≤ unitExponent m e ∧ unitExponent (m * 2 ^ k) (e - k) = unitExponent m e ∧
      (((m * 2 ^ k : ℕ) : ℚ) * 2 ^ (e - k)) = m * 2 ^ e := by
  obtain ⟨k, hk⟩ : ∃ k, (e - unitExponent m e).toNat = k := ⟨_, rfl⟩
  refine ⟨k, ?_, by omega, ?_, ?_⟩
  · simp only [UnpackedFloat.round, targetExponent_totalExponent, decreaseExponent, hk,
      Nat.shiftLeft_eq]
  · rw [unitExponent, log2_mul_pow hm, unitExponent]
    push_cast
    ring_nf
  · rw [zpow_sub₀ two_ne_zero, zpow_natCast]
    push_cast
    field_simp

theorem round_spec (s : Sign) {m : ℕ} {e : ℤ} (hm : 0 < m) (hhigh : unitExponent m e ≤ 970) :
    ∃ r, Rounds (m * 2 ^ e) (unitExponent m e) r ∧
      Canonical (UnpackedFloat.round Format.binary64 s m e) ∧
      unpackedValue? (UnpackedFloat.round Format.binary64 s m e) =
        some ((s.apply r * 2 ^ unitExponent m e : ℚ) : WithBotTop ℚ) := by
  obtain ⟨k, hround, hle, hunit, hvalue⟩ := round_eq s e hm
  have hspec := roundWithAccuracy_spec s (e := e - k) (Nat.mul_pos hm (Nat.two_pow_pos k))
    (by omega) (by omega)
  rwa [hvalue, hunit, ← hround] at hspec

/-! ## Rounding integers -/

/-- A value to which an integer may be rounded: the integer itself up to `2 ^ 53`, and never one
closer to zero than `2 ^ 53` beyond. -/
structure Approximates (z : ℤ) (w : ℚ) : Prop where
  exact : z.natAbs ≤ 2 ^ 53 → w = z
  above : 2 ^ 53 ≤ z → 2 ^ 53 ≤ w
  below : z ≤ -2 ^ 53 → w ≤ -2 ^ 53

theorem Approximates.refl (z : ℤ) : Approximates z z where
  exact _ := rfl
  above h := by exact_mod_cast h
  below h := by exact_mod_cast h

theorem Approximates.neg {z : ℤ} {w : ℚ} (h : Approximates z w) : Approximates (-z) (-w) where
  exact hz := by rw [h.exact (by omega), Int.cast_neg]
  above hz := le_neg.mpr (h.below (by omega))
  below hz := neg_le_neg (h.above (by omega))

/-- In a unit of at most one, integers are rounded to themselves. -/
theorem Rounds.natCast {z : ℕ} {t : ℤ} {r : ℕ} (h : Rounds z t r) (hlow : t ≤ 0) :
    (r * 2 ^ t : ℚ) = z := by
  obtain ⟨k, rfl⟩ : ∃ k : ℕ, t = -k := ⟨(-t).toNat, by omega⟩
  have hexact : ((z * 2 ^ k : ℕ) * 2 ^ (-(k : ℤ)) : ℚ) = z := by
    rw [zpow_neg, zpow_natCast]
    push_cast
    field_simp
  have hr : r = z * 2 ^ k := le_antisymm ((h _).2 hexact.ge) ((h _).1 hexact.le)
  rw [hr, hexact]

/-- In a unit of two, `2 ^ 53` is still rounded to itself, and nothing above is rounded below it. -/
theorem Rounds.approximates_of_le {z r : ℕ} (h : Rounds z 1 r) (hz : 2 ^ 53 ≤ z) :
    Approximates z (r * 2 ^ (1 : ℤ)) := by
  have hcast : ((2 ^ 53 : ℕ) : ℚ) ≤ z := by exact_mod_cast hz
  have hle : 2 ^ 52 ≤ r := (h (2 ^ 52)).1 (by push_cast at hcast ⊢; linarith)
  have hcast' : ((2 ^ 52 : ℕ) : ℚ) ≤ r := by exact_mod_cast hle
  refine ⟨fun hexact => ?_, fun _ => by push_cast at hcast' ⊢; linarith, fun hlow => by omega⟩
  obtain rfl : z = 2 ^ 53 := by omega
  obtain rfl : r = 2 ^ 52 := le_antisymm ((h (2 ^ 52)).2 (by norm_num)) hle
  norm_num

theorem lt_of_zpow_lt {a b : ℤ} (h : (2 : ℚ) ^ a < 2 ^ b) : a < b :=
  (zpow_lt_zpow_iff_right₀ one_lt_two).mp h

/-- An integer below `2 ^ 54` is rounded in a unit of at most two, and in one of two only from
`2 ^ 53` on. -/
theorem Rounds.approximates {m z r : ℕ} {e : ℤ} (h : Rounds z (unitExponent m e) r) (hm : 0 < m)
    (hvalue : (m * 2 ^ e : ℚ) = z) (hz : z < 2 ^ 54) :
    Approximates z (r * 2 ^ unitExponent m e) := by
  obtain ⟨hlow, hhigh⟩ := log2_bounds hm e
  rw [hvalue] at hlow hhigh
  have hlog : (m.log2 + e : ℤ) < 54 := by
    refine lt_of_zpow_lt (hlow.trans_lt ?_)
    exact_mod_cast hz
  rcases lt_or_ge z (2 ^ 53) with hsmall | hlarge
  · have hlog : (m.log2 + e : ℤ) < 53 := by
      refine lt_of_zpow_lt (hlow.trans_lt ?_)
      exact_mod_cast hsmall
    have hunit : unitExponent m e ≤ 0 := by
      unfold unitExponent
      omega
    rw [h.natCast hunit]
    exact Approximates.refl z
  · have hlog : (53 : ℤ) < m.log2 + e + 1 := by
      refine lt_of_zpow_lt (lt_of_le_of_lt ?_ hhigh)
      exact_mod_cast hlarge
    have hunit : unitExponent m e = 1 := by
      unfold unitExponent
      omega
    rw [hunit] at h ⊢
    exact h.approximates_of_le hlarge

theorem round_natCast (s : Sign) {m z : ℕ} {e : ℤ} (hm : 0 < m) (h : (m * 2 ^ e : ℚ) = z)
    (hz : z < 2 ^ 54) :
    Canonical (UnpackedFloat.round Format.binary64 s m e) ∧
      ∃ w : ℚ, unpackedValue? (UnpackedFloat.round Format.binary64 s m e) =
        some (w : WithBotTop ℚ) ∧ Approximates (s.apply z) w := by
  have hunit : unitExponent m e ≤ 970 := by
    have hlow := (log2_bounds hm e).1
    rw [h] at hlow
    have hlog : (m.log2 + e : ℤ) < 54 := lt_of_zpow_lt (hlow.trans_lt (by exact_mod_cast hz))
    unfold unitExponent
    omega
  obtain ⟨r, hrounds, hcanonical, hvalue⟩ := round_spec s hm hunit
  rw [h] at hrounds
  have happroximates := hrounds.approximates hm h hz
  refine ⟨hcanonical, s.apply r * 2 ^ unitExponent m e, hvalue, ?_⟩
  cases s with
  | positive => exact happroximates
  | negative =>
    simp only [Sign.apply, Int.cast_neg, neg_mul]
    exact happroximates.neg

/-! ## Packing -/

theorem finite_ext {s : Sign} {m n : ℕ} {e f : ℤ} {hm : 0 < m} {hn : 0 < n} (h : m = n)
    (h' : e = f) :
   UnpackedFloat.finite s m e hm = .finite s n f hn := by
  subst h h'
  rfl

theorem unpack_pack_finite (s : Sign) {m : ℕ} {e : ℤ} (hm : 0 < m) (hn : Normalized m e)
    (he : e ≤ 971) :
    UnpackedFloat.unpack Format.binary64 (UnpackedFloat.pack Format.binary64 (.finite s m e hm)) =
      .finite s m e hm := by
  have hlow := hn.exponent
  have hbias :
      (e + Format.binary64.exponentBias + Format.binary64.mantissaBitsWithoutImplicit).toNat =
      (e + 1075).toNat := by
    change (e + (1023 : ℕ) + (52 : ℕ)).toNat = _
    omega
  have hfits : ¬ 2 ^ 11 ≤ (e + 1075).toNat + 1 := by omega
  simp only [UnpackedFloat.pack, hbias]
  rw [if_neg hfits]
  by_cases hnormal : 2 ^ 52 ≤ m
  · have hlog : m.log2 + 1 = Format.binary64.mantissaBits := by
      rw [(Nat.log2_eq_iff hm.ne').mpr ⟨hnormal, hn.mantissa⟩]
      rfl
    have hexponent : (BitVec.ofNat 11 (e + 1075).toNat).toNat = (e + 1075).toNat := by
      rw [BitVec.toNat_ofNat]
      omega
    have hspecial : BitVec.ofNat 11 (e + 1075).toNat ≠ -1#11 := by
      intro h
      have : (e + 1075).toNat = 2047 := hexponent.symm.trans (congrArg BitVec.toNat h)
      omega
    have hzero : BitVec.ofNat 11 (e + 1075).toNat ≠ 0#11 := by
      intro h
      have : (e + 1075).toNat = 0 := hexponent.symm.trans (congrArg BitVec.toNat h)
      omega
    simp only [hlog, ↓reduceIte, UnpackedFloat.unpack, unpackMantissa_packComponents,
      unpackExponent_packComponents, unpackSign_packComponents, Sign.ofBitVec_toBitVec]
    rw [if_neg hspecial, if_neg hzero]
    refine finite_ext ?_ ?_
    · rw [toNat_leading, BitVec.toNat_ofNat]
      have := hn.mantissa
      omega
    · rw [hexponent]
      change ((e + 1075).toNat - ((1023 : ℕ) + (52 : ℕ)) : ℤ) = e
      omega
  · have hlog : m.log2 + 1 ≠ Format.binary64.mantissaBits := by
      have : m.log2 < 52 := (Nat.log2_lt hm.ne').mpr (by omega)
      change m.log2 + 1 ≠ 53
      omega
    have hmantissa : (BitVec.ofNat 52 m).toNat = m := by
      rw [BitVec.toNat_ofNat]
      omega
    have hzero : BitVec.ofNat 52 m ≠ 0#52 := by
      intro h
      have : m = 0 := hmantissa.symm.trans (congrArg BitVec.toNat h)
      omega
    simp only [hlog, ↓reduceIte, UnpackedFloat.unpack, unpackMantissa_packComponents,
      unpackExponent_packComponents, unpackSign_packComponents, Sign.ofBitVec_toBitVec]
    rw [if_neg (by decide), dif_neg hzero]
    refine finite_ext hmantissa ?_
    change ((0 : ℕ) - ((1023 : ℕ) + (52 : ℕ)) + 1 : ℤ) = e
    have := hn.leading
    omega

/-- Packing loses nothing of a float whose mantissa has the length that its exponent asks for. -/
theorem unpack_pack {u : UnpackedFloat} (h : Canonical u) : (Float.Model.pack u).unpack = u := by
  change UnpackedFloat.unpack Format.binary64 (UnpackedFloat.pack Format.binary64 u) = u
  cases u with
  | notANumber => exact unpack_packedNaN
  | zero s => exact unpack_packedZero
  | infinity s => simp [UnpackedFloat.unpack, UnpackedFloat.pack, packedInfinity]
  | finite s m e hm => exact unpack_pack_finite s hm h.1 h.2

theorem value?_pack {u : UnpackedFloat} (h : Canonical u) :
    value? (.ofModel (Float.Model.pack u)) = unpackedValue? u := by
  rw [value?_eq, unpack_pack h]

/-! ## Integers as floats -/

/-- The integer that a sum is in a common unit is rounded with its sign. -/
theorem normalize_intCast {k z e : ℤ} (h : (k * 2 ^ e : ℚ) = z) (hz : z.natAbs < 2 ^ 54) :
    Canonical (UnpackedFloat.normalize Format.binary64 k e .positive) ∧
      ∃ w : ℚ, unpackedValue? (UnpackedFloat.normalize Format.binary64 k e .positive) =
        some (w : WithBotTop ℚ) ∧ Approximates z w := by
  have hpos : (0 : ℚ) < 2 ^ e := by positivity
  have habs : ((k.natAbs : ℕ) * 2 ^ e : ℚ) = (z.natAbs : ℕ) := by
    rw [Nat.cast_natAbs, Nat.cast_natAbs, Int.cast_abs, Int.cast_abs, ← h, abs_mul, abs_of_pos hpos]
  unfold UnpackedFloat.normalize
  rcases lt_trichotomy k 0 with hk | rfl | hk
  · have hneg : z < 0 := by
      have : (z : ℚ) < 0 := h ▸ mul_neg_of_neg_of_pos (Int.cast_lt_zero.mpr hk) hpos
      exact_mod_cast this
    have hround := round_natCast .negative (Int.natAbs_pos.mpr hk.ne) habs hz
    rw [compare_lt_iff_lt.mpr hk]
    rwa [show k.natAbs =
      (-k).toNat by omega, show Sign.negative.apply z.natAbs = z by simp only [Sign.apply]; omega]
      at hround
  · obtain rfl : z = 0 := by
      rw [Int.cast_zero, zero_mul] at h
      exact_mod_cast h.symm
    exact ⟨trivial, 0, unpackedValue?_zero _, Approximates.refl 0⟩
  · have hgt : 0 < z := by
      have : (0 : ℚ) < z := h ▸ mul_pos (Int.cast_pos.mpr hk) hpos
      exact_mod_cast this
    have hround := round_natCast .positive (Int.natAbs_pos.mpr hk.ne') habs hz
    rw [compare_gt_iff_gt.mpr hk]
    rwa [show k.natAbs =
      k.toNat by omega, show Sign.positive.apply z.natAbs = z by simp only [Sign.apply]; omega]
      at hround

theorem value?_toFloat {n : UInt64} (h : n.toNat ≤ 2 ^ 53) :
    value? n.toFloat = some (((n.toNat : ℤ) : ℚ) : WithBotTop ℚ) := by
  have hone : ((n.toNat : ℤ) * 2 ^ (0 : ℤ) : ℚ) = (n.toNat : ℤ) := by simp
  obtain ⟨hcanonical, w, hvalue, happroximates⟩ := normalize_intCast hone (by omega)
  change value?
    (.ofModel (Float.Model.pack (UnpackedFloat.normalize Format.binary64 n.toNat 0 .positive))) = _
  rw [value?_pack hcanonical, hvalue, happroximates.exact (by omega)]

theorem unpackedValue?_eq_coe {u : UnpackedFloat} {r : ℚ}
    (h : unpackedValue? u = some (r : WithBotTop ℚ)) :
    (∃ s, u = .zero s ∧ r = 0) ∨ ∃ s m e hm, u = .finite s m e hm ∧ r = s.apply m * 2 ^ e := by
  cases u with
  | notANumber => cases h
  | infinity s =>
    cases s
    · exact absurd (Option.some.inj h).symm (WithBotTop.coe_ne_bot r)
    · exact absurd (Option.some.inj h).symm (WithBotTop.coe_ne_top r)
  | zero s =>
    rw [unpackedValue?_zero] at h
    exact .inl ⟨s, rfl, (WithBotTop.coe_injective (Option.some.inj h)).symm⟩
  | finite s m e hm =>
    rw [unpackedValue?_finite] at h
    exact .inr ⟨s, m, e, hm, rfl, (WithBotTop.coe_injective (Option.some.inj h)).symm⟩

theorem apply_neg (s : Sign) (k : ℤ) : (-s).apply k = -s.apply k := by
  cases s
  · exact (neg_neg k).symm
  · rfl

theorem value?_neg {x : Float} {r : ℚ} (h : value? x = some (r : WithBotTop ℚ)) :
    value? (-x) = some ((-r : ℚ) : WithBotTop ℚ) := by
  have hcanonical := canonical_unpack x
  rw [value?_eq] at h
  change value? (.ofModel (Float.Model.pack x.toModel.unpack.neg)) = _
  obtain ⟨s, hu, rfl⟩ | ⟨s, m, e, hm, hu, rfl⟩ := unpackedValue?_eq_coe h
  · have hneg : Canonical x.toModel.unpack.neg := by
      rw [hu]
      trivial
    rw [value?_pack hneg, hu, UnpackedFloat.neg, unpackedValue?_zero, neg_zero]
  · have hneg : Canonical x.toModel.unpack.neg := by
      rw [hu] at hcanonical ⊢
      exact hcanonical
    rw [value?_pack hneg, hu, UnpackedFloat.neg, unpackedValue?_finite, apply_neg,
      Int.cast_neg, neg_mul]

/-- A magnitude with a sign. -/
theorem value?_signed (s : Bool) {x : Float} {m : ℕ} {q : ℤ}
    (h : value? x = some ((m * 2 ^ q : ℚ) : WithBotTop ℚ)) :
    value? (if s then -x else x) = some ((signed s m * 2 ^ q : ℚ) : WithBotTop ℚ) := by
  cases s with
  | true =>
    rw [if_pos rfl, value?_neg h, signed, if_pos rfl, Int.cast_neg, neg_mul]
    rfl
  | false => exact h

/-- The integers up to `2 ^ 53` are floats. -/
theorem value?_ofInt64 {n : Int64} (h : n.toInt.natAbs ≤ 2 ^ 53) :
    value? (ofInt64 n) = some ((n.toInt : ℚ) : WithBotTop ℚ) := by
  have hword : (UInt64.ofNat n.toInt.natAbs).toNat = n.toInt.natAbs := by
    rw [UInt64.toNat_ofNat']
    omega
  have hmagnitude := value?_toFloat (n := UInt64.ofNat n.toInt.natAbs) (by omega)
  rw [hword] at hmagnitude
  have hsign : n < 0 ↔ n.toInt < 0 := Int64.lt_iff_toInt_lt
  simp only [ofInt64, hsign]
  split_ifs with hneg
  · rw [value?_neg hmagnitude, Int.ofNat_natAbs_of_nonpos hneg.le, Int.cast_neg, neg_neg]
  · rw [hmagnitude, Int.natAbs_of_nonneg (not_lt.mp hneg)]

theorem decreaseExponent_value (s : Sign) (m : ℕ) {e t : ℤ} (h : t ≤ e) :
    (s.apply (decreaseExponent m e t).1 * 2 ^ t : ℚ) = s.apply m * 2 ^ e := by
  obtain ⟨k, rfl⟩ : ∃ k : ℕ, e = t + k := ⟨(e - t).toNat, by omega⟩
  have hshift : (decreaseExponent m (t + k) t).1 = m * 2 ^ k := by
    rw [decreaseExponent, Nat.shiftLeft_eq, show (t + k - t).toNat = k by omega]
  rw [hshift, zpow_add₀ two_ne_zero, zpow_natCast]
  cases s
  all_goals
    simp only [Sign.apply]
    push_cast
    ring

/-- The sum of floats that hold integers is a rounding of the sum of the integers. -/
theorem value?_add {x y : Float} {a b : ℤ} (hx : value? x = some ((a : ℚ) : WithBotTop ℚ))
    (hy : value? y = some ((b : ℚ) : WithBotTop ℚ)) (hz : (a + b).natAbs < 2 ^ 54) :
    ∃ w : ℚ, value? (x + y) = some (w : WithBotTop ℚ) ∧ Approximates (a + b) w := by
  have hux := canonical_unpack x
  have huy := canonical_unpack y
  rw [value?_eq] at hx hy
  suffices h : Canonical (UnpackedFloat.add Format.binary64 x.toModel.unpack y.toModel.unpack) ∧
      ∃ w : ℚ,
        unpackedValue? (UnpackedFloat.add Format.binary64 x.toModel.unpack y.toModel.unpack) =
        some (w : WithBotTop ℚ) ∧ Approximates (a + b) w by
    have hsum := value?_pack h.1
    obtain ⟨-, w, hw, happroximates⟩ := h
    exact ⟨w, hsum.trans hw, happroximates⟩
  generalize x.toModel.unpack = u at *
  generalize y.toModel.unpack = v at *
  obtain ⟨s, rfl, ha⟩ | ⟨s, m, e, hm, rfl, ha⟩ := unpackedValue?_eq_coe hx
  · obtain rfl : a = 0 := by exact_mod_cast ha
    rw [zero_add]
    obtain ⟨t, rfl, hb⟩ | ⟨t, n, f, hn, rfl, hb⟩ := unpackedValue?_eq_coe hy
    · obtain rfl : b = 0 := by exact_mod_cast hb
      simp only [UnpackedFloat.add]
      split_ifs
      · exact ⟨trivial, 0, unpackedValue?_zero _, Approximates.refl 0⟩
      · exact ⟨trivial, 0, unpackedValue?_zero _, Approximates.refl 0⟩
    · exact ⟨huy, _, hy, Approximates.refl b⟩
  · obtain ⟨t, rfl, hb⟩ | ⟨t, n, f, hn, rfl, hb⟩ := unpackedValue?_eq_coe hy
    · obtain rfl : b = 0 := by exact_mod_cast hb
      rw [add_zero]
      exact ⟨hux, _, hx, Approximates.refl a⟩
    · simp only [UnpackedFloat.add]
      refine normalize_intCast ?_ hz
      rw [Int.cast_add, add_mul, decreaseExponent_value s m (min_le_left e f),
        decreaseExponent_value t n (min_le_right e f), ← ha, ← hb, Int.cast_add]

/-! ## The remainder -/

/-- A bit pattern that is not one of the special ones is kept. -/
theorem toBits_ofBits {b : UInt64} (h : b.toNat / 2 ^ 52 % 2 ^ 11 ≠ 2047) :
    (Float.ofBits b).toBits = b := by
  have hnan : ¬ @isNaNBits Format.binary64 b.toBitVec = true := by
    rw [isNaNBits, decide_eq_true_iff]
    rintro ⟨hexponent, -⟩
    apply h
    have hfield := toNat_unpackExponent b.toBitVec
    rw [hexponent] at hfield
    exact hfield.symm
  change UInt64.ofBitVec
    (UnpackedFloat.pack Format.binary64 (UnpackedFloat.unpack Format.binary64 b.toBitVec)) = b
  rw [@pack_unpack Format.binary64 b.toBitVec (by decide), if_neg hnan]

theorem parts_packed (s : Bool) {m : ℕ} {q : ℤ} (hn : Normalized m q) (hq : q ≤ 971) :
    parts (Float.ofBits (UInt64.ofNat (packed s m q))) = .finite s m q := by
  obtain ⟨hm, hlow, hlead⟩ := hn
  have hfields : packed s m q = s.toNat * 2 ^ 63 + m ∧ q = -1074 ∧ m < 2 ^ 52 ∨
      packed s m q = s.toNat * 2 ^ 63 + (q + 1075).toNat * 2 ^ 52 + (m - 2 ^ 52) ∧ 2 ^ 52 ≤ m := by
    unfold packed
    split_ifs <;> omega
  have hbool : s.toNat ≤ 1 := Bool.toNat_le s
  have hsign : (packed s m q / 2 ^ 63 == 1) = s := by
    have : packed s m q / 2 ^ 63 = s.toNat := by omega
    rw [this]
    cases s <;> rfl
  have hword : (UInt64.ofNat (packed s m q)).toNat = packed s m q := by
    rw [UInt64.toNat_ofNat']
    omega
  have hspecial : packed s m q / 2 ^ 52 % 2 ^ 11 ≠ 2047 := by omega
  have hbits : (Float.ofBits (UInt64.ofNat (packed s m q))).toBits = UInt64.ofNat (packed s m q) :=
    toBits_ofBits (by rwa [hword])
  simp only [parts, isNegative, hbits, hword, Nat.pow_eq, hsign, if_neg hspecial]
  rcases hfields with ⟨hpacked, rfl, hsub⟩ | ⟨hpacked, hlead⟩
  · rw [if_pos (by omega)]
    congr 1
    omega
  · rw [if_neg (by omega)]
    congr 1 <;> omega

/-- The bits of a float that is put together are those of its normalized content. -/
theorem ofParts_eq (s : Bool) {m : ℕ} {q : ℤ} (hm : m < 2 ^ 53) (hlow : -1074 ≤ q) :
    ∃ n p, Normalized n p ∧ p ≤ max q (-1074) ∧ (n * 2 ^ p : ℚ) = m * 2 ^ q ∧
      ofParts s m q = Float.ofBits (UInt64.ofNat (packed s n p)) := by
  have hsign : (if s then 2 ^ 63 else 0) = s.toNat * 2 ^ 63 := by cases s <;> simp
  rcases Nat.eq_zero_or_pos m with rfl | hpos
  · refine ⟨0, -1074, ⟨by norm_num, le_rfl, .inl rfl⟩, le_max_right _ _, by simp, ?_⟩
    simp only [ofParts, packed, Nat.pow_eq, zero_mul, hsign]
    rw [if_pos (by norm_num), if_pos (by norm_num)]
  · obtain ⟨k, hk⟩ : ∃ k, min (52 - m.log2) (q + 1074).toNat = k := ⟨_, rfl⟩
    have hlog : m.log2 < 53 := (Nat.log2_lt hpos.ne').mpr hm
    have hscaled : (m * 2 ^ k).log2 = m.log2 + k := log2_mul_pow hpos k
    have hscaledPos : m * 2 ^ k ≠ 0 := (Nat.mul_pos hpos (Nat.two_pow_pos k)).ne'
    have hupper : m * 2 ^ k < 2 ^ 53 := (Nat.log2_lt hscaledPos).mp (by omega)
    have hlower : q - k = -1074 ∨ 2 ^ 52 ≤ m * 2 ^ k := by
      rw [← Nat.le_log2 hscaledPos]
      omega
    refine ⟨m * 2 ^ k, q - k, ⟨hupper, by omega, hlower⟩, by omega, ?_, ?_⟩
    · rw [zpow_sub₀ two_ne_zero, zpow_natCast]
      push_cast
      field_simp
    · simp only [ofParts, packed, Nat.pow_eq, hk, hsign]
      congr 2
      split_ifs <;> omega

theorem value?_ofParts (s : Bool) {m : ℕ} {q : ℤ} (hm : m < 2 ^ 53) (hlow : -1074 ≤ q)
    (hhigh : q ≤ 971) :
    value? (ofParts s m q) = some ((signed s m * 2 ^ q : ℚ) : WithBotTop ℚ) := by
  obtain ⟨n, p, hnormal, hp, hvalue, hbits⟩ := ofParts_eq s hm hlow
  rw [hbits, value?, parts_packed s hnormal (by omega), Parts.value?]
  congr 2
  cases s <;> simp [signed, hvalue]

/-- Numbers in a common unit have the remainder of their multiples. -/
theorem mod_scaled {m n a b : ℕ} {e : ℤ} (ha : (m * 2 ^ e : ℚ) = a) (hb : (n * 2 ^ e : ℚ) = b) :
    ((m % n : ℕ) * 2 ^ e : ℚ) = (a % b : ℕ) := by
  rcases le_or_gt 0 e with he | he
  · lift e to ℕ using he
    have ha : m * 2 ^ e = a := by exact_mod_cast ha
    have hb : n * 2 ^ e = b := by exact_mod_cast hb
    rw [← ha, ← hb, Nat.mul_mod_mul_right]
    push_cast
    rfl
  · obtain ⟨k, rfl⟩ : ∃ k : ℕ, e = -k := ⟨(-e).toNat, by omega⟩
    have hscale : ∀ {i j : ℕ}, (i * 2 ^ (-(k : ℤ)) : ℚ) = j ↔ i = j * 2 ^ k := by
      intro i j
      rw [zpow_neg, zpow_natCast, ← div_eq_mul_inv, div_eq_iff (by positivity)]
      norm_cast
    rw [hscale] at ha hb ⊢
    rw [ha, hb, Nat.mul_mod_mul_right]

theorem tmod_signed (s : Bool) (a : ℕ) (b : ℤ) : (signed s a).tmod b = signed s (a % b.natAbs) := by
  have hmod : (a : ℤ).tmod b = (a % b.natAbs : ℕ) := by
    obtain ⟨k, rfl | rfl⟩ := b.eq_nat_or_neg
    · rfl
    · rw [Int.tmod_neg, Int.natAbs_neg]
      rfl
  cases s <;> simp [signed, hmod]

theorem signed_scaled (s : Bool) {m k : ℕ} {e : ℤ} (h : (m * 2 ^ e : ℚ) = k) :
    (signed s m * 2 ^ e : ℚ) = signed s k := by
  cases s <;> simp [signed, h]

/-- The magnitude of an integer, in a smaller unit than the one its float has. -/
theorem natAbs_of_signed {s : Bool} {m : ℕ} {q e a : ℤ} (h : (signed s m * 2 ^ q : ℚ) = a)
    (he : e ≤ q) :
    ((m * 2 ^ (q - e).toNat : ℕ) * 2 ^ e : ℚ) = a.natAbs ∧ a = signed s a.natAbs := by
  have hpos : (0 : ℚ) < 2 ^ q := by positivity
  have habs : (m * 2 ^ q : ℚ) = a.natAbs := by
    rw [Nat.cast_natAbs, Int.cast_abs, ← h, abs_mul, abs_of_pos hpos, ← Int.cast_abs,
      Int.abs_eq_natAbs, natAbs_signed]
    norm_cast
  constructor
  · obtain ⟨k, rfl⟩ : ∃ k : ℕ, q = e + k := ⟨(q - e).toNat, by omega⟩
    rw [← habs, show (e + k - e).toNat = k by omega, zpow_add₀ two_ne_zero, zpow_natCast]
    push_cast
    ring
  · rw [signed_scaled s habs] at h
    exact_mod_cast h.symm

/-- The remainder of floats that hold integers is the truncated remainder of the integers, without
rounding. -/
theorem value?_remainder {x y : Float} {a b : ℤ} (hx : value? x = some ((a : ℚ) : WithBotTop ℚ))
    (hy : value? y = some ((b : ℚ) : WithBotTop ℚ)) (hb : b ≠ 0) :
    value? (remainder x y) = some ((a.tmod b : ℚ) : WithBotTop ℚ) := by
  obtain ⟨s, m, q, hpx, hvx⟩ := finite_of_value? hx
  obtain ⟨t, n, p, hpy, hvy⟩ := finite_of_value? hy
  obtain ⟨hmx, hsx⟩ := natAbs_of_signed hvx (min_le_left q p)
  obtain ⟨hmy, -⟩ := natAbs_of_signed hvy (min_le_right q p)
  have hnx := (finite_of_parts hpx).1
  have hny := (finite_of_parts hpy).1
  have hn : n ≠ 0 := by
    rintro rfl
    rw [zero_mul, Nat.cast_zero, zero_mul] at hmy
    exact hb (Int.natAbs_eq_zero.mp (by exact_mod_cast hmy.symm))
  -- One of the two mantissas is not scaled, and the remainder is below it.
  have hlt : m * 2 ^ (q - min q p).toNat % (n * 2 ^ (p - min q p).toNat) < 2 ^ 53 := by
    rcases le_total q p with h | h
    · rw [min_eq_left h, sub_self]
      refine (Nat.mod_le _ _).trans_lt ?_
      simpa using hnx.mantissa
    · rw [min_eq_right h, sub_self]
      refine (Nat.mod_lt _ (by positivity)).trans ?_
      simpa using hny.mantissa
  have hlow := le_min hnx.exponent hny.exponent
  have hhigh := (min_le_left q p).trans (exponent_le_of_parts hpx)
  simp only [remainder, hpx, hpy, Nat.pow_eq, if_neg hn]
  rw [value?_ofParts s hlt hlow hhigh, hsx, tmod_signed, signed_scaled s (mod_scaled hmx hmy)]

end LuaMachine.Binary64
