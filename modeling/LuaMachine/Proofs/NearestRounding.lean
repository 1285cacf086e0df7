import LuaMachine.Number.Numeral
import LuaMachine.Proofs.FloatRounding

/-!
# Rounding to the nearest float

A result of arithmetic is the float nearest to the exact one, and of two that are equally near the
one with the even mantissa. This is proved on the mantissa and the two bits that are kept of what is
cut off it: they compare what was cut off with a half. From the integers it is carried over to
products, quotients and sums, and to decimal fractions. A value that has a float is not changed by
it, and a value in the interval around a float becomes that float.
-/
namespace LuaMachine.Binary64
open Float.Model Float.Model.UnpackedFloat

/-! ## Rounding to an integer -/

/-- The integer nearest to a value, an even one at equal distance: it exceeds `j` when the value is
past the middle between `j` and the next. -/
def Nearest (w : ℚ) (r : ℕ) : Prop :=
  ∀ j : ℕ, j < r ↔ (j + 1 / 2 < w ∨ w = j + 1 / 2 ∧ j % 2 = 1)

/-- The mantissa is the integral part of a value, and the bits say how the rest compares with a
half. -/
structure Truncation (em : ExtendedMantissa) (w : ℚ) : Prop where
  low : em.mantissa ≤ w
  high : w < em.mantissa + 1
  round : em.roundBit = true ↔ em.mantissa + 1 / 2 ≤ w
  sticky : em.stickyBit = true ↔ w ≠ em.mantissa ∧ w ≠ em.mantissa + 1 / 2

section Truncating
variable {em : ExtendedMantissa} {w : ℚ}

/-- A value taken apart into its integral part and the rest. -/
theorem Truncation.of_fraction {k : ℕ} {r s : Bool} {f : ℚ} (hzero : 0 ≤ f) (hone : f < 1)
    (hround : r = true ↔ 1 / 2 ≤ f) (hsticky : s = true ↔ f ≠ 0 ∧ f ≠ 1 / 2) :
    Truncation ⟨k, r, s⟩ (k + f) where
  low := le_add_of_nonneg_right hzero
  high := by simpa using hone
  round := by simpa using hround
  sticky := by simpa using hsticky

theorem Truncation.exact (m : ℕ) : Truncation ⟨m, false, false⟩ m := by
  simpa using Truncation.of_fraction (k := m) (r := false) (s := false) le_rfl one_pos
    (by simp) (by simp)

/-- The quotient of integers with its remainder. -/
theorem Truncation.quotient (m : ℕ) {n : ℕ} (hn : 0 < n) :
    Truncation (.ofMantissaAndAccuracy (m / n) (accuracyOfFraction (m % n) n)) (m / n : ℚ) := by
  have hpos : (0 : ℚ) < n := by exact_mod_cast hn
  obtain ⟨f, hf, hzero, hone⟩ : ∃ f : ℚ, f * n = (m % n : ℕ) ∧ 0 ≤ f ∧ f < 1 := by
    refine ⟨(m % n : ℕ) / n, div_mul_cancel₀ _ hpos.ne', by positivity, ?_⟩
    rw [div_lt_one hpos]
    exact_mod_cast Nat.mod_lt m hn
  have hsplit : (m / n : ℚ) = (m / n : ℕ) + f := by
    rw [div_eq_iff hpos.ne', add_mul, hf]
    exact_mod_cast (Nat.div_add_mod' m n).symm
  have hhalf : cmp (2 * (m % n)) n = cmp f (1 / 2) := by
    have hscale : StrictMono fun g : ℚ => 2 * n * g := fun _ _ h =>
      mul_lt_mul_of_pos_left h (by positivity)
    rw [← hscale.cmp_map_eq f (1 / 2), ← (Nat.strictMono_cast (α := ℚ)).cmp_map_eq]
    congr 1
    · push_cast
      rw [← hf]
      ring
    · ring
  rw [hsplit]
  unfold accuracyOfFraction
  split_ifs with hexact
  · obtain rfl : f = 0 := by
      rw [hexact, Nat.cast_zero] at hf
      exact (mul_eq_zero.mp hf).resolve_right hpos.ne'
    rw [add_zero]
    exact .exact _
  · have hne : f ≠ 0 := by
      rintro rfl
      rw [zero_mul] at hf
      exact hexact (by exact_mod_cast hf.symm)
    rw [← cmp_eq_compare, hhalf]
    rcases lt_trichotomy f (1 / 2) with h | h | h
    · rw [h.cmp_eq_lt]
      exact .of_fraction hzero hone (by simpa using h) (by simpa [hne] using h.ne)
    · rw [cmp_eq_eq_iff _ _ |>.mpr h]
      exact .of_fraction hzero hone (by simp [h]) (by simp [h])
    · rw [cmp_eq_gt_iff _ _ |>.mpr h]
      exact .of_fraction hzero hone (by simpa using h.le) (by simpa [hne] using h.ne')

theorem Truncation.shiftRightOne (h : Truncation em w) : Truncation em.shiftRightOne (w / 2) := by
  obtain ⟨m, r, s⟩ := em
  obtain ⟨hlow, hhigh, hround, hsticky⟩ := h
  dsimp only at hlow hhigh hround hsticky
  -- Of what was cut off before, only whether it is anything at all still counts.
  have hcut : (r || s) = true ↔ w - m ≠ 0 := by
    rw [sub_ne_zero, Bool.or_eq_true, hround, hsticky]
    constructor
    · rintro (hhalf | ⟨hne, -⟩)
      · rintro rfl
        linarith
      · exact hne
    · intro hne
      by_cases hhalf : m + 1 / 2 ≤ w
      · exact .inl hhalf
      · exact .inr ⟨hne, fun heq => hhalf heq.ge⟩
  rcases Nat.even_or_odd' m with ⟨k, rfl | rfl⟩
  · have hshift : (ExtendedMantissa.mk (2 * k) r s).shiftRightOne = ⟨k, false, r || s⟩ := by
      simp [ExtendedMantissa.shiftRightOne]
    push_cast at hlow hhigh hcut
    have hsplit : w / 2 = k + (w - 2 * k) / 2 := by ring
    rw [hshift, hsplit]
    have hhalf : (w - 2 * k) / 2 < 1 / 2 := by linarith
    refine .of_fraction (by linarith) (by linarith) (by simpa using hhalf) ?_
    rw [hcut]
    exact ⟨fun hne => ⟨div_ne_zero hne two_ne_zero, hhalf.ne⟩,
      fun hne => (div_ne_zero_iff.mp hne.1).1⟩
  · have hshift : (ExtendedMantissa.mk (2 * k + 1) r s).shiftRightOne = ⟨k, true, r || s⟩ := by
      simp [ExtendedMantissa.shiftRightOne]
      omega
    push_cast at hlow hhigh hcut
    have hsplit : w / 2 = k + ((w - (2 * k + 1)) / 2 + 1 / 2) := by ring
    rw [hshift, hsplit]
    refine .of_fraction (by linarith) (by linarith) (iff_of_true rfl (by linarith)) ?_
    rw [hcut]
    refine ⟨fun hne => ⟨by linarith, ?_⟩, fun hne hzero => hne.2 (by rw [hzero]; norm_num)⟩
    simpa using hne

theorem Truncation.shiftRight (h : Truncation em w) (k : ℕ) :
    Truncation (em >>> k) (w / 2 ^ k) := by
  induction k with
  | zero => simpa [HShiftRight.hShiftRight, Nat.repeat] using h
  | succ k ih =>
    rw [pow_succ, ← div_div]
    exact ih.shiftRightOne

theorem Truncation.nearest (h : Truncation em w) : Nearest w em.roundedMantissa := by
  intro j
  have hfloor := mantissa_le_rounded em
  have hceil := rounded_le em
  obtain ⟨m, r, s⟩ := em
  obtain ⟨hlow, hhigh, hround, hsticky⟩ := h
  dsimp only at *
  rcases lt_trichotomy j m with hj | rfl | hj
  · have hcast : (j + 1 : ℚ) ≤ m := by exact_mod_cast hj
    exact iff_of_true (hj.trans_le hfloor) (.inl (by linarith))
  · have hhalf : r = false → ¬ (j + 1 / 2 < w ∨ w = j + 1 / 2 ∧ j % 2 = 1) := by
      intro hr
      have hlt : w < j + 1 / 2 := by simpa [hr] using hround
      rintro (h | ⟨h, -⟩) <;> linarith
    cases r <;> cases s <;>
      simp only [ExtendedMantissa.roundedMantissa, ExtendedMantissa.accuracy,
        Accuracy.roundToNearestEven]
    · exact iff_of_false (lt_irrefl j) (hhalf rfl)
    · exact iff_of_false (lt_irrefl j) (hhalf rfl)
    · have hle : j + 1 / 2 ≤ w := by simpa using hround
      have heq : w = j + 1 / 2 := by
        by_contra hne
        exact absurd (hsticky.mpr ⟨by linarith, hne⟩) Bool.false_ne_true
      simp only [heq, lt_irrefl, true_and, false_or]
      omega
    · have hle : j + 1 / 2 ≤ w := by simpa using hround
      have hne : w ≠ j + 1 / 2 := (hsticky.mp rfl).2
      exact iff_of_true (lt_add_one j) (.inl (lt_of_le_of_ne hle hne.symm))
  · have hcast : (m + 1 : ℚ) ≤ j := by exact_mod_cast hj
    refine iff_of_false (by omega) ?_
    rintro (h | ⟨h, -⟩) <;> linarith

end Truncating

/-! ## Rounding to a float -/

/-- `2 ^ t` is the unit in which a positive value is rounded to 53 bits, unless it is the least
one. -/
structure UnitOf (v : ℚ) (t : ℤ) : Prop where
  least : -1074 ≤ t
  high : v < 2 ^ (t + 53)
  low : t = -1074 ∨ 2 ^ (t + 52) ≤ v

/-- The value itself below `2 ^ 1024`, and infinity from there on. -/
def limited (v : ℚ) : WithBotTop ℚ :=
  if v < 2 ^ (1024 : ℤ) then v else ⊤

theorem limited_of_lt {v : ℚ} (h : v < 2 ^ (1024 : ℤ)) : limited v = v := if_pos h

theorem limited_of_le {v : ℚ} (h : 2 ^ (1024 : ℤ) ≤ v) : limited v = ⊤ := if_neg h.not_gt

/-- The float is the nearest one to a positive value, and infinite if that would be `2 ^ 1024` or
more. -/
def Rounded (v : ℚ) (x : Float) : Prop :=
  ∃ t r, UnitOf v t ∧ Nearest (v / 2 ^ t) r ∧ value? x = some (limited (r * 2 ^ t))

section Packing

theorem pack_of_large (s : Sign) {m : ℕ} {e : ℤ} (hm : 0 < m) (he : 972 ≤ e) :
    Float.Model.pack (.finite s m e hm) = Float.Model.pack (.infinity s) := by
  have hbias :
      (e + Format.binary64.exponentBias + Format.binary64.mantissaBitsWithoutImplicit).toNat =
      (e + 1075).toNat := by
    change (e + (1023 : ℕ) + (52 : ℕ)).toNat = _
    omega
  have hlarge : 2 ^ 11 ≤ (e + 1075).toNat + 1 := by omega
  have hpack : UnpackedFloat.pack Format.binary64 (.finite s m e hm) =
      UnpackedFloat.pack Format.binary64 (.infinity s) := by
    simp only [UnpackedFloat.pack, hbias]
    rw [if_pos hlarge]
  simp only [Float.Model.pack, hpack]

theorem value?_pack_zero (s : Sign) :
    value? (.ofModel (Float.Model.pack (.zero s))) = some ((0 : ℚ) : WithBotTop ℚ) :=
  (value?_pack (u := .zero s) trivial).trans (unpackedValue?_zero s)

theorem value?_pack_infinity :
    value? (.ofModel (Float.Model.pack (.infinity .positive))) = some ⊤ :=
  value?_pack (u := .infinity .positive) trivial

theorem Normalized.lt_overflow {n : ℕ} {q : ℤ} (hn : Normalized n q) (hq : q ≤ 971) :
    (n * 2 ^ q : ℚ) < 2 ^ (1024 : ℤ) := by
  have hmantissa : (n : ℚ) < 2 ^ (53 : ℤ) := by exact_mod_cast hn.mantissa
  calc (n * 2 ^ q : ℚ) < 2 ^ (53 : ℤ) * 2 ^ q := by gcongr
    _ = 2 ^ (53 + q) := (zpow_add₀ two_ne_zero _ _).symm
    _ ≤ 2 ^ (1024 : ℤ) := zpow_le_zpow_right₀ one_le_two (by omega)

/-- A mantissa of 53 bits with too large an exponent. -/
theorem overflow_le {n : ℕ} {q : ℤ} (hn : 2 ^ 52 ≤ n) (hq : 971 < q) :
    (2 ^ (1024 : ℤ) : ℚ) ≤ n * 2 ^ q := by
  have hmantissa : (2 ^ (52 : ℤ) : ℚ) ≤ n := by exact_mod_cast hn
  calc (2 ^ (1024 : ℤ) : ℚ) ≤ 2 ^ (52 + q) := zpow_le_zpow_right₀ one_le_two (by omega)
    _ = 2 ^ (52 : ℤ) * 2 ^ q := zpow_add₀ two_ne_zero _ _
    _ ≤ n * 2 ^ q := by gcongr

theorem Normalized.exponent_le {n : ℕ} {q : ℤ} (hn : Normalized n q)
    (h : (n * 2 ^ q : ℚ) < 2 ^ (1024 : ℤ)) : q ≤ 971 := by
  by_contra hq
  exact absurd h (overflow_le (hn.leading.resolve_left (by omega)) (not_le.mp hq)).not_gt

/-- A normalized mantissa is packed as it is, or to infinity if its exponent is too large. -/
theorem value?_pack_normalized {n : ℕ} {q : ℤ} (hn : Normalized n q) :
    value? (.ofModel (Float.Model.pack (if h : n = 0 then .zero .positive
      else .finite .positive n q (Nat.pos_of_ne_zero h)))) =
      some (limited (n * 2 ^ q)) := by
  by_cases hzero : n = 0
  · rw [dif_pos hzero, value?_pack_zero, hzero, Nat.cast_zero, zero_mul,
      limited_of_lt (by positivity)]
  · rw [dif_neg hzero]
    rcases lt_or_ge (n * 2 ^ q : ℚ) (2 ^ (1024 : ℤ)) with hlt | hlarge
    · have hcanonical : Canonical (.finite .positive n q (Nat.pos_of_ne_zero hzero)) :=
        ⟨hn, hn.exponent_le hlt⟩
      rw [value?_pack hcanonical, unpackedValue?_positive, limited_of_lt hlt]
    · have hq : 971 < q := not_le.mp fun hq => (hn.lt_overflow hq).not_ge hlarge
      rw [pack_of_large _ _ (by omega), value?_pack_infinity, limited_of_le hlarge]

end Packing

section Rounding
variable {v : ℚ} {t : ℤ} {r : ℕ}

theorem UnitOf.div_lt (h : UnitOf v t) : v / 2 ^ t < 2 ^ 53 := by
  rw [div_lt_iff₀ (by positivity)]
  calc v < 2 ^ (t + 53) := h.high
    _ = 2 ^ 53 * 2 ^ t := by rw [add_comm, zpow_add₀ two_ne_zero]; norm_num

theorem UnitOf.le_div (h : UnitOf v t) : t = -1074 ∨ 2 ^ 52 ≤ v / 2 ^ t := by
  refine h.low.imp_right fun hlow => ?_
  rw [le_div_iff₀ (by positivity)]
  calc (2 ^ 52 * 2 ^ t : ℚ) = 2 ^ (t + 52) := by rw [add_comm t, zpow_add₀ two_ne_zero]; norm_num
    _ ≤ v := hlow

/-- A value below `2 ^ 53` units is rounded to at most so many. -/
theorem Nearest.le {w : ℚ} (h : Nearest w r) (hw : w < 2 ^ 53) : r ≤ 2 ^ 53 := by
  by_contra hlt
  rcases (h (2 ^ 53)).mp (not_le.mp hlt) with hpast | ⟨heq, -⟩
  · push_cast at hpast
    linarith
  · push_cast at heq
    linarith

theorem Nearest.leading {w : ℚ} (h : Nearest w r) (hw : 2 ^ 52 ≤ w) : 2 ^ 52 ≤ r := by
  have hpast : 2 ^ 52 - 1 < r := (h (2 ^ 52 - 1)).mpr (.inl (by norm_num at hw ⊢; linarith))
  omega

theorem mantissa_ofMantissaAndAccuracy (m : ℕ) (acc : Accuracy) :
    (ExtendedMantissa.ofMantissaAndAccuracy m acc).mantissa = m := by
  rcases acc with - | (- | - | -) <;> rfl

/-- The unit of a value is that of its integral part, in any finer unit. -/
theorem Truncation.unitOf {m : ℕ} {e : ℤ} {acc : Accuracy}
    (h : Truncation (.ofMantissaAndAccuracy m acc) (v / 2 ^ e)) (hm : 0 < m ∨ e ≤ -1022) :
    UnitOf v (unitExponent m e) := by
  have hpos : (0 : ℚ) < 2 ^ e := by positivity
  have hlow := h.low
  have hhigh := h.high
  rw [mantissa_ofMantissaAndAccuracy, le_div_iff₀ hpos] at hlow
  rw [mantissa_ofMantissaAndAccuracy, div_lt_iff₀ hpos] at hhigh
  refine ⟨le_max_right _ _, ?_, ?_⟩
  · have hnext : ((m + 1 : ℕ) : ℚ) ≤ ((2 ^ (m.log2 + 1) : ℕ) : ℚ) := by
      exact_mod_cast Nat.lt_log2_self
    push_cast at hnext
    calc v < (m + 1) * 2 ^ e := hhigh
      _ ≤ 2 ^ (m.log2 + 1) * 2 ^ e := by gcongr
      _ = 2 ^ ((m.log2 + 1 : ℕ) + e : ℤ) := by rw [zpow_add₀ two_ne_zero, zpow_natCast]
      _ ≤ 2 ^ (unitExponent m e + 53) :=
        zpow_le_zpow_right₀ one_le_two (by unfold unitExponent; omega)
  · by_cases hleast : unitExponent m e = -1074
    · exact .inl hleast
    · have hm : 0 < m := by
        rcases Nat.eq_zero_or_pos m with rfl | hpos
        · have he := hm.resolve_left (lt_irrefl 0)
          rw [unitExponent, Nat.log2_zero] at hleast
          omega
        · exact hpos
      refine .inr ?_
      calc (2 ^ (unitExponent m e + 52) : ℚ) = 2 ^ (m.log2 + e : ℤ) := by
            congr 1
            unfold unitExponent at hleast ⊢
            omega
        _ ≤ m * 2 ^ e := (log2_bounds hm e).1
        _ ≤ v := hlow

/-- A value of which the integral part in some finer unit is known, and what was cut off, is rounded
to the nearest. -/
theorem roundWithAccuracy_rounded {m : ℕ} {e : ℤ} {acc : Accuracy}
    (h : Truncation (.ofMantissaAndAccuracy m acc) (v / 2 ^ e)) (he : e ≤ unitExponent m e)
    (hm : 0 < m ∨ e ≤ -1022) :
    Rounded v
      (.ofModel (Float.Model.pack (roundWithAccuracy Format.binary64 .positive m e acc))) := by
  obtain ⟨k, hk⟩ : ∃ k : ℕ, unitExponent m e = e + k := ⟨(unitExponent m e - e).toNat, by omega⟩
  have hunit := h.unitOf hm
  have hnearest := (h.shiftRight k).nearest
  have hscale : v / 2 ^ e / 2 ^ k = v / 2 ^ unitExponent m e := by
    rw [hk, zpow_add₀ two_ne_zero, zpow_natCast, div_div]
  rw [hscale] at hnearest
  generalize hr : ((ExtendedMantissa.ofMantissaAndAccuracy m acc) >>> k).roundedMantissa =
    r at hnearest
  obtain ⟨n, q, hnormal, -, hvalue, hround⟩ :=
    roundWithAccuracy_eq .positive acc hk hr (hnearest.le hunit.div_lt)
      (hunit.le_div.imp_right hnearest.leading)
  refine ⟨_, r, hunit, hnearest, ?_⟩
  rw [hround, value?_pack_normalized hnormal, hvalue]

end Rounding

/-! ## The interval around a float -/

/-- The values that are rounded to an integer, the ends included if it is even. -/
def Near (m : ℕ) (w : ℚ) : Prop :=
  if m % 2 = 0 then m - 1 / 2 ≤ w ∧ w ≤ m + 1 / 2 else m - 1 / 2 < w ∧ w < m + 1 / 2

/-- How far the interval around a mantissa goes down: half a unit, but only a quarter from the least
mantissa with a finer unit below it. -/
def gapBelow (m : ℕ) (q : ℤ) : ℚ :=
  if m = 2 ^ 52 ∧ -1074 < q then 1 / 4 else 1 / 2

/-- The values that are rounded to `m * 2 ^ q`. -/
def Encloses (m : ℕ) (q : ℤ) (v : ℚ) : Prop :=
  if m % 2 = 0 then m - gapBelow m q ≤ v / 2 ^ q ∧ v / 2 ^ q ≤ m + 1 / 2
  else m - gapBelow m q < v / 2 ^ q ∧ v / 2 ^ q < m + 1 / 2

section Intervals
variable {m : ℕ} {q : ℤ} {v w : ℚ} {x : Float}

theorem Nearest.eq_of_near {r : ℕ} (h : Nearest w r) (hm : 0 < m) (hnear : Near m w) : r = m := by
  obtain ⟨k, rfl⟩ : ∃ k, m = k + 1 := ⟨m - 1, by omega⟩
  have hup := h k
  have hdown := h (k + 1)
  unfold Near at hnear
  push_cast at hnear hdown
  split_ifs at hnear with heven
  · have hlt : k < r := by
      refine hup.mpr ?_
      rcases hnear.1.lt_or_eq with hlt | heq
      · exact .inl (by linarith)
      · exact .inr ⟨by linarith, by omega⟩
    have hle : ¬ k + 1 < r := by
      rw [hdown]
      rintro (hlt | ⟨-, hodd⟩)
      · linarith
      · omega
    omega
  · have hlt : k < r := hup.mpr (.inl (by linarith))
    have hle : ¬ k + 1 < r := by
      rw [hdown]
      rintro (hlt | ⟨heq, -⟩) <;> linarith
    omega

theorem gapBelow_pos (m : ℕ) (q : ℤ) : 0 < gapBelow m q := by
  unfold gapBelow
  split_ifs <;> norm_num

theorem encloses_below (hlow : m - gapBelow m q < v / 2 ^ q) (hhigh : v / 2 ^ q ≤ m) :
    Encloses m q v := by
  unfold Encloses
  split_ifs
  · exact ⟨hlow.le, by linarith⟩
  · exact ⟨hlow, by linarith⟩

theorem encloses_above (hlow : m ≤ v / 2 ^ q) (hhigh : v / 2 ^ q < m + 1 / 2) : Encloses m q v := by
  have hgap := gapBelow_pos m q
  unfold Encloses
  split_ifs
  · exact ⟨by linarith, hhigh.le⟩
  · exact ⟨by linarith, hhigh⟩

theorem Encloses.near (h : Encloses m q v) : Near m (v / 2 ^ q) := by
  have hgap : gapBelow m q ≤ 1 / 2 := by
    unfold gapBelow
    split_ifs <;> norm_num
  unfold Encloses at h
  unfold Near
  split_ifs at h ⊢
  · exact ⟨by linarith, h.2⟩
  · exact ⟨by linarith, h.2⟩

theorem Near.bounds (h : Near m w) : m - 1 / 2 ≤ w ∧ w ≤ m + 1 / 2 := by
  unfold Near at h
  split_ifs at h
  · exact h
  · exact ⟨h.1.le, h.2.le⟩

theorem Encloses.low (h : Encloses m q v) : m - gapBelow m q ≤ v / 2 ^ q := by
  unfold Encloses at h
  split_ifs at h
  · exact h.1
  · exact h.1.le

/-- A value in the interval is rounded in the unit of the float, or in the next finer one just below
the least mantissa. -/
theorem Encloses.unit_cases {t : ℤ} (h : Encloses m q v) (hn : Normalized m q) (ht : UnitOf v t) :
    t = q ∨ t + 1 = q ∧ m = 2 ^ 52 ∧ Near (2 ^ 53) (v / 2 ^ t) := by
  have hpos : (0 : ℚ) < 2 ^ q := by positivity
  have hbelow : ∀ {k : ℤ}, t + 53 ≤ q + k → v / 2 ^ q < 2 ^ k := by
    intro k hk
    rw [div_lt_iff₀ hpos, ← zpow_add₀ two_ne_zero, add_comm]
    exact ht.high.trans_le (zpow_le_zpow_right₀ one_le_two hk)
  rcases lt_trichotomy t q with hlt | heq | hgt
  · -- The unit is finer than that of the float, so the value is below the least mantissa with the
    -- float's unit.
    have hleading : 2 ^ 52 ≤ m := hn.leading.resolve_left (by have := ht.least; omega)
    have hless : v / 2 ^ q < 2 ^ (52 : ℤ) := hbelow (by omega)
    obtain rfl : m = 2 ^ 52 := by
      by_contra hne
      have hcast : (2 ^ 52 + 1 : ℚ) ≤ m := by exact_mod_cast (by omega : 2 ^ 52 + 1 ≤ m)
      have hlow := h.near.bounds.1
      norm_num at hless
      linarith
    have hlow := h.low
    rw [gapBelow, if_pos ⟨rfl, by have := ht.least; omega⟩] at hlow
    obtain rfl : q = t + 1 := by
      by_contra hne
      have hless : v / 2 ^ q < 2 ^ (51 : ℤ) := hbelow (by omega)
      norm_num at hlow hless
      linarith
    refine .inr ⟨rfl, rfl, ?_⟩
    have hdouble : v / 2 ^ t = 2 * (v / 2 ^ (t + 1)) := by
      rw [zpow_add_one₀ two_ne_zero]
      field_simp
    rw [Near, if_pos (by norm_num), hdouble]
    norm_num at hlow hless ⊢
    constructor <;> linarith
  · exact .inl heq
  · have hlow : (2 : ℚ) ^ (53 : ℤ) ≤ v / 2 ^ q := by
      rw [le_div_iff₀ hpos, ← zpow_add₀ two_ne_zero]
      refine le_trans (zpow_le_zpow_right₀ one_le_two ?_)
        (ht.low.resolve_left (by have := hn.exponent; omega))
      omega
    have hhigh := h.near.bounds.2
    have hcast : (m + 1 : ℚ) ≤ 2 ^ 53 := by exact_mod_cast hn.mantissa
    norm_num at hlow
    linarith

/-- A value in the interval around a float is rounded to it. -/
theorem Rounded.value?_of_encloses (h : Rounded v x) (hn : Normalized m q) (hm : 0 < m)
    (hq : q ≤ 971) (hin : Encloses m q v) : value? x = some ((m * 2 ^ q : ℚ) : WithBotTop ℚ) := by
  obtain ⟨t, r, hunit, hnearest, hvalue⟩ := h
  have hr : (r * 2 ^ t : ℚ) = m * 2 ^ q := by
    rcases hin.unit_cases hn hunit with rfl | ⟨rfl, rfl, hnear⟩
    · rw [hnearest.eq_of_near hm hin.near]
    · rw [hnearest.eq_of_near (by norm_num) hnear, zpow_add_one₀ two_ne_zero]
      push_cast
      ring
  rw [hvalue, hr, limited_of_lt (hn.lt_overflow hq)]

/-- A value that has a float is not changed. -/
theorem Rounded.value?_of_eq (h : Rounded v x) (hn : Normalized m q) (hm : 0 < m) (hq : q ≤ 971)
    (hv : v = m * 2 ^ q) : value? x = some (v : WithBotTop ℚ) := by
  have hdiv : v / 2 ^ q = m := by
    rw [hv]
    field_simp
  have hin : Encloses m q v := encloses_above hdiv.ge (by linarith)
  rw [h.value?_of_encloses hn hm hq hin, hv]

/-- A value beyond the range is rounded to infinity. -/
theorem Rounded.value?_of_overflow (h : Rounded v x) (hv : 2 ^ (1024 : ℤ) ≤ v) :
    value? x = some ⊤ := by
  obtain ⟨t, r, hunit, hnearest, hvalue⟩ := h
  have ht : 1024 < t + 53 := lt_of_zpow_lt (hv.trans_lt hunit.high)
  have hlarge :=
    overflow_le (hnearest.leading (hunit.le_div.resolve_left (by omega))) (q := t) (by omega)
  rw [hvalue, limited_of_le hlarge]

end Intervals

/-! ## Operations -/

section Operations
variable {m n : ℕ} {e f : ℤ} {x y : Float} {a b : ℚ}

/-- A positive float in the form that arithmetic computes with. -/
theorem unpack_of_pos (h : value? x = some (a : WithBotTop ℚ)) (ha : 0 < a) :
    ∃ m q hm, x.toModel.unpack = .finite .positive m q hm ∧ Normalized m q ∧ q ≤ 971 ∧
      a = m * 2 ^ q := by
  have hcanonical := canonical_unpack x
  rw [value?_eq] at h
  obtain ⟨s, -, rfl⟩ | ⟨s, m, q, hm, hu, rfl⟩ := unpackedValue?_eq_coe h
  · exact absurd ha (lt_irrefl 0)
  · rw [hu] at hcanonical
    cases s with
    | positive => exact ⟨m, q, hm, hu, hcanonical.1, hcanonical.2, rfl⟩
    | negative =>
      have hnonneg : (0 : ℚ) ≤ m * 2 ^ q := by positivity
      simp only [Sign.apply, Int.cast_neg, Int.cast_natCast, neg_mul] at ha
      linarith

theorem unpack_of_zero (h : value? x = some ((0 : ℚ) : WithBotTop ℚ)) :
    ∃ s, x.toModel.unpack = .zero s := by
  rw [value?_eq] at h
  obtain ⟨s, hu, -⟩ | ⟨s, m, q, hm, -, hzero⟩ := unpackedValue?_eq_coe h
  · exact ⟨s, hu⟩
  · have hpos : (0 : ℚ) < m * 2 ^ q := by positivity
    cases s
    all_goals
      simp only [Sign.apply, Int.cast_neg, Int.cast_natCast, neg_mul] at hzero
      linarith

/-- An integer in any unit. -/
theorem round_rounded (hm : 0 < m) :
    Rounded (m * 2 ^ e)
      (.ofModel (Float.Model.pack (UnpackedFloat.round Format.binary64 .positive m e))) := by
  obtain ⟨k, hround, hle, hunit, hvalue⟩ := round_eq .positive e hm
  have hexact : Truncation (.ofMantissaAndAccuracy (m * 2 ^ k) .exact)
      (m * 2 ^ e / 2 ^ (e - k) : ℚ) := by
    rw [← hvalue, mul_div_cancel_right₀ _ (by positivity)]
    exact .exact _
  rw [hround]
  exact roundWithAccuracy_rounded hexact (hle.trans_eq hunit.symm)
    (.inl (Nat.mul_pos hm (Nat.two_pow_pos k)))

/-- A product of integers in any units, if it is long enough. -/
theorem mul_finite_rounded (hm : 0 < m) (hn : 0 < n) (he : e + f ≤ unitExponent (m * n) (e + f)) :
    Rounded (m * 2 ^ e * (n * 2 ^ f)) (.ofModel (Float.Model.pack
      (UnpackedFloat.mul Format.binary64 (.finite .positive m e hm)
        (.finite .positive n f hn)))) := by
  have hexact : Truncation (.ofMantissaAndAccuracy (m * n) .exact)
      (m * 2 ^ e * (n * 2 ^ f) / 2 ^ (e + f) : ℚ) := by
    have hdiv : (m * 2 ^ e * (n * 2 ^ f) / 2 ^ (e + f) : ℚ) = (m * n : ℕ) := by
      rw [zpow_add₀ two_ne_zero]
      push_cast
      field_simp
    rw [hdiv]
    exact .exact _
  exact roundWithAccuracy_rounded hexact he (.inl (Nat.mul_pos hm hn))

/-- The product of positive floats. -/
theorem mul_rounded (hx : value? x = some (a : WithBotTop ℚ))
    (hy : value? y = some (b : WithBotTop ℚ)) (ha : 0 < a) (hb : 0 < b) :
    Rounded (a * b) (x * y) := by
  obtain ⟨m, e, hm, hux, hnx, -, rfl⟩ := unpack_of_pos hx ha
  obtain ⟨n, f, hn, huy, hny, -, rfl⟩ := unpack_of_pos hy hb
  change Rounded
    _ (.ofModel
      (Float.Model.pack (UnpackedFloat.mul Format.binary64 x.toModel.unpack y.toModel.unpack)))
  rw [hux, huy]
  refine mul_finite_rounded hm hn ?_
  -- A product is shorter than 53 bits only if both exponents are the least one.
  by_cases hleast : e = -1074 ∧ f = -1074
  · unfold unitExponent
    omega
  · have hlong : 2 ^ 52 ≤ m * n := by
      rcases hnx.leading with he | hlead
      · exact (hny.leading.resolve_left fun hf => hleast ⟨he, hf⟩).trans
          (Nat.le_mul_of_pos_left n hm)
      · exact hlead.trans (Nat.le_mul_of_pos_right m hn)
    have hlog : 52 ≤ (m * n).log2 := (Nat.le_log2 (Nat.mul_pos hm hn).ne').mpr hlong
    unfold unitExponent
    omega

/-- A quotient of integers in any units. -/
theorem div_finite_rounded (hm : 0 < m) (hn : 0 < n) :
    Rounded (m * 2 ^ e / (n * 2 ^ f)) (.ofModel (Float.Model.pack
      (UnpackedFloat.div Format.binary64 (.finite .positive m e hm)
        (.finite .positive n f hn)))) := by
  obtain ⟨t, ht⟩ : ∃ t,
    min (e - f) (Format.binary64.targetExponent (totalExponent m e - totalExponent n f)) = t :=
    ⟨_, rfl⟩
  obtain ⟨k, hk⟩ : ∃ k : ℕ, (e - f - t).toNat = k := ⟨_, rfl⟩
  have hle : t ≤ e - f := ht ▸ min_le_left _ _
  have hcore : divCore Format.binary64 m e n f =
      (m * 2 ^ k / n, t, accuracyOfFraction (m * 2 ^ k % n) n) := by
    simp only [divCore, ht, hk, Nat.shiftLeft_eq]
  have hquotient : ((m * 2 ^ k : ℕ) / n : ℚ) = m * 2 ^ e / (n * 2 ^ f) / 2 ^ t := by
    have hpow : (2 ^ k : ℚ) = 2 ^ e / 2 ^ f / 2 ^ t := by
      rw [← zpow_natCast, show (k : ℤ) =
        e - f - t by omega, zpow_sub₀ two_ne_zero, zpow_sub₀ two_ne_zero]
    push_cast
    rw [hpow]
    field_simp
  have htrunc := Truncation.quotient (m * 2 ^ k) hn
  rw [hquotient] at htrunc
  -- The quotient is taken in a unit in which it has 53 bits, unless this would be finer than the
  -- least one.
  have hlong : t ≤ -1074 ∨ 2 ^ 52 ≤ m * 2 ^ k / n := by
    by_cases hleast : t ≤ -1074
    · exact .inl hleast
    · have htarget : t ≤ m.log2 + e - (n.log2 + f) - 53 := by
        rw [targetExponent_eq, totalExponent, totalExponent] at ht
        omega
      refine .inr ((Nat.le_div_iff_mul_le hn).mpr ?_)
      calc 2 ^ 52 * n ≤ 2 ^ 52 * 2 ^ (n.log2 + 1) := Nat.mul_le_mul_left _ Nat.lt_log2_self.le
        _ = 2 ^ (52 + (n.log2 + 1)) := (pow_add _ _ _).symm
        _ ≤ 2 ^ (m.log2 + k) := Nat.pow_le_pow_right two_pos (by omega)
        _ = 2 ^ m.log2 * 2 ^ k := pow_add _ _ _
        _ ≤ m * 2 ^ k := Nat.mul_le_mul_right _ (Nat.log2_self_le hm.ne')
  change Rounded _ (.ofModel (Float.Model.pack (roundWithAccuracy Format.binary64 .positive
    (divCore Format.binary64 m e n f).1 (divCore Format.binary64 m e n f).2.1
      (divCore Format.binary64 m e n f).2.2)))
  rw [hcore]
  dsimp only
  rcases hlong with hleast | hlong
  · exact roundWithAccuracy_rounded htrunc (hleast.trans (le_max_right _ _)) (.inr (by omega))
  · have hpos : 0 < m * 2 ^ k / n := by omega
    have hlog : 52 ≤ (m * 2 ^ k / n).log2 := (Nat.le_log2 hpos.ne').mpr hlong
    exact roundWithAccuracy_rounded htrunc (by unfold unitExponent; omega) (.inl hpos)

/-- The quotient of positive floats. -/
theorem div_rounded (hx : value? x = some (a : WithBotTop ℚ))
    (hy : value? y = some (b : WithBotTop ℚ)) (ha : 0 < a) (hb : 0 < b) :
    Rounded (a / b) (x / y) := by
  obtain ⟨m, e, hm, hux, -, -, rfl⟩ := unpack_of_pos hx ha
  obtain ⟨n, f, hn, huy, -, -, rfl⟩ := unpack_of_pos hy hb
  change Rounded
    _ (.ofModel
      (Float.Model.pack (UnpackedFloat.div Format.binary64 x.toModel.unpack y.toModel.unpack)))
  rw [hux, huy]
  exact div_finite_rounded hm hn

/-- A positive integer in any unit, as sums and words are rounded. -/
theorem normalize_rounded (hm : 0 < m) :
    Rounded (m * 2 ^ e)
      (.ofModel (Float.Model.pack (UnpackedFloat.normalize Format.binary64 m e .positive))) := by
  have hgt : compare (m : ℤ) 0 = .gt := compare_gt_iff_gt.mpr (by exact_mod_cast hm)
  unfold UnpackedFloat.normalize
  rw [hgt]
  exact round_rounded hm

theorem toFloat_rounded {n : UInt64} (hn : 0 < n.toNat) : Rounded n.toNat n.toFloat := by
  have hround := normalize_rounded (e := 0) hn
  rw [zpow_zero, mul_one] at hround
  exact hround

/-- The sum of positive floats. -/
theorem add_rounded (hx : value? x = some (a : WithBotTop ℚ))
    (hy : value? y = some (b : WithBotTop ℚ)) (ha : 0 < a) (hb : 0 < b) :
    Rounded (a + b) (x + y) := by
  obtain ⟨m, e, hm, hux, -, -, rfl⟩ := unpack_of_pos hx ha
  obtain ⟨n, f, hn, huy, -, -, rfl⟩ := unpack_of_pos hy hb
  have hfirst := decreaseExponent_value .positive m (min_le_left e f)
  have hsecond := decreaseExponent_value .positive n (min_le_right e f)
  simp only [Sign.apply, Int.cast_natCast] at hfirst hsecond
  have hsum :
      (((decreaseExponent m e (min e f)).1 + (decreaseExponent n f (min e f)).1 : ℕ) * 2 ^
        min e f : ℚ) =
      m * 2 ^ e + n * 2 ^ f := by
    rw [Nat.cast_add, add_mul, hfirst, hsecond]
  have hpos : 0 < (decreaseExponent m e (min e f)).1 + (decreaseExponent n f (min e f)).1 := by
    simp only [decreaseExponent, Nat.shiftLeft_eq]
    positivity
  have hround := normalize_rounded (e := min e f) hpos
  rw [hsum] at hround
  change Rounded
    _ (.ofModel
      (Float.Model.pack (UnpackedFloat.add Format.binary64 x.toModel.unpack y.toModel.unpack)))
  rw [hux, huy]
  exact hround

/-- Adding zero changes nothing. -/
theorem value?_add_zero (hx : value? x = some (a : WithBotTop ℚ))
    (hy : value? y = some (b : WithBotTop ℚ)) (ha : 0 ≤ a) (hb : 0 ≤ b) (hzero : a = 0 ∨ b = 0) :
    value? (x + y) = some ((a + b : ℚ) : WithBotTop ℚ) := by
  change value? (.ofModel (Float.Model.pack
    (UnpackedFloat.add Format.binary64 x.toModel.unpack y.toModel.unpack))) = _
  have hcx := canonical_unpack x
  have hcy := canonical_unpack y
  rcases ha.eq_or_lt with rfl | hapos
  · obtain ⟨s, hux⟩ := unpack_of_zero hx
    rcases hb.eq_or_lt with rfl | hbpos
    · obtain ⟨t, huy⟩ := unpack_of_zero hy
      rw [hux, huy, add_zero]
      cases s <;> cases t <;> exact value?_pack_zero _
    · obtain ⟨n, f, hn, huy, -⟩ := unpack_of_pos hy hbpos
      rw [huy] at hcy
      rw [value?_eq, huy] at hy
      rw [hux, huy, zero_add, ← hy]
      exact value?_pack hcy
  · obtain rfl : b = 0 := hzero.resolve_left hapos.ne'
    obtain ⟨m, e, hm, hux, -⟩ := unpack_of_pos hx hapos
    obtain ⟨t, huy⟩ := unpack_of_zero hy
    rw [hux] at hcx
    rw [value?_eq, hux] at hx
    rw [hux, huy, add_zero, ← hx]
    exact value?_pack hcx

end Operations

/-! ## Decimal fractions -/

open Numeral

theorem value?_powerOfTen (e : Fin 23) :
    value? (Float.exactlyRepresentablePowersOfTen[e]) =
      some ((10 ^ (e : ℕ) : ℚ) : WithBotTop ℚ) := by
  have hexact : ∀ e : Fin 23, exactInt? (Float.exactlyRepresentablePowersOfTen[e]) =
      some (10 ^ (e : ℕ)) := by
    decide +kernel
  have h := exactInt?_eq_some.mp (hexact e)
  push_cast at h
  exact h

/-- Few digits and a small power of ten have floats themselves, and are combined by one
operation. -/
theorem ofScientific_short_rounded {n k : ℕ} (hn : 0 < n) (hshort : n < 2 ^ 53 ∧ k ≤ 22)
    (negative : Bool) :
    Rounded (n * 10 ^ (signed negative k)) (Float.ofScientific n negative k) := by
  have hdigits :=
    value?_toFloat (n := n.toUInt64) (by rw [Nat.toUInt64, UInt64.toNat_ofNat']; omega)
  have hword : n.toUInt64.toNat = n := Nat.mod_eq_of_lt (by omega)
  have hpower := value?_powerOfTen ⟨k, by omega⟩
  have hpos : (0 : ℚ) < ((n.toUInt64.toNat : ℤ) : ℚ) := by
    rw [hword]
    exact_mod_cast hn
  unfold Float.ofScientific
  rw [dif_pos hshort]
  cases negative with
  | true =>
    have hdiv := div_rounded hdigits hpower hpos (by positivity)
    rw [hword, Int.cast_natCast] at hdiv
    rw [signed, if_pos rfl, zpow_neg, zpow_natCast, ← div_eq_mul_inv, if_pos rfl]
    exact hdiv
  | false =>
    have hmul := mul_rounded hdigits hpower hpos (by positivity)
    rw [hword, Int.cast_natCast] at hmul
    rw [signed, if_neg Bool.false_ne_true, zpow_natCast, if_neg Bool.false_ne_true]
    exact hmul

/-- Other decimals are a product or a quotient of integers. -/
theorem model_ofScientific_rounded {n : ℕ} {e : ℤ} (hn : 0 < n) (hlow : -(2 ^ 11 + n.log2) ≤ e)
    (hhigh : e ≤ 2 ^ 11) : Rounded (n * 10 ^ e) (.ofModel (Float.Model.ofScientific n e)) := by
  unfold Float.Model.ofScientific UnpackedFloat.ofScientific
  rw [dif_neg hn.ne', if_neg hhigh.not_gt, if_neg hlow.not_gt]
  split_ifs with hnonneg
  · obtain ⟨k, rfl⟩ := Int.eq_ofNat_of_zero_le hnonneg
    have hpos : 0 < n <<< 53 * 10 ^ k := by
      rw [Nat.shiftLeft_eq]
      positivity
    have hlog : 53 ≤ (n <<< 53 * 10 ^ k).log2 := by
      rw [Nat.le_log2 hpos.ne', Nat.shiftLeft_eq, mul_right_comm]
      exact Nat.le_mul_of_pos_left _ (by positivity)
    have hmul :=
      mul_finite_rounded (m := n <<< 53) (n := 10 ^ k) (e := -53) (f := 0)
        (by rw [Nat.shiftLeft_eq]; positivity)
        (by positivity) (by unfold unitExponent; omega)
    have hvalue : (((n <<< 53 : ℕ) : ℚ) * 2 ^ (-53 : ℤ) * ((10 ^ k : ℕ) * 2 ^ (0 : ℤ))) =
        n * 10 ^ (k : ℤ) := by
      rw [Nat.shiftLeft_eq]
      norm_num
      ring
    rwa [hvalue] at hmul
  · obtain ⟨k, rfl⟩ : ∃ k : ℕ, e = -k := ⟨(-e).toNat, by omega⟩
    have hdiv := div_finite_rounded (m := n) (n := 10 ^ k) (e := 0) (f := 0) hn (by positivity)
    have hvalue : (n * 2 ^ (0 : ℤ) / ((10 ^ k : ℕ) * 2 ^ (0 : ℤ)) : ℚ) = n * 10 ^ (-(k : ℤ)) := by
      simp [div_eq_mul_inv]
    rw [hvalue] at hdiv
    simpa using hdiv

/-- A decimal number is read as the nearest float, if it is not absurdly small or large. -/
theorem scaleTen_rounded {n : ℕ} {e : ℤ} (hn : 0 < n) (hlow : -(2 ^ 11 + n.log2) ≤ e)
    (hhigh : e ≤ 2 ^ 11) : Rounded (n * 10 ^ e) (scaleTen n e) := by
  unfold scaleTen
  by_cases hshort : n < 2 ^ 53 ∧ e.natAbs ≤ 22
  · have hrounded := ofScientific_short_rounded hn hshort (e < 0)
    rwa [signed_natAbs] at hrounded
  · have hmodel :
        (if (decide (e < 0)) = true then Int.negOfNat e.natAbs else Int.ofNat e.natAbs) = e := by
      rw [Int.negOfNat_eq]
      exact signed_natAbs e
    unfold Float.ofScientific
    rw [dif_neg hshort, hmodel]
    exact model_ofScientific_rounded hn hlow hhigh

end LuaMachine.Binary64
