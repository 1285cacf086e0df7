import LuaMachine.Number.Compare
import LuaMachine.Proofs.FloatRounding

/-!
# Numbers are compared by their values

A comparison of numbers holds exactly when the values of both sides are in the relation, whichever
subtypes they have. A large integer is compared with a rounded float: rounding a float in the right
direction takes it past no integer. A float outside the range of the integers decides by its sign.
So the numbers other than NaN are totally ordered.
-/
namespace LuaMachine
open Binary64

section Mixed
variable {n : Int64} {x : Float}

theorem natAbs_le_of_fitsFloat (h : fitsFloat n = true) : n.toInt.natAbs ≤ 2 ^ 53 := by
  simp only [fitsFloat, Bool.and_eq_true, decide_eq_true_eq, Int64.le_iff_toInt_le] at h
  have hlow : -2 ^ 53 ≤ n.toInt := h.1
  have hhigh : n.toInt ≤ 2 ^ 53 := h.2
  omega

theorem Outside.above_iff {v : WithBotTop ℚ} (h : Outside v) (n : Int64) :
    (intValue 0 < v ↔ intValue n < v) ∧ (intValue 0 < v ↔ intValue n ≤ v) := by
  rcases h with h | h
  · exact ⟨iff_of_true (h 0) (h n), iff_of_true (h 0) (h n).le⟩
  · exact ⟨iff_of_false (h 0).not_gt (h n).not_gt, iff_of_false (h 0).not_gt (h n).not_ge⟩

theorem Outside.below_iff {v : WithBotTop ℚ} (h : Outside v) (n : Int64) :
    (v < intValue 0 ↔ v < intValue n) ∧ (v < intValue 0 ↔ v ≤ intValue n) := by
  rcases h with h | h
  · exact ⟨iff_of_false (h 0).not_gt (h n).not_gt, iff_of_false (h 0).not_gt (h n).not_ge⟩
  · exact ⟨iff_of_true (h 0) (h n), iff_of_true (h 0) (h n).le⟩

/-- A test of the rounded float is a test of its value, if both agree within the range of the
integers and outside. -/
theorem elim_floatToInt?_iff {mode : IntRounding} {inside : Int64 → Bool} {outside : Bool}
    {R S : WithBotTop ℚ → Prop} (hmode : mode ≠ .exact)
    (hsign : outside = true ↔ ∃ v, value? x = some v ∧ S v)
    (hinside : ∀ (c : Int64) (r : ℚ), c.toInt = mode.round r → (inside c = true ↔ R r))
    (houtside : ∀ v, Outside v → (S v ↔ R v)) :
    (floatToInt? mode x).elim outside inside = true ↔ ∃ v, value? x = some v ∧ R v := by
  cases hv : value? x with
  | none =>
    have hnone : floatToInt? mode x = none := floatToInt?_nonfinite (by simp [hv])
    simp [hnone, hsign, hv]
  | some v =>
    obtain ⟨c, r, hc, rfl, hr⟩ | ⟨hnone, hside⟩ := floatToInt?_cases hmode hv
    · simp [hc, hinside c r hr]
    · simp [hnone, hsign, hv, houtside v hside]

theorem intLtFloat_iff : intLtFloat n x = true ↔ ∃ v, value? x = some v ∧ intValue n < v := by
  by_cases hfits : fitsFloat n = true
  · simp [intLtFloat, hfits, lt_iff, value?_ofInt64 (natAbs_le_of_fitsFloat hfits)]
  · have hbranch : intLtFloat n x = (floatToInt? .ceil x).elim (decide (x > 0)) fun c =>
        decide (n < c) := by
      rw [intLtFloat, if_neg hfits]
      cases floatToInt? .ceil x <;> rfl
    rw [hbranch]
    refine elim_floatToInt?_iff (by simp) (decide_eq_true_iff.trans pos_iff) (fun c r hc => ?_)
      fun v h => (h.above_iff n).1
    rw [decide_eq_true_iff, Int64.lt_iff_toInt_lt, hc, WithBotTop.coe_lt_coe]
    exact Int.lt_ceil

theorem intLeFloat_iff : intLeFloat n x = true ↔ ∃ v, value? x = some v ∧ intValue n ≤ v := by
  by_cases hfits : fitsFloat n = true
  · simp [intLeFloat, hfits, le_iff, value?_ofInt64 (natAbs_le_of_fitsFloat hfits)]
  · have hbranch : intLeFloat n x = (floatToInt? .floor x).elim (decide (x > 0)) fun c =>
        decide (n ≤ c) := by
      rw [intLeFloat, if_neg hfits]
      cases floatToInt? .floor x <;> rfl
    rw [hbranch]
    refine elim_floatToInt?_iff (by simp) (decide_eq_true_iff.trans pos_iff) (fun c r hc => ?_)
      fun v h => (h.above_iff n).2
    rw [decide_eq_true_iff, Int64.le_iff_toInt_le, hc, WithBotTop.coe_le_coe]
    exact Int.le_floor

theorem floatLtInt_iff : floatLtInt x n = true ↔ ∃ v, value? x = some v ∧ v < intValue n := by
  by_cases hfits : fitsFloat n = true
  · simp [floatLtInt, hfits, lt_iff, value?_ofInt64 (natAbs_le_of_fitsFloat hfits)]
  · have hbranch : floatLtInt x n = (floatToInt? .floor x).elim (decide (x < 0)) fun c =>
        decide (c < n) := by
      rw [floatLtInt, if_neg hfits]
      cases floatToInt? .floor x <;> rfl
    rw [hbranch]
    refine elim_floatToInt?_iff (by simp) (decide_eq_true_iff.trans neg_iff) (fun c r hc => ?_)
      fun v h => (h.below_iff n).1
    rw [decide_eq_true_iff, Int64.lt_iff_toInt_lt, hc, WithBotTop.coe_lt_coe]
    exact Int.floor_lt

theorem floatLeInt_iff : floatLeInt x n = true ↔ ∃ v, value? x = some v ∧ v ≤ intValue n := by
  by_cases hfits : fitsFloat n = true
  · simp [floatLeInt, hfits, le_iff, value?_ofInt64 (natAbs_le_of_fitsFloat hfits)]
  · have hbranch : floatLeInt x n = (floatToInt? .ceil x).elim (decide (x < 0)) fun c =>
        decide (c ≤ n) := by
      rw [floatLeInt, if_neg hfits]
      cases floatToInt? .ceil x <;> rfl
    rw [hbranch]
    refine elim_floatToInt?_iff (by simp) (decide_eq_true_iff.trans neg_iff) (fun c r hc => ?_)
      fun v h => (h.below_iff n).2
    rw [decide_eq_true_iff, Int64.le_iff_toInt_le, hc, WithBotTop.coe_le_coe]
    exact Int.ceil_le

theorem floatToInt?_exact_iff : floatToInt? .exact x = some n ↔ value? x = some (intValue n) := by
  rw [← exactInt?_eq_some]
  constructor
  · exact floatToInt?_eq_some
  · intro h
    simp [floatToInt?, h, int64OfInt?_eq_some]

end Mixed

namespace Number

/-- Two numbers have values, and these are in a relation. NaN is related to nothing. -/
def Related (R : WithBotTop ℚ → WithBotTop ℚ → Prop) (a b : Number) : Prop :=
  ∃ u v, a.value? = some u ∧ b.value? = some v ∧ R u v

def isNaN : Number → Bool
  | .int _ => false
  | .float x => x.isNaN

section Order
variable {a b c : Number}

theorem value?_eq_none_iff : a.value? = none ↔ a.isNaN = true := by
  cases a with
  | int n => simp [value?, isNaN]
  | float x => exact Binary64.value?_eq_none_iff

theorem lessThan_iff : a.lessThan b = true ↔ Related (· < ·) a b := by
  cases a with
  | int m =>
    cases b with
    | int n => simp [lessThan, Related, value?, Int64.lt_iff_toInt_lt]
    | float y => simp [lessThan, Related, value?, intLtFloat_iff]
  | float x =>
    cases b with
    | int n => simp [lessThan, Related, value?, floatLtInt_iff]
    | float y => simp [lessThan, Related, value?, lt_iff]

theorem lessEqual_iff : a.lessEqual b = true ↔ Related (· ≤ ·) a b := by
  cases a with
  | int m =>
    cases b with
    | int n => simp [lessEqual, Related, value?, Int64.le_iff_toInt_le]
    | float y => simp [lessEqual, Related, value?, intLeFloat_iff]
  | float x =>
    cases b with
    | int n => simp [lessEqual, Related, value?, floatLeInt_iff]
    | float y => simp [lessEqual, Related, value?, le_iff]

theorem equal_iff : a.equal b = true ↔ Related (· = ·) a b := by
  cases a with
  | int m =>
    cases b with
    | int n => simp [equal, Related, value?, WithBotTop.coe_injective.eq_iff, Int64.toInt_inj]
    | float y => simp [equal, Related, value?, floatToInt?_exact_iff]
  | float x =>
    cases b with
    | int n => simp [equal, Related, value?, floatToInt?_exact_iff]
    | float y =>
      rw [equal, beq_iff]
      rfl

theorem related_iff {R : WithBotTop ℚ → WithBotTop ℚ → Prop} {u v : WithBotTop ℚ}
    (hu : a.value? = some u) (hv : b.value? = some v) : Related R a b ↔ R u v := by
  simp [Related, hu, hv]

theorem exists_value_of_isNaN (h : a.isNaN = false) : ∃ u, a.value? = some u := by
  rw [← Option.ne_none_iff_exists', Ne, value?_eq_none_iff, h]
  exact Bool.false_ne_true

theorem not_related_of_isNaN (R : WithBotTop ℚ → WithBotTop ℚ → Prop)
    (h : a.isNaN = true ∨ b.isNaN = true) : ¬ Related R a b := by
  rintro ⟨u, v, hu, hv, -⟩
  rw [← value?_eq_none_iff, ← value?_eq_none_iff, hu, hv] at h
  simp at h

theorem Related.trans {R S T : WithBotTop ℚ → WithBotTop ℚ → Prop}
    (hRS : ∀ u v w, R u v → S v w → T u w) (hab : Related R a b) (hbc : Related S b c) :
    Related T a c := by
  obtain ⟨u, v, hu, hv, huv⟩ := hab
  obtain ⟨v', w, hv', hw, hvw⟩ := hbc
  obtain rfl : v = v' := Option.some.inj (hv.symm.trans hv')
  exact ⟨u, w, hu, hw, hRS u v w huv hvw⟩

end Order

/-- What the comparisons of three numbers satisfy in a total order that agrees with equality. -/
structure Coherent (a b c : Number) : Prop where
  trichotomy : [a.lessThan b, a.equal b, b.lessThan a].count true = 1
  lessThan_trans : a.lessThan b = true → b.lessThan c = true → a.lessThan c = true
  lessEqual_trans : a.lessEqual b = true → b.lessEqual c = true → a.lessEqual c = true
  equal_trans : a.equal b = true → b.equal c = true → a.equal c = true
  lessEqual_eq : a.lessEqual b = !b.lessThan a

theorem coherent_of_not_isNaN {a b : Number} (c : Number) (ha : a.isNaN = false)
    (hb : b.isNaN = false) : Coherent a b c := by
  obtain ⟨u, hu⟩ := exists_value_of_isNaN ha
  obtain ⟨v, hv⟩ := exists_value_of_isNaN hb
  have hlt : a.lessThan b = decide (u < v) := by
    rw [Bool.eq_iff_iff, lessThan_iff, related_iff hu hv, decide_eq_true_iff]
  have hgt : b.lessThan a = decide (v < u) := by
    rw [Bool.eq_iff_iff, lessThan_iff, related_iff hv hu, decide_eq_true_iff]
  have hle : a.lessEqual b = decide (u ≤ v) := by
    rw [Bool.eq_iff_iff, lessEqual_iff, related_iff hu hv, decide_eq_true_iff]
  have heq : a.equal b = decide (u = v) := by
    rw [Bool.eq_iff_iff, equal_iff, related_iff hu hv, decide_eq_true_iff]
  constructor
  case trichotomy =>
    rw [hlt, heq, hgt]
    rcases lt_trichotomy u v with h | rfl | h
    · simp [h, h.ne, h.not_gt]
    · simp
    · simp [h, h.ne', h.not_gt]
  case lessThan_trans =>
    simp only [lessThan_iff]
    exact Related.trans fun _ _ _ => lt_trans
  case lessEqual_trans =>
    simp only [lessEqual_iff]
    exact Related.trans fun _ _ _ => le_trans
  case equal_trans =>
    simp only [equal_iff]
    exact Related.trans fun _ _ _ => Eq.trans
  case lessEqual_eq =>
    rw [hle, hgt, ← decide_not, decide_eq_decide, not_lt]

/-- Comparisons of numbers are comparisons of their values. They are false for NaN, and other
numbers are totally ordered by them, integers and floats together. -/
theorem comparison_exact (a b c : Number) :
    (a.lessThan b = true ↔ Related (· < ·) a b) ∧
      (a.lessEqual b = true ↔ Related (· ≤ ·) a b) ∧
      (a.equal b = true ↔ Related (· = ·) a b) ∧
      (a.isNaN = true ∨ b.isNaN = true → a.lessThan b = false ∧ a.lessEqual b = false ∧
        a.equal b = false) ∧
      (a.isNaN = false → b.isNaN = false → c.isNaN = false → Coherent a b c) := by
  refine ⟨lessThan_iff, lessEqual_iff, equal_iff, fun hnan => ?_,
    fun ha hb _ => coherent_of_not_isNaN c ha hb⟩
  rw [← Bool.not_eq_true, ← Bool.not_eq_true, ← Bool.not_eq_true, lessThan_iff,
    lessEqual_iff, equal_iff]
  exact ⟨not_related_of_isNaN _ hnan, not_related_of_isNaN _ hnan, not_related_of_isNaN _ hnan⟩

/-- The integer `2 ^ 53 + 1` lies between its float, which is `2 ^ 53`, and infinity. -/
theorem comparison_exact_beyondFloats :
    ((Number.int 9007199254740993).isNaN = false ∧ (Number.float 9007199254740992).isNaN = false ∧
        (Number.float infinity).isNaN = false) ∧
      Coherent (.float 9007199254740992) (.int 9007199254740993) (.float infinity) ∧
      (Number.float 9007199254740992).lessThan (.int 9007199254740993) = true :=
  ⟨⟨by decide, by decide +kernel, by decide +kernel⟩,
    (comparison_exact (.float 9007199254740992) (.int 9007199254740993) (.float infinity)).2.2.2.2
      (by decide +kernel) (by decide) (by decide +kernel),
    by decide +kernel⟩

end Number
end LuaMachine
