import LuaMachine.Proofs.FloatRounding
import LuaMachine.Proofs.IntegerArithmetic

/-!
# Remainders of integers and of floats

The remainder of a division that rounds down has the sign of the divisor. For integers this is what
is computed. For floats the remainder of the division that rounds toward zero is exact, but then the
divisor is added to every negative one, also if the divisor is negative itself. The two remainders
of the same numbers differ exactly in that case.
-/
namespace LuaMachine
open Binary64

section Remainder
variable {x y : Float} {a b : ℤ}

/-- The divisor is added to a float remainder that is negative, or positive while the divisor is
negative. -/
theorem floatMod_eq (hx : value? x = some ((a : ℚ) : WithBotTop ℚ))
    (hy : value? y = some ((b : ℚ) : WithBotTop ℚ)) (hb : b ≠ 0) :
    floatMod x y = if a.tmod b < 0 ∨ 0 < a.tmod b ∧
      b < 0 then remainder x y + y else remainder x y := by
  have hr := value?_remainder hx hy hb
  have habs := natAbs_tmod_lt a hb
  have hpos : remainder x y > 0 ↔ 0 < a.tmod b := by simp [lt_iff, hr, value?_zero]
  have hneg : remainder x y < 0 ↔ a.tmod b < 0 := by simp [lt_iff, hr, value?_zero]
  have hdivisor : y < 0 ↔ b < 0 := by simp [lt_iff, hy, value?_zero]
  -- The remainder never equals the divisor, so that the last test is always passed.
  have hdiffers : (y != remainder x y) = true := by
    rw [bne, Bool.not_eq_true', ← Bool.not_eq_true, beq_iff, hr, hy]
    rintro ⟨u, v, hu, hv, huv⟩
    have heq : (b : ℚ) = a.tmod b :=
      WithBotTop.coe_injective (Option.some.inj (hu.trans (huv ▸ hv.symm)))
    have : b = a.tmod b := by exact_mod_cast heq
    omega
  have hcorrects : (if 0 < a.tmod b then b < 0 else a.tmod b < 0) ↔
      a.tmod b < 0 ∨ 0 < a.tmod b ∧ b < 0 := by
    split_ifs <;> omega
  simp only [floatMod, hpos, hneg, hdivisor, hdiffers, and_true, hcorrects]

/-- The value of the float remainder. Only a sum of two negative numbers may have to be rounded. -/
theorem value?_floatMod (hx : value? x = some ((a : ℚ) : WithBotTop ℚ))
    (hy : value? y = some ((b : ℚ) : WithBotTop ℚ)) (hb : b ≠ 0) (hbound : b.natAbs ≤ 2 ^ 53) :
    ∃ w : ℚ, value? (floatMod x y) = some (w : WithBotTop ℚ) ∧
      (¬ (a < 0 ∧ b < 0 ∧ ¬ b ∣ a) → w = a.fmod b) ∧ (a < 0 ∧ b < 0 ∧ ¬ b ∣ a → w ≤ b) := by
  have hr := value?_remainder hx hy hb
  have habs := natAbs_tmod_lt a hb
  have hdvd : b ∣ a ↔ a.tmod b = 0 := Int.dvd_iff_tmod_eq_zero
  have hsign : ¬ b ∣ a → (a.tmod b < 0 ↔ a < 0) := tmod_neg_iff
  rw [floatMod_eq hx hy hb, fmod_eq_ite hb]
  split_ifs with hadd hcorrect hcorrect
  · obtain ⟨w, hw, hsum⟩ := value?_add hr hy (by omega)
    refine ⟨w, hw, fun _ => hsum.exact (by omega), fun h => ?_⟩
    omega
  · obtain ⟨w, hw, hsum⟩ := value?_add hr hy (by omega)
    refine ⟨w, hw, fun h => ?_, fun h => ?_⟩
    · omega
    · by_cases hsmall : (a.tmod b + b).natAbs ≤ 2 ^ 53
      · rw [hsum.exact hsmall]
        have hle : a.tmod b + b ≤ b := by omega
        exact_mod_cast hle
      · have hle : (-2 ^ 53 : ℤ) ≤ b := by omega
        exact (hsum.below (by omega)).trans (by exact_mod_cast hle)
  · omega
  · refine ⟨a.tmod b, hr, fun _ => rfl, fun h => ?_⟩
    omega

end Remainder

/-- The integer remainder is the one of the division rounded down. The remainder of the same numbers
as floats agrees with it unless both are negative and leave a remainder: then the divisor is added
although the signs agree, and the result is not even above the divisor. -/
theorem Number.mod?_agrees_iff {m n : Int64} {x y : Float}
    (hx : (Number.float x).value? = (Number.int m).value?)
    (hy : (Number.float y).value? = (Number.int n).value?) (hzero : n ≠ 0)
    (hbound : n.toInt.natAbs ≤ 2 ^ 53) :
    ∃ r z, Number.mod? (.int m) (.int n) = some (.int r) ∧
      Number.mod? (.float x) (.float y) = some (.float z) ∧
      r.toInt = m.toInt - n.toInt * ⌊(m.toInt / n.toInt : ℚ)⌋ ∧
      ((Number.float z).value? = (Number.int r).value? ↔
        ¬ (m.toInt < 0 ∧ n.toInt < 0 ∧ ¬ n.toInt ∣ m.toInt)) ∧
      (m.toInt < 0 ∧ n.toInt < 0 ∧ ¬ n.toInt ∣ m.toInt →
        ∃ w : ℚ, (Number.float z).value? = some (w : WithBotTop ℚ) ∧ w ≤ n.toInt) := by
  obtain ⟨r, hr, hvalue⟩ := intMod?_eq (m := m) hzero
  have hn : n.toInt ≠ 0 := mt toInt_eq_zero_iff.mp hzero
  obtain ⟨w, hw, hagrees, hfails⟩ := value?_floatMod hx hy hn hbound
  refine ⟨r, floatMod x y, by rw [mod?, hr]; rfl, rfl, ?_, ?_, fun h => ⟨w, hw, hfails h⟩⟩
  · rw [hvalue, floor_div_eq_fdiv, Int.fmod_def]
  · have hiff : (Number.float (floatMod x y)).value? = (Number.int r).value? ↔
        w = m.toInt.fmod n.toInt := by
      rw [value?, value?, hw, Option.some.injEq, WithBotTop.coe_injective.eq_iff, hvalue]
    rw [hiff]
    refine ⟨fun heq h => ?_, hagrees⟩
    have hremainder : m.toInt.fmod n.toInt = m.toInt.tmod n.toInt := by
      rw [fmod_eq_ite hn, if_neg (by omega)]
    have habs := natAbs_tmod_lt m.toInt hn
    have hle : m.toInt.fmod n.toInt ≤ n.toInt := by exact_mod_cast heq ▸ hfails h
    omega

/-- The remainder of minus five by minus three is minus two for integers, but not for floats. -/
theorem Number.mod?_agrees_iff_negative :
    ((Number.float (ofInt64 (-5))).value? = (Number.int (-5)).value? ∧
        (Number.float (ofInt64 (-3))).value? = (Number.int (-3)).value? ∧ (-3 : Int64) ≠ 0 ∧
        (-3 : Int64).toInt.natAbs ≤ 2 ^ 53) ∧
      ∃ r z, Number.mod? (.int (-5)) (.int (-3)) = some (.int r) ∧
        Number.mod? (.float (ofInt64 (-5))) (.float (ofInt64 (-3))) = some (.float z) ∧
        r.toInt = -2 ∧ (Number.float z).value? ≠ (Number.int r).value? := by
  have hx : (Number.float (ofInt64 (-5))).value? = (Number.int (-5)).value? :=
    value?_ofInt64 (by decide)
  have hy : (Number.float (ofInt64 (-3))).value? = (Number.int (-3)).value? :=
    value?_ofInt64 (by decide)
  refine ⟨⟨hx, hy, by decide, by decide⟩, ?_⟩
  obtain ⟨r, z, hr, hz, -, hagrees, -⟩ := Number.mod?_agrees_iff hx hy (by decide) (by decide)
  refine ⟨r, z, hr, hz, ?_, fun h => hagrees.mp h (by decide)⟩
  have hcomputed : Number.mod? (.int (-5)) (.int (-3)) = some (.int (-2)) := by decide
  cases hr.symm.trans hcomputed
  rfl

end LuaMachine
