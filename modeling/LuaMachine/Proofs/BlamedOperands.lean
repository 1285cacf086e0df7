import LuaMachine.Arith

/-!
# Blamed operands

An operator without a result is an error that names the type of an operand. The one to blame is the
first that is not numeric. Arithmetic operators have no result only if there is one, and name its
type. Bitwise operators have no result for numbers without an integer value either: two numbers of
that kind are an error of its own, but once one of them is spelled by a string the error names the
second operand, whatever it is.
-/
namespace LuaMachine

/-- The type of an operand that the error names. -/
def Cause.operandType? : Cause → Option ValueType
  | .nonNumeric t | .nonBitwise t => some t
  | _ => none

namespace ArithOp

variable {op : ArithOp} {lhs rhs : Value}

/-- The first operand that is neither a number nor spells one. -/
def guilty? (lhs rhs : Value) : Option Value :=
  [lhs, rhs].find? fun v => !v.isNumeric

theorem guilty?_eq_none : guilty? lhs rhs = none ↔ lhs.isNumeric = true ∧ rhs.isNumeric = true := by
  simp [guilty?]

/-- A numeric value has a nearest float. -/
theorem toFloat?_isSome (v : Value) : v.toFloat?.isSome = v.isNumeric := by
  simp [Value.toFloat?, Value.isNumeric]

/-- Numeric operands stand for numbers. -/
theorem operands?_isSome (hl : lhs.isNumeric = true) (hr : rhs.isNumeric = true) :
    (operands? lhs rhs).isSome = true := by
  rw [← toFloat?_isSome, Option.isSome_iff_exists] at hl hr
  obtain ⟨x, hx⟩ := hl
  obtain ⟨y, hy⟩ := hr
  unfold operands?
  split
  · rfl
  · rw [hx, hy]
    rfl

/-- An arithmetic operator without a result has an operand that is not numeric. -/
theorem guilty?_isSome_of_applyRaw (hop : op.isBitwise = false)
    (h : op.applyRaw lhs rhs = .ok none) : ∃ v, guilty? lhs rhs = some v := by
  rw [← Option.ne_none_iff_exists', Ne, guilty?_eq_none]
  rintro ⟨hl, hr⟩
  obtain ⟨⟨l, r⟩, hoperands⟩ := Option.isSome_iff_exists.mp (operands?_isSome hl hr)
  simp only [applyRaw, hop, Bool.false_eq_true, if_false, hoperands] at h
  cases hresult : op.onNumbers l r <;> simp [hresult, Except.map] at h

/-- A bitwise operator without a result has an operand without an integer value. -/
theorem toInt?_of_applyRaw (hop : op.isBitwise = true) (h : op.applyRaw lhs rhs = .ok none) :
    lhs.toInt? = none ∨ rhs.toInt? = none := by
  rw [applyRaw, if_pos hop] at h
  cases hl : lhs.toInt? with
  | none => exact .inl rfl
  | some l =>
    cases hr : rhs.toInt? with
    | none => exact .inr rfl
    | some r => simp [hl, hr] at h

theorem isString_of_isNumeric {v : Value} (h : v.isNumeric = true) (hnumber : v.isNumber = false) :
    v.isString = true := by
  cases v with
  | number _ => cases hnumber
  | string _ => rfl
  | _ => cases h

/-- The operand that the error blames: the first that is not numeric if there is one, and else the
second. -/
theorem operandType?_blame
    (h : ¬ (op.isBitwise = true ∧ lhs.isNumber = true ∧ rhs.isNumber = true)) :
    (op.blame lhs rhs).operandType? = some ((guilty? lhs rhs).getD rhs).type := by
  have hblamed : (if lhs.isNumeric then rhs else lhs) = (guilty? lhs rhs).getD rhs := by
    cases hl : lhs.isNumeric <;> cases hr : rhs.isNumeric <;> simp [guilty?, hl, hr]
  simp only [blame, hblamed]
  cases hop : op.isBitwise with
  | false => rfl
  | true =>
    rw [if_pos rfl, if_neg (by simpa [hop] using h)]
    rfl

/-- The error names no type only for a bitwise operator on two numbers. -/
theorem operandType?_blame_isSome {t : ValueType} (h : (op.blame lhs rhs).operandType? = some t) :
    ¬ (op.isBitwise = true ∧ lhs.isNumber = true ∧ rhs.isNumber = true) := by
  rintro ⟨hop, hl, hr⟩
  simp [blame, hop, hl, hr, Cause.operandType?] at h

/-- If an operator has no result and the error names the type of an operand, then it is the type of
the first operand that is not numeric, unless the operator is bitwise and both operands are numeric.
In that case one of them is a string and one has no integer value, not always the same, and the
error names the second. -/
theorem blame_guilty_iff {t : ValueType} (h : op.applyRaw lhs rhs = .ok none)
    (ht : (op.blame lhs rhs).operandType? = some t) :
    ((guilty? lhs rhs).map Value.type = some t ↔
        ¬ (op.isBitwise = true ∧ lhs.isNumeric = true ∧ rhs.isNumeric = true)) ∧
      (op.isBitwise = true ∧ lhs.isNumeric = true ∧ rhs.isNumeric = true →
        t = rhs.type ∧ (lhs.isString = true ∨ rhs.isString = true) ∧
          (lhs.toInt? = none ∨ rhs.toInt? = none)) := by
  have hnumbers := operandType?_blame_isSome ht
  have hnamed : t = ((guilty? lhs rhs).getD rhs).type := by
    rw [operandType?_blame hnumbers, Option.some.injEq] at ht
    exact ht.symm
  refine ⟨⟨?_, ?_⟩, ?_⟩
  · rintro hfirst ⟨-, hnumeric⟩
    rw [guilty?_eq_none.mpr hnumeric] at hfirst
    cases hfirst
  · intro hnot
    obtain ⟨v, hv⟩ : ∃ v, guilty? lhs rhs = some v := by
      cases hop : op.isBitwise with
      | false => exact guilty?_isSome_of_applyRaw hop h
      | true =>
        exact Option.ne_none_iff_exists'.mp fun hnone => hnot ⟨hop, guilty?_eq_none.mp hnone⟩
    rw [hnamed, hv, Option.map_some, Option.getD_some]
  · rintro ⟨hop, hl, hr⟩
    rw [guilty?_eq_none.mpr ⟨hl, hr⟩] at hnamed
    refine ⟨hnamed, ?_, toInt?_of_applyRaw hop h⟩
    cases hnumber : lhs.isNumber with
    | false => exact .inl (isString_of_isNumeric hl hnumber)
    | true => exact .inr (isString_of_isNumeric hr (by simpa [hop, hnumber] using hnumbers))

/-- The numeral 1.5 has no integer value, but the error of its conjunction with one names a
number. -/
theorem blame_guilty_iff_numeral :
    (band.applyRaw (.ofText "1.5") (.int 1) = .ok none ∧
        (band.blame (.ofText "1.5") (.int 1)).operandType? = some .number) ∧
      (guilty? (.ofText "1.5") (.int 1)).map Value.type ≠ some .number := by
  have hraw : band.applyRaw (.ofText "1.5") (.int 1) = .ok none := by rfl
  have hnamed : (band.blame (.ofText "1.5") (.int 1)).operandType? = some .number := by rfl
  refine ⟨⟨hraw, hnamed⟩, fun hfirst => ?_⟩
  exact (blame_guilty_iff hraw hnamed).1.mp hfirst ⟨rfl, by decide +kernel, rfl⟩

end ArithOp

end LuaMachine
