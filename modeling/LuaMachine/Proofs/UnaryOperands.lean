import Mathlib.Tactic.SplitIfs
import LuaMachine.Proofs.BlamedOperands

/-!
# The second operand of the unary operators

Negation and complement are applied like the operators of two operands, and are to ignore the second
one. They do not: both operands are converted before the operator is looked at. A second operand
that does not suit the operator leaves no result, and one that is no integer turns the negation of
an integer into that of a float. Only an operand given twice, as the machine does it, is sure to
have the result of the operator.
-/
namespace LuaMachine.ArithOp

variable {op : ArithOp} {lhs rhs : Value}

/-- The values that an operator accepts: those of an integer value for a bitwise one, and the
numeric ones otherwise. -/
def suits (op : ArithOp) (v : Value) : Bool :=
  if op.isBitwise then v.toInt?.isSome else v.isNumeric

/-- The negation of the nearest float. -/
def negateFloat? (v : Value) : Option Value :=
  v.toFloat?.map fun x => .float (-x)

/-- The result of a unary operator on its operand alone. An integer is negated as such. -/
def unary? (op : ArithOp) (v : Value) : Option Value :=
  if op.isBitwise then v.toInt?.map fun n => .int (~~~n)
  else match v with
    | .number (.int n) => some (.int (-n))
    | v => negateFloat? v

theorem isSome_negateFloat? (v : Value) : (negateFloat? v).isSome = unm.suits v := by
  rw [negateFloat?, Option.isSome_map, toFloat?_isSome]
  rfl

theorem isSome_unary? (op : ArithOp) (v : Value) : (op.unary? v).isSome = op.suits v := by
  unfold unary? suits
  split_ifs
  · rw [Option.isSome_map]
  · split
    · rfl
    · exact isSome_negateFloat? v

theorem exists_int_of_isInteger {v : Value} (h : v.isInteger = true) : ∃ n, v = .int n := by
  cases v with
  | number a =>
    cases a with
    | int n => exact ⟨n, rfl⟩
    | float x => cases h
  | _ => cases h

/-- What is no integer is negated as a float. -/
theorem unary?_eq_negateFloat? (h : lhs.isInteger = false) : unm.unary? lhs = negateFloat? lhs := by
  cases lhs with
  | number a =>
    cases a with
    | int n => cases h
    | float x => rfl
  | _ => rfl

/-- The complement asks of the second operand that it has an integer value. -/
theorem applyRaw_bnot (lhs rhs : Value) :
    bnot.applyRaw lhs rhs = .ok (if bnot.suits rhs then bnot.unary? lhs else none) := by
  simp only [applyRaw, suits, unary?, isBitwise, if_true, onInts]
  cases lhs.toInt? <;> cases rhs.toInt? <;> rfl

theorem operands?_of_not_integers (h : ¬ (lhs.isInteger = true ∧ rhs.isInteger = true)) :
    operands? lhs rhs = lhs.toFloat?.bind fun x => rhs.toFloat?.map fun y =>
      (.float x, .float y) := by
  unfold operands?
  split
  · exact absurd ⟨rfl, rfl⟩ h
  · cases lhs.toFloat? <;> cases rhs.toFloat? <;> rfl

/-- Negation asks of the second operand that it is numeric, and negates an integer as such only
beside an integer. -/
theorem applyRaw_unm (lhs rhs : Value) :
    unm.applyRaw lhs rhs = .ok (if unm.suits rhs then
      (if rhs.isInteger then unm.unary? lhs else negateFloat? lhs) else none) := by
  by_cases hint : lhs.isInteger = true ∧ rhs.isInteger = true
  · obtain ⟨m, rfl⟩ := exists_int_of_isInteger hint.1
    obtain ⟨n, rfl⟩ := exists_int_of_isInteger hint.2
    rfl
  · have hresult : (if rhs.isInteger then unm.unary? lhs else negateFloat? lhs) =
        negateFloat? lhs := by
      split_ifs with hrhs
      · exact unary?_eq_negateFloat? (by simpa [hrhs] using hint)
      · rfl
    have hsuits : unm.suits rhs = rhs.toFloat?.isSome := (toFloat?_isSome rhs).symm
    rw [hresult, hsuits]
    simp only [applyRaw, isBitwise, Bool.false_eq_true, if_false, operands?_of_not_integers hint,
      negateFloat?]
    cases lhs.toFloat? <;> cases rhs.toFloat? <;> rfl

/-- A result under either of two conditions is the same exactly when the conditions agree or there
is no result. -/
theorem gated_eq_iff {α : Type} {r : Option α} {b c : Bool} :
    (if b then r else none) = (if c then r else none) ↔ (r.isSome = true → b = c) := by
  cases r <;> cases b <;> cases c <;> simp

theorem gated_self {α : Type} {r : Option α} {b : Bool} (h : r.isSome = b) :
    (if b then r else none) = r := by
  subst h
  cases r <;> rfl

theorem applyRaw_bnot_eq_iff (lhs r₁ r₂ : Value) :
    bnot.applyRaw lhs r₁ = bnot.applyRaw lhs r₂ ↔
      (bnot.suits lhs = true → bnot.suits r₁ = bnot.suits r₂) := by
  rw [applyRaw_bnot, applyRaw_bnot, Except.ok.injEq, gated_eq_iff, isSome_unary?]

theorem applyRaw_unm_eq_iff (lhs r₁ r₂ : Value) :
    unm.applyRaw lhs r₁ = unm.applyRaw lhs r₂ ↔
      (unm.suits lhs = true → unm.suits r₁ = unm.suits r₂ ∧
        (lhs.isInteger = true → unm.suits r₁ = true → r₁.isInteger = r₂.isInteger)) := by
  rw [applyRaw_unm, applyRaw_unm, Except.ok.injEq]
  cases hint : lhs.isInteger with
  | false =>
    simp only [unary?_eq_negateFloat? hint, ite_self, gated_eq_iff, isSome_negateFloat?,
      Bool.false_eq_true, false_imp_iff, and_true]
  | true =>
    -- An integer has a result beside every numeric operand, of a subtype that depends on the
    -- operand's.
    obtain ⟨n, rfl⟩ := exists_int_of_isInteger hint
    have hint : unm.unary? (.int n) = some (.int (-n)) := rfl
    have hfloat : negateFloat? (.int n) = some (.float (-Binary64.ofInt64 n)) := rfl
    have hsuits : unm.suits (.int n) = true := rfl
    rw [hint, hfloat, hsuits]
    cases unm.suits r₁ <;> cases unm.suits r₂ <;> cases r₁.isInteger <;> cases r₂.isInteger <;> simp

/-- The machine gives a unary operator its operand twice, and so has the result of the operator.
With other second operands the results agree exactly if there is none anyway, or if the two are
alike: both suit the operator or neither does, and beside an integer to be negated both are integers
or neither is. -/
theorem unary_ignores_iff (hop : op = .unm ∨ op = .bnot) (lhs r₁ r₂ : Value) :
    op.applyRaw lhs lhs = .ok (op.unary? lhs) ∧
      (op.applyRaw lhs r₁ = op.applyRaw lhs r₂ ↔
        (op.suits lhs = true → op.suits r₁ = op.suits r₂ ∧
          (op = .unm → lhs.isInteger = true → op.suits r₁ = true →
            r₁.isInteger = r₂.isInteger))) := by
  rcases hop with rfl | rfl
  · refine ⟨?_, by simpa using applyRaw_unm_eq_iff lhs r₁ r₂⟩
    rw [applyRaw_unm, Except.ok.injEq]
    cases hint : lhs.isInteger with
    | false =>
      rw [unary?_eq_negateFloat? hint, if_neg Bool.false_ne_true,
        gated_self (isSome_negateFloat? lhs)]
    | true =>
      obtain ⟨n, rfl⟩ := exists_int_of_isInteger hint
      rfl
  · refine ⟨?_, by simpa using applyRaw_bnot_eq_iff lhs r₁ r₂⟩
    rw [applyRaw_bnot, gated_self (isSome_unary? bnot lhs)]

/-- The negation of five beside nil, which leaves no result, and beside a half, which makes it a
float. -/
theorem unary_ignores_iff_negation :
    (unm = .unm ∨ unm = .bnot) ∧
      unm.applyRaw (.int 5) (.int 5) = .ok (some (.int (-5))) ∧
      unm.applyRaw (.int 5) .nil ≠ unm.applyRaw (.int 5) (.int 5) ∧
      unm.applyRaw (.int 5) (.float 0.5) ≠ unm.applyRaw (.int 5) (.int 5) := by
  have hop : unm = .unm ∨ unm = .bnot := .inl rfl
  refine ⟨hop, (unary_ignores_iff hop (.int 5) .nil .nil).1, ?_, ?_⟩
  · rw [Ne, (unary_ignores_iff hop (.int 5) .nil (.int 5)).2]
    intro h
    cases (h rfl).1
  · rw [Ne, (unary_ignores_iff hop (.int 5) (.float 0.5) (.int 5)).2]
    intro h
    cases (h rfl).2 rfl rfl rfl

end LuaMachine.ArithOp
