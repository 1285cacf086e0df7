import LuaMachine.Error.Cause
import LuaMachine.Instruction.Opcode
import LuaMachine.Value.Coerce

/-!
# Arithmetic on values

An operator applies to numbers and to strings that spell numbers. Two integers are added,
subtracted, multiplied and divided as integers; any other pair is converted to floats first. Bitwise
operators need exact integers. An operation that does not apply has no raw result, which is left to
a handler, and dividing an integer by zero is an error.
-/
namespace LuaMachine

/-- The arithmetic and bitwise operators. -/
inductive ArithOp where
  | add | sub | mul | mod | pow | div | idiv | band | bor | bxor | shl | shr | unm | bnot
  deriving DecidableEq, Repr, Inhabited

namespace ArithOp

/-- The operator of an opcode. -/
def ofOpcode? : Opcode → Option ArithOp
  | .add => some .add
  | .sub => some .sub
  | .mul => some .mul
  | .mod => some .mod
  | .pow => some .pow
  | .div => some .div
  | .idiv => some .idiv
  | .band => some .band
  | .bor => some .bor
  | .bxor => some .bxor
  | .shl => some .shl
  | .shr => some .shr
  | .unm => some .unm
  | .bnot => some .bnot
  | _ => none

/-- The operator of an opcode, by its mnemonic. -/
def ofName? (s : String) : Option ArithOp :=
  (Opcode.ofName? s).bind ofOpcode?

/-- The name of the handler of an operator. -/
def event : ArithOp → String
  | .add => "__add"
  | .sub => "__sub"
  | .mul => "__mul"
  | .mod => "__mod"
  | .pow => "__pow"
  | .div => "__div"
  | .idiv => "__idiv"
  | .band => "__band"
  | .bor => "__bor"
  | .bxor => "__bxor"
  | .shl => "__shl"
  | .shr => "__shr"
  | .unm => "__unm"
  | .bnot => "__bnot"

def isBitwise : ArithOp → Bool
  | .band | .bor | .bxor | .shl | .shr | .bnot => true
  | _ => false

/-- A bitwise operator on integers. Other operators leave the first operand's complement, like the
unary one. -/
def onInts (op : ArithOp) (l r : Int64) : Int64 :=
  match op with
  | .band => l &&& r
  | .bor => l ||| r
  | .bxor => l ^^^ r
  | .shl => shiftLeft l r
  | .shr => shiftLeft l (-r)
  | _ => ~~~l

/-- An arithmetic operator on numbers. Other operators leave the first operand's negation, like the
unary one. -/
def onNumbers (op : ArithOp) (l r : Number) : Except Cause Number :=
  match op with
  | .add => .ok (l.add r)
  | .sub => .ok (l.sub r)
  | .mul => .ok (l.mul r)
  | .mod => match l.mod? r with
    | some n => .ok n
    | none => .error .moduloByZero
  | .pow => .ok (l.pow r)
  | .div => .ok (l.div r)
  | .idiv => match l.floorDiv? r with
    | some n => .ok n
    | none => .error .divideByZero
  | _ => .ok l.neg

/-- The numbers two operands stand for: themselves if both are integers, and floats otherwise. -/
def operands? : Value → Value → Option (Number × Number)
  | .number (.int m), .number (.int n) => some (.int m, .int n)
  | lhs, rhs =>
    match lhs.toFloat?, rhs.toFloat? with
    | some x, some y => some (.float x, .float y)
    | _, _ => none

/-- Applies an operator without handlers. There is no result if an operand does not fit the
operator. -/
def applyRaw (op : ArithOp) (lhs rhs : Value) : Except Cause (Option Value) :=
  if op.isBitwise then
    match lhs.toInt?, rhs.toInt? with
    | some l, some r => .ok (some (.int (op.onInts l r)))
    | _, _ => .ok none
  else
    match operands? lhs rhs with
    | some (l, r) => (op.onNumbers l r).map fun n => some (.number n)
    | none => .ok none

/-- The error of operands that no rule and no handler covers. It blames the first operand that is
not numeric. -/
def blame (op : ArithOp) (lhs rhs : Value) : Cause :=
  let blamed := if lhs.isNumeric then rhs else lhs
  if op.isBitwise then
    if lhs.isNumber && rhs.isNumber then .noInteger else .nonBitwise blamed.type
  else .nonNumeric blamed.type

end ArithOp

end LuaMachine
