import LuaMachine.Value.Text

/-!
# Causes of errors

An error of a running program is a cause from this list. A program can recover from none of them,
but the host can: the machine stays usable. The wording of every cause is in one place.
-/
namespace LuaMachine

/-- A parameter of a numeric loop that has to be a number. -/
inductive LoopParameter where
  | limit | step | initial
  deriving DecidableEq, Repr

/-- The limit that ran out. -/
inductive Overflow where
  /-- The register stack or the chain of frames is full. -/
  | stack
  /-- Too many calls from the host are nested. -/
  | hostCalls
  deriving DecidableEq, Repr

/-- What went wrong in a program. -/
inductive Cause where
  | nonNumeric (operand : ValueType)
  | nonBitwise (operand : ValueType)
  | noInteger
  | moduloByZero
  | divideByZero
  | loopParameter (which : LoopParameter)
  | loopStepZero
  | cannotCompare (lhs rhs : ValueType)
  | cannotIndex (indexed : ValueType)
  | invalidKey (why : InvalidKey)
  | chainTooLong (event : String)
  | notCallable (called : ValueType)
  | hostFunction (f : HostFunction)
  | cannotConcat (operand : ValueType)
  | noLength (measured : ValueType)
  | overflow (limit : Overflow)
  | cannotCoerce (source target : String)
  | text (message : String)
  | value (message : Value)
  deriving DecidableEq

def LoopParameter.name : LoopParameter → String
  | .limit => "limit"
  | .step => "step"
  | .initial => "initial value"

namespace Cause

/-- The wording of a cause. -/
def message : Cause → String
  | .nonNumeric t => "attempt to perform arithmetic on a " ++ t.name ++ " value"
  | .nonBitwise t => "attempt to perform bitwise operation on a " ++ t.name ++ " value"
  | .noInteger => "number has no integer representation"
  | .moduloByZero => "attempt to perform 'n%0'"
  | .divideByZero => "attempt to perform 'n//0'"
  | .loopParameter p => "'for' " ++ p.name ++ " must be a number"
  | .loopStepZero => "'for' step is zero"
  | .cannotCompare lhs rhs =>
    if lhs = rhs then "attempt to compare two " ++ lhs.name ++ " values"
    else "attempt to compare " ++ lhs.name ++ " with " ++ rhs.name
  | .cannotIndex t => "attempt to index a " ++ t.name ++ " value"
  | .invalidKey .isNil => "table index is nil"
  | .invalidKey .isNaN => "table index is NaN"
  | .chainTooLong event => "'" ++ event ++ "' chain too long; possible loop"
  | .notCallable t => "attempt to call a " ++ t.name ++ " value"
  | .hostFunction f =>
    "cannot call host function '" ++ f.name ++ "': host calls are not supported by this VM"
  | .cannotConcat t => "attempt to concatenate a " ++ t.name ++ " value"
  | .noLength t => "attempt to get length of a " ++ t.name ++ " value"
  | .overflow .stack => "stack overflow"
  | .overflow .hostCalls => "C stack overflow"
  | .cannotCoerce source target => "cannot coerce '" ++ source ++ "' to '" ++ target ++ "'"
  | .text s => s
  | .value v => v.text

/-- The value handed to a program that inspects the error: the value it was raised with, or the
wording. -/
def toValue : Cause → Value
  | .value v => v
  | c => Value.ofText c.message

end Cause

end LuaMachine
