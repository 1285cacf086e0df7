import LuaMachine.Error.Cause
import LuaMachine.Value.Coerce

/-!
# Conversions that fail with a cause

The conversions the host asks for, with an error that names both types when there is no result.
-/
namespace LuaMachine

/-- The integer a number equals. -/
def Number.toIntOrCause (n : Number) : Except Cause Int64 :=
  match n.toInt? .exact with
  | some i => .ok i
  | none => .error (.cannotCoerce "float" "integer")

namespace Value

/-- Converts a value to a target. -/
def coerce (v : Value) (target : Target) : Except Cause Value :=
  match v.coerce? target with
  | some w => .ok w
  | none => .error (.cannotCoerce v.typeName target.name)

/-- Whether two lists of values agree, value by value, without metamethods. A NaN agrees with
nothing. -/
def listEqual : List Value → List Value → Bool
  | [], [] => true
  | a :: as, b :: bs => a.rawEqual b && listEqual as bs
  | _, _ => false

end Value

end LuaMachine
