import LuaMachine.Number.Numeral
import LuaMachine.Number.Text
import LuaMachine.Value.Basic

/-!
# Implicit conversions

Strings that are numerals count as numbers, numbers count as strings, and a conversion to an integer
is exact.
-/
namespace LuaMachine.Value

/-- A number, or the number a string spells. -/
def toNumber? : Value → Option Number
  | .number n => some n
  | .string s => Numeral.read s.data.toList
  | _ => none

/-- The integer of exactly this value. -/
def toInt? (v : Value) : Option Int64 :=
  v.toNumber?.bind (Number.toInt? .exact)

/-- The nearest float. -/
def toFloat? (v : Value) : Option Float :=
  v.toNumber?.map Number.toFloat

/-- A string, or the text of a number. -/
def toBytes? : Value → Option ByteArray
  | .string s => some s
  | .number n => some n.text.toUTF8
  | _ => none

/-- Whether the value is a number or spells one. -/
def isNumeric (v : Value) : Bool :=
  v.toNumber?.isSome

/-- Whether the value takes part in concatenation without a handler. -/
def isConcatenable (v : Value) : Bool :=
  v.isString || v.isNumber

/-- The targets of a conversion that the host can ask for. -/
inductive Target where
  | integer | float | number | string | table | function | closure | userdata | value
  deriving DecidableEq, Repr

/-- The name of a target in error messages. -/
def Target.name : Target → String
  | .integer => "integer"
  | .float => "float"
  | .number => "number"
  | .string => "string"
  | .table => "table"
  | .function => "function"
  | .closure => "lua closure"
  | .userdata => "userdata"
  | .value => "value"

/-- Converts a value to a target, if it has a representation there. -/
def coerce? (v : Value) : Target → Option Value
  | .integer => v.toInt?.map .int
  | .float => v.toFloat?.map .float
  | .number => v.toNumber?.map .number
  | .string => v.toBytes?.map .string
  | .table => if v.isTable then some v else none
  | .function => if v.isFunction then some v else none
  | .closure => match v with
    | .closure _ => some v
    | _ => none
  | .userdata => match v with
    | .userdata _ => some v
    | _ => none
  | .value => some v

end LuaMachine.Value
