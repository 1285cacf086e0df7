import LuaMachine.Binary64.Text
import LuaMachine.Number.Basic

/-!
# The text of a number

Integers are written in decimal. Integral floats below `10 ^ 16` keep one digit after the point, so
that the subtype can be read back, and all other floats are written positionally with the fewest
digits that read back.
-/
namespace LuaMachine

/-- Whether the float has no fraction and lies strictly between `-10 ^ 16` and `10 ^ 16`. -/
def isShortIntegral (x : Float) : Bool :=
  match Binary64.exactInt? x with
  | some n => n.natAbs < Nat.pow 10 16
  | none => false

/-- The text of a float in string conversions. A NaN shows its sign as well. -/
def floatText (x : Float) : String :=
  match Binary64.parts x with
  | .nan => Binary64.signText (Binary64.isNegative x) ++ "nan"
  | .infinite s => Binary64.signText s ++ "inf"
  | .finite _ _ _ => Binary64.positionalText x (if isShortIntegral x then 1 else 0)

namespace Number

/-- The text of a number in string conversions. -/
def text : Number → String
  | .int n => Binary64.intText n.toInt
  | .float x => floatText x

/-- The text of a number in diagnostics, which names the subtype. -/
def describe : Number → String
  | .int n => "INT(" ++ Binary64.intText n.toInt ++ ")"
  | .float x => "FLOAT(" ++ Binary64.generalText x ++ ")"

end Number

end LuaMachine
