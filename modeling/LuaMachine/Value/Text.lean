import LuaMachine.Number.Text
import LuaMachine.Text.Utf8
import LuaMachine.Value.Basic

/-!
# The text of a value

Values without an object have a text of their own. Objects would be written with an address, which
is not part of the model, so they have none.
-/
namespace LuaMachine

/-- A byte string for display. -/
def bytesText (s : ByteArray) : String :=
  Text.lossy s.data.toList

/-- The text of a value, for values that are no objects of the heap. -/
def Value.text? : Value → Option String
  | .nil => some "nil"
  | .bool b => some (if b then "true" else "false")
  | .number n => some n.text
  | .string s => some (bytesText s)
  | .light a => some ("userdata: 0x" ++ String.ofList (Nat.toDigits 16 a.toNat))
  | .host f => some ("function: builtin: " ++ f.name)
  | .userdata _ | .closure _ | .table _ => none

/-- The text of a value, with the type name in place of an object. -/
def Value.text (v : Value) : String :=
  v.text?.getD v.typeName

end LuaMachine
