import LuaMachine.Heap
import LuaMachine.Number.Text
import LuaMachine.Text.Quoted
import LuaMachine.Value.Text

/-!
# Values in diagnostics

The diagnostic text of a value names its variant and shows closures with their upvalues. Values that
could only be shown by an address have no such text.
-/
namespace LuaMachine

/-- Joins texts with commas. -/
def commaList (texts : List String) : String :=
  ", ".intercalate texts

/-- The text of an upvalue given the texts of values. -/
def describeCell (describe : Value → Option String) : Cell → Option String
  | .opened slot => some ("Upvalue \x7b slot: StackIndex(" ++ toString slot ++ ") \x7d")
  | .closed v => (describe v).map fun text => "Upvalue(" ++ text ++ ")"

/-- The text of a closure given the texts of values. -/
def describeClosure (u : Upvalues) (c : Closure) (describe : Value → Option String) :
    Option String :=
  (c.upvalues.toList.mapM fun r => describeCell describe (u.cell r)).map fun texts =>
    "LuaFunction::LUA_CLOSURE(" ++ c.proto.describe ++ ", [" ++ commaList texts ++ "])"

/-- The text of a value whose closures are nested at most `depth` deep. -/
def Value.describeWithin (h : Heap) (u : Upvalues) : Nat → Value → Option String
  | _, .nil => some "LuaNil"
  | _, .bool b => some ("LuaBool(" ++ toString b ++ ")")
  | _, .number n => some ("LuaNumber(" ++ n.describe ++ ")")
  | _, .string s =>
    some ("LuaString(LuaString(" ++ toString s.size ++ ", " ++ Text.quote (bytesText s) ++ "))")
  | _, .light a => some ("LuaLightUserdata(LightUserData(" ++ toString a.toNat ++ "))")
  | depth + 1, .closure r =>
    (describeClosure u (h.closureAt r) (describeWithin h u depth)).map fun text =>
      "LuaFunction(" ++ text ++ ")"
  | _, _ => none

/-- The diagnostic text of a value. A chain of closures without a cycle is no longer than there are
closures. -/
def Value.describe (h : Heap) (u : Upvalues) (v : Value) : Option String :=
  v.describeWithin h u h.closures.size

end LuaMachine
