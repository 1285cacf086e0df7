import LuaMachine.Instruction.Encoding
import LuaMachine.Text.Quoted
import LuaMachine.Text.Utf8
import LuaMachine.Value.Basic

/-!
# Function prototypes

A prototype is the compiled body of a function: its code, constants, nested prototypes and debug
tables. Every prototype carries the number `id` as its identity, since two prototypes with the same
content are still different.
-/
namespace LuaMachine

/-- Where a new closure takes one of its upvalues from: a register of the enclosing function or one
of its upvalues. -/
structure UpvalueSource where
  inStack : Bool
  index : Nat
  deriving DecidableEq, Repr, Inhabited

/-- The compiled body of a function. -/
structure Prototype where
  id : Nat := 0
  source : Option ByteArray := none
  firstLine : Nat := 0
  lastLine : Nat := 0
  paramCount : Nat := 0
  isVararg : Bool := false
  /-- The number of registers of an activation. -/
  maxStackSize : Nat := 0
  code : Array Instruction := #[]
  constants : Array Value := #[]
  upvalues : Array UpvalueSource := #[]
  functions : Array Prototype := #[]
  /-- The source line of each instruction. -/
  lines : Array Nat := #[]
  upvalueNames : Array (Option ByteArray) := #[]

instance : Inhabited Prototype := ⟨{}⟩

namespace Prototype

/-- The source line of an instruction, if recorded. -/
def line? (p : Prototype) (pc : Nat) : Option Nat :=
  p.lines[pc]?

/-- The name of the source, or a question mark. -/
def sourceName (p : Prototype) : String :=
  match p.source with
  | some s => Text.lossy s.data.toList
  | none => "?"

/-- The prototype in diagnostics. -/
def describe (p : Prototype) : String :=
  "Prototype \x7b source: " ++ Text.quote p.sourceName
    ++ ", lines: " ++ toString p.firstLine ++ "..=" ++ toString p.lastLine
    ++ ", params: " ++ toString p.paramCount
    ++ ", vararg: " ++ toString p.isVararg ++ " \x7d"

end Prototype

/-- The instruction in diagnostics. -/
def Instruction.describe (i : Instruction) : String :=
  "LuaInstruction(" ++ Text.quote i.opName ++ ")"

end LuaMachine
