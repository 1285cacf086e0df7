import LuaMachine.Error.Abort
import LuaMachine.Prototype.Basic
import LuaMachine.Table
import LuaMachine.Upvalue

/-!
# The heap

Tables, closures and userdata live in the heap and are known by reference. Tables and userdata have
a metatable each; for other values the type may have one.
-/
namespace LuaMachine

/-- A table with its metatable. -/
structure TableObject where
  content : Table := {}
  metatable : Option TableRef := none
  deriving Inhabited

/-- A function: a prototype with the cells of its upvalues. -/
structure Closure where
  proto : Prototype
  upvalues : Array CellRef
  deriving Inhabited

/-- An object of the host: an integer of a host type, with a metatable. -/
structure Userdata where
  hostType : String
  payload : Int
  metatable : Option TableRef := none
  deriving Inhabited

/-- The metatables of the types whose values have none of their own. -/
structure TypeMetatables where
  boolean : Option TableRef := none
  number : Option TableRef := none
  string : Option TableRef := none
  function : Option TableRef := none
  lightUserdata : Option TableRef := none
  deriving Inhabited

/-- All objects, each at the position of its reference. -/
structure Heap where
  tables : Array TableObject := #[]
  closures : Array Closure := #[]
  userdata : Array Userdata := #[]
  deriving Inhabited

namespace Heap

/-- Adds an empty table. -/
def newTable (h : Heap) : TableRef × Heap :=
  (⟨h.tables.size⟩, { h with tables := h.tables.push {} })

/-- Adds an empty table with storage for `listed` values in its array part and `keyed` entries in
its hash part. -/
def newTableOfSize (h : Heap) (listed keyed : Nat) : Checked (TableRef × Heap) := do
  Checked.reserve listed Value.bytes
  Checked.reserve keyed (2 * Value.bytes)
  return h.newTable

/-- Adds a closure. -/
def newClosure (h : Heap) (c : Closure) : ClosureRef × Heap :=
  (⟨h.closures.size⟩, { h with closures := h.closures.push c })

/-- Adds a userdata. -/
def newUserdata (h : Heap) (u : Userdata) : UserdataRef × Heap :=
  (⟨h.userdata.size⟩, { h with userdata := h.userdata.push u })

def tableAt (h : Heap) (r : TableRef) : TableObject :=
  h.tables[r.index]?.getD default

def closureAt (h : Heap) (r : ClosureRef) : Closure :=
  h.closures[r.index]?.getD default

def userdataAt (h : Heap) (r : UserdataRef) : Userdata :=
  h.userdata[r.index]?.getD default

/-- The value of a key of a table, without metamethods. -/
def rawGet (h : Heap) (r : TableRef) (k : Key) : Value :=
  (h.tableAt r).content.get k

/-- The value of a table at an arbitrary value, without metamethods. -/
def rawGetValue (h : Heap) (r : TableRef) (v : Value) : Value :=
  (h.tableAt r).content.getValue v

/-- Stores a value in a table, without metamethods. -/
def rawSet (h : Heap) (r : TableRef) (k : Key) (v : Value) : Heap :=
  { h with tables := h.tables.modify r.index fun t => { t with content := t.content.set k v } }

/-- The length of a table, without metamethods. -/
def rawLength (h : Heap) (r : TableRef) : Nat :=
  (h.tableAt r).content.border

/-- Gives a table or a userdata a metatable, or takes it away. Other values have none of their
own. -/
def setMetatable (h : Heap) (v : Value) (m : Option TableRef) : Heap :=
  match v with
  | .table r => { h with tables := h.tables.modify r.index fun t => { t with metatable := m } }
  | .userdata r =>
    { h with userdata := h.userdata.modify r.index fun u => { u with metatable := m } }
  | _ => h

/-- The metatable of a value, its own or that of its type. -/
def metatable? (h : Heap) (types : TypeMetatables) : Value → Option TableRef
  | .nil => none
  | .bool _ => types.boolean
  | .number _ => types.number
  | .string _ => types.string
  | .light _ => types.lightUserdata
  | .userdata r => (h.userdataAt r).metatable
  | .closure _ => types.function
  | .host _ => types.function
  | .table r => (h.tableAt r).metatable

/-- The handler of a value for an event: the field of that name in its metatable, or nil. -/
def metafield (h : Heap) (types : TypeMetatables) (v : Value) (event : String) : Value :=
  match h.metatable? types v with
  | some m => h.rawGet m (Key.ofText event)
  | none => .nil

/-- Reads the integer of a userdata as a host type. A userdata of another type is refused with both
names. -/
def downcast (h : Heap) (r : UserdataRef) (hostType : String) : Except (String × String) Int :=
  let u := h.userdataAt r
  if u.hostType = hostType then .ok u.payload else .error (u.hostType, hostType)

end Heap

/-- The length of a string or a table, without metamethods. -/
def Value.rawLength? (h : Heap) : Value → Option Nat
  | .string s => some s.size
  | .table r => some (h.rawLength r)
  | _ => none

end LuaMachine
