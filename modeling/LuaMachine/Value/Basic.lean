import LuaMachine.Number.Compare

/-!
# Values

A value is plain data or a reference to an object of the heap. Tables, closures and full userdata
are compared by identity, which is the identity of the reference, and so are host functions, whose
identity is the address of their code. Keys are what a table tells the values apart by that it can
be indexed with, in one canonical form each: there is no key for nil or NaN, a float with an
integral value is the integer, and the name of a host function does not matter.
-/
namespace LuaMachine

/-- The identity of a table. -/
structure TableRef where
  index : Nat
  deriving DecidableEq, Hashable, Repr, Inhabited

/-- The identity of a closure. -/
structure ClosureRef where
  index : Nat
  deriving DecidableEq, Hashable, Repr, Inhabited

/-- The identity of a full userdata. -/
structure UserdataRef where
  index : Nat
  deriving DecidableEq, Hashable, Repr, Inhabited

/-- A function of the host program, identified by the address of its code. The name is for messages
only. The machine never runs one. -/
structure HostFunction where
  address : UInt64
  name : String
  deriving DecidableEq, Repr

/-- Strings are equal if their bytes are. -/
instance instDecidableEqBytes : DecidableEq ByteArray := ByteArray.instDecidableEq

/-- The values that registers, constants, tables and upvalues hold. -/
inductive Value where
  | nil
  | bool (b : Bool)
  | number (n : Number)
  | string (s : ByteArray)
  | light (address : UInt64)
  | userdata (r : UserdataRef)
  | closure (r : ClosureRef)
  | host (f : HostFunction)
  | table (r : TableRef)
  deriving DecidableEq

instance : Inhabited Value := ⟨.nil⟩

/-- What a value is told apart by that indexes a table. -/
inductive Key where
  | bool (b : Bool)
  | int (n : Int64)
  | float (x : Float)
  | string (s : ByteArray)
  | light (address : UInt64)
  | userdata (r : UserdataRef)
  | closure (r : ClosureRef)
  | host (address : UInt64)
  | table (r : TableRef)
  deriving DecidableEq

/-- Why a value cannot index a table. -/
inductive InvalidKey where
  | isNil
  | isNaN
  deriving DecidableEq, Repr

/-- The types a program can tell apart. Light and full userdata are one type. -/
inductive ValueType where
  | nil | boolean | number | string | userdata | function | table
  deriving DecidableEq, Repr

def ValueType.name : ValueType → String
  | .nil => "nil"
  | .boolean => "boolean"
  | .number => "number"
  | .string => "string"
  | .userdata => "userdata"
  | .function => "function"
  | .table => "table"

/-- Strings of at most this many bytes are short. -/
def shortStringLength : Nat := 40

namespace Value

/-- The bytes a value takes in storage: a tag and three words. -/
def bytes : Nat := 32

/-- The value of an integer. -/
abbrev int (n : Int64) : Value := .number (.int n)

/-- The value of a float. -/
abbrev float (x : Float) : Value := .number (.float x)

/-- The string with the UTF-8 bytes of a text. -/
def ofText (s : String) : Value := .string s.toUTF8

def type : Value → ValueType
  | .nil => .nil
  | .bool _ => .boolean
  | .number _ => .number
  | .string _ => .string
  | .light _ => .userdata
  | .userdata _ => .userdata
  | .closure _ => .function
  | .host _ => .function
  | .table _ => .table

/-- The name of the value's type. -/
def typeName (v : Value) : String := v.type.name

/-- The tag of the value's variant: the type in the low four bits and the variant above them. -/
def tag : Value → Nat
  | .nil => 0
  | .bool _ => 1
  | .light _ => 2
  | .number (.float _) => 3
  | .number (.int _) => 19
  | .string s => if s.size ≤ shortStringLength then 4 else 20
  | .table _ => 5
  | .closure _ => 6
  | .host _ => 22
  | .userdata _ => 7

def isNil : Value → Bool
  | .nil => true
  | _ => false

def isInteger : Value → Bool
  | .number (.int _) => true
  | _ => false

def isFloat : Value → Bool
  | .number (.float _) => true
  | _ => false

def isNumber : Value → Bool
  | .number _ => true
  | _ => false

def isString : Value → Bool
  | .string _ => true
  | _ => false

def isTable : Value → Bool
  | .table _ => true
  | _ => false

def isFunction : Value → Bool
  | .closure _ | .host _ => true
  | _ => false

/-- Every value but nil and `false` counts as true. -/
def isTruthy : Value → Bool
  | .nil => false
  | .bool b => b
  | _ => true

/-- The value, unless it is nil. -/
def notNil? : Value → Option Value
  | .nil => none
  | v => some v

/-- Equality without metamethods: numbers by value, strings by bytes, objects and host functions by
identity. -/
def rawEqual : Value → Value → Bool
  | .nil, .nil => true
  | .bool a, .bool b => a = b
  | .number a, .number b => a.equal b
  | .string a, .string b => a = b
  | .light a, .light b => a = b
  | .userdata a, .userdata b => a = b
  | .closure a, .closure b => a = b
  | .host a, .host b => a.address = b.address
  | .table a, .table b => a = b
  | _, _ => false

/-- The canonical form of a value that indexes a table: a float with an integral value is the
integer. -/
def normalized : Value → Value
  | .number (.float x) =>
    match floatToInt? .exact x with
    | some n => .int n
    | none => .float x
  | v => v

/-- The key of a value. -/
def toKey (v : Value) : Except InvalidKey Key :=
  match v.normalized with
  | .nil => .error .isNil
  | .bool b => .ok (.bool b)
  | .number (.int n) => .ok (.int n)
  | .number (.float x) => if x.isNaN then .error .isNaN else .ok (.float x)
  | .string s => .ok (.string s)
  | .light a => .ok (.light a)
  | .userdata r => .ok (.userdata r)
  | .closure r => .ok (.closure r)
  | .host f => .ok (.host f.address)
  | .table r => .ok (.table r)

end Value

/-! ## Hashing -/

/-- A piece of data that a hasher is given. -/
inductive HashInput where
  | byte (b : UInt8)
  | int (n : Int64)
  | word (w : UInt64)
  | address (a : UInt64)
  | bytes (s : ByteArray)
  deriving DecidableEq

/-- Where the objects of the heap are. -/
structure Placement where
  userdata : UserdataRef → UInt64
  closure : ClosureRef → UInt64
  table : TableRef → UInt64

/-- The data that a hasher is given for a value in canonical form. Nothing tells the types apart,
and for objects and host functions it is the address. -/
def Value.hashInput (place : Placement) : Value → List HashInput
  | .nil => []
  | .bool b => [.byte b.toUInt8]
  | .number (.int n) => [.int n]
  | .number (.float x) => [.word x.toBits]
  | .string s => [.bytes s]
  | .light a => [.address a]
  | .userdata r => [.address (place.userdata r)]
  | .closure r => [.address (place.closure r)]
  | .host f => [.address f.address]
  | .table r => [.address (place.table r)]

/-- Every object at the number of its reference. -/
def Placement.byIndex : Placement where
  userdata r := UInt64.ofNat r.index
  closure r := UInt64.ofNat r.index
  table r := UInt64.ofNat r.index

def HashInput.hash : HashInput → UInt64
  | .byte b => b.toUInt64
  | .int n => n.toUInt64
  | .word w => w
  | .address a => a
  | .bytes s => Hashable.hash s

/-- The hash of all the data that was given. -/
def HashInput.digest (input : List HashInput) : UInt64 :=
  input.foldl (fun acc i => mixHash acc i.hash) 7

namespace Key

/-- A value in canonical form with this key. A host function has lost its name. -/
def toValue : Key → Value
  | .bool b => .bool b
  | .int n => .number (.int n)
  | .float x => .number (.float x)
  | .string s => .string s
  | .light a => .light a
  | .userdata r => .userdata r
  | .closure r => .closure r
  | .host address => .host { address, name := "" }
  | .table r => .table r

/-- The hash of the data that the key stands for. -/
def hash (k : Key) : UInt64 :=
  HashInput.digest (k.toValue.hashInput .byIndex)

instance : Hashable Key := ⟨hash⟩

/-- The key of a text. -/
def ofText (s : String) : Key := .string s.toUTF8

/-- The key of a count: an integer, or beyond the integers the nearest float. -/
def ofNat (n : Nat) : Key :=
  if n < Nat.pow 2 63 then .int (Int64.ofNat n) else .float (UInt64.ofNat n).toFloat

end Key

/-- Order of byte strings, byte by byte with a proper beginning first. -/
def compareBytes : List UInt8 → List UInt8 → Ordering
  | [], [] => .eq
  | [], _ :: _ => .lt
  | _ :: _, [] => .gt
  | a :: as, b :: bs => (compare a b).then (compareBytes as bs)

end LuaMachine
