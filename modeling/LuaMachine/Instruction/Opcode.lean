/-!
# Opcodes

The 47 opcodes of the instruction set, in the order of their numbers, with the operand layout each
of them uses.
-/
namespace LuaMachine

/-- The operand layouts: three operands, a register and an unsigned index, a register and a signed
offset, or one wide operand. -/
inductive OpMode where
  | abc
  | abx
  | asbx
  | ax
  deriving DecidableEq, Repr

/-- The name of a layout, after its operands. -/
def OpMode.name : OpMode → String
  | .abc => "ABC"
  | .abx => "ABx"
  | .asbx => "AsBx"
  | .ax => "Ax"

/-- The operations of the machine, numbered from zero in this order. -/
inductive Opcode where
  | move | loadK | loadKX | loadBool | loadNil | getUpval
  | getTabUp | getTable | setTabUp | setUpval | setTable | newTable | self
  | add | sub | mul | mod | pow | div | idiv | band | bor | bxor | shl | shr
  | unm | bnot | not | len | concat
  | jmp | eq | lt | le | test | testSet
  | call | tailCall | ret
  | forLoop | forPrep | tforCall | tforLoop
  | setList | closure | vararg | extraArg
  deriving DecidableEq, Repr, Inhabited

namespace Opcode

/-- All opcodes, each at the position of its number. -/
def all : Array Opcode := #[
  .move, .loadK, .loadKX, .loadBool, .loadNil, .getUpval,
  .getTabUp, .getTable, .setTabUp, .setUpval, .setTable, .newTable, .self,
  .add, .sub, .mul, .mod, .pow, .div, .idiv, .band, .bor, .bxor, .shl, .shr, .unm, .bnot, .not,
    .len, .concat,
  .jmp, .eq, .lt, .le, .test, .testSet,
  .call, .tailCall, .ret,
  .forLoop, .forPrep, .tforCall, .tforLoop,
  .setList, .closure, .vararg, .extraArg]

/-- The opcode with the given number. -/
def ofNat? (n : Nat) : Option Opcode :=
  all[n]?

/-- The number of an opcode. -/
def toNat (op : Opcode) : Nat :=
  op.ctorIdx

@[simp] theorem ofNat?_toNat (op : Opcode) : ofNat? op.toNat = some op := by
  cases op <;> rfl

theorem toNat_lt (op : Opcode) : op.toNat < 64 := by
  cases op <;> decide

/-- The mnemonic of an opcode. -/
def name : Opcode → String
  | .move =>
    "MOVE" | .loadK => "LOADK" | .loadKX => "LOADKX" | .loadBool =>
      "LOADBOOL" | .loadNil => "LOADNIL"
  | .getUpval =>
    "GETUPVAL" | .getTabUp => "GETTABUP" | .getTable => "GETTABLE" | .setTabUp => "SETTABUP"
  | .setUpval => "SETUPVAL" | .setTable => "SETTABLE" | .newTable => "NEWTABLE" | .self => "SELF"
  | .add => "ADD" | .sub => "SUB" | .mul => "MUL" | .mod => "MOD" | .pow => "POW" | .div => "DIV"
  | .idiv =>
    "IDIV" | .band => "BAND" | .bor => "BOR" | .bxor => "BXOR" | .shl => "SHL" | .shr => "SHR"
  | .unm => "UNM" | .bnot => "BNOT" | .not => "NOT" | .len => "LEN" | .concat => "CONCAT"
  | .jmp =>
    "JMP" | .eq => "EQ" | .lt => "LT" | .le => "LE" | .test => "TEST" | .testSet => "TESTSET"
  | .call => "CALL" | .tailCall => "TAILCALL" | .ret => "RETURN"
  | .forLoop =>
    "FORLOOP" | .forPrep => "FORPREP" | .tforCall => "TFORCALL" | .tforLoop => "TFORLOOP"
  | .setList => "SETLIST" | .closure => "CLOSURE" | .vararg => "VARARG" | .extraArg => "EXTRAARG"

/-- The opcode with the given mnemonic. -/
def ofName? (s : String) : Option Opcode :=
  all.find? (·.name == s)

/-- The operand layout of an opcode. -/
def mode : Opcode → OpMode
  | .loadK | .loadKX | .closure => .abx
  | .jmp | .forLoop | .forPrep | .tforLoop => .asbx
  | .extraArg => .ax
  | _ => .abc

/-- The mnemonic of an opcode number, which may be unknown. -/
def nameOf (n : Nat) : String :=
  match ofNat? n with
  | some op => op.name
  | none => "[UNKNOWN OPCODE]"

end Opcode

end LuaMachine
