import LuaMachine.Prototype.Basic
import LuaMachine.Value.Text

/-!
# Listings

The readable listing of a prototype: one line for each instruction with its operands spelled out,
then the constants, the upvalues and the nested functions. Instructions are numbered from one, and
so are jump targets.
-/
namespace LuaMachine

/-- A register. -/
def registerText (r : Nat) : String :=
  "R[" ++ toString r ++ "]"

/-- A range of registers up to a last one, or up to the top of the stack. -/
def rangeText (first : Nat) (last : Option Nat) : String :=
  "R[" ++ toString first ++ ".." ++ (match last with
    | some n => toString n
    | none => "top") ++ "]"

/-- A signed offset, always with its sign. -/
def offsetText (n : Int) : String :=
  if n < 0 then "-" ++ toString n.natAbs else "+" ++ toString n.natAbs

namespace Prototype

/-- A constant between backquotes. A missing one shows as nil. -/
def constantText (p : Prototype) (index : Nat) : String :=
  "`" ++ (p.constants[index]?.getD .nil).text ++ "`"

/-- An operand that is a register or a constant. -/
def operandText (p : Prototype) (operand : Nat) : String :=
  if isConstant operand then p.constantText (constantIndex operand) else registerText operand

/-- `R[a] = x op y`. -/
def binaryText (p : Prototype) (i : Instruction) (operator : String) : String :=
  registerText i.a ++ " = " ++ p.operandText i.b ++ " " ++ operator ++ " " ++ p.operandText i.c

/-- The condition under which a comparison skips the next instruction. -/
def comparisonText (p : Prototype) (i : Instruction) (operator : String) : String :=
  "if (" ++ p.operandText i.b ++ " " ++ operator ++ " " ++ p.operandText i.c ++ ") ~= "
    ++ toString (decide (i.a ≠ 0)) ++ " then pc++"

/-- The destination of a jump at position `index`, numbered from one. -/
def targetText (index : Nat) (i : Instruction) : String :=
  toString ((index : Int) + i.sbx + 2)

/-- The arguments of a call in registers. -/
def argumentsText (i : Instruction) : String :=
  rangeText (i.a + 1) (if i.b = 0 then none else some (i.a + i.b))

/-- The operands of an instruction spelled out. -/
def operandsText (p : Prototype) (index : Nat) (i : Instruction) (op : Opcode) : String :=
  let r := registerText
  let rk := p.operandText
  let a := i.a
  let b := i.b
  let c := i.c
  match op with
  | .move => r a ++ " = " ++ r b
  | .loadK => r a ++ " = " ++ p.constantText i.bx
  | .loadKX => r a ++ " = K(EXTRAARG)"
  | .loadBool => r a ++ " = " ++ toString (decide (b ≠ 0)) ++ (if c ≠ 0 then "; pc++" else "")
  | .loadNil => "R[" ++ toString a ++ "..=" ++ toString (a + b) ++ "] = nil"
  | .getUpval => r a ++ " = Upval[" ++ toString b ++ "]"
  | .getTabUp => r a ++ " = Upval[" ++ toString b ++ "][" ++ rk c ++ "]"
  | .getTable => r a ++ " = " ++ r b ++ "[" ++ rk c ++ "]"
  | .setTabUp => "Upval[" ++ toString a ++ "][" ++ rk b ++ "] = " ++ rk c
  | .setUpval => "Upval[" ++ toString b ++ "] = " ++ r a
  | .setTable => r a ++ "[" ++ rk b ++ "] = " ++ rk c
  | .newTable => r a ++ " = \x7b\x7d"
  | .self => r (a + 1) ++ " = " ++ r b ++ "; " ++ r a ++ " = " ++ r b ++ "[" ++ rk c ++ "]"
  | .add => p.binaryText i "+"
  | .sub => p.binaryText i "-"
  | .mul => p.binaryText i "*"
  | .mod => p.binaryText i "%"
  | .pow => p.binaryText i "^"
  | .div => p.binaryText i "/"
  | .idiv => p.binaryText i "//"
  | .band => p.binaryText i "&"
  | .bor => p.binaryText i "|"
  | .bxor => p.binaryText i "~"
  | .shl => p.binaryText i "<<"
  | .shr => p.binaryText i ">>"
  | .unm => r a ++ " = -" ++ r b
  | .bnot => r a ++ " = ~" ++ r b
  | .not => r a ++ " = not " ++ r b
  | .len => r a ++ " = #" ++ r b
  | .concat => r a ++ " = " ++ r b ++ " .. ... .. " ++ r c
  | .jmp => "to " ++ targetText index i ++ " (" ++ offsetText i.sbx ++ ")"
    ++ (if a ≠ 0 then "; close R[" ++ toString (a - 1) ++ "..]" else "")
  | .eq => p.comparisonText i "=="
  | .lt => p.comparisonText i "<"
  | .le => p.comparisonText i "<="
  | .test => if c = 0 then "if not " ++ r a ++ " then pc++" else "if " ++ r a ++ " then pc++"
  | .testSet =>
    "if " ++ r b ++ " is " ++ toString (decide (c ≠ 0)) ++ " then " ++ r a ++ " = " ++ r b ++
      " else pc++"
  | .call =>
    rangeText a (if c = 0 then none else some (a + c - 1)) ++ " = " ++ r a ++ "(" ++
      argumentsText i ++ ")"
  | .tailCall => "return " ++ r a ++ "(" ++ argumentsText i ++ ")"
  | .ret => "return " ++ rangeText a (if b = 0 then none else some (a + b - 1))
  | .forLoop =>
    r a ++ " += " ++ r (a + 2) ++ "; if " ++ r a ++ " <?= " ++ r (a + 1) ++ " then jump to "
    ++ targetText index i
  | .forPrep => r a ++ " -= " ++ r (a + 2) ++ "; jump to " ++ targetText index i
  | .tforCall =>
    rangeText (a + 3) (some (a + 2 + c)) ++ " = " ++ r a ++ "(" ++ r (a + 1) ++ ", " ++
      r (a + 2) ++ ")"
  | .tforLoop =>
    "if " ++ r (a + 1) ++ " ~= nil then " ++ r a ++ " = " ++ r (a + 1) ++ "; jump to " ++
      targetText index i
  | .setList => r a ++ "[(" ++ toString c ++ "-1)*50+i] = R[" ++ toString a ++ "+i], 1 <= i <= "
    ++ (if b = 0 then "top" else toString b)
  | .closure => r a ++ " = closure(" ++ toString i.bx ++ ")"
  | .vararg => rangeText a (if b = 0 then none else some (a + b - 2)) ++ " = ..."
  | .extraArg => toString i.ax

/-- One instruction. -/
def instructionText (p : Prototype) (index : Nat) (i : Instruction) : String :=
  match i.op? with
  | some op => op.name ++ "\t" ++ p.operandsText index i op
  | none => "[UNKNOWN OPCODE] " ++ toString i.opcode

/-- The line of an instruction: its number, its source line if recorded, and its text. -/
def codeLine (p : Prototype) (index : Nat) (i : Instruction) : String :=
  toString (index + 1) ++ "\t"
    ++ (match p.line? index with
      | some line => "[" ++ toString line ++ "]\t"
      | none => "")
    ++ p.instructionText index i ++ "\n"

/-- The line of an upvalue: its position, its name if recorded, and where it comes from. -/
def upvalueLine (p : Prototype) (index : Nat) (u : UpvalueSource) : String :=
  let name := match p.upvalueNames[index]? with
    | some (some s) => bytesText s
    | _ => "-"
  toString index ++ "\t" ++ name ++ "\tinstack: " ++ (if u.inStack then "1" else "0") ++ "\tidx:" ++
    toString u.index ++ "\n"

/-- Joins the lines of a list of items, each with its position. -/
def numbered {α : Type} (xs : Array α) (line : Nat → α → String) : String :=
  String.join ((xs.toList.zipIdx).map fun (x, i) => line i x)

/-- The listing without the nested functions. -/
def header (p : Prototype) : String :=
  numbered p.code p.codeLine
    ++ "CONSTANTS: " ++ toString p.constants.size ++ "\n"
    ++ numbered p.constants (fun i v => toString i ++ "\t" ++ v.text ++ "\n")
    ++ "UPVALUES: " ++ toString p.upvalues.size ++ "\n"
    ++ numbered p.upvalues p.upvalueLine
    ++ "FUNCTIONS: " ++ toString p.functions.size ++ "\n"

/-- The whole listing. -/
def listing (p : Prototype) : String :=
  p.header ++ String.join ((p.functions.attach.toList.zipIdx).map fun (⟨f, _⟩, i) =>
    "Function-" ++ toString i ++ "\n" ++ f.listing)
  termination_by sizeOf p
  decreasing_by
    have h := Array.sizeOf_lt_of_mem ‹_ ∈ p.functions›
    cases p
    simp at h ⊢
    omega

end Prototype

end LuaMachine
