import LuaMachine.Instruction.Opcode

/-!
# Instruction words

An instruction is a 32-bit word. From the low end it holds the opcode in 6 bits, `A` in 8, `C` in 9
and `B` in 9. `Bx` spans `C` and `B`, `sBx` is `Bx` less 131071, and `Ax` spans everything above the
opcode. Encoding checks the range of every operand that the layout uses.
-/
namespace LuaMachine

/-- An instruction word. -/
structure Instruction where
  word : UInt32
  deriving DecidableEq, Inhabited, Repr

/-- The bias of the signed operand. -/
def sbxBias : Nat := 131071

/-- The bit that marks a `B` or `C` operand as the index of a constant. -/
def constantBit : Nat := 256

/-- Whether the operand names a constant rather than a register. -/
def isConstant (operand : Nat) : Bool :=
  operand / constantBit % 2 == 1

/-- The index of the constant an operand names. -/
def constantIndex (operand : Nat) : Nat :=
  if isConstant operand then operand - constantBit else operand

/-- The operand that names a constant. Only the first 256 constants can be named. -/
def constantOperand? (index : Nat) : Option Nat :=
  if index < constantBit then some (index + constantBit) else none

namespace Instruction

/-- A word that is no instruction. -/
def invalid : Instruction := ⟨0xffffffff⟩

/-- The number in the opcode field. -/
def opcode (i : Instruction) : Nat := i.word.toNat % Nat.pow 2 6

/-- The opcode, if its number is known. -/
def op? (i : Instruction) : Option Opcode := Opcode.ofNat? i.opcode

def opName (i : Instruction) : String := Opcode.nameOf i.opcode

def a (i : Instruction) : Nat := i.word.toNat / Nat.pow 2 6 % Nat.pow 2 8

def b (i : Instruction) : Nat := i.word.toNat / Nat.pow 2 23 % Nat.pow 2 9

def c (i : Instruction) : Nat := i.word.toNat / Nat.pow 2 14 % Nat.pow 2 9

def bx (i : Instruction) : Nat := i.word.toNat / Nat.pow 2 14 % Nat.pow 2 18

def sbx (i : Instruction) : Int := (i.bx : Int) - sbxBias

def ax (i : Instruction) : Nat := i.word.toNat / Nat.pow 2 6 % Nat.pow 2 26

/-- A natural number below the bound. -/
def inRange? (bound : Nat) (operand : Int) : Option Nat :=
  if 0 ≤ operand ∧ operand < bound then some operand.toNat else none

/-- Three operands. The opcode has to use this layout. -/
def ofABC? (op : Opcode) (a b c : Int) : Option Instruction := do
  guard (op.mode = .abc)
  let a ← inRange? (Nat.pow 2 8) a
  let b ← inRange? (Nat.pow 2 9) b
  let c ← inRange? (Nat.pow 2 9) c
  return ⟨UInt32.ofNat (op.toNat + a * Nat.pow 2 6 + c * Nat.pow 2 14 + b * Nat.pow 2 23)⟩

/-- A register and an unsigned index, for an opcode of any layout. -/
def ofABx? (op : Opcode) (a bx : Int) : Option Instruction := do
  let a ← inRange? (Nat.pow 2 8) a
  let bx ← inRange? (Nat.pow 2 18) bx
  return ⟨UInt32.ofNat (op.toNat + a * Nat.pow 2 6 + bx * Nat.pow 2 14)⟩

/-- A register and a signed offset. The opcode has to use this layout. -/
def ofAsBx? (op : Opcode) (a sbx : Int) : Option Instruction := do
  guard (op.mode = .asbx)
  ofABx? op a (sbx + sbxBias)

/-- One wide operand, for an opcode of any layout. -/
def ofAx? (op : Opcode) (ax : Int) : Option Instruction := do
  let ax ← inRange? (Nat.pow 2 26) ax
  return ⟨UInt32.ofNat (op.toNat + ax * Nat.pow 2 6)⟩

/-- Encodes an opcode with operands in the order of its layout. Missing operands are zero and
further ones ignored. -/
def encode? (op : Opcode) (operands : List Int) : Option Instruction :=
  let operand (i : Nat) : Int := operands.getD i 0
  match op.mode with
  | .abc => ofABC? op (operand 0) (operand 1) (operand 2)
  | .abx => ofABx? op (operand 0) (operand 1)
  | .asbx => ofAsBx? op (operand 0) (operand 1)
  | .ax => ofAx? op (operand 0)

/-- The operands of an instruction in the order of a layout. -/
def operands (i : Instruction) : OpMode → List Int
  | .abc => [i.a, i.b, i.c]
  | .abx => [i.a, i.bx]
  | .asbx => [i.a, i.sbx]
  | .ax => [i.ax]

end Instruction

end LuaMachine
