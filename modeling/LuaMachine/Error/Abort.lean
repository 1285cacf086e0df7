/-!
# Ends that no program survives

Malformed bytecode and broken obligations of the host end a run for good. A fault is an arithmetic
step, a range or an internal assertion that has no result. Running out of fuel is an end of its own,
since the run could go on.
-/
namespace LuaMachine

/-- What is wrong with a piece of bytecode. -/
inductive Malformed where
  | programCounter (counter codeLength : Nat)
  | register (index stackSize : Nat)
  | constant (index count : Nat)
  | upvalue (index count : Nat)
  | prototype (index count : Nat)
  | unknownOpcode (opcode : Nat)
  | executedExtraArg
  | setListUnderflow
  | setListTarget (found : String)
  | expectedOpcode (expected found : String)
  deriving DecidableEq, Repr

/-- The wording of a defect. -/
def Malformed.message (m : Malformed) : String :=
  "malformed bytecode: " ++ match m with
    | .programCounter counter length =>
      "program counter out of bounds at index " ++ toString counter ++ " with program length " ++
        toString length
    | .register index size =>
      "register index out of bounds at index " ++ toString index ++ " with stack size " ++
        toString size
    | .constant index count =>
      "constant index out of bounds at index " ++ toString index ++ " with constant count " ++
        toString count
    | .upvalue index count =>
      "upvalue index out of bounds at index " ++ toString index ++ " with upvalue count " ++
        toString count
    | .prototype index count =>
      "prototype index out of bounds at index " ++ toString index ++ " with prototype count " ++
        toString count
    | .unknownOpcode n => "unknown opcode: " ++ String.ofList ((Nat.toDigits 16 n).map Char.toUpper)
    | .executedExtraArg => "attempt to execute EXTRAARG opcode"
    | .setListUnderflow => "underflow in SETLIST"
    | .setListTarget found => "SETLIST target is a " ++ found ++ " value"
    | .expectedOpcode expected found => "expected opcode " ++ expected ++ ", found opcode " ++ found

/-- A step that has no result. -/
inductive Fault where
  /-- A difference of two slots or counts that would be negative. -/
  | underflow
  /-- A sum that does not fit a machine word. -/
  | wordOverflow
  /-- A range of slots or frames that does not exist. -/
  | range
  /-- A request for more storage than an address can reach. -/
  | storage
  /-- The host frame was popped. -/
  | hostFramePopped
  /-- A frame without a calling function was replaced. -/
  | collapseWithoutCaller
  /-- The dispatch loop met a frame without a closure. -/
  | noClosure
  /-- A tail call found no calling frame. -/
  | tailCallWithoutCaller
  /-- A spliced frame does not end at the top of the stack. -/
  | topMismatch
  deriving DecidableEq, Repr

/-- Why a run ended without an answer. -/
inductive Abort where
  | malformed (m : Malformed)
  | fault (f : Fault)
  | outOfFuel
  deriving DecidableEq, Repr

/-- A step that may end the run. -/
abbrev Checked := Except Abort

/-- One more than the largest machine word. -/
def wordLimit : Nat := Nat.pow 2 64

/-- One more than the most bytes a piece of storage may have, so that distances within it are signed
words. -/
def storageLimit : Nat := Nat.pow 2 63

namespace Checked

/-- The sum of two words. -/
def add (a b : Nat) : Checked Nat :=
  if a + b < wordLimit then .ok (a + b) else .error (.fault .wordOverflow)

/-- The sum of two integers, which has to be an integer of 64 bits itself. -/
def addInt (a b : Int) : Checked Int64 :=
  if (Int64.ofInt (a + b)).toInt = a + b then .ok (Int64.ofInt (a + b))
  else .error (.fault .wordOverflow)

/-- The difference of two words. -/
def sub (a b : Nat) : Checked Nat :=
  if b ≤ a then .ok (a - b) else .error (.fault .underflow)

/-- Asks for storage of `count` items of `bytes` bytes each. -/
def reserve (count bytes : Nat) : Checked Unit :=
  if count * bytes < storageLimit then .ok () else .error (.fault .storage)

end Checked

end LuaMachine
