import LuaMachine.Error.Cause
import LuaMachine.Prototype.Basic

/-!
# Errors with their stack trace

An error collects one entry for each active frame it leaves, innermost first. Adjacent tail calls
share one entry that counts them.
-/
namespace LuaMachine

/-- One line of a stack trace. -/
inductive TraceEntry where
  /-- A function that was executing the instruction at `pc`. -/
  | lua (pc : Nat) (proto : Prototype)
  /-- Frames that were replaced by tail calls. -/
  | tailCalls (count : Nat)

/-- An error on its way to the host. -/
structure LuaError where
  cause : Cause
  trace : Array TraceEntry := #[]

namespace TraceEntry

/-- A function is named by where it is defined. Line zero is the main chunk. -/
def place (source : ByteArray) (firstLine : Nat) : String :=
  if firstLine = 0 then "main chunk"
  else "function <" ++ bytesText source ++ ":" ++ toString firstLine ++ ">"

/-- The position of a frame: source and line as far as they are known. -/
def text : TraceEntry → String
  | .tailCalls n => "(...tail calls: " ++ toString n ++ "...)"
  | .lua pc p =>
    match p.source, p.line? pc with
    | some s, some line =>
      bytesText s ++ ":" ++ toString line ++ ": in " ++ place s p.firstLine
    | some s, none => bytesText s ++ ": in " ++ place s p.firstLine
    | none, some line => "?:" ++ toString line ++ ": in anonymous function"
    | none, none => "?: in anonymous function (pc " ++ toString pc ++ ")"

/-- The entry in diagnostics. -/
def describe : TraceEntry → String
  | .tailCalls n => "TraceEntry::TailCall(" ++ toString n ++ ")"
  | .lua pc p =>
    "TraceEntry::Lua \x7b "
      ++ (match p.line? pc with
        | some line => "line: " ++ toString line ++ ", "
        | none => "")
      ++ "program_counter: " ++ toString pc ++ ", "
      ++ (match p.code[pc]? with
        | some i => "opcode: " ++ Text.quote i.opName ++ ", "
        | none => "")
      ++ "prototype: " ++ p.describe ++ " \x7d"

end TraceEntry

namespace LuaError

/-- Records a frame that was executing the instruction at `pc`. -/
def traceLua (e : LuaError) (pc : Nat) (p : Prototype) : LuaError :=
  { e with trace := e.trace.push (.lua pc p) }

/-- Records that a frame replaced its caller by a tail call. -/
def traceTailCall (e : LuaError) : LuaError :=
  match e.trace.back? with
  | some (.tailCalls n) => { e with trace := e.trace.pop.push (.tailCalls (n + 1)) }
  | _ => { e with trace := e.trace.push (.tailCalls 1) }

def message (e : LuaError) : String :=
  e.cause.message

/-- The message with the stack trace below it. -/
def report (e : LuaError) : String :=
  e.message ++ (if e.trace.isEmpty then "" else "\nstack traceback:")
    ++ String.join (e.trace.toList.map fun t => "\n\t" ++ t.text)

end LuaError

end LuaMachine
