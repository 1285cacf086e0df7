import LuaMachine.Machine.Dispatch

/-!
# Runs

A call from the host runs steps until the frame it entered returns. Calls that instructions ask for
are nested in the run: `Suspended` remembers where such a call began and how the instruction goes on
afterwards. An error ends all nested calls, the innermost first, and then the call itself. Fuel
bounds the number of steps.
-/
namespace LuaMachine

/-- A nested call and the instruction that waits for it. -/
structure Suspended where
  site : Vm.CallSite
  resume : Vm.Resume

/-- A run in progress: the state, where the call from the host began, and the nested calls,
innermost first. -/
structure Run where
  vm : Vm
  root : Vm.CallSite
  suspended : List Suspended := []

namespace Run

/-- What a step leads to. -/
inductive Progress where
  | running (r : Run)
  | ended (o : Outcome Unit)

/-- Undoes what an instruction has marked when the call it asked for fails. -/
def abandon : Vm.Resume → Exec Unit
  | .test true _ => Vm.markSwapped false
  | _ => pure ()

/-- Ends nested calls with an error, the innermost first. -/
def unwindNested (e : LuaError) : List Suspended → Exec LuaError
  | [] => pure e
  | s :: rest => do
    let e ← Vm.failCall e s.site
    abandon s.resume
    unwindNested e rest

/-- Ends a run with an error. -/
def fail (e : LuaError) (root : Vm.CallSite) (suspended : List Suspended) : Exec Unit := fun vm =>
  let unwindAll : Exec LuaError := do
    let e ← unwindNested e suspended
    Vm.failCall e root
  match unwindAll vm with
  | .returned e vm => .raised e vm
  | .raised e vm => .raised e vm
  | .aborted why => .aborted why

/-- Ends a run with an error that an instruction met when the call it asked for could not begin. -/
def failBefore (k : Vm.Resume) (e : LuaError) (root : Vm.CallSite) (suspended : List Suspended) :
    Exec Unit := do
  abandon k
  fail e root suspended

/-- Begins a call of a handler: puts it and its arguments on top of the stack. -/
def beginInvoke (handler : Value) (args : List Value) : Exec Vm.CallSite := do
  let func ← Exec.look (·.top)
  Vm.pushAll (handler :: args)
  Vm.beginCall func .all

/-- Begins a nested call. -/
def nest (root : Vm.CallSite) (suspended : List Suspended) (k : Vm.Resume)
    (begin : Exec Vm.CallSite) (vm : Vm) : Progress :=
  match begin vm with
  | .returned site vm => .running { vm, root, suspended := { site, resume := k } :: suspended }
  | .raised e vm => .ended (failBefore k e root suspended vm)
  | .aborted why => .ended (.aborted why)

/-- Does what comes after an instruction. -/
def follow (root : Vm.CallSite) (suspended : List Suspended) (vm : Vm) : Vm.Next → Progress
  | .proceed => .running { vm, root, suspended }
  | .invoke handler args k => nest root suspended k (beginInvoke handler args) vm
  | .callAt func results k => nest root suspended k (Vm.beginCall func results) vm

/-- The results of a finished call: taken off the stack, except for the variables of a loop, which
stay. -/
def collect (site : Vm.CallSite) : Vm.Resume → Exec (List Value)
  | .iterate => pure []
  | _ => do
    let results ← Exec.check (← Exec.look fun vm => vm.stack.slice site.func vm.top)
    Exec.setTop site.func
    return results

/-- Ends a nested call and continues the instruction that waits for it. -/
def continueWith (s : Suspended) : Exec Vm.Next := do
  Exec.modify fun vm => { vm with hostCalls := vm.hostCalls - 1 }
  let results ← collect s.site s.resume
  Vm.resume s.resume results

/-- Ends the innermost call after its frame has returned. -/
def leave (root : Vm.CallSite) (vm : Vm) : List Suspended → Progress
  | [] => .ended (.returned () { vm with hostCalls := vm.hostCalls - 1 })
  | s :: rest =>
    match continueWith s vm with
    | .returned next vm => follow root rest vm next
    | .raised e vm => .ended (fail e root rest vm)
    | .aborted why => .ended (.aborted why)

/-- Executes one instruction and what follows from it. -/
def step (r : Run) : Progress :=
  match Vm.dispatch r.vm with
  | .returned (.next next) vm => follow r.root r.suspended vm next
  | .returned .leave vm => leave r.root vm r.suspended
  | .raised e vm => .ended (fail e r.root r.suspended vm)
  | .aborted why => .ended (.aborted why)

/-- Executes at most `fuel` instructions. -/
def steps : Nat → Run → Outcome Unit
  | 0, _ => .aborted .outOfFuel
  | fuel + 1, r =>
    match r.step with
    | .running r => steps fuel r
    | .ended o => o

end Run

namespace Vm

/-- Calls the function in the slot `func`, with its arguments from there up to the top. The results
start at `func`. -/
def call (fuel : Nat) (func : Nat) (results : ResultCount) : Exec Unit := fun vm =>
  match beginCall func results vm with
  | .returned root vm => Run.steps fuel { vm, root }
  | .raised e vm => .raised e vm
  | .aborted why => .aborted why

/-- Calls the function in the slot `func` and leaves its results there. They reach up to the top. -/
def callInPlace (fuel : Nat) (func : Nat) (results : ResultCount) : Exec (List Value) := do
  call fuel func results
  Exec.check (← Exec.look fun vm => vm.stack.slice func vm.top)

/-- Calls a function with arguments and takes all of its results. They are placed above the top,
which is restored when the call succeeds. -/
def callFunction (fuel : Nat) (function : Value) (args : List Value) : Exec (List Value) := do
  let func ← Exec.look (·.top)
  pushAll (function :: args)
  let results ← callInPlace fuel func .all
  Exec.setTop func
  return results

/-- The first result of a call. -/
def callOnce (fuel : Nat) (handler : Value) (args : List Value) : Exec Value := do
  return (← callFunction fuel handler args).headD .nil

/-- The result of an operation, through a call if it asks for one. -/
def fulfil (fuel : Nat) : Reply Value → Exec Value
  | .done v => pure v
  | .call handler args => callOnce fuel handler args

/-- Makes sure that the current frame is unmarked after an operation, whether it succeeds or
fails. -/
def unmarkAfter {α : Type} (x : Exec α) : Exec α := fun vm =>
  match x vm with
  | .returned a vm => (markSwapped false >>= fun _ => pure a : Exec α) vm
  | .raised e vm =>
    match markSwapped false vm with
    | .returned _ vm => .raised e vm
    | .raised _ vm => .raised e vm
    | .aborted why => .aborted why
  | .aborted why => .aborted why

/-- The answer of a comparison, through a call if it asks for one. -/
def answer (fuel : Nat) : Verdict → Exec Bool
  | .decided b => pure b
  | .ask false handler args => return (← callOnce fuel handler args).isTruthy
  | .ask true handler args => return !(← unmarkAfter (callOnce fuel handler args)).isTruthy

/-- `obj[key]` for the host. -/
def getIndex (fuel : Nat) (obj key : Value) : Exec Value := do
  fulfil fuel (← index obj key)

/-- `obj[key] = value` for the host. -/
def setIndex (fuel : Nat) (obj key value : Value) : Exec Unit := do
  match ← newIndex obj key value with
  | .done _ => pure ()
  | .call handler args => discard (callFunction fuel handler args)

/-- An operator for the host. -/
def applyArith (fuel : Nat) (op : ArithOp) (lhs rhs : Value) : Exec Value := do
  fulfil fuel (← arith op lhs rhs)

/-- The length of a value for the host. -/
def lengthOf (fuel : Nat) (v : Value) : Exec Value := do
  fulfil fuel (← length v)

/-- `lhs == rhs` for the host. -/
def isEqual (fuel : Nat) (lhs rhs : Value) : Exec Bool := do
  answer fuel (← equal lhs rhs)

/-- `lhs < rhs` for the host. -/
def isLess (fuel : Nat) (lhs rhs : Value) : Exec Bool := do
  answer fuel (← lessThan lhs rhs)

/-- `lhs <= rhs` for the host. -/
def isLessEqual (fuel : Nat) (lhs rhs : Value) : Exec Bool := do
  answer fuel (← lessEqual lhs rhs)

/-- The first result of the handler of two operands of a concatenation, if there is one. -/
def concatHook (fuel : Nat) (lhs rhs : Value) : Exec (Option Value) := do
  match ← binaryHook "concat" "__concat" lhs rhs with
  | some handler => return some (← callOnce fuel handler [lhs, rhs])
  | none => return none

/-- The concatenation of a list of values for the host, from the right. -/
def concatAll (fuel : Nat) (values : List Value) : Exec Value :=
  concatWith (concatHook fuel) Exec.raise values

end Vm

end LuaMachine
