import LuaMachine.Machine.Metamethod

/-!
# The call protocol

A call finds a closure in the slot of the called function, lays out its frame above the arguments
and makes it current. A return moves the results down to that slot. A tail call builds the frame of
the callee first and then moves it into the place of its caller.
-/
namespace LuaMachine.Vm

/-- Moves `count` values from `source` up to `target`, leaving nil behind. -/
def takeUp (s : RegisterStack) (source target : Nat) : Nat → Checked RegisterStack
  | 0 => .ok s
  | count + 1 =>
    match s.take source with
    | .error e => .error e
    | .ok (v, s) =>
      match s.set target v with
      | .error e => .error e
      | .ok s => takeUp s (source + 1) (target + 1) count

/-- Moves the fixed parameters of a vararg call above the arguments, where the registers begin. The
other arguments stay below. -/
def adjustVarargs (paramCount argCount : Nat) : Exec Nat := do
  let base ← Exec.look (·.top)
  let fixed ← Exec.check (Checked.sub base argCount)
  let moved := min paramCount argCount
  Exec.onStack (takeUp · fixed base moved)
  Exec.onStack (·.fillNil (base + moved) (paramCount - moved))
  Exec.setTop (base + paramCount)
  return base

/-- The number of frames a call may find. The frame of a tail call is about to replace its caller,
so it may find one more. -/
def depthLimit (tailCall : Bool) (maxDepth : Nat) : Checked Nat :=
  if tailCall then Checked.add maxDepth 1 else .ok maxDepth

/-- Enters the frame of a closure that is in the slot `func`, with its arguments above it. -/
def enterFrame (r : ClosureRef) (func : Nat) (results : ResultCount) (tailCall : Bool) :
    Exec Unit := do
  let proto ← Exec.look fun vm => (vm.heap.closureAt r).proto
  let limit ← Exec.check (depthLimit tailCall (← Exec.look (·.config.maxCallDepth)))
  if limit ≤ (← Exec.look (·.frames.depth)) then Exec.raise (.overflow .stack)
  let top ← Exec.look (·.top)
  Exec.ensure (top + proto.maxStackSize)
  let argCount ← Exec.check (Checked.sub top (func + 1))
  let base ←
    if proto.isVararg then adjustVarargs proto.paramCount argCount
    else do
      Exec.onStack (·.fillNil top (proto.paramCount - argCount))
      pure (func + 1)
  let frameTop := base + proto.maxStackSize
  let frame : Frame := {
    closure := some r, func, base, top := frameTop, pc := 0, results, status := { lua := true } }
  Exec.modify fun vm => { vm with frames := vm.frames.push frame, top := frameTop }

/-- Enters the function in the slot `func`. A value that is no function has to be called through its
handler, which is the result. -/
def tryEnter (func : Nat) (results : ResultCount) (tailCall : Bool) : Exec (Option Value) := do
  match ← Exec.getSlot func with
  | .closure r =>
    enterFrame r func results tailCall
    return none
  | .host f => Exec.raise (.hostFunction f)
  | v =>
    match ← callHandler? v with
    | some handler => return some handler
    | none => Exec.raise (.notCallable v.type)

/-- Puts a handler in the slot `func`, so that the value there becomes the first argument. -/
def insertHandler (func : Nat) (handler : Value) : Exec Unit := do
  let top ← Exec.look (·.top)
  Exec.ensure (top + 1)
  Exec.onStack (·.insert func top handler)
  Exec.setTop (top + 1)

/-- Enters the function in the slot `func`, through as many handlers as needed. Every handler takes
one of the `room` free slots. -/
def enterFunction (func : Nat) (results : ResultCount) (tailCall : Bool) : Nat → Exec Unit
  | 0 => do
    match ← tryEnter func results tailCall with
    | none => pure ()
    | some _ => Exec.raise (.overflow .stack)
  | room + 1 => do
    match ← tryEnter func results tailCall with
    | none => pure ()
    | some handler =>
      insertHandler func handler
      enterFunction func results tailCall room

/-- Prepares a call of the value in the slot `func`, with the arguments from there up to the top. -/
def precall (func : Nat) (results : ResultCount) (tailCall : Bool) : Exec Unit := do
  let room ← Exec.look fun vm => vm.stack.limit - vm.top
  enterFunction func results tailCall room

/-- Moves `count` results from `first` down to `target`. Missing results are nil and further ones
dropped. Tells whether the caller asked for a fixed number. -/
def moveResults (first target count : Nat) : ResultCount → Exec Bool
  | .fixed 0 => do
    Exec.setTop target
    return true
  | .fixed 1 => do
    let v ← if count = 0 then pure .nil else Exec.getSlot first
    Exec.setSlot target v
    Exec.setTop (target + 1)
    return true
  | .fixed wanted => do
    let bound ← Exec.check (Checked.add target wanted)
    Exec.ensure bound
    let copied := min count wanted
    Exec.onStack (·.copyDown first target copied)
    Exec.onStack (·.fillNil (target + copied) (wanted - copied))
    Exec.setTop bound
    return true
  | .all => do
    Exec.onStack (·.copyDown first target count)
    Exec.setTop (target + count)
    return false

/-- Leaves the current frame with `count` results from the slot `first` on. -/
def postcall (first count : Nat) : Exec Bool := do
  let (frame, frames) ← Exec.check (← Exec.look (·.frames.pop))
  Exec.modify fun vm => { vm with frames }
  moveResults first frame.func count frame.results

/-- Moves the frame that a tail call has just entered into the place of its caller. -/
def spliceTailCall : Exec Unit := do
  let callee ← Exec.currentFrame
  let some caller ← Exec.look (·.frames.previous?) | Exec.abort (.fault .tailCallWithoutCaller)
  let some r := callee.closure | Exec.abort (.fault .noClosure)
  let proto ← Exec.look fun vm => (vm.heap.closureAt r).proto
  Exec.closeUpvalues caller.base
  let moved ← Exec.check (Checked.sub (callee.base + proto.paramCount) callee.func)
  Exec.onStack (·.copyDown callee.func caller.func moved)
  let offset ← Exec.check (Checked.sub callee.base callee.func)
  let height ← Exec.check (Checked.sub (← Exec.look (·.top)) callee.func)
  let base := caller.func + offset
  let top := caller.func + height
  Exec.setTop top
  Exec.onFrames (·.collapse {
    closure := some r, func := caller.func, base, top, pc := callee.pc
    results := caller.results, status := { caller.status with tail := true } })
  if top ≠ base + proto.maxStackSize then Exec.abort (.fault .topMismatch)

/-- Where a call from the host began: the call depth and the slot of the called function. -/
structure CallSite where
  depth : Nat
  func : Nat
  deriving DecidableEq, Repr, Inhabited

/-- Adds the entries of one frame to the trace of an error. -/
def traceFrame (heap : Heap) (e : LuaError) (f : Frame) : LuaError :=
  let e := match f.closure with
    | some r => e.traceLua (f.pc - 1) (heap.closureAt r).proto
    | none => e
  if f.status.tail then e.traceTailCall else e

/-- Leaves all frames of a call from the host because of an error, which records them. -/
def unwind (e : LuaError) (site : CallSite) : Exec LuaError := do
  let frames ← Exec.check (← Exec.look (·.frames.activeAbove site.depth))
  let e ← Exec.look fun vm => frames.foldl (traceFrame vm.heap) e
  Exec.closeUpvalues site.func
  Exec.modify fun vm => { vm with frames := vm.frames.truncate site.depth, top := site.func }
  return e

/-- Ends a call from the host with an error. -/
def failCall (e : LuaError) (site : CallSite) : Exec LuaError := do
  Exec.modify fun vm => { vm with hostCalls := vm.hostCalls - 1 }
  unwind e site

/-- Begins a call from the host: enters the function in the slot `func` and marks its frame. An
error that comes before the first instruction ends the call, except that beyond the limit of nested
calls there is no call to end. -/
def beginCall (func : Nat) (results : ResultCount) : Exec CallSite := fun vm =>
  if vm.config.maxHostCalls ≤ vm.hostCalls then .raised { cause := .overflow .hostCalls } vm
  else
    let site := { depth := vm.frames.depth, func }
    let enter : Exec Unit := do
      precall func results false
      Exec.modifyFrame fun f => { f with status := { f.status with fresh := true } }
    match enter { vm with hostCalls := vm.hostCalls + 1 } with
    | .returned _ vm => .returned site vm
    | .raised e vm =>
      match failCall e site vm with
      | .returned e vm => .raised e vm
      | .raised e vm => .raised e vm
      | .aborted why => .aborted why
    | .aborted why => .aborted why

end LuaMachine.Vm
