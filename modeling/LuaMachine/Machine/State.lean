import LuaMachine.CallStack
import LuaMachine.Error.Trace
import LuaMachine.Heap
import LuaMachine.RegisterStack

/-!
# The state of the machine

The machine owns the heap, the register stack with its top, the frames and the upvalues. An
operation on it has one of three ends: it returns, it raises an error and leaves a usable state
behind, or it aborts and leaves nothing.
-/
namespace LuaMachine

/-- Resource limits and diagnostics of a machine. -/
structure Config where
  initialStackSize : Nat := 40
  maxStackSize : Nat := 1000000
  maxCallDepth : Nat := 200000
  /-- How many calls from the host may be nested. Handlers and iterators count as such. -/
  maxHostCalls : Nat := 200
  recordTrace : Bool := false
  deriving DecidableEq, Repr, Inhabited

/-- What happens when an operation has no raw result. -/
inductive Hooks where
  /-- Metatables are consulted. -/
  | standard
  /-- Every such operation fails. -/
  | raw
  deriving DecidableEq, Repr, Inhabited

/-- A run of instructions of one prototype, by their positions. -/
structure TraceGroup where
  proto : Prototype
  pcs : Array Nat

/-- What can be told about an active frame. -/
structure FrameInfo where
  proto : Prototype
  /-- The instruction being executed. -/
  pc : Nat
  line : Option Nat
  /-- The outermost function has depth one. -/
  depth : Nat
  isTailCall : Bool

/-- A record of one consultation of the hooks, with the state of the machine at that moment. -/
structure Consultation where
  event : String
  args : List Value
  frames : List FrameInfo
  top : Nat
  depth : Nat
  stackSize : Nat
  openUpvalues : Nat

/-- The whole state of a machine. -/
structure Vm where
  heap : Heap
  upvalues : Upvalues
  types : TypeMetatables
  stack : RegisterStack
  /-- The first free slot of the register stack. -/
  top : Nat
  frames : CallStack
  hooks : Hooks
  config : Config
  /-- How many calls from the host are nested now. -/
  hostCalls : Nat
  /-- The executed instructions, if they are recorded. -/
  trace : Option (Array TraceGroup)
  /-- The consultations of the hooks, if they are recorded. -/
  consultations : Option (Array Consultation)
  deriving Inhabited

/-- A machine over a heap, with nothing on its stack. -/
def Vm.new (config : Config) (hooks : Hooks) (heap : Heap) (upvalues : Upvalues) : Vm where
  heap := heap
  upvalues := upvalues
  types := {}
  stack := .new config.initialStackSize config.maxStackSize
  top := 0
  frames := .new 0
  hooks := hooks
  config := config
  hostCalls := 0
  trace := if config.recordTrace then some #[] else none
  consultations := none

/-- A machine like `Vm.new`, with storage for the whole initial stack. -/
def Vm.create (config : Config) (hooks : Hooks) (heap : Heap) (upvalues : Upvalues) :
    Checked Vm := do
  Checked.reserve config.initialStackSize Value.bytes
  return Vm.new config hooks heap upvalues

/-- The end of an operation. -/
inductive Outcome (α : Type) where
  | returned (a : α) (vm : Vm)
  | raised (e : LuaError) (vm : Vm)
  | aborted (why : Abort)

/-- An operation on the machine. -/
def Exec (α : Type) : Type := Vm → Outcome α

namespace Exec

@[always_inline, inline]
protected def pure {α : Type} (a : α) : Exec α := fun vm => .returned a vm

@[always_inline, inline]
protected def bind {α β : Type} (x : Exec α) (f : α → Exec β) : Exec β := fun vm =>
  match x vm with
  | .returned a vm => f a vm
  | .raised e vm => .raised e vm
  | .aborted why => .aborted why

instance : Monad Exec where
  pure := Exec.pure
  bind := Exec.bind

instance : LawfulMonad Exec := LawfulMonad.mk' Exec
  (by
    intro α x
    funext vm
    show Exec.bind x Exec.pure vm = x vm
    unfold Exec.bind
    cases x vm <;> rfl)
  (by
    intro α β a f
    rfl)
  (by
    intro α β γ x f g
    funext vm
    show Exec.bind (Exec.bind x f) g vm = Exec.bind x (fun a => Exec.bind (f a) g) vm
    unfold Exec.bind
    cases x vm <;> rfl)

/-- An operation in two parts returns exactly when both parts do. -/
theorem bind_eq_returned_iff {α β : Type} {x : Exec α} {f : α → Exec β} {vm after : Vm} {b : β} :
    (x >>= f) vm = .returned b after ↔
      ∃ a mid, x vm = .returned a mid ∧ f a mid = .returned b after := by
  show Exec.bind x f vm = _ ↔ _
  unfold Exec.bind
  cases x vm with
  | returned a mid =>
    constructor
    · intro h
      exact ⟨a, mid, rfl, h⟩
    · rintro ⟨_, _, h, h'⟩
      cases h
      exact h'
  | raised e mid => simp
  | aborted why => simp

/-- An operation in two parts raises an error exactly when the first part does, or when the first
part returns and the second part raises it. -/
theorem bind_eq_raised_iff {α β : Type} {x : Exec α} {f : α → Exec β} {vm after : Vm}
    {e : LuaError} :
    (x >>= f) vm = .raised e after ↔
      x vm = .raised e after ∨ ∃ a mid, x vm = .returned a mid ∧ f a mid = .raised e after := by
  show Exec.bind x f vm = _ ↔ _
  unfold Exec.bind
  cases x vm with
  | returned a mid =>
    constructor
    · intro h
      exact Or.inr ⟨a, mid, rfl, h⟩
    · rintro (h | ⟨_, _, h, h'⟩)
      · cases h
      · cases h
        exact h'
  | raised e mid => simp
  | aborted why => simp

/-- Raises an error. -/
@[inline] def raise {α : Type} (c : Cause) : Exec α := fun vm => .raised { cause := c } vm

/-- Ends the run. -/
@[inline] def abort {α : Type} (why : Abort) : Exec α := fun _ => .aborted why

/-- Ends the run because of a defect in the bytecode. -/
@[inline] def malformed {α : Type} (m : Malformed) : Exec α := abort (.malformed m)

/-- Continues with the result of a step that may end the run. -/
@[inline] def check {α : Type} : Checked α → Exec α
  | .ok a => pure a
  | .error why => abort why

/-- Looks at the state. -/
@[inline] def look {α : Type} (f : Vm → α) : Exec α := fun vm => .returned (f vm) vm

/-- Changes the state. -/
@[inline] def modify (f : Vm → Vm) : Exec Unit := fun vm => .returned () (f vm)

/-- Changes the register stack by a step that may end the run. -/
@[inline] def onStack (f : RegisterStack → Checked RegisterStack) : Exec Unit := fun vm =>
  let stack := vm.stack
  let vm := { vm with stack := default }
  match f stack with
  | .ok stack => .returned () { vm with stack }
  | .error why => .aborted why

/-- Changes the frames by a step that may end the run. -/
@[inline] def onFrames (f : CallStack → Checked CallStack) : Exec Unit := fun vm =>
  let frames := vm.frames
  let vm := { vm with frames := default }
  match f frames with
  | .ok frames => .returned () { vm with frames }
  | .error why => .aborted why

/-- The value of a slot. -/
@[inline] def getSlot (slot : Nat) : Exec Value := fun vm =>
  match vm.stack.get slot with
  | .ok v => .returned v vm
  | .error why => .aborted why

/-- Stores a value in a slot. -/
@[inline] def setSlot (slot : Nat) (v : Value) : Exec Unit :=
  onStack (·.set slot v)

/-- Moves the top of the stack. -/
@[inline] def setTop (top : Nat) : Exec Unit := modify fun vm => { vm with top }

/-- Makes all slots below `wanted` exist, or raises a stack overflow. -/
def ensure (wanted : Nat) : Exec Unit := fun vm =>
  let stack := vm.stack
  if wanted ≤ stack.size then .returned () vm
  else
    let vm := { vm with stack := default }
    match stack.ensure? wanted with
    | .ok (some stack) => .returned () { vm with stack }
    | .ok none => .raised { cause := .overflow .stack } { vm with stack }
    | .error why => .aborted why

/-- The current frame. -/
@[inline] def currentFrame : Exec Frame := look (·.frames.current)

/-- Changes the current frame. -/
@[inline] def modifyFrame (f : Frame → Frame) : Exec Unit :=
  modify fun vm => { vm with frames := vm.frames.modifyCurrent f }

/-- Closes the upvalues at or above a slot. -/
@[inline] def closeUpvalues (level : Nat) : Exec Unit :=
  modify fun vm => { vm with upvalues := vm.upvalues.close level vm.stack.slots }

/-- The open upvalue of a slot, made if there is none. -/
def captureSlot (slot : Nat) : Exec CellRef := fun vm =>
  let (r, upvalues) := vm.upvalues.capture slot
  .returned r { vm with upvalues }

/-- Adds an empty table to the heap. -/
def newTable : Exec TableRef := fun vm =>
  let (r, heap) := vm.heap.newTable
  .returned r { vm with heap }

/-- Adds a closure to the heap. -/
def newClosure (c : Closure) : Exec ClosureRef := fun vm =>
  let (r, heap) := vm.heap.newClosure c
  .returned r { vm with heap }

end Exec

namespace Vm

/-- The value of a slot, nil for one that was never allocated. -/
def peek (vm : Vm) (slot : Nat) : Value :=
  vm.stack.slots[slot]?.getD .nil

/-- The slot of a position, which counts down from the top if it is negative. -/
def slotAt (vm : Vm) : Int → Checked Nat
  | .ofNat slot => .ok slot
  | .negSucc below => Checked.sub vm.top (below + 1)

/-- Stores a value in a slot, growing the stack if needed. -/
def poke (slot : Nat) (v : Value) : Exec Unit := do
  let wanted ← Exec.check (Checked.add slot 1)
  Exec.ensure wanted
  Exec.setSlot slot v

/-- Puts a value on top of the stack. -/
def push (v : Value) : Exec Unit := do
  let top ← Exec.look (·.top)
  Exec.ensure (top + 1)
  Exec.setSlot top v
  Exec.setTop (top + 1)

/-- Puts values on top of the stack, one after another. -/
def pushAll : List Value → Exec Unit
  | [] => pure ()
  | v :: vs => do
    push v
    pushAll vs

/-- Moves the top of the stack. Slots that come below it are set to nil. -/
def raiseTop (top : Nat) : Exec Unit := do
  Exec.ensure top
  let old ← Exec.look (·.top)
  if old < top then Exec.onStack (·.fillNil old (top - old))
  Exec.setTop top

/-- Records executed instructions from now on. What was recorded before is kept. -/
def enableTracing (vm : Vm) : Vm :=
  { vm with trace := some (vm.trace.getD #[]) }

/-- Records consultations of the hooks from now on. -/
def recordConsultations (vm : Vm) : Vm :=
  { vm with consultations := some (vm.consultations.getD #[]) }

/-- Takes out the consultations recorded so far. -/
def takeConsultations (vm : Vm) : Array Consultation × Vm :=
  (vm.consultations.getD #[], { vm with consultations := vm.consultations.map fun _ => #[] })

/-- The metatable of a value, or nil. -/
def metatableOf (vm : Vm) (v : Value) : Value :=
  match vm.heap.metatable? vm.types v with
  | some r => .table r
  | none => .nil

/-- The handler of a value for an event, or nil. -/
def metafield (vm : Vm) (v : Value) (event : String) : Value :=
  vm.heap.metafield vm.types v event

/-- Gives a table or a userdata a metatable, or takes it away. -/
def assignMetatable (v : Value) (m : Option TableRef) : Exec Unit :=
  Exec.modify fun vm => { vm with heap := vm.heap.setMetatable v m }

/-- The call depth, zero when no function runs. -/
def callDepth (vm : Vm) : Nat := vm.frames.depth

/-- What can be told about a frame at a depth. The frame of the host says nothing. -/
def frameInfo? (vm : Vm) (depth : Nat) (f : Frame) : Option FrameInfo :=
  f.closure.map fun r =>
    let proto := (vm.heap.closureAt r).proto
    let pc := f.pc - 1
    { proto, pc, line := proto.line? pc, depth, isTailCall := f.status.tail }

/-- The active frames, innermost first. -/
def activeFrames (vm : Vm) : List Frame :=
  (vm.frames.frames.extract 1 (vm.frames.depth + 1)).toList.reverse

/-- What can be told about the frame `level` calls out from the running function. -/
def debugInfo? (vm : Vm) (level : Nat) : Option FrameInfo :=
  if level ≤ vm.callDepth then vm.activeFrames[level]?.bind (vm.frameInfo? (vm.callDepth - level))
  else none

/-- What can be told about the active functions, innermost first, up to a frame that says
nothing. -/
def debugFrames (vm : Vm) : List FrameInfo :=
  ((vm.activeFrames.zipIdx.map fun (f, level) => vm.frameInfo? (vm.callDepth - level) f).takeWhile
    Option.isSome).filterMap id

/-- Makes the next cell of a main prototype: the first one holds the environment and further ones
are nil. -/
def loadCell (env : Value) (made : Array CellRef × Upvalues) : Array CellRef × Upvalues :=
  let (r, upvalues) := made.2.allocate (.closed (if made.1.isEmpty then env else .nil))
  (made.1.push r, upvalues)

/-- Makes a closure over a main prototype. -/
def load (proto : Prototype) (env : Value) : Exec ClosureRef := fun vm =>
  let (cells, upvalues) := proto.upvalues.foldl (fun made _ => loadCell env made) (#[], vm.upvalues)
  let (r, heap) := vm.heap.newClosure { proto, upvalues := cells }
  .returned r { vm with heap, upvalues }

end Vm

end LuaMachine
