import LuaMachine.Arith
import LuaMachine.Machine.State

/-!
# Operations with metamethods

Indexing, assignment, comparison, arithmetic, length and concatenation first try their raw rule. If
it has no answer the hooks are consulted, and the operation either is settled or asks for a handler
to be called. Calling is left to the caller of these operations, so that none of them runs a
program.
-/
namespace LuaMachine

/-- How many links an index chain may have. -/
def maxChain : Nat := 2000

/-- How an operation goes on. -/
inductive Reply (α : Type) where
  /-- It has its result. -/
  | done (a : α)
  /-- The first result of a call is its result. -/
  | call (handler : Value) (args : List Value)
  deriving Inhabited

namespace Heap

/-- Follows the `__index` handlers from `current`, whose own entry was looked at already when
`first`. Without a handler at the first link nothing is decided. -/
def followIndex (h : Heap) (types : TypeMetatables) (key : Value) :
    Nat → Bool → Value → Except Cause (Option (Reply Value))
  | 0, _, _ => .error (.chainTooLong "__index")
  | links + 1, first, current =>
    let own := match current with
      | .table r => if first then .nil else h.rawGetValue r key
      | _ => .nil
    if !own.isNil then .ok (some (.done own))
    else
      let handler := h.metafield types current "__index"
      if handler.isNil then
        if first then .ok none
        else if current.isTable then .ok (some (.done .nil))
        else .error (.cannotIndex current.type)
      else if handler.isFunction then .ok (some (.call handler [current, key]))
      else h.followIndex types key links false handler

/-- Where an assignment goes. -/
inductive Assignment where
  /-- Into this table. -/
  | store (r : TableRef)
  /-- To a handler. -/
  | call (handler : Value) (args : List Value)

/-- Follows the `__newindex` handlers from `current`, whose own entry was looked at already when
`first`. Without a handler at the first link nothing is decided. -/
def followNewIndex (h : Heap) (types : TypeMetatables) (key value : Value) :
    Nat → Bool → Value → Except Cause (Option Assignment)
  | 0, _, _ => .error (.chainTooLong "__newindex")
  | links + 1, first, current =>
    let owner? : Option TableRef := match current with
      | .table r => if !first && !(h.rawGetValue r key).isNil then some r else none
      | _ => none
    match owner? with
    | some r => .ok (some (.store r))
    | none =>
      let handler := h.metafield types current "__newindex"
      if handler.isNil then
        if first then .ok none
        else match current with
          | .table r => .ok (some (.store r))
          | _ => .error (.cannotIndex current.type)
      else if handler.isFunction then .ok (some (.call handler [current, key, value]))
      else h.followNewIndex types key value links false handler

/-- The handler of the first operand for an event, or else of the second. -/
def binaryHandler? (h : Heap) (types : TypeMetatables) (event : String) (lhs rhs : Value) :
    Option Value :=
  (h.metafield types lhs event).notNil?.or (h.metafield types rhs event).notNil?

end Heap

namespace Vm

/-- Records a consultation of the hooks, if they are recorded. -/
def consult (event : String) (args : List Value) : Exec Unit := fun vm =>
  match vm.consultations with
  | none => .returned () vm
  | some log =>
    let entry : Consultation := {
      event, args
      frames := vm.debugFrames
      top := vm.top
      depth := vm.callDepth
      stackSize := vm.stack.size
      openUpvalues := vm.upvalues.openCount }
    .returned () { vm with consultations := some (log.push entry) }

/-- Continues with a result or raises the cause. -/
def settle {α : Type} : Except Cause α → Exec α
  | .ok a => pure a
  | .error c => Exec.raise c

/-- The handler of two operands for an event, as far as the hooks allow. -/
def binaryHook (name event : String) (lhs rhs : Value) : Exec (Option Value) := do
  consult name [lhs, rhs]
  Exec.look fun vm => match vm.hooks with
    | .raw => none
    | .standard => vm.heap.binaryHandler? vm.types event lhs rhs

/-- The entry of a table, nil for other values. -/
def rawEntry (obj key : Value) : Exec Value :=
  Exec.look fun vm => match obj with
    | .table r => vm.heap.rawGetValue r key
    | _ => .nil

/-- `obj[key]`. -/
def index (obj key : Value) : Exec (Reply Value) := do
  let own ← rawEntry obj key
  if !own.isNil then return .done own
  consult "index" [obj, key]
  let found ← Exec.look fun vm => match vm.hooks with
    | .raw => .ok none
    | .standard => vm.heap.followIndex vm.types key maxChain true obj
  match ← settle found with
  | some reply => return reply
  | none => if obj.isTable then return .done .nil else Exec.raise (.cannotIndex obj.type)

/-- Stores a value in a table. The key has to be valid. -/
def rawAssign (r : TableRef) (key value : Value) : Exec Unit :=
  match key.toKey with
  | .ok k => Exec.modify fun vm => { vm with heap := vm.heap.rawSet r k value }
  | .error why => Exec.raise (.invalidKey why)

/-- `obj[key] = value`. An entry that exists is overwritten at once. -/
def newIndex (obj key value : Value) : Exec (Reply Unit) := do
  let own ← rawEntry obj key
  match obj, own.isNil with
  | .table r, false =>
    rawAssign r key value
    return .done ()
  | _, _ =>
    consult "new_index" [obj, key, value]
    let found ← Exec.look fun vm => match vm.hooks with
      | .raw => .ok none
      | .standard => vm.heap.followNewIndex vm.types key value maxChain true obj
    match ← settle found with
    | some (.store r) =>
      rawAssign r key value
      return .done ()
    | some (.call handler args) => return .call handler args
    | none =>
      match obj with
      | .table r =>
        rawAssign r key value
        return .done ()
      | _ => Exec.raise (.cannotIndex obj.type)

/-- Applies an operator. -/
def arith (op : ArithOp) (lhs rhs : Value) : Exec (Reply Value) := do
  match ← settle (op.applyRaw lhs rhs) with
  | some v => return .done v
  | none =>
    match ← binaryHook op.event op.event lhs rhs with
    | some handler => return .call handler [lhs, rhs]
    | none => Exec.raise (op.blame lhs rhs)

/-- `#v`. The handler is passed the value twice. -/
def length (v : Value) : Exec (Reply Value) := do
  match v with
  | .string s => return .done (.number (.ofNat s.size))
  | _ =>
    consult "length" [v]
    let handler ← Exec.look fun vm => match vm.hooks with
      | .raw => .nil
      | .standard => vm.heap.metafield vm.types v "__len"
    if !handler.isNil then return .call handler [v, v]
    match ← Exec.look (fun vm => v.rawLength? vm.heap) with
    | some n => return .done (.number (.ofNat n))
    | none => Exec.raise (.noLength v.type)

/-- How a comparison goes on. -/
inductive Verdict where
  /-- It has its answer. -/
  | decided (answer : Bool)
  /-- The truth of the first result of a call is the answer, or its negation. -/
  | ask (negated : Bool) (handler : Value) (args : List Value)
  deriving Inhabited

/-- Whether two values are distinct objects that a handler may declare equal. -/
def areDistinctObjects : Value → Value → Bool
  | .table l, .table r => l ≠ r
  | .userdata l, .userdata r => l ≠ r
  | _, _ => false

/-- `lhs == rhs`. -/
def equal (lhs rhs : Value) : Exec Verdict := do
  if !areDistinctObjects lhs rhs then return .decided (lhs.rawEqual rhs)
  match ← binaryHook "equal" "__eq" lhs rhs with
  | some handler => return .ask false handler [lhs, rhs]
  | none => return .decided false

/-- The order of two numbers or two strings. -/
def rawLess? (orEqual : Bool) : Value → Value → Option Bool
  | .number l, .number r => some (if orEqual then l.lessEqual r else l.lessThan r)
  | .string l, .string r =>
    match compareBytes l.data.toList r.data.toList with
    | .lt => some true
    | .eq => some orEqual
    | .gt => some false
  | _, _ => none

/-- `lhs < rhs`. -/
def lessThan (lhs rhs : Value) : Exec Verdict := do
  match rawLess? false lhs rhs with
  | some answer => return .decided answer
  | none =>
    match ← binaryHook "less_than" "__lt" lhs rhs with
    | some handler => return .ask false handler [lhs, rhs]
    | none => Exec.raise (.cannotCompare lhs.type rhs.type)

/-- Marks or unmarks the current frame as waiting for the swapped comparison. -/
def markSwapped (waiting : Bool) : Exec Unit :=
  Exec.modifyFrame fun f => { f with status := { f.status with leq := waiting } }

/-- `lhs <= rhs`. Without a handler of its own it is `not (rhs < lhs)`, and while the handler for
that runs the current frame is marked. -/
def lessEqual (lhs rhs : Value) : Exec Verdict := do
  match rawLess? true lhs rhs with
  | some answer => return .decided answer
  | none =>
    match ← binaryHook "less_equal" "__le" lhs rhs with
    | some handler => return .ask false handler [lhs, rhs]
    | none =>
      markSwapped true
      match ← binaryHook "less_than" "__lt" rhs lhs with
      | some handler => return .ask true handler [rhs, lhs]
      | none =>
        markSwapped false
        Exec.raise (.cannotCompare lhs.type rhs.type)

/-- How a concatenation goes on. The remaining operands stand in reverse, the innermost first. -/
inductive Joining where
  | done (v : Value)
  | ask (lhs rhs : Value) (rest : List Value)

/-- The string forms of operands in reverse, joined in order. -/
def joinReversed (run : List Value) : ByteArray :=
  run.foldl (fun acc v => v.toBytes?.getD .empty ++ acc) .empty

/-- Joins the strings and numbers at the end of the operands, which stand in reverse, until a
handler is needed. -/
def joinRun : List Value → Joining
  | [] => .done .nil
  | [v] => .done v
  | rhs :: lhs :: rest =>
    if lhs.isConcatenable && rhs.isConcatenable then
      let operands := rhs :: lhs :: rest
      let joined := Value.string (joinReversed (operands.takeWhile Value.isConcatenable))
      match operands.dropWhile Value.isConcatenable with
      | [] => .done joined
      | l :: rest => .ask l joined rest
    else .ask lhs rhs rest

/-- Joins operands in reverse. Pairs that are not two strings or numbers go to a hook, which may
decline them. Every round leaves one operand less. -/
def joinWith {m : Type → Type} [Monad m] (hook : Value → Value → m (Option Value))
    (refuse : Cause → m Value) :
    Nat → List Value → m Value
  | 0, reversed => pure (reversed.headD .nil)
  | rounds + 1, reversed =>
    match joinRun reversed with
    | .done v => pure v
    | .ask lhs rhs rest => do
      match ← hook lhs rhs with
      | some v => joinWith hook refuse rounds (v :: rest)
      | none => refuse (.cannotConcat (if lhs.isConcatenable then rhs else lhs).type)

/-- The concatenation of a list of values, from the right. -/
def concatWith {m : Type → Type} [Monad m] (hook : Value → Value → m (Option Value))
    (refuse : Cause → m Value) (values : List Value) : m Value :=
  joinWith hook refuse values.length values.reverse

/-- How a concatenation with handlers goes on. -/
inductive ConcatReply where
  | done (v : Value)
  | call (handler : Value) (args : List Value) (rest : List Value)

/-- One round of concatenation: joins what needs no handler and finds the handler of the next
pair. -/
def concatRound (reversed : List Value) : Exec ConcatReply := do
  match joinRun reversed with
  | .done v => return .done v
  | .ask lhs rhs rest =>
    match ← binaryHook "concat" "__concat" lhs rhs with
    | some handler => return .call handler [lhs, rhs] rest
    | none =>
      let blamed := if lhs.isConcatenable then rhs else lhs
      Exec.raise (.cannotConcat blamed.type)

/-- The value to call in place of one that is no function. -/
def callHandler? (v : Value) : Exec (Option Value) := do
  consult "call" [v]
  Exec.look fun vm => match vm.hooks with
    | .raw => none
    | .standard => (vm.heap.metafield vm.types v "__call").notNil?

end Vm

end LuaMachine
