import LuaMachine.Machine.Call
import LuaMachine.NumericLoop

/-!
# The instructions

One step executes one instruction of the current frame. Most instructions are finished within the
step. One that needs a handler or an iterator asks for the call, and `Resume` says what is to be
done with its results. The position of the frame is advanced past an instruction before it is
executed.
-/
namespace LuaMachine.Vm

/-- How the instruction that asked for a call goes on afterwards. -/
inductive Resume where
  /-- The first result goes to a slot. -/
  | store (slot : Nat)
  /-- The results are dropped. -/
  | drop
  /-- The truth of the first result, or its negation, is the answer of a test. -/
  | test (negated expected : Bool)
  /-- The first result takes the place of the two last operands of a concatenation for a slot. -/
  | concat (rest : List Value) (slot : Nat)
  /-- The results are the variables of a generic loop. -/
  | iterate
  deriving Inhabited

/-- What comes after an instruction. -/
inductive Next where
  /-- The next instruction of the current frame. -/
  | proceed
  /-- A call of a handler with arguments. -/
  | invoke (handler : Value) (args : List Value) (resume : Resume)
  /-- A call of the function in a slot, whose arguments are in place. -/
  | callAt (func : Nat) (results : ResultCount) (resume : Resume)
  deriving Inhabited

/-- What comes after a step. -/
inductive Action where
  | next (n : Next)
  /-- The frame that was entered by the host has returned. -/
  | leave
  deriving Inhabited

/-- The running closure, its first register and the instruction being executed, at position `pc`. -/
structure Activation where
  closure : Closure
  base : Nat
  pc : Nat
  instr : Instruction

namespace Activation

def proto (x : Activation) : Prototype := x.closure.proto

/-- The slot of the register `A`. -/
def ra (x : Activation) : Nat := x.base + x.instr.a

/-- The slot of the register `B`. -/
def rb (x : Activation) : Nat := x.base + x.instr.b

end Activation

/-- The instruction at a position. -/
def fetch (p : Prototype) (pc : Nat) : Exec Instruction :=
  match p.code[pc]? with
  | some i => pure i
  | none => Exec.malformed (.programCounter pc p.code.size)

/-- The instruction at a position, which has to have the opcode. -/
def fetchExpected (p : Prototype) (pc : Nat) (op : Opcode) : Exec Instruction := do
  let i ← fetch p pc
  if i.opcode = op.toNat then return i
  Exec.malformed (.expectedOpcode op.name i.opName)

/-- A constant of a prototype. -/
def constantAt (p : Prototype) (index : Nat) : Exec Value :=
  match p.constants[index]? with
  | some v => pure v
  | none => Exec.malformed (.constant index p.constants.size)

/-- The value of an operand that is a register or a constant. -/
def operandValue (x : Activation) (operand : Nat) : Exec Value :=
  if isConstant operand then constantAt x.proto (constantIndex operand)
  else Exec.getSlot (x.base + operand)

/-- An upvalue of the running closure. -/
def upvalueAt (c : Closure) (index : Nat) : Exec CellRef :=
  match c.upvalues[index]? with
  | some r => pure r
  | none => Exec.malformed (.upvalue index c.upvalues.size)

/-- The value of an upvalue of the running closure. -/
def readUpvalue (c : Closure) (index : Nat) : Exec Value := do
  let r ← upvalueAt c index
  Exec.look fun vm => vm.upvalues.read vm.stack.slots r

/-- The position `offset` away from `pc`. One before the start wraps around to the end of the
machine words. -/
def jumpTarget (pc : Nat) (offset : Int) : Nat :=
  let target := (pc : Int) + offset
  if 0 ≤ target then target.toNat else (target + wordLimit).toNat

/-- Moves the position of the current frame. -/
def jump (offset : Int) : Exec Unit :=
  Exec.modifyFrame fun f => { f with pc := jumpTarget f.pc offset }

/-- Closes the upvalues that the `A` operand of a jump names, if any. -/
def closeForJump (base a : Nat) : Exec Unit :=
  if a = 0 then pure () else Exec.closeUpvalues (base + (a - 1))

/-- Ends a test: takes the jump that follows if the condition holds and skips it otherwise. -/
def conditionalJump (p : Prototype) (base : Nat) (condition : Bool) : Exec Unit := do
  if condition then
    let next ← fetchExpected p (← Exec.currentFrame).pc .jmp
    closeForJump base next.a
    jump (next.sbx + 1)
  else jump 1

/-- Stores a result that is there, or asks for the call that has it. -/
def storeReply (slot : Nat) : Reply Value → Exec Next
  | .done v => do
    Exec.setSlot slot v
    return .proceed
  | .call handler args => return .invoke handler args (.store slot)

/-- Ends a comparison that has its answer, or asks for the call that has it. -/
def testVerdict (x : Activation) : Verdict → Exec Next
  | .decided answer => do
    conditionalJump x.proto x.base (answer == (x.instr.a != 0))
    return .proceed
  | .ask negated handler args => return .invoke handler args (.test negated (x.instr.a != 0))

/-- Stores a concatenation that is done, or asks for the call that continues it. -/
def storeConcat (slot : Nat) (reversed : List Value) : Exec Next := do
  match ← concatRound reversed with
  | .done v =>
    Exec.setSlot slot v
    return .proceed
  | .call handler args rest => return .invoke handler args (.concat rest slot)

/-- The end of a round of a generic loop: goes on unless the control variable is nil. -/
def genericLoop (ra : Nat) (offset : Int) : Exec Unit := do
  let control ← Exec.getSlot (ra + 1)
  if !control.isNil then
    Exec.setSlot ra control
    jump offset

/-- The control registers of a numeric loop. -/
def loopControl (ra : Nat) : Exec NumericLoop.Control := do
  let index ← Exec.getSlot ra
  let limit ← Exec.getSlot (ra + 1)
  let step ← Exec.getSlot (ra + 2)
  return { index, limit, step }

def opMove (x : Activation) : Exec Unit := do
  let v ← Exec.getSlot x.rb
  Exec.setSlot x.ra v

def opLoadK (x : Activation) : Exec Unit := do
  let v ← constantAt x.proto x.instr.bx
  Exec.setSlot x.ra v

def opLoadKX (x : Activation) : Exec Unit := do
  let extra ← fetchExpected x.proto (x.pc + 1) .extraArg
  Exec.modifyFrame fun f => { f with pc := f.pc + 1 }
  let v ← constantAt x.proto extra.ax
  Exec.setSlot x.ra v

def opLoadBool (x : Activation) : Exec Unit := do
  Exec.setSlot x.ra (.bool (x.instr.b != 0))
  if x.instr.c != 0 then jump 1

def opLoadNil (x : Activation) : Exec Unit :=
  Exec.onStack (·.fillNil x.ra (x.instr.b + 1))

def opGetUpval (x : Activation) : Exec Unit := do
  let v ← readUpvalue x.closure x.instr.b
  Exec.setSlot x.ra v

def opGetTabUp (x : Activation) : Exec Next := do
  let obj ← readUpvalue x.closure x.instr.b
  let key ← operandValue x x.instr.c
  storeReply x.ra (← index obj key)

def opGetTable (x : Activation) : Exec Next := do
  let obj ← Exec.getSlot x.rb
  let key ← operandValue x x.instr.c
  storeReply x.ra (← index obj key)

/-- Assigns the `C` operand to the entry of an object that the `B` operand names. -/
def assignOperands (x : Activation) (obj : Value) : Exec Next := do
  let key ← operandValue x x.instr.b
  let value ← operandValue x x.instr.c
  match ← newIndex obj key value with
  | .done _ => return .proceed
  | .call handler args => return .invoke handler args .drop

def opSetTabUp (x : Activation) : Exec Next := do
  let obj ← readUpvalue x.closure x.instr.a
  assignOperands x obj

def opSetTable (x : Activation) : Exec Next := do
  let obj ← Exec.getSlot x.ra
  assignOperands x obj

/-- Assigns an upvalue, in the stack or in its cell. -/
def writeUpvalue (r : CellRef) (v : Value) : Exec Unit := fun vm =>
  match vm.upvalues.cell r with
  | .opened slot => .returned () { vm with stack := vm.stack.setIfInBounds slot v }
  | .closed _ => .returned () { vm with upvalues := vm.upvalues.setClosed r v }

def opSetUpval (x : Activation) : Exec Unit := do
  let v ← Exec.getSlot x.ra
  let r ← upvalueAt x.closure x.instr.b
  writeUpvalue r v

def opNewTable (x : Activation) : Exec Unit := do
  let r ← Exec.newTable
  Exec.setSlot x.ra (.table r)

def opSelf (x : Activation) : Exec Next := do
  let obj ← Exec.getSlot x.rb
  Exec.setSlot (x.ra + 1) obj
  let key ← operandValue x x.instr.c
  storeReply x.ra (← index obj key)

def opArith (x : Activation) (op : ArithOp) : Exec Next := do
  let lhs ← operandValue x x.instr.b
  let rhs ← operandValue x x.instr.c
  storeReply x.ra (← arith op lhs rhs)

/-- A unary operator is passed its operand twice. -/
def opUnary (x : Activation) (op : ArithOp) : Exec Next := do
  let operand ← Exec.getSlot x.rb
  storeReply x.ra (← arith op operand operand)

def opNot (x : Activation) : Exec Unit := do
  let v ← Exec.getSlot x.rb
  Exec.setSlot x.ra (.bool (!v.isTruthy))

def opLen (x : Activation) : Exec Next := do
  let v ← Exec.getSlot x.rb
  storeReply x.ra (← length v)

def opConcat (x : Activation) : Exec Next := do
  let operands ← Exec.check (← Exec.look fun vm => vm.stack.slice x.rb (x.base + x.instr.c + 1))
  storeConcat x.ra operands.reverse

def opJmp (x : Activation) : Exec Unit := do
  closeForJump x.base x.instr.a
  jump x.instr.sbx

/-- Compares the operands `B` and `C`. -/
def opCompare (x : Activation) (comparison : Value → Value → Exec Verdict) : Exec Next := do
  let lhs ← operandValue x x.instr.b
  let rhs ← operandValue x x.instr.c
  testVerdict x (← comparison lhs rhs)

def opTest (x : Activation) : Exec Unit := do
  let v ← Exec.getSlot x.ra
  conditionalJump x.proto x.base (v.isTruthy == (x.instr.c != 0))

def opTestSet (x : Activation) : Exec Unit := do
  let v ← Exec.getSlot x.rb
  let condition := v.isTruthy == (x.instr.c != 0)
  if condition then Exec.setSlot x.ra v
  conditionalJump x.proto x.base condition

/-- Sets the top just past the arguments, unless they already end there. -/
def placeArguments (x : Activation) : Exec Unit :=
  if x.instr.b = 0 then pure () else Exec.setTop (x.ra + x.instr.b)

def opCall (x : Activation) : Exec Unit := do
  placeArguments x
  precall x.ra (.ofOperand x.instr.c) false

def opTailCall (x : Activation) : Exec Unit := do
  placeArguments x
  precall x.ra .all true
  spliceTailCall

/-- The top goes back to the end of the current frame's registers. -/
def resetTop : Exec Unit := do
  Exec.setTop (← Exec.currentFrame).top

def opReturn (x : Activation) : Exec Action := do
  Exec.closeUpvalues x.base
  let count ←
    if x.instr.b = 0 then Exec.check (Checked.sub (← Exec.look (·.top)) x.ra)
    else pure (x.instr.b - 1)
  let fresh := (← Exec.currentFrame).status.fresh
  let fixedResults ← postcall x.ra count
  if fresh then return .leave
  if fixedResults then resetTop
  return .next .proceed

def opForLoop (x : Activation) : Exec Unit := do
  match NumericLoop.advance? (← loopControl x.ra) with
  | none => pure ()
  | some index =>
    jump x.instr.sbx
    Exec.setSlot (x.ra + 3) index
    Exec.setSlot x.ra index

def opForPrep (x : Activation) : Exec Unit := do
  let control ← settle (NumericLoop.prepare (← loopControl x.ra))
  Exec.setSlot (x.ra + 1) control.limit
  Exec.setSlot (x.ra + 2) control.step
  Exec.setSlot x.ra control.index
  jump x.instr.sbx

def opTForCall (x : Activation) : Exec Next := do
  let callee := x.ra + 3
  Exec.onStack (·.copyDown x.ra callee 3)
  Exec.setTop (callee + 3)
  return .callAt callee (.fixed x.instr.c) .iterate

/-- Stores `count` registers from `slot` on in a table, at keys from `key` on. -/
def storeList (r : TableRef) (key slot : Nat) : Nat → Exec Unit
  | 0 => pure ()
  | count + 1 => do
    let v ← Exec.getSlot slot
    Exec.modify fun vm => { vm with heap := vm.heap.rawSet r (.ofNat key) v }
    storeList r (key + 1) (slot + 1) count

/-- How many items one instruction stores in a list. -/
def fieldsPerFlush : Nat := 50

/-- Stores `count` registers as a block of list items. Blocks count from one. -/
def storeBlock (x : Activation) (count block : Nat) : Exec Unit := do
  match ← Exec.getSlot x.ra with
  | .table r =>
    if block = 0 then Exec.malformed .setListUnderflow
    storeList r ((block - 1) * fieldsPerFlush + 1) (x.ra + 1) count
    resetTop
  | v => Exec.malformed (.setListTarget v.typeName)

def opSetList (x : Activation) : Exec Unit := do
  let count ←
    if x.instr.b = 0 then do
      let top ← Exec.look (·.top)
      if x.ra + 1 ≤ top then pure (top - (x.ra + 1)) else Exec.malformed .setListUnderflow
    else pure x.instr.b
  let block ←
    if x.instr.c = 0 then do
      let extra ← fetchExpected x.proto (x.pc + 1) .extraArg
      Exec.modifyFrame fun f => { f with pc := f.pc + 1 }
      pure extra.ax
    else pure x.instr.c
  storeBlock x count block

/-- The cells of a new closure, in order: captured registers or upvalues of the running closure. -/
def captureAll (x : Activation) : List UpvalueSource → Exec (List CellRef)
  | [] => pure []
  | source :: rest => do
    let r ←
      if source.inStack then Exec.captureSlot (x.base + source.index)
      else upvalueAt x.closure source.index
    let refs ← captureAll x rest
    return r :: refs

def opClosure (x : Activation) : Exec Unit := do
  match x.proto.functions[x.instr.bx]? with
  | none => Exec.malformed (.prototype x.instr.bx x.proto.functions.size)
  | some child =>
    let refs ← captureAll x child.upvalues.toList
    let r ← Exec.newClosure { proto := child, upvalues := refs.toArray }
    Exec.setSlot x.ra (.closure r)

def opVararg (x : Activation) : Exec Unit := do
  let func := (← Exec.currentFrame).func
  let below ← Exec.check (Checked.sub x.base func)
  let available := below - (x.proto.paramCount + 1)
  let wanted ←
    if x.instr.b = 0 then do
      Exec.ensure (x.ra + available)
      Exec.setTop (x.ra + available)
      pure available
    else pure (x.instr.b - 1)
  let copied := min wanted available
  Exec.onStack (·.copyDown (x.base - available) x.ra copied)
  Exec.onStack (·.fillNil (x.ra + copied) (wanted - copied))

/-- Appends an executed instruction to the trace. Instructions of one prototype in a row form a
group. -/
def appendTrace (log : Array TraceGroup) (p : Prototype) (pc : Nat) : Array TraceGroup :=
  match log.back? with
  | some group =>
    if group.proto.id = p.id then log.modify (log.size - 1) fun g => { g with pcs := g.pcs.push pc }
    else log.push { proto := p, pcs := #[pc] }
  | none => log.push { proto := p, pcs := #[pc] }

/-- Records an executed instruction, if they are recorded. -/
def recordStep (p : Prototype) (pc : Nat) : Exec Unit := fun vm =>
  match vm.trace with
  | none => .returned () vm
  | some log =>
    let vm := { vm with trace := none }
    .returned () { vm with trace := some (appendTrace log p pc) }

/-- Fetches the next instruction of the current frame and advances its position. -/
def beginStep : Exec Activation := do
  let frame ← Exec.currentFrame
  let some r := frame.closure | Exec.abort (.fault .noClosure)
  let closure ← Exec.look fun vm => vm.heap.closureAt r
  let instr ← fetch closure.proto frame.pc
  Exec.modifyFrame fun f => { f with pc := frame.pc + 1 }
  recordStep closure.proto frame.pc
  return { closure, base := frame.base, pc := frame.pc, instr }

theorem recordStep_eq (p : Prototype) (pc : Nat) : recordStep p pc =
    Exec.modify fun vm => { vm with trace := vm.trace.map (appendTrace · p pc) } := by
  funext vm
  obtain ⟨_, _, _, _, _, _, _, _, _, trace, _⟩ := vm
  cases trace <;> rfl

/-- A step begins with a closure and an instruction at its position. Only that position and the
trace change. -/
theorem beginStep_eq_returned {vm mid : Vm} {x : Activation} (h : beginStep vm = .returned x mid) :
    ∃ r instr, vm.frames.current.closure = some r ∧
      (vm.heap.closureAt r).proto.code[vm.frames.current.pc]? = some instr ∧
      x = {
        closure := vm.heap.closureAt r, base := vm.frames.current.base,
        pc := vm.frames.current.pc, instr } ∧
      mid = { vm with
        frames := vm.frames.modifyCurrent fun f => { f with pc := vm.frames.current.pc + 1 }
        trace :=
          vm.trace.map (appendTrace · (vm.heap.closureAt r).proto vm.frames.current.pc) } := by
  obtain ⟨frame, vm₁, hframe, h⟩ := Exec.bind_eq_returned_iff.mp h
  cases hframe
  cases hr : vm.frames.current.closure with
  | none =>
    simp only [hr] at h
    cases h
  | some r =>
    simp only [hr] at h
    obtain ⟨closure, vm₂, hclosure, h⟩ := Exec.bind_eq_returned_iff.mp h
    cases hclosure
    obtain ⟨instr, vm₃, hfetch, h⟩ := Exec.bind_eq_returned_iff.mp h
    obtain ⟨_, vm₄, hmove, h⟩ := Exec.bind_eq_returned_iff.mp h
    obtain ⟨_, vm₅, hrecord, h⟩ := Exec.bind_eq_returned_iff.mp h
    rw [recordStep_eq] at hrecord
    cases hi : (vm.heap.closureAt r).proto.code[vm.frames.current.pc]? with
    | none =>
      rw [fetch, hi] at hfetch
      cases hfetch
    | some i =>
      rw [fetch, hi] at hfetch
      cases hfetch
      cases hmove
      cases hrecord
      cases h
      exact ⟨r, _, rfl, hi, rfl, rfl⟩

/-- An instruction that is finished within its step. -/
@[inline] def plain (x : Exec Unit) : Exec Action := do
  x
  return .next .proceed

/-- An instruction that may ask for a call. -/
@[inline] def hooked (x : Exec Next) : Exec Action := do
  return .next (← x)

/-- Executes an instruction. -/
def execute (x : Activation) : Opcode → Exec Action
  | .move => plain (opMove x)
  | .loadK => plain (opLoadK x)
  | .loadKX => plain (opLoadKX x)
  | .loadBool => plain (opLoadBool x)
  | .loadNil => plain (opLoadNil x)
  | .getUpval => plain (opGetUpval x)
  | .getTabUp => hooked (opGetTabUp x)
  | .getTable => hooked (opGetTable x)
  | .setTabUp => hooked (opSetTabUp x)
  | .setUpval => plain (opSetUpval x)
  | .setTable => hooked (opSetTable x)
  | .newTable => plain (opNewTable x)
  | .self => hooked (opSelf x)
  | .add => hooked (opArith x .add)
  | .sub => hooked (opArith x .sub)
  | .mul => hooked (opArith x .mul)
  | .mod => hooked (opArith x .mod)
  | .pow => hooked (opArith x .pow)
  | .div => hooked (opArith x .div)
  | .idiv => hooked (opArith x .idiv)
  | .band => hooked (opArith x .band)
  | .bor => hooked (opArith x .bor)
  | .bxor => hooked (opArith x .bxor)
  | .shl => hooked (opArith x .shl)
  | .shr => hooked (opArith x .shr)
  | .unm => hooked (opUnary x .unm)
  | .bnot => hooked (opUnary x .bnot)
  | .not => plain (opNot x)
  | .len => hooked (opLen x)
  | .concat => hooked (opConcat x)
  | .jmp => plain (opJmp x)
  | .eq => hooked (opCompare x equal)
  | .lt => hooked (opCompare x lessThan)
  | .le => hooked (opCompare x lessEqual)
  | .test => plain (opTest x)
  | .testSet => plain (opTestSet x)
  | .call => plain (opCall x)
  | .tailCall => plain (opTailCall x)
  | .ret => opReturn x
  | .forLoop => plain (opForLoop x)
  | .forPrep => plain (opForPrep x)
  | .tforCall => hooked (opTForCall x)
  | .tforLoop => plain (genericLoop x.ra x.instr.sbx)
  | .setList => plain (opSetList x)
  | .closure => plain (opClosure x)
  | .vararg => plain (opVararg x)
  | .extraArg => Exec.malformed .executedExtraArg

/-- Executes the next instruction of the current frame. -/
def dispatch : Exec Action := do
  let x ← beginStep
  match x.instr.op? with
  | some op => execute x op
  | none => Exec.malformed (.unknownOpcode x.instr.opcode)

/-- The prototype of the closure that the current frame runs. -/
def runningPrototype : Exec Prototype := do
  let some r := (← Exec.currentFrame).closure | Exec.abort (.fault .noClosure)
  Exec.look fun vm => (vm.heap.closureAt r).proto

/-- Continues an instruction with the results of the call it asked for. -/
def resume (k : Resume) (results : List Value) : Exec Next := do
  let first := results.headD .nil
  match k with
  | .store slot =>
    Exec.setSlot slot first
    return .proceed
  | .drop => return .proceed
  | .concat rest slot => storeConcat slot (first :: rest)
  | .test negated expected =>
    if negated then markSwapped false
    let frame ← Exec.currentFrame
    let proto ← runningPrototype
    let answer := first.isTruthy != negated
    conditionalJump proto frame.base (answer == expected)
    return .proceed
  | .iterate =>
    resetTop
    let frame ← Exec.currentFrame
    let proto ← runningPrototype
    let next ← fetchExpected proto frame.pc .tforLoop
    Exec.modifyFrame fun f => { f with pc := frame.pc + 1 }
    genericLoop (frame.base + next.a) next.sbx
    return .proceed

end LuaMachine.Vm
