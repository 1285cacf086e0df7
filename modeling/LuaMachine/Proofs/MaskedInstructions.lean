import LuaMachine.Machine.Dispatch
import LuaMachine.Proofs.Masking
import LuaMachine.Proofs.ResourceLimits

/-!
# Instructions under a mask

No instruction sees what a mask hides. Only one of them needs more than its parts: the instruction
that makes a closure captures registers of its frame, and where the slots of open upvalues have to
exist, so do these registers.
-/
namespace LuaMachine.Vm

open Exec (Unaware UnawareOn)

variable {m : Mask}

/-! ## Logs -/

theorem consult_unaware (event : String) (args : List Value) : (consult event args).Unaware m := by
  rw [consult_eq]
  refine .modify (fun vm => ?_) fun _ hs => hs
  rcases m.consult with hnone | ⟨hsame, hsize⟩
  · simp only [Mask.hide, hnone, Option.map_none]
  · have hentry : consultation event args (m.hide vm) = consultation event args vm := by
      unfold consultation
      rw [show (m.hide vm).stack.size = vm.stack.size from hsize vm.stack]
      rfl
    rw [hentry]
    simp only [Mask.hide, hsame]

theorem recordStep_unaware [m.Recording] (p : Prototype) (pc : Nat) :
    (recordStep p pc).Unaware m := by
  rw [recordStep_eq]
  refine .modify (fun vm => ?_) fun _ hs => hs
  simp only [Mask.hide, Mask.Recording.record]

/-! ## Operations with metamethods -/

theorem settle_unaware {α : Type} (found : Except Cause α) : (settle found).Unaware m := by
  cases found with
  | ok a => exact .pure a
  | error c => exact .raise c

theorem binaryHook_unaware (name event : String) (lhs rhs : Value) :
    (binaryHook name event lhs rhs).Unaware m :=
  (consult_unaware name [lhs, rhs]).bind fun _ => .look fun _ => rfl

theorem callHandler?_unaware (v : Value) : (callHandler? v).Unaware m :=
  (consult_unaware "call" [v]).bind fun _ => .look fun _ => rfl

theorem rawEntry_unaware (obj key : Value) : (rawEntry obj key).Unaware m := .look fun _ => rfl

theorem index_unaware (obj key : Value) : (index obj key).Unaware m := by
  refine (rawEntry_unaware obj key).bind fun own => .ite (.pure _) ?_
  refine (consult_unaware _ _).bind fun _ => ?_
  refine Unaware.bind (.look fun _ => rfl) fun found => ?_
  refine (settle_unaware found).bind fun reply => ?_
  cases reply with
  | some reply => exact .pure reply
  | none => exact .ite (.pure _) (.raise _)

theorem rawAssign_unaware (r : TableRef) (key value : Value) :
    (rawAssign r key value).Unaware m := by
  unfold rawAssign
  split
  · exact .modify (fun _ => rfl) fun _ hs => hs
  · exact .raise _

theorem newIndex_unaware (obj key value : Value) : (newIndex obj key value).Unaware m := by
  have hstore : ∀ r,
      (rawAssign r key value >>= fun _ => pure (.done ()) : Exec (Reply Unit)).Unaware m :=
    fun r => (rawAssign_unaware r key value).bind fun _ => .pure _
  refine (rawEntry_unaware obj key).bind fun own => ?_
  split
  · exact hstore _
  · refine (consult_unaware _ _).bind fun _ => ?_
    refine Unaware.bind (.look fun _ => rfl) fun found => ?_
    refine (settle_unaware found).bind fun assignment => ?_
    split
    · exact hstore _
    · exact .pure _
    · split
      · exact hstore _
      · exact .raise _

theorem arith_unaware (op : ArithOp) (lhs rhs : Value) : (arith op lhs rhs).Unaware m := by
  refine (settle_unaware _).bind fun found => ?_
  cases found with
  | some v => exact .pure _
  | none =>
    refine (binaryHook_unaware _ _ lhs rhs).bind fun handler => ?_
    cases handler with
    | some handler => exact .pure _
    | none => exact .raise _

theorem length_unaware (v : Value) : (length v).Unaware m := by
  unfold length
  split
  · exact .pure _
  · refine (consult_unaware _ _).bind fun _ => ?_
    refine Unaware.bind (.look fun _ => rfl) fun handler => .ite (.pure _) ?_
    refine Unaware.bind (.look fun _ => rfl) fun count => ?_
    cases count with
    | some n => exact .pure _
    | none => exact .raise _

theorem equal_unaware (lhs rhs : Value) : (equal lhs rhs).Unaware m := by
  refine .ite (.pure _) ((binaryHook_unaware _ _ lhs rhs).bind fun handler => ?_)
  cases handler <;> exact .pure _

theorem lessThan_unaware (lhs rhs : Value) : (lessThan lhs rhs).Unaware m := by
  unfold lessThan
  split
  · exact .pure _
  · refine (binaryHook_unaware _ _ lhs rhs).bind fun handler => ?_
    cases handler with
    | some handler => exact .pure _
    | none => exact .raise _

theorem markSwapped_unaware (waiting : Bool) : (markSwapped waiting).Unaware m := .modifyFrame _

theorem lessEqual_unaware (lhs rhs : Value) : (lessEqual lhs rhs).Unaware m := by
  unfold lessEqual
  split
  · exact .pure _
  · refine (binaryHook_unaware _ _ lhs rhs).bind fun handler => ?_
    cases handler with
    | some handler => exact .pure _
    | none =>
      refine (markSwapped_unaware true).bind fun _ => ?_
      refine (binaryHook_unaware _ _ rhs lhs).bind fun handler => ?_
      cases handler with
      | some handler => exact .pure _
      | none => exact (markSwapped_unaware false).bind fun _ => .raise _

theorem concatRound_unaware (reversed : List Value) : (concatRound reversed).Unaware m := by
  unfold concatRound
  split
  · exact .pure _
  · refine (binaryHook_unaware _ _ _ _).bind fun handler => ?_
    cases handler with
    | some handler => exact .pure _
    | none => exact .raise _

/-! ## Calls -/

theorem adjustVarargs_unaware (paramCount argCount : Nat) :
    (adjustVarargs paramCount argCount).Unaware m := by
  refine Unaware.bind (.look fun _ => rfl) fun base => ?_
  refine (Unaware.check _).bind fun fixed => ?_
  refine (Unaware.onStack fun s => m.takeUp_follows s fixed base _).bind fun _ => ?_
  refine (Unaware.onStack fun s => m.fillNil_follows s _ _).bind fun _ => ?_
  exact (Unaware.setTop _).bind fun _ => .pure base

theorem enterFrame_unaware (r : ClosureRef) (func : Nat) (results : ResultCount) (tailCall : Bool) :
    (enterFrame r func results tailCall).Unaware m := by
  have hpush : ∀ base top, (Exec.modify fun vm => { vm with
      frames := vm.frames.push {
        closure := some r, func, base, top, pc := 0, results, status := { lua := true } }
      top := top }).Unaware m :=
    fun base top => .modify (fun _ => rfl) fun _ hs => hs
  refine Unaware.bind (.look fun _ => rfl) fun proto => ?_
  refine Unaware.bind (.look fun vm => m.maxCallDepth vm.config) fun maxDepth => ?_
  refine (Unaware.check _).bind fun limit => ?_
  refine Unaware.bind (.look fun _ => rfl) fun depth => ?_
  refine .ite (.raise _) ?_
  refine Unaware.bind (.look fun _ => rfl) fun top => ?_
  refine (Unaware.ensure _).bind fun _ => ?_
  refine (Unaware.check _).bind fun argCount => .ite ?_ ?_
  · exact (adjustVarargs_unaware _ _).bind fun base => hpush base _
  · refine (Unaware.onStack fun s => m.fillNil_follows s _ _).bind fun _ => ?_
    exact hpush (func + 1) _

theorem tryEnter_unaware (func : Nat) (results : ResultCount) (tailCall : Bool) :
    (tryEnter func results tailCall).Unaware m := by
  refine (Unaware.getSlot func).bind fun v => ?_
  split
  · exact (enterFrame_unaware _ func results tailCall).bind fun _ => .pure _
  · exact .raise _
  · refine (callHandler?_unaware v).bind fun handler => ?_
    cases handler with
    | some handler => exact .pure _
    | none => exact .raise _

theorem insertHandler_unaware (func : Nat) (handler : Value) :
    (insertHandler func handler).Unaware m := by
  refine Unaware.bind (.look fun _ => rfl) fun top => ?_
  refine (Unaware.ensure _).bind fun _ => ?_
  exact (Unaware.onStack fun s => m.insert_follows s func top handler).bind fun _ => .setTop _

theorem enterFunction_unaware (func : Nat) (results : ResultCount) (tailCall : Bool) (room : Nat) :
    (enterFunction func results tailCall room).Unaware m := by
  induction room with
  | zero =>
    refine (tryEnter_unaware func results tailCall).bind fun handler => ?_
    cases handler with
    | none => exact .pure _
    | some handler => exact .raise _
  | succ room ih =>
    refine (tryEnter_unaware func results tailCall).bind fun handler => ?_
    cases handler with
    | none => exact .pure _
    | some handler => exact (insertHandler_unaware func handler).bind fun _ => ih

theorem precall_unaware (func : Nat) (results : ResultCount) (tailCall : Bool) :
    (precall func results tailCall).Unaware m := by
  refine Unaware.bind (.look fun vm => ?_) fun room =>
    enterFunction_unaware func results tailCall room
  show (m.stack vm.stack).limit - vm.top = _
  rw [m.limit]

theorem moveResults_unaware (first target count : Nat) (results : ResultCount) :
    (moveResults first target count results).Unaware m := by
  unfold moveResults
  split
  · exact (Unaware.setTop _).bind fun _ => .pure _
  · have hstore : ∀ v, (do
        Exec.setSlot target v
        Exec.setTop (target + 1)
        return true : Exec Bool).Unaware m :=
      fun v => (Unaware.setSlot target v).bind fun _ => (Unaware.setTop _).bind fun _ => .pure _
    exact .ite (hstore .nil) ((Unaware.getSlot first).bind hstore)
  · refine (Unaware.check _).bind fun bound => ?_
    refine (Unaware.ensure bound).bind fun _ => ?_
    refine (Unaware.onStack fun s => m.copyDown_follows s _ _ _).bind fun _ => ?_
    refine (Unaware.onStack fun s => m.fillNil_follows s _ _).bind fun _ => ?_
    exact (Unaware.setTop _).bind fun _ => .pure _
  · refine (Unaware.onStack fun s => m.copyDown_follows s _ _ _).bind fun _ => ?_
    exact (Unaware.setTop _).bind fun _ => .pure _

theorem postcall_unaware (first count : Nat) : (postcall first count).Unaware m := by
  refine Unaware.bind (.look fun _ => rfl) fun popped => ?_
  refine (Unaware.check popped).bind fun p => ?_
  obtain ⟨frame, frames⟩ := p
  refine Unaware.bind (.modify (fun _ => rfl) fun _ hs => hs) fun _ => ?_
  exact moveResults_unaware first frame.func count frame.results

theorem spliceTailCall_unaware : spliceTailCall.Unaware m := by
  refine Unaware.currentFrame.bind fun callee => ?_
  refine Unaware.bind (.look fun _ => rfl) fun caller => ?_
  cases caller with
  | none => exact .abort _
  | some caller =>
    dsimp only
    split
    · refine Unaware.bind (.look fun _ => rfl) fun proto => ?_
      refine (Unaware.closeUpvalues caller.base).bind fun _ => ?_
      refine (Unaware.check _).bind fun moved => ?_
      refine (Unaware.onStack fun s => m.copyDown_follows s _ _ _).bind fun _ => ?_
      refine (Unaware.check _).bind fun offset => ?_
      refine Unaware.bind (.look fun _ => rfl) fun top => ?_
      refine (Unaware.check _).bind fun height => ?_
      refine (Unaware.setTop _).bind fun _ => ?_
      refine (Unaware.onFrames _).bind fun _ => ?_
      exact .ite (.abort _) (.pure _)
    · exact .abort _

theorem unwind_unaware (e : LuaError) (site : CallSite) : (unwind e site).Unaware m := by
  refine Unaware.bind (.look fun _ => rfl) fun above => ?_
  refine (Unaware.check above).bind fun frames => ?_
  refine Unaware.bind (.look fun _ => rfl) fun e => ?_
  refine (Unaware.closeUpvalues site.func).bind fun _ => ?_
  exact Unaware.bind (.modify (fun _ => rfl) fun _ hs => hs) fun _ => .pure e

theorem failCall_unaware (e : LuaError) (site : CallSite) : (failCall e site).Unaware m :=
  Unaware.bind (.modify (fun _ => rfl) fun _ hs => hs) fun _ => unwind_unaware e site

theorem enterFresh_unaware (func : Nat) (results : ResultCount) : (do
    precall func results false
    Exec.modifyFrame fun f => { f with status := { f.status with fresh := true } } :
      Exec Unit).Unaware m :=
  (precall_unaware func results false).bind fun _ => .modifyFrame _

theorem beginCall_unaware (func : Nat) (results : ResultCount) :
    (beginCall func results).Unaware m := by
  intro vm hs
  have henter :=
    enterFresh_unaware (m := m) func results { vm with hostCalls := vm.hostCalls + 1 } hs
  have hsame : (m.hide vm).config.maxHostCalls = vm.config.maxHostCalls := m.maxHostCalls vm.config
  unfold beginCall
  by_cases hlimit : vm.config.maxHostCalls ≤ vm.hostCalls
  · rw [if_pos hlimit, if_pos (hsame ▸ hlimit)]
    exact .raised hs
  · rw [if_neg hlimit, if_neg (hsame ▸ hlimit)]
    dsimp only
    generalize (do
      precall func results false
      Exec.modifyFrame fun f => { f with status := { f.status with fresh := true } } : Exec Unit) =
        enter at henter ⊢
    generalize ho : enter { vm with hostCalls := vm.hostCalls + 1 } = o,
      ho' : enter (m.hide { vm with hostCalls := vm.hostCalls + 1 }) = o' at henter
    rw [show enter { m.hide vm with hostCalls := (m.hide vm).hostCalls + 1 } = o' from ho']
    cases henter with
    | returned hs => exact .returned hs
    | raised hs => exact (failCall_unaware _ { depth := vm.frames.depth, func }).thrown _ hs
    | aborted h =>
      refine .aborted (h.imp_right ?_)
      rintro rfl
      rfl

theorem push_unaware (v : Value) : (push v).Unaware m := by
  refine Unaware.bind (.look fun _ => rfl) fun top => ?_
  refine (Unaware.ensure _).bind fun _ => ?_
  exact (Unaware.setSlot top v).bind fun _ => .setTop _

theorem pushAll_unaware (vs : List Value) : (pushAll vs).Unaware m := by
  induction vs with
  | nil => exact .pure _
  | cons v vs ih => exact (push_unaware v).bind fun _ => ih

/-! ## Operands -/

theorem fetch_unaware (p : Prototype) (pc : Nat) : (fetch p pc).Unaware m := by
  unfold fetch
  split
  · exact .pure _
  · exact .malformed _

theorem fetchExpected_unaware (p : Prototype) (pc : Nat) (op : Opcode) :
    (fetchExpected p pc op).Unaware m :=
  (fetch_unaware p pc).bind fun _ => .ite (.pure _) (.malformed _)

theorem constantAt_unaware (p : Prototype) (index : Nat) : (constantAt p index).Unaware m := by
  unfold constantAt
  split
  · exact .pure _
  · exact .malformed _

theorem operandValue_unaware (x : Activation) (operand : Nat) :
    (operandValue x operand).Unaware m :=
  .ite (constantAt_unaware _ _) (.getSlot _)

theorem upvalueAt_unaware (c : Closure) (index : Nat) : (upvalueAt c index).Unaware m := by
  unfold upvalueAt
  split
  · exact .pure _
  · exact .malformed _

theorem readUpvalue_unaware (c : Closure) (index : Nat) : (readUpvalue c index).Unaware m :=
  (upvalueAt_unaware c index).bind fun r => .look fun vm =>
    vm.upvalues.read_congr r (m.peek vm.stack)

/-- A variable is assigned in a slot that exists, or in its cell. -/
theorem writeUpvalue_unaware (r : CellRef) (v : Value) : (writeUpvalue r v).Unaware m := by
  intro vm hs
  unfold writeUpvalue
  dsimp only [Mask.hide]
  cases hr : vm.upvalues.cell r with
  | closed w => exact .returned fun hrooted => ⟨(hs hrooted).1.setClosed r v, (hs hrooted).2⟩
  | opened slot =>
    dsimp only
    rw [m.assign vm.stack slot v fun hrooted => (hs hrooted).1 r slot hr]
    refine .returned fun hrooted => ⟨?_, (hs hrooted).2⟩
    rw [RegisterStack.size_setIfInBounds]
    exact (hs hrooted).1

theorem jump_unaware (offset : Int) : (jump offset).Unaware m := .modifyFrame _

theorem closeForJump_unaware (base a : Nat) : (closeForJump base a).Unaware m :=
  .ite (.pure _) (.closeUpvalues _)

theorem conditionalJump_unaware (p : Prototype) (base : Nat) (condition : Bool) :
    (conditionalJump p base condition).Unaware m := by
  refine .ite ?_ (jump_unaware 1)
  refine Unaware.currentFrame.bind fun frame => ?_
  refine (fetchExpected_unaware p frame.pc .jmp).bind fun next => ?_
  exact (closeForJump_unaware base next.a).bind fun _ => jump_unaware _

/-! ## Results -/

theorem storeReply_unaware (slot : Nat) (reply : Reply Value) :
    (storeReply slot reply).Unaware m := by
  cases reply with
  | done v => exact (Unaware.setSlot slot v).bind fun _ => .pure _
  | call handler args => exact .pure _

theorem testVerdict_unaware (x : Activation) (verdict : Verdict) :
    (testVerdict x verdict).Unaware m := by
  cases verdict with
  | decided answer => exact (conditionalJump_unaware _ _ _).bind fun _ => .pure _
  | ask negated handler args => exact .pure _

theorem storeConcat_unaware (slot : Nat) (reversed : List Value) :
    (storeConcat slot reversed).Unaware m := by
  refine (concatRound_unaware reversed).bind fun reply => ?_
  cases reply with
  | done v => exact (Unaware.setSlot slot v).bind fun _ => .pure _
  | call handler args rest => exact .pure _

theorem genericLoop_unaware (ra : Nat) (offset : Int) : (genericLoop ra offset).Unaware m := by
  refine (Unaware.getSlot (ra + 1)).bind fun control => ?_
  exact .ite ((Unaware.setSlot ra control).bind fun _ => jump_unaware offset) (.pure _)

theorem loopControl_unaware (ra : Nat) : (loopControl ra).Unaware m := by
  refine (Unaware.getSlot ra).bind fun index => ?_
  refine (Unaware.getSlot (ra + 1)).bind fun limit => ?_
  exact (Unaware.getSlot (ra + 2)).bind fun step => .pure _

theorem resetTop_unaware : resetTop.Unaware m :=
  Unaware.currentFrame.bind fun _ => .setTop _

/-! ## Instructions -/

section Instructions
variable (x : Activation)

theorem opMove_unaware : (opMove x).Unaware m :=
  (Unaware.getSlot _).bind fun _ => .setSlot _ _

theorem opLoadK_unaware : (opLoadK x).Unaware m :=
  (constantAt_unaware _ _).bind fun _ => .setSlot _ _

theorem opLoadKX_unaware : (opLoadKX x).Unaware m := by
  refine (fetchExpected_unaware _ _ _).bind fun extra => ?_
  refine (Unaware.modifyFrame _).bind fun _ => ?_
  exact (constantAt_unaware _ _).bind fun _ => .setSlot _ _

theorem opLoadBool_unaware : (opLoadBool x).Unaware m :=
  (Unaware.setSlot _ _).bind fun _ => .ite (jump_unaware 1) (.pure _)

theorem opLoadNil_unaware : (opLoadNil x).Unaware m :=
  .onStack fun s => m.fillNil_follows s _ _

theorem opGetUpval_unaware : (opGetUpval x).Unaware m :=
  (readUpvalue_unaware _ _).bind fun _ => .setSlot _ _

theorem opGetTabUp_unaware : (opGetTabUp x).Unaware m := by
  refine (readUpvalue_unaware _ _).bind fun obj => ?_
  refine (operandValue_unaware x _).bind fun key => ?_
  exact (index_unaware obj key).bind fun reply => storeReply_unaware _ reply

theorem opGetTable_unaware : (opGetTable x).Unaware m := by
  refine (Unaware.getSlot _).bind fun obj => ?_
  refine (operandValue_unaware x _).bind fun key => ?_
  exact (index_unaware obj key).bind fun reply => storeReply_unaware _ reply

theorem assignOperands_unaware (obj : Value) : (assignOperands x obj).Unaware m := by
  refine (operandValue_unaware x _).bind fun key => ?_
  refine (operandValue_unaware x _).bind fun value => ?_
  refine (newIndex_unaware obj key value).bind fun reply => ?_
  cases reply <;> exact .pure _

theorem opSetTabUp_unaware : (opSetTabUp x).Unaware m :=
  (readUpvalue_unaware _ _).bind fun obj => assignOperands_unaware x obj

theorem opSetTable_unaware : (opSetTable x).Unaware m :=
  (Unaware.getSlot _).bind fun obj => assignOperands_unaware x obj

theorem opSetUpval_unaware : (opSetUpval x).Unaware m := by
  refine (Unaware.getSlot _).bind fun v => ?_
  exact (upvalueAt_unaware _ _).bind fun r => writeUpvalue_unaware r v

theorem opNewTable_unaware : (opNewTable x).Unaware m :=
  Unaware.newTable.bind fun _ => .setSlot _ _

theorem opSelf_unaware : (opSelf x).Unaware m := by
  refine (Unaware.getSlot _).bind fun obj => ?_
  refine (Unaware.setSlot _ obj).bind fun _ => ?_
  refine (operandValue_unaware x _).bind fun key => ?_
  exact (index_unaware obj key).bind fun reply => storeReply_unaware _ reply

theorem opArith_unaware (op : ArithOp) : (opArith x op).Unaware m := by
  refine (operandValue_unaware x _).bind fun lhs => ?_
  refine (operandValue_unaware x _).bind fun rhs => ?_
  exact (arith_unaware op lhs rhs).bind fun reply => storeReply_unaware _ reply

theorem opUnary_unaware (op : ArithOp) : (opUnary x op).Unaware m := by
  refine (Unaware.getSlot _).bind fun operand => ?_
  exact (arith_unaware op operand operand).bind fun reply => storeReply_unaware _ reply

theorem opNot_unaware : (opNot x).Unaware m :=
  (Unaware.getSlot _).bind fun _ => .setSlot _ _

theorem opLen_unaware : (opLen x).Unaware m := by
  refine (Unaware.getSlot _).bind fun v => ?_
  exact (length_unaware v).bind fun reply => storeReply_unaware _ reply

theorem opConcat_unaware : (opConcat x).Unaware m :=
  .slice x.rb (fun _ => rfl) fun _ => storeConcat_unaware _ _

theorem opJmp_unaware : (opJmp x).Unaware m :=
  (closeForJump_unaware _ _).bind fun _ => jump_unaware _

theorem opCompare_unaware {comparison : Value → Value → Exec Verdict}
    (h : ∀ lhs rhs, (comparison lhs rhs).Unaware m) : (opCompare x comparison).Unaware m := by
  refine (operandValue_unaware x _).bind fun lhs => ?_
  refine (operandValue_unaware x _).bind fun rhs => ?_
  exact (h lhs rhs).bind fun verdict => testVerdict_unaware x verdict

theorem opTest_unaware : (opTest x).Unaware m :=
  (Unaware.getSlot _).bind fun _ => conditionalJump_unaware _ _ _

theorem opTestSet_unaware : (opTestSet x).Unaware m := by
  refine (Unaware.getSlot _).bind fun v => ?_
  refine .ite ?_ (conditionalJump_unaware _ _ _)
  exact (Unaware.setSlot _ v).bind fun _ => conditionalJump_unaware _ _ _

theorem placeArguments_unaware : (placeArguments x).Unaware m :=
  .ite (.pure _) (.setTop _)

theorem opCall_unaware : (opCall x).Unaware m :=
  (placeArguments_unaware x).bind fun _ => precall_unaware _ _ _

theorem opTailCall_unaware : (opTailCall x).Unaware m := by
  refine (placeArguments_unaware x).bind fun _ => ?_
  exact (precall_unaware _ _ _).bind fun _ => spliceTailCall_unaware

theorem opReturn_unaware : (opReturn x).Unaware m := by
  have hreturn : ∀ count, (do
      let fresh := (← Exec.currentFrame).status.fresh
      let fixedResults ← postcall x.ra count
      if fresh then return .leave
      if fixedResults then resetTop
      return .next .proceed : Exec Action).Unaware m := by
    intro count
    refine Unaware.currentFrame.bind fun frame => ?_
    refine (postcall_unaware x.ra count).bind fun fixedResults => ?_
    exact .ite (.pure _) (.ite (resetTop_unaware.bind fun _ => .pure _) (.pure _))
  refine (Unaware.closeUpvalues x.base).bind fun _ => .ite ?_ (hreturn _)
  refine Unaware.bind (.look fun _ => rfl) fun top => ?_
  exact (Unaware.check _).bind hreturn

theorem opForLoop_unaware : (opForLoop x).Unaware m := by
  refine (loopControl_unaware x.ra).bind fun control => ?_
  split
  · exact .pure _
  · refine (jump_unaware _).bind fun _ => ?_
    exact (Unaware.setSlot _ _).bind fun _ => .setSlot _ _

theorem opForPrep_unaware : (opForPrep x).Unaware m := by
  refine (loopControl_unaware x.ra).bind fun control => ?_
  refine (settle_unaware _).bind fun control => ?_
  refine (Unaware.setSlot _ _).bind fun _ => ?_
  refine (Unaware.setSlot _ _).bind fun _ => ?_
  exact (Unaware.setSlot _ _).bind fun _ => jump_unaware _

theorem opTForCall_unaware : (opTForCall x).Unaware m := by
  refine (Unaware.onStack fun s => m.copyDown_follows s _ _ _).bind fun _ => ?_
  exact (Unaware.setTop _).bind fun _ => .pure _

theorem storeList_unaware (r : TableRef) (key slot count : Nat) :
    (storeList r key slot count).Unaware m := by
  induction count generalizing key slot with
  | zero => exact .pure _
  | succ count ih =>
    refine (Unaware.getSlot slot).bind fun v => ?_
    exact Unaware.bind (.modify (fun _ => rfl) fun _ hs => hs) fun _ => ih (key + 1) (slot + 1)

theorem storeBlock_unaware (count block : Nat) : (storeBlock x count block).Unaware m := by
  refine (Unaware.getSlot x.ra).bind fun v => ?_
  split
  · have hstore : ∀ r, (storeList r ((block - 1) * fieldsPerFlush + 1) (x.ra + 1) count >>=
        fun _ => resetTop).Unaware m :=
      fun r => (storeList_unaware r _ _ count).bind fun _ => resetTop_unaware
    exact .ite (.malformed _) (hstore _)
  · exact .malformed _

theorem opSetList_unaware : (opSetList x).Unaware m := by
  have hblock : ∀ count, (do
      let block ←
        if x.instr.c = 0 then do
          let extra ← fetchExpected x.proto (x.pc + 1) .extraArg
          Exec.modifyFrame fun f => { f with pc := f.pc + 1 }
          pure extra.ax
        else pure x.instr.c
      storeBlock x count block : Exec Unit).Unaware m := by
    intro count
    refine .ite ?_ (storeBlock_unaware x count _)
    refine (fetchExpected_unaware _ _ _).bind fun extra => ?_
    exact (Unaware.modifyFrame _).bind fun _ => storeBlock_unaware x count extra.ax
  refine .ite ?_ (hblock _)
  refine Unaware.bind (.look fun _ => rfl) fun top => ?_
  exact .ite (hblock _) (.malformed _)

theorem opVararg_unaware : (opVararg x).Unaware m := by
  have hcopy : ∀ available wanted, (do
      Exec.onStack (·.copyDown (x.base - available) x.ra (min wanted available))
      Exec.onStack (·.fillNil (x.ra + min wanted available) (wanted - min wanted available)) :
        Exec Unit).Unaware m := by
    intro available wanted
    refine (Unaware.onStack fun s => m.copyDown_follows s _ _ _).bind fun _ => ?_
    exact .onStack fun s => m.fillNil_follows s _ _
  refine Unaware.currentFrame.bind fun frame => ?_
  refine (Unaware.check _).bind fun below => .ite ?_ (hcopy _ _)
  refine (Unaware.ensure _).bind fun _ => ?_
  exact (Unaware.setTop _).bind fun _ => hcopy _ _

end Instructions

/-! ## Closures -/

section Closures
variable {x : Activation} {vm : Vm}

/-- Registers that exist are captured. -/
theorem captureAll_hidden {sources : List UpvalueSource} (hs : m.Settled vm)
    (hb : m.rooted → ∀ s ∈ sources, s.inStack = true → x.base + s.index < vm.stack.size) :
    (captureAll x sources vm).Hidden m (captureAll x sources (m.hide vm)) := by
  induction sources generalizing vm with
  | nil => exact .returned hs
  | cons source rest ih =>
    have hrest : m.rooted → ∀ s ∈ rest, s.inStack = true → x.base + s.index < vm.stack.size :=
      fun hr s hm => hb hr s (List.mem_cons_of_mem _ hm)
    have hcons : ∀ r mid, mid.stack = vm.stack → m.Settled mid →
        ((captureAll x rest >>= fun refs => pure (r :: refs)) mid).Hidden m
          ((captureAll x rest >>= fun refs => pure (r :: refs)) (m.hide mid)) :=
      fun r mid hstack hmid =>
        Exec.Hidden.bind (ih hmid (hstack ▸ hrest)) fun refs after _ hafter => .returned hafter
    by_cases hin : source.inStack = true
    · simp only [captureAll, hin, if_true]
      have hfirst : (Exec.captureSlot (x.base + source.index) vm).Hidden m
          (Exec.captureSlot (x.base + source.index) (m.hide vm)) :=
        .returned fun hr => ⟨(hs hr).1.capture (hb hr source List.mem_cons_self hin), (hs hr).2⟩
      refine Exec.Hidden.bind hfirst fun r mid hr hmid => hcons r mid ?_ hmid
      cases hr
      rfl
    · simp only [captureAll, hin]
      refine Exec.Hidden.bind (upvalueAt_unaware _ _ vm hs) fun r mid hr hmid => hcons r mid ?_ hmid
      cases hu : x.closure.upvalues[source.index]? <;> rw [upvalueAt, hu] at hr <;> cases hr
      rfl

theorem opClosure_hidden (hs : m.Settled vm)
    (hx : m.rooted → x.proto.Scoped ∧ x.base + x.proto.maxStackSize ≤ vm.stack.size) :
    (opClosure x vm).Hidden m (opClosure x (m.hide vm)) := by
  unfold opClosure
  cases hchild : x.proto.functions[x.instr.bx]? with
  | none => exact .aborted (.inr rfl)
  | some child =>
    have hmem : child ∈ x.proto.functions := Array.mem_of_getElem? hchild
    have hcapture : (captureAll x child.upvalues.toList vm).Hidden m
        (captureAll x child.upvalues.toList (m.hide vm)) := by
      refine captureAll_hidden hs fun hr source hm hin => ?_
      obtain ⟨hscoped, hroom⟩ := hx hr
      have hindex := hscoped x.proto .self child hmem source (Array.mem_toList_iff.mp hm) hin
      omega
    refine Exec.Hidden.bind hcapture fun refs mid _ hmid => ?_
    have hmake : (Exec.newClosure { proto := child, upvalues := refs.toArray }).Unaware m :=
      .newClosure fun hr => (hx hr).1.child hmem
    exact (hmake.bind fun r => .setSlot _ _) mid hmid

end Closures

/-! ## Steps -/

theorem plain_unaware {y : Exec Unit} (h : y.Unaware m) : (plain y).Unaware m :=
  h.bind fun _ => .pure _

theorem hooked_unaware {y : Exec Next} (h : y.Unaware m) : (hooked y).Unaware m :=
  h.bind fun _ => .pure _

theorem execute_unaware (x : Activation) {op : Opcode} (hop : op ≠ .closure) :
    (execute x op).Unaware m := by
  cases op with
  | closure => exact absurd rfl hop
  | move => exact plain_unaware (opMove_unaware x)
  | loadK => exact plain_unaware (opLoadK_unaware x)
  | loadKX => exact plain_unaware (opLoadKX_unaware x)
  | loadBool => exact plain_unaware (opLoadBool_unaware x)
  | loadNil => exact plain_unaware (opLoadNil_unaware x)
  | getUpval => exact plain_unaware (opGetUpval_unaware x)
  | getTabUp => exact hooked_unaware (opGetTabUp_unaware x)
  | getTable => exact hooked_unaware (opGetTable_unaware x)
  | setTabUp => exact hooked_unaware (opSetTabUp_unaware x)
  | setUpval => exact plain_unaware (opSetUpval_unaware x)
  | setTable => exact hooked_unaware (opSetTable_unaware x)
  | newTable => exact plain_unaware (opNewTable_unaware x)
  | self => exact hooked_unaware (opSelf_unaware x)
  | add | sub | mul | mod | pow | div | idiv | band | bor | bxor | shl | shr =>
    exact hooked_unaware (opArith_unaware x _)
  | unm | bnot => exact hooked_unaware (opUnary_unaware x _)
  | not => exact plain_unaware (opNot_unaware x)
  | len => exact hooked_unaware (opLen_unaware x)
  | concat => exact hooked_unaware (opConcat_unaware x)
  | jmp => exact plain_unaware (opJmp_unaware x)
  | eq => exact hooked_unaware (opCompare_unaware x equal_unaware)
  | lt => exact hooked_unaware (opCompare_unaware x lessThan_unaware)
  | le => exact hooked_unaware (opCompare_unaware x lessEqual_unaware)
  | test => exact plain_unaware (opTest_unaware x)
  | testSet => exact plain_unaware (opTestSet_unaware x)
  | call => exact plain_unaware (opCall_unaware x)
  | tailCall => exact plain_unaware (opTailCall_unaware x)
  | ret => exact opReturn_unaware x
  | forLoop => exact plain_unaware (opForLoop_unaware x)
  | forPrep => exact plain_unaware (opForPrep_unaware x)
  | tforCall => exact hooked_unaware (opTForCall_unaware x)
  | tforLoop => exact plain_unaware (genericLoop_unaware _ _)
  | setList => exact plain_unaware (opSetList_unaware x)
  | vararg => exact plain_unaware (opVararg_unaware x)
  | extraArg => exact .malformed _

/-- Every instruction of a frame that has its registers, if need be, does the same under a mask. -/
theorem execute_hidden {x : Activation} {vm : Vm} (op : Opcode) (hs : m.Settled vm)
    (hx : m.rooted → x.proto.Scoped ∧ x.base + x.proto.maxStackSize ≤ vm.stack.size) :
    (execute x op vm).Hidden m (execute x op (m.hide vm)) := by
  by_cases hclosure : op = .closure
  · subst hclosure
    exact Exec.Hidden.bind (opClosure_hidden hs hx) fun _ after _ hafter => .returned hafter
  · exact execute_unaware x hclosure vm hs

theorem beginStep_unaware [m.Recording] : beginStep.Unaware m := by
  refine Unaware.currentFrame.bind fun frame => ?_
  split
  · refine Unaware.bind (.look fun _ => rfl) fun closure => ?_
    refine (fetch_unaware _ _).bind fun instr => ?_
    refine (Unaware.modifyFrame _).bind fun _ => ?_
    exact (recordStep_unaware _ _).bind fun _ => .pure _
  · exact .abort _

/-- A step in a frame that has its registers, if need be, does the same under a mask. -/
theorem dispatch_unaware [m.Recording] :
    dispatch.UnawareOn m fun vm => m.rooted → vm.frames.current.Fits vm := by
  intro vm hfits hs
  refine Exec.Hidden.bind (beginStep_unaware vm hs) fun x mid hx hmid => ?_
  cases hop : x.instr.op? with
  | none => exact .aborted (.inr rfl)
  | some op =>
    refine execute_hidden op hmid fun hrooted => ?_
    obtain ⟨r, instr, hr, -, rfl, rfl⟩ := beginStep_eq_returned hx
    obtain ⟨-, htop, hroom⟩ := hfits hrooted r hr
    exact ⟨(hs hrooted).2.closureAt r, htop ▸ hroom⟩

theorem runningPrototype_unaware : runningPrototype.Unaware m := by
  refine Unaware.currentFrame.bind fun frame => ?_
  split
  · exact .look fun _ => rfl
  · exact .abort _

theorem resume_unaware (k : Resume) (results : List Value) : (resume k results).Unaware m := by
  cases k with
  | store slot => exact (Unaware.setSlot _ _).bind fun _ => .pure _
  | drop => exact .pure _
  | concat rest slot => exact storeConcat_unaware _ _
  | test negated expected =>
    have htest : (do
        let frame ← Exec.currentFrame
        let proto ← runningPrototype
        conditionalJump proto frame.base (((results.headD .nil).isTruthy != negated) == expected)
        return .proceed : Exec Next).Unaware m := by
      refine Unaware.currentFrame.bind fun frame => ?_
      refine runningPrototype_unaware.bind fun proto => ?_
      exact (conditionalJump_unaware _ _ _).bind fun _ => .pure _
    exact .ite ((markSwapped_unaware false).bind fun _ => htest) htest
  | iterate =>
    refine resetTop_unaware.bind fun _ => ?_
    refine Unaware.currentFrame.bind fun frame => ?_
    refine runningPrototype_unaware.bind fun proto => ?_
    refine (fetchExpected_unaware _ _ _).bind fun next => ?_
    refine (Unaware.modifyFrame _).bind fun _ => ?_
    exact (genericLoop_unaware _ _).bind fun _ => .pure _

end LuaMachine.Vm
