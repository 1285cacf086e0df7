import LuaMachine.Machine.Dispatch
import LuaMachine.Proofs.Change

/-!
# Instructions that stay in their frame

All instructions but calls and returns work in their own frame: first they change registers from the
base up, then, if they are jumps, they close upvalues. An error comes before anything is closed. An
instruction may also ask for a call, and then the slot that is to take the result is a register of
its frame.
-/
namespace LuaMachine.Vm

open Relation (ReflTransGen)
open Exec (Keeps Post)

/-- The slot that takes the result of a call is at or above `base`. -/
def Resume.AtLeast (base : Nat) : Resume → Prop
  | .store slot => base ≤ slot
  | .concat _ slot => base ≤ slot
  | .drop | .test _ _ | .iterate => True

/-- The slots that a request for a call names are at or above `base`. -/
def Next.AtLeast (base : Nat) : Next → Prop
  | .proceed => True
  | .invoke _ _ k => k.AtLeast base
  | .callAt func _ k => base ≤ func ∧ k.AtLeast base

theorem Next.atLeast_proceed (base : Nat) : Next.AtLeast base .proceed := trivial

/-- Work in a frame, and after it the closing of upvalues. -/
def Finished (base : Nat) (vm after : Vm) : Prop :=
  ∃ mid, ReflTransGen (Work base) vm mid ∧ ReflTransGen (Close base) mid after

theorem Finished.of_works {base : Nat} {vm after : Vm} (h : ReflTransGen (Work base) vm after) :
    Finished base vm after := ⟨after, h, .refl⟩

theorem Finished.of_closes {base : Nat} {vm after : Vm} (h : ReflTransGen (Close base) vm after) :
    Finished base vm after := ⟨vm, .refl, h⟩

theorem Finished.head {base : Nat} {vm mid after : Vm} (h : ReflTransGen (Work base) vm mid)
    (h' : Finished base mid after) : Finished base vm after := by
  obtain ⟨mid', hw, hc⟩ := h'
  exact ⟨mid', h.trans hw, hc⟩

theorem Finished.inPlace {base : Nat} {vm after : Vm} (h : Finished base vm after) :
    InPlace base vm after := by
  obtain ⟨mid, hw, hc⟩ := h
  exact (inPlace_of_works hw).trans (inPlace_of_closes hc)

/-- An instruction is over and `next` comes next. Only one that asks for no call may have closed
upvalues. -/
inductive Followed (base : Nat) (vm : Vm) : Next → Vm → Prop
  | closing {after : Vm} (h : Finished base vm after) : Followed base vm .proceed after
  | asking {next : Next} {after : Vm} (hn : next.AtLeast base)
      (h : ReflTransGen (Work base) vm after) :
      Followed base vm next after

section Followed
variable {base : Nat} {vm mid after : Vm} {next : Next}

theorem Followed.atLeast (h : Followed base vm next after) : next.AtLeast base := by
  cases h with
  | closing _ => trivial
  | asking hn _ => exact hn

theorem Followed.finished (h : Followed base vm next after) : Finished base vm after := by
  cases h with
  | closing h => exact h
  | asking _ h => exact .of_works h

theorem Followed.head (h : ReflTransGen (Work base) vm mid) (h' : Followed base mid next after) :
    Followed base vm next after := by
  cases h' with
  | closing h' => exact .closing (h'.head h)
  | asking hn h' => exact .asking hn (h.trans h')

end Followed

/-- An operation that works in a frame and may end with the closing of upvalues. -/
def Finishes (base : Nat) (x : Exec Unit) : Prop :=
  ∀ vm, x.Post vm (fun _ after => Finished base vm after) (ReflTransGen (Work base) vm)

/-- An operation that works in a frame and may ask for a call. -/
def Asks (base : Nat) (x : Exec Next) : Prop :=
  ∀ vm, x.Post vm (Followed base vm) (ReflTransGen (Work base) vm)

section Finishes
variable {base : Nat} {α : Type} {x : Exec α} {y : Exec Unit}

theorem Finishes.of_keeps (h : y.Keeps (Work base)) : Finishes base y :=
  fun vm => (h vm).mono (fun _ _ _ hw => .of_works hw) fun _ hw => hw

theorem Finishes.bind {f : α → Exec Unit} (hx : x.Keeps (Work base))
    (hf : ∀ a, Finishes base (f a)) : Finishes base (x >>= f) := by
  intro vm
  refine hx.bind_post (fun a mid hm => ?_) fun _ h => h
  exact (hf a mid).mono (fun _ _ _ hd => hd.head hm) fun _ hw => hm.trans hw

theorem Finishes.ite {c : Prop} [Decidable c] {z : Exec Unit} (hy : c → Finishes base y)
    (hz : ¬ c → Finishes base z) : Finishes base (if c then y else z) := by
  split
  next h => exact hy h
  next h => exact hz h

theorem Asks.pure {next : Next} (hn : next.AtLeast base) : Asks base (Pure.pure next) :=
  fun _ => .asking hn .refl

theorem Asks.bind {f : α → Exec Next} (hx : x.Keeps (Work base)) (hf : ∀ a, Asks base (f a)) :
    Asks base (x >>= f) := by
  intro vm
  refine hx.bind_post (fun a mid hm => ?_) fun _ h => h
  exact (hf a mid).mono (fun _ _ _ hd => hd.head hm) fun _ hw => hm.trans hw

/-- What comes after an operation that only closes cannot fail. -/
theorem Finishes.asks (hy : Finishes base y) : Asks base (y >>= fun _ => Pure.pure .proceed) := by
  intro vm
  exact Post.bind ((hy vm).mono (fun _ _ _ hd => Post.pure (.closing hd)) fun _ hw => hw)

end Finishes

/-! ## Operands and operations -/

section Operands
variable {r : Vm → Vm → Prop}

theorem fetch_keeps (p : Prototype) (pc : Nat) : (fetch p pc).Keeps r := by
  unfold fetch
  split
  · exact Keeps.pure _
  · exact Keeps.malformed _

theorem fetchExpected_keeps (p : Prototype) (pc : Nat) (op : Opcode) :
    (fetchExpected p pc op).Keeps r := by
  refine (fetch_keeps p pc).bind fun i => Keeps.ite (fun _ => Keeps.pure _) fun _ =>
    Keeps.malformed _

theorem constantAt_keeps (p : Prototype) (index : Nat) : (constantAt p index).Keeps r := by
  unfold constantAt
  split
  · exact Keeps.pure _
  · exact Keeps.malformed _

theorem operandValue_keeps (x : Activation) (operand : Nat) : (operandValue x operand).Keeps r :=
  Keeps.ite (fun _ => constantAt_keeps _ _) fun _ => Exec.getSlot_keeps _

theorem upvalueAt_keeps (c : Closure) (index : Nat) : (upvalueAt c index).Keeps r := by
  unfold upvalueAt
  split
  · exact Keeps.pure _
  · exact Keeps.malformed _

theorem readUpvalue_keeps (c : Closure) (index : Nat) : (readUpvalue c index).Keeps r :=
  (upvalueAt_keeps c index).bind fun _ => Keeps.look _

theorem settle_keeps {α : Type} (c : Except Cause α) : (settle c).Keeps r := by
  cases c with
  | ok a => exact Keeps.pure a
  | error e => exact Keeps.raise e

theorem loopControl_keeps (ra : Nat) : (loopControl ra).Keeps r := by
  refine (Exec.getSlot_keeps _).bind fun _ => ?_
  refine (Exec.getSlot_keeps _).bind fun _ => ?_
  exact (Exec.getSlot_keeps _).bind fun _ => Keeps.pure _

end Operands

section Operations
variable {level : Nat}

/-- The record of a consultation of the hooks. -/
def consultation (event : String) (args : List Value) (vm : Vm) : Consultation where
  event := event
  args := args
  frames := vm.debugFrames
  top := vm.top
  depth := vm.callDepth
  stackSize := vm.stack.size
  openUpvalues := vm.upvalues.openCount

theorem consult_eq (event : String) (args : List Value) : consult event args =
    Exec.modify fun vm =>
      { vm with consultations := vm.consultations.map (·.push (consultation event args vm)) } := by
  funext vm
  obtain ⟨_, _, _, _, _, _, _, _, _, _, consultations⟩ := vm
  cases consultations <;> rfl

theorem consult_keeps (event : String) (args : List Value) :
    (consult event args).Keeps (Shift level) := by
  rw [consult_eq]
  exact Keeps.modify fun vm => .log vm.trace _

theorem binaryHook_keeps (name event : String) (lhs rhs : Value) :
    (binaryHook name event lhs rhs).Keeps (Shift level) :=
  (consult_keeps _ _).bind fun _ => Keeps.look _

theorem index_keeps (obj key : Value) : (index obj key).Keeps (Work level) := by
  refine (Keeps.look _).bind fun own => ?_
  refine Keeps.ite (fun _ => Keeps.pure _) fun _ => ?_
  refine (consult_keeps _ _).work.bind fun _ => ?_
  refine (Keeps.look _).bind fun found => ?_
  refine (settle_keeps found).bind fun reply => ?_
  split
  · exact Keeps.pure _
  · exact Keeps.ite (fun _ => Keeps.pure _) fun _ => Keeps.raise _

theorem rawAssign_keeps (r : TableRef) (key value : Value) :
    (rawAssign r key value).Keeps (Work level) := by
  unfold rawAssign
  split
  · exact Keeps.modify fun vm => .extend fun _ _ h => h
  · exact Keeps.raise _

theorem newIndex_keeps (obj key value : Value) : (newIndex obj key value).Keeps (Work level) := by
  refine (Keeps.look _).bind fun own => ?_
  split
  · exact (rawAssign_keeps _ _ _).bind fun _ => Keeps.pure _
  · refine (consult_keeps _ _).work.bind fun _ => ?_
    refine (Keeps.look _).bind fun found => ?_
    refine (settle_keeps found).bind fun assignment => ?_
    split
    · exact (rawAssign_keeps _ _ _).bind fun _ => Keeps.pure _
    · exact Keeps.pure _
    · split
      · exact (rawAssign_keeps _ _ _).bind fun _ => Keeps.pure _
      · exact Keeps.raise _

theorem arith_keeps (op : ArithOp) (lhs rhs : Value) : (arith op lhs rhs).Keeps (Work level) := by
  refine (settle_keeps _).bind fun result => ?_
  split
  · exact Keeps.pure _
  · refine (binaryHook_keeps _ _ _ _).work.bind fun handler => ?_
    split
    · exact Keeps.pure _
    · exact Keeps.raise _

theorem length_keeps (v : Value) : (length v).Keeps (Work level) := by
  unfold length
  split
  · exact Keeps.pure _
  · refine (consult_keeps _ _).work.bind fun _ => ?_
    refine (Keeps.look _).bind fun handler => ?_
    refine Keeps.ite (fun _ => Keeps.pure _) fun _ => ?_
    refine (Keeps.look _).bind fun length => ?_
    split
    · exact Keeps.pure _
    · exact Keeps.raise _

theorem equal_keeps (lhs rhs : Value) : (equal lhs rhs).Keeps (Work level) := by
  refine Keeps.ite (fun _ => Keeps.pure _) fun _ => ?_
  refine (binaryHook_keeps _ _ _ _).work.bind fun handler => ?_
  split <;> exact Keeps.pure _

theorem lessThan_keeps (lhs rhs : Value) : (lessThan lhs rhs).Keeps (Work level) := by
  unfold lessThan
  split
  · exact Keeps.pure _
  · refine (binaryHook_keeps _ _ _ _).work.bind fun handler => ?_
    split
    · exact Keeps.pure _
    · exact Keeps.raise _

theorem markSwapped_keeps (waiting : Bool) : (markSwapped waiting).Keeps (Work level) :=
  Exec.modifyFrame_keeps fun _ => ⟨rfl, rfl, rfl, rfl, rfl, rfl⟩

theorem lessEqual_keeps (lhs rhs : Value) : (lessEqual lhs rhs).Keeps (Work level) := by
  unfold lessEqual
  split
  · exact Keeps.pure _
  · refine (binaryHook_keeps _ _ _ _).work.bind fun handler => ?_
    split
    · exact Keeps.pure _
    · refine (markSwapped_keeps true).bind fun _ => ?_
      refine (binaryHook_keeps _ _ _ _).work.bind fun swapped => ?_
      split
      · exact Keeps.pure _
      · exact (markSwapped_keeps false).bind fun _ => Keeps.raise _

theorem concatRound_keeps (reversed : List Value) : (concatRound reversed).Keeps (Work level) := by
  unfold concatRound
  split
  · exact Keeps.pure _
  · refine (binaryHook_keeps _ _ _ _).work.bind fun handler => ?_
    split
    · exact Keeps.pure _
    · exact Keeps.raise _

theorem callHandler?_keeps (v : Value) : (callHandler? v).Keeps (Shift level) :=
  (consult_keeps _ _).bind fun _ => Keeps.look _

end Operations

/-! ## Ends of instructions -/

section Ends
variable {base : Nat}

/-- Moving the position of the current frame. -/
theorem setPc_keeps (g : Frame → Nat) :
    (Exec.modifyFrame fun f => { f with pc := g f }).Keeps (Work base) :=
  Exec.modifyFrame_keeps fun _ => ⟨rfl, rfl, rfl, rfl, rfl, rfl⟩

theorem jump_keeps (offset : Int) : (jump offset).Keeps (Work base) :=
  setPc_keeps fun f => jumpTarget f.pc offset

/-- Taking a jump closes upvalues of the frame only, and raises no error. -/
theorem takeJump_post (a : Nat) (offset : Int) (vm : Vm) :
    (closeForJump base a >>= fun _ => jump offset).Post vm
      (fun _ after => ReflTransGen (Close base) vm after) fun _ => False := by
  have hjump : ∀ mid : Vm, ReflTransGen (Close base) vm mid →
      (jump offset).Post mid (fun _ after => ReflTransGen (Close base) vm after) fun _ => False :=
    fun mid hm => Post.modify (hm.tail (.move _ fun _ => ⟨rfl, rfl, rfl, rfl, rfl, rfl⟩))
  refine Post.bind ?_
  unfold closeForJump
  split_ifs
  · exact Post.pure (hjump vm .refl)
  · exact Post.modify (hjump _ (.single (.close (Nat.le_add_right _ _))))

theorem takeJump_finishes (a : Nat) (offset : Int) :
    Finishes base (closeForJump base a >>= fun _ => jump offset) :=
  fun vm => (takeJump_post a offset vm).mono (fun _ _ _ hc => .of_closes hc) fun _ h => h.elim

theorem conditionalJump_finishes (p : Prototype) (condition : Bool) :
    Finishes base (conditionalJump p base condition) := by
  refine Finishes.ite (fun _ => ?_) fun _ => .of_keeps (jump_keeps 1)
  refine Finishes.bind (Keeps.look _) fun frame => ?_
  refine Finishes.bind (fetchExpected_keeps p frame.pc .jmp) fun next => ?_
  exact takeJump_finishes next.a (next.sbx + 1)

theorem storeReply_asks {slot : Nat} (reply : Reply Value) (hl : base ≤ slot) :
    Asks base (storeReply slot reply) := by
  cases reply with
  | done v => exact Asks.bind (Exec.setSlot_keeps v hl).work fun _ => .pure trivial
  | call handler args => exact .pure hl

theorem testVerdict_asks (x : Activation) (verdict : Verdict) :
    Asks x.base (testVerdict x verdict) := by
  cases verdict with
  | decided answer => exact (conditionalJump_finishes _ _).asks
  | ask negated handler args => exact .pure trivial

theorem storeConcat_asks {slot : Nat} (reversed : List Value) (hl : base ≤ slot) :
    Asks base (storeConcat slot reversed) := by
  refine Asks.bind (concatRound_keeps reversed) fun reply => ?_
  cases reply with
  | done v => exact Asks.bind (Exec.setSlot_keeps v hl).work fun _ => .pure trivial
  | call handler args rest => exact .pure hl

theorem genericLoop_keeps {ra : Nat} (offset : Int) (hl : base ≤ ra) :
    (genericLoop ra offset).Keeps (Work base) := by
  refine (Exec.getSlot_keeps _).bind fun control => ?_
  refine Keeps.ite (fun _ => ?_) fun _ => Keeps.pure _
  exact (Exec.setSlot_keeps control hl).work.bind fun _ => jump_keeps offset

theorem resetTop_keeps : resetTop.Keeps (Work base) := by
  intro vm
  exact ReflTransGen.single (.shift (.moveTop (.inr (.inr rfl))))

end Ends

/-! ## The instructions -/

section Plain
variable (x : Activation)

theorem base_le_ra : x.base ≤ x.ra := Nat.le_add_right _ _

theorem opMove_keeps : (opMove x).Keeps (Work x.base) :=
  (Exec.getSlot_keeps _).bind fun v => (Exec.setSlot_keeps v (base_le_ra x)).work

theorem opLoadK_keeps : (opLoadK x).Keeps (Work x.base) :=
  (constantAt_keeps _ _).bind fun v => (Exec.setSlot_keeps v (base_le_ra x)).work

theorem opLoadKX_keeps : (opLoadKX x).Keeps (Work x.base) := by
  refine (fetchExpected_keeps _ _ _).bind fun extra => ?_
  refine (setPc_keeps fun f => f.pc + 1).bind fun _ => ?_
  exact (constantAt_keeps _ _).bind fun v => (Exec.setSlot_keeps v (base_le_ra x)).work

theorem opLoadBool_keeps : (opLoadBool x).Keeps (Work x.base) := by
  refine (Exec.setSlot_keeps _ (base_le_ra x)).work.bind fun _ => ?_
  exact Keeps.ite (fun _ => jump_keeps 1) fun _ => Keeps.pure _

theorem opLoadNil_keeps : (opLoadNil x).Keeps (Work x.base) :=
  (Exec.onStack_keeps fun s => s.fillNil_yields _ (base_le_ra x)).work

theorem opGetUpval_keeps : (opGetUpval x).Keeps (Work x.base) :=
  (readUpvalue_keeps _ _).bind fun v => (Exec.setSlot_keeps v (base_le_ra x)).work

theorem opNewTable_keeps : (opNewTable x).Keeps (Work x.base) :=
  Exec.newTable_keeps.bind fun _ => (Exec.setSlot_keeps _ (base_le_ra x)).work

theorem opNot_keeps : (opNot x).Keeps (Work x.base) :=
  (Exec.getSlot_keeps _).bind fun _ => (Exec.setSlot_keeps _ (base_le_ra x)).work

theorem opForLoop_keeps : (opForLoop x).Keeps (Work x.base) := by
  refine (loopControl_keeps _).bind fun control => ?_
  split
  · exact Keeps.pure _
  next index _ =>
    refine (jump_keeps _).bind fun _ => ?_
    refine (Exec.setSlot_keeps index (by have := base_le_ra x; omega)).work.bind fun _ => ?_
    exact (Exec.setSlot_keeps index (base_le_ra x)).work

theorem opForPrep_keeps : (opForPrep x).Keeps (Work x.base) := by
  have hra := base_le_ra x
  refine (loopControl_keeps _).bind fun found => ?_
  refine (settle_keeps _).bind fun control => ?_
  refine (Exec.setSlot_keeps control.limit (by omega)).work.bind fun _ => ?_
  refine (Exec.setSlot_keeps control.step (by omega)).work.bind fun _ => ?_
  exact (Exec.setSlot_keeps control.index hra).work.bind fun _ => jump_keeps _

theorem storeList_keeps {base : Nat} (r : TableRef) (key slot count : Nat) :
    (storeList r key slot count).Keeps (Work base) := by
  induction count generalizing key slot with
  | zero => exact Keeps.pure _
  | succ count ih =>
    refine (Exec.getSlot_keeps slot).bind fun v => ?_
    refine Keeps.bind (Keeps.modify fun vm => ?_) fun _ => ih (key + 1) (slot + 1)
    exact .extend fun _ _ h => h

theorem storeBlock_keeps (count block : Nat) : (storeBlock x count block).Keeps (Work x.base) := by
  refine (Exec.getSlot_keeps _).bind fun v => ?_
  split
  · refine Keeps.ite (fun _ => (Keeps.malformed _).bind fun _ => ?_) fun _ => ?_
    all_goals exact (storeList_keeps _ _ _ _).bind fun _ => resetTop_keeps
  · exact Keeps.malformed _

theorem opSetList_keeps : (opSetList x).Keeps (Work x.base) := by
  -- The two optional operands come first; what follows is the same for each of their values.
  have hblock : ∀ count, (do
      let block ←
        if x.instr.c = 0 then do
          let extra ← fetchExpected x.proto (x.pc + 1) .extraArg
          Exec.modifyFrame fun f => { f with pc := f.pc + 1 }
          pure extra.ax
        else pure x.instr.c
      storeBlock x count block : Exec Unit).Keeps (Work x.base) := by
    intro count
    refine Keeps.ite (fun _ => ?_) fun _ => (Keeps.pure _).bind (storeBlock_keeps x count)
    refine (fetchExpected_keeps _ _ _).bind fun extra => ?_
    refine (setPc_keeps fun f => f.pc + 1).bind fun _ => ?_
    exact (Keeps.pure _).bind (storeBlock_keeps x count)
  refine Keeps.ite (fun _ => ?_) fun _ => (Keeps.pure _).bind hblock
  refine (Keeps.look _).bind fun top => ?_
  exact Keeps.ite (fun _ => (Keeps.pure _).bind hblock) fun _ => (Keeps.malformed _).bind hblock

/-- Capturing raises no error, so what is captured is not lost. -/
theorem captureAll_post (sources : List UpvalueSource) (vm : Vm) :
    (captureAll x sources).Post vm (fun _ after => ReflTransGen (Make x.base) vm after)
      fun _ => False := by
  induction sources generalizing vm with
  | nil => exact Post.pure .refl
  | cons source rest ih =>
    have hrest : ∀ (r : CellRef) (mid : Vm), ReflTransGen (Make x.base) vm mid →
        (captureAll x rest >>= fun refs => pure (r :: refs)).Post mid
          (fun _ after => ReflTransGen (Make x.base) vm after) fun _ => False :=
      fun r mid hm => Post.bind ((ih mid).mono (fun _ _ _ h => Post.pure (hm.trans h)) fun _ h => h)
    refine Post.ite (fun _ => ?_) fun _ => Post.bind ?_
    · exact Post.bind (hrest _ _ (.single (.capture (Nat.le_add_right _ _))))
    · unfold upvalueAt
      split
      · exact Post.pure (hrest _ vm .refl)
      · exact Post.abort rfl

theorem opClosure_post (vm : Vm) :
    (opClosure x).Post vm (fun _ after => ReflTransGen (Make x.base) vm after) fun _ => False := by
  unfold opClosure
  split
  · exact Post.abort rfl
  · refine Post.bind ((captureAll_post x _ vm).mono (fun refs mid _ hm => ?_) fun _ h => h)
    refine Post.bind ((Exec.newClosure_post x.base _ mid).mono (fun r made _ hr => ?_) fun _ h => h)
    refine Post.onStack ((RegisterStack.set_yields _ _ (base_le_ra x)).mono fun s hs => ?_)
    exact (hm.tail (.work hr)).tail (.work (.shift (.write hs)))

theorem opVararg_keeps : (opVararg x).Keeps (Work x.base) := by
  have hra := base_le_ra x
  refine (Keeps.look _).bind fun frame => ?_
  refine (Keeps.check (Checked.sub_yields _ _)).bind fun below => ?_
  have hcopy : ∀ wanted, (do
      let available := below - (x.proto.paramCount + 1)
      let copied := min wanted available
      Exec.onStack (·.copyDown (x.base - available) x.ra copied)
      Exec.onStack (·.fillNil (x.ra + copied) (wanted - copied)) : Exec Unit).Keeps
        (Work x.base) := by
    intro wanted
    refine (Exec.onStack_keeps fun s => s.copyDown_yields _ _ hra).work.bind fun _ => ?_
    exact (Exec.onStack_keeps fun s => s.fillNil_yields _ (by omega)).work
  refine Keeps.ite (fun _ => ?_) fun _ => (Keeps.pure _).bind hcopy
  refine (Exec.ensure_keeps _).work.bind fun _ => ?_
  refine (Exec.setTop_keeps (by omega)).work.bind fun _ => ?_
  exact (Keeps.pure _).bind hcopy

theorem opJmp_finishes : Finishes x.base (opJmp x) :=
  takeJump_finishes x.instr.a x.instr.sbx

theorem opTest_finishes : Finishes x.base (opTest x) :=
  Finishes.bind (Exec.getSlot_keeps _) fun _ => conditionalJump_finishes _ _

theorem opTestSet_finishes : Finishes x.base (opTestSet x) := by
  refine Finishes.bind (Exec.getSlot_keeps _) fun v => ?_
  refine Finishes.ite (fun _ => ?_) fun _ => conditionalJump_finishes _ _
  exact Finishes.bind (Exec.setSlot_keeps v (base_le_ra x)).work fun _ =>
    conditionalJump_finishes _ _

end Plain

section Hooked
variable (x : Activation)

theorem opGetTabUp_asks : Asks x.base (opGetTabUp x) := by
  refine Asks.bind (readUpvalue_keeps _ _) fun obj => ?_
  refine Asks.bind (operandValue_keeps _ _) fun key => ?_
  exact Asks.bind (index_keeps obj key) fun reply => storeReply_asks reply (base_le_ra x)

theorem opGetTable_asks : Asks x.base (opGetTable x) := by
  refine Asks.bind (Exec.getSlot_keeps _) fun obj => ?_
  refine Asks.bind (operandValue_keeps _ _) fun key => ?_
  exact Asks.bind (index_keeps obj key) fun reply => storeReply_asks reply (base_le_ra x)

theorem assignOperands_asks (obj : Value) : Asks x.base (assignOperands x obj) := by
  refine Asks.bind (operandValue_keeps _ _) fun key => ?_
  refine Asks.bind (operandValue_keeps _ _) fun value => ?_
  refine Asks.bind (newIndex_keeps obj key value) fun reply => ?_
  cases reply with
  | done _ => exact .pure trivial
  | call handler args => exact .pure trivial

theorem opSetTabUp_asks : Asks x.base (opSetTabUp x) :=
  Asks.bind (readUpvalue_keeps _ _) fun obj => assignOperands_asks x obj

theorem opSetTable_asks : Asks x.base (opSetTable x) :=
  Asks.bind (Exec.getSlot_keeps _) fun obj => assignOperands_asks x obj

theorem opSelf_asks : Asks x.base (opSelf x) := by
  refine Asks.bind (Exec.getSlot_keeps _) fun obj => ?_
  refine Asks.bind (Exec.setSlot_keeps obj (by have := base_le_ra x; omega)).work fun _ => ?_
  refine Asks.bind (operandValue_keeps _ _) fun key => ?_
  exact Asks.bind (index_keeps obj key) fun reply => storeReply_asks reply (base_le_ra x)

theorem opArith_asks (op : ArithOp) : Asks x.base (opArith x op) := by
  refine Asks.bind (operandValue_keeps _ _) fun lhs => ?_
  refine Asks.bind (operandValue_keeps _ _) fun rhs => ?_
  exact Asks.bind (arith_keeps op lhs rhs) fun reply => storeReply_asks reply (base_le_ra x)

theorem opUnary_asks (op : ArithOp) : Asks x.base (opUnary x op) := by
  refine Asks.bind (Exec.getSlot_keeps _) fun operand => ?_
  exact Asks.bind (arith_keeps op operand operand) fun reply => storeReply_asks reply (base_le_ra x)

theorem opLen_asks : Asks x.base (opLen x) := by
  refine Asks.bind (Exec.getSlot_keeps _) fun v => ?_
  exact Asks.bind (length_keeps v) fun reply => storeReply_asks reply (base_le_ra x)

theorem opConcat_asks : Asks x.base (opConcat x) := by
  intro vm
  refine Post.bind (Post.look (Post.bind (Post.check ?_)))
  apply (vm.stack.slice_yields _ _).mono
  intro operands _
  exact storeConcat_asks operands.reverse (base_le_ra x) vm

theorem opCompare_asks {comparison : Value → Value → Exec Verdict}
    (h : ∀ lhs rhs, (comparison lhs rhs).Keeps (Work x.base)) :
    Asks x.base (opCompare x comparison) := by
  refine Asks.bind (operandValue_keeps _ _) fun lhs => ?_
  refine Asks.bind (operandValue_keeps _ _) fun rhs => ?_
  exact Asks.bind (h lhs rhs) fun verdict => testVerdict_asks x verdict

theorem opTForCall_asks : Asks x.base (opTForCall x) := by
  have hcallee : x.base ≤ x.ra + 3 := by
    have := base_le_ra x
    omega
  refine Asks.bind (Exec.onStack_keeps fun s => s.copyDown_yields _ _ hcallee).work fun _ => ?_
  refine Asks.bind (Exec.setTop_keeps (by omega)).work fun _ => ?_
  exact .pure ⟨hcallee, trivial⟩

end Hooked

/-! ## Assigning an upvalue -/

section Assign
variable {level : Nat} {vm after : Vm} {r : CellRef} {v : Value}

/-- Assigning an upvalue changes an open register or the value of a closed cell. -/
theorem spares_of_writeUpvalue (h : writeUpvalue r v vm = .returned () after) :
    Spares level vm after := by
  intro hu
  unfold writeUpvalue at h
  cases hc : vm.upvalues.cell r with
  | opened slot =>
    simp only [hc] at h
    cases h
    refine ⟨hu, by simp, ?_, fun _ _ _ => Iff.rfl⟩
    intro s _ hn
    have hopen : (slot, r) ∈ vm.upvalues.opened := hu.mem_of_cell (Upvalues.cell_eq_opened.mp hc)
    have hne : slot ≠ s := by
      intro he
      exact hn r (he ▸ hopen)
    simp only [peek, RegisterStack.setIfInBounds]
    rw [Array.getElem?_setIfInBounds_ne hne]
  | closed w =>
    simp only [hc] at h
    cases h
    refine ⟨hu.setClosed fun slot he => ?_, Nat.le_refl _, fun _ _ _ => rfl, fun _ _ _ => Iff.rfl⟩
    rw [hc] at he
    cases he

theorem inPlace_of_writeUpvalue (h : writeUpvalue r v vm = .returned () after) :
    InPlace level vm after := by
  unfold writeUpvalue at h
  split at h
  all_goals
    cases h
    exact ⟨.refl _, rfl, rfl, rfl, fun h _ => h⟩

/-- Work in a frame, and after it the assignment of an upvalue. -/
def Assigned (base : Nat) (vm after : Vm) : Prop :=
  ∃ mid r v, ReflTransGen (Work base) vm mid ∧ writeUpvalue r v mid = .returned () after

theorem opSetUpval_post (x : Activation) (vm : Vm) :
    (opSetUpval x).Post vm (fun _ after => Assigned x.base vm after)
    (ReflTransGen (Work x.base) vm) := by
  refine Post.bind (((Exec.getSlot_keeps _) vm).mono (fun v mid _ hv => ?_) fun _ h => h)
  refine Post.bind (((upvalueAt_keeps _ _) mid).mono (fun r mid' _ hr => ?_) fun _ h => hv.trans h)
  apply Post.intro
  · intro _ after hw
    exact ⟨mid', r, v, hv.trans hr, hw⟩
  · intro e after hw
    unfold writeUpvalue at hw
    split at hw <;> cases hw
  · intro why hw
    unfold writeUpvalue at hw
    split at hw <;> cases hw

theorem Assigned.inPlace {base : Nat} (h : Assigned base vm after) : InPlace base vm after := by
  obtain ⟨mid, r, v, hw, ha⟩ := h
  exact (inPlace_of_works hw).trans (inPlace_of_writeUpvalue ha)

end Assign

/-! ## The start of a step, and the rest of an instruction after a call -/

section Steps
variable {vm : Vm} {base : Nat}

theorem recordStep_post (base : Nat) (p : Prototype) (pc : Nat) (vm : Vm) :
    (recordStep p pc).Post vm (fun _ after => after.stack = vm.stack ∧
      ReflTransGen (Work base) vm after) fun _ => False := by
  unfold Post recordStep
  cases vm.trace with
  | none => exact ⟨rfl, .refl⟩
  | some log => exact ⟨rfl, .single (.shift (.log _ vm.consultations))⟩

/-- A step begins in the current frame, which has to run a closure. It raises no error and leaves
the registers alone. -/
theorem beginStep_post (hc : vm.frames.current.closure.isSome)
    (hb : vm.frames.current.base = base) :
    beginStep.Post vm (fun x after => x.base = base ∧ after.stack = vm.stack ∧
      ReflTransGen (Work base) vm after) fun _ => False := by
  obtain ⟨r, hr⟩ := Option.isSome_iff_exists.mp hc
  refine Post.bind (Post.look ?_)
  simp only [hr]
  refine Post.bind (Post.look (Post.bind ?_))
  unfold fetch
  split
  · refine Post.pure (Post.bind (Post.modify (Post.bind ?_)))
    have hmove : Work base vm
        { vm with frames := vm.frames.modifyCurrent fun f =>
          { f with pc := vm.frames.current.pc + 1 } } :=
      .move _ fun _ => ⟨rfl, rfl, rfl, rfl, rfl, rfl⟩
    refine (recordStep_post base _ _ _).mono (fun _ _ _ h => ?_) fun _ h => h
    exact Post.pure ⟨hb, h.1, .head hmove h.2⟩
  · exact Post.abort rfl

theorem runningPrototype_post {E : Vm → Prop} (hc : vm.frames.current.closure.isSome) :
    runningPrototype.Post vm (fun _ after => after = vm) E := by
  obtain ⟨r, hr⟩ := Option.isSome_iff_exists.mp hc
  refine Post.bind (Post.look ?_)
  simp only [hr]
  exact Post.look rfl

/-- The frame that asked for a call is current again and continues, wherever its result goes. -/
theorem resume_post {k : Resume} (results : List Value) (hc : vm.frames.current.closure.isSome)
    (hb : vm.frames.current.base = base) (hk : k.AtLeast base) :
    (resume k results).Post vm (Followed base vm) (ReflTransGen (Work base) vm) := by
  cases k with
  | store slot =>
    exact Asks.bind (Exec.setSlot_keeps _ hk).work (fun _ => .pure (Next.atLeast_proceed base)) vm
  | drop => exact Asks.pure (Next.atLeast_proceed base) vm
  | concat rest slot => exact storeConcat_asks _ hk vm
  | test negated expected =>
    -- The mark is taken off first, which moves neither the closure nor the registers.
    have hend : ∀ mid, ReflTransGen (Work base) vm mid → (do
        let frame ← Exec.currentFrame
        let proto ← runningPrototype
        let answer := (results.headD .nil).isTruthy != negated
        conditionalJump proto frame.base (answer == expected)
        return .proceed : Exec Next).Post mid (Followed base vm) (ReflTransGen (Work base) vm) := by
      intro mid hm
      have hplace := inPlace_of_works hm
      refine Post.bind (Post.look ?_)
      refine Post.bind ((runningPrototype_post (hplace.current.closure ▸ hc)).mono ?_ fun _ h => h)
      rintro proto _ - rfl
      simp only [hplace.current.base, hb]
      exact ((conditionalJump_finishes _ _).asks _).mono (fun _ _ _ hd => hd.head hm)
        fun _ hw => hm.trans hw
    cases negated with
    | false => exact hend vm .refl
    | true =>
      refine Post.bind
        ((markSwapped_keeps false vm).mono (fun _ mid _ hm => hend mid hm) fun _ h => h)
  | iterate =>
    refine Post.bind ((resetTop_keeps vm).mono (fun _ mid _ hm => ?_) fun _ h => h)
    have hplace := inPlace_of_works hm
    refine Post.bind (Post.look ?_)
    refine Post.bind ((runningPrototype_post (hplace.current.closure ▸ hc)).mono ?_ fun _ h => h)
    rintro proto _ - rfl
    simp only [hplace.current.base, hb]
    refine Post.mono (Asks.bind (fetchExpected_keeps _ _ _) (fun next => ?_) _)
      (fun _ _ _ hd => hd.head hm) fun _ hw => hm.trans hw
    refine Asks.bind (setPc_keeps _) fun _ => ?_
    exact Asks.bind (genericLoop_keeps _ (Nat.le_add_right _ _)) fun _ => .pure trivial

end Steps

end LuaMachine.Vm
