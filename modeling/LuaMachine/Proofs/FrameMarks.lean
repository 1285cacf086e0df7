import LuaMachine.Proofs.WholeInstructions

/-!
# The marks of frames

Entering a frame gives it its marks, and a tail call adds one. Apart from that only `<=` changes a
mark, and that one on the current frame. Every other operation and instruction leaves the marks of
all frames alone, and none of them asks for a call that a swapped comparison waits for.
-/
namespace LuaMachine.Vm

open Relation (ReflTransGen)
open Exec (Keeps Post)

/-- The marks of the active frames, innermost first. -/
def statuses (vm : Vm) : List CallStatus := vm.frames.active.map Frame.status

/-- A swapped comparison waits for the call. -/
def Resume.swaps : Resume → Bool
  | .test negated _ => negated
  | .store _ | .drop | .concat _ _ | .iterate => false

/-- What comes next is a call that a swapped comparison waits for. -/
def Next.swaps : Next → Bool
  | .proceed => false
  | .invoke _ _ k => k.swaps
  | .callAt _ _ k => k.swaps

/-- All frames have the marks they had. -/
def SameMarks (vm after : Vm) : Prop := after.statuses = vm.statuses

section SameMarks
variable {vm after : Vm} {α : Type} {x : Exec α}

theorem sameMarks_of_frames (h : after.frames = vm.frames) : SameMarks vm after := by
  rw [SameMarks, statuses, h]
  rfl

theorem sameMarks_of_path (h : ReflTransGen SameMarks vm after) : SameMarks vm after :=
  path_induction (P := SameMarks) (fun _ => rfl) (fun hab hbc => Eq.trans hbc hab) id h

/-- Registers, the top and the logs have nothing to do with marks. -/
theorem keeps_sameMarks (h : x.Keeps (Shift 0)) : x.Keeps SameMarks :=
  h.mono fun _ _ hs => sameMarks_of_frames (onlyRegisters_of_shifts (.single hs)).frames

theorem statuses_modifyCurrent (vm : Vm) (g : Frame → Frame) :
    { vm with frames := vm.frames.modifyCurrent g }.statuses =
      (g vm.frames.current).status :: vm.frames.callers.map Frame.status := by
  rw [statuses, CallStack.active_modifyCurrent]
  rfl

theorem setSlot_sameMarks (slot : Nat) (v : Value) : (Exec.setSlot slot v).Keeps SameMarks :=
  keeps_sameMarks (Exec.setSlot_keeps v (Nat.zero_le _))

theorem setTop_sameMarks (top : Nat) : (Exec.setTop top).Keeps SameMarks :=
  keeps_sameMarks (Exec.setTop_keeps (Nat.zero_le _))

theorem fillNil_sameMarks (start count : Nat) :
    (Exec.onStack (·.fillNil start count)).Keeps SameMarks :=
  keeps_sameMarks (Exec.onStack_keeps fun s => s.fillNil_yields count (Nat.zero_le _))

theorem copyDown_sameMarks (source target count : Nat) :
    (Exec.onStack (·.copyDown source target count)).Keeps SameMarks :=
  keeps_sameMarks (Exec.onStack_keeps fun s => s.copyDown_yields source count (Nat.zero_le _))

end SameMarks

/-! ## Operations -/

section Operations

theorem consult_sameMarks (event : String) (args : List Value) :
    (consult event args).Keeps SameMarks :=
  keeps_sameMarks (consult_keeps event args)

theorem binaryHook_sameMarks (name event : String) (lhs rhs : Value) :
    (binaryHook name event lhs rhs).Keeps SameMarks :=
  keeps_sameMarks (binaryHook_keeps name event lhs rhs)

theorem index_sameMarks (obj key : Value) : (index obj key).Keeps SameMarks := by
  refine (Keeps.look _).bind fun own => ?_
  refine Keeps.ite (fun _ => Keeps.pure _) fun _ => ?_
  refine (consult_sameMarks _ _).bind fun _ => ?_
  refine (Keeps.look _).bind fun found => ?_
  refine (settle_keeps found).bind fun reply => ?_
  split
  · exact Keeps.pure _
  · exact Keeps.ite (fun _ => Keeps.pure _) fun _ => Keeps.raise _

theorem rawAssign_sameMarks (r : TableRef) (key value : Value) :
    (rawAssign r key value).Keeps SameMarks := by
  unfold rawAssign
  split
  · exact Keeps.modify fun _ => sameMarks_of_frames rfl
  · exact Keeps.raise _

theorem newIndex_sameMarks (obj key value : Value) : (newIndex obj key value).Keeps SameMarks := by
  have hassign : ∀ r, (rawAssign r key value >>= fun _ => pure (.done ()) : Exec (Reply Unit)).Keeps
      SameMarks :=
    fun r => (rawAssign_sameMarks r key value).bind fun _ => Keeps.pure _
  refine (Keeps.look _).bind fun own => ?_
  split
  · exact hassign _
  · refine (consult_sameMarks _ _).bind fun _ => ?_
    refine (Keeps.look _).bind fun found => ?_
    refine (settle_keeps found).bind fun assignment => ?_
    split
    · exact hassign _
    · exact Keeps.pure _
    · split
      · exact hassign _
      · exact Keeps.raise _

theorem arith_sameMarks (op : ArithOp) (lhs rhs : Value) : (arith op lhs rhs).Keeps SameMarks := by
  refine (settle_keeps _).bind fun result => ?_
  split
  · exact Keeps.pure _
  · refine (binaryHook_sameMarks _ _ _ _).bind fun handler => ?_
    split
    · exact Keeps.pure _
    · exact Keeps.raise _

theorem length_sameMarks (v : Value) : (length v).Keeps SameMarks := by
  unfold length
  split
  · exact Keeps.pure _
  · refine (consult_sameMarks _ _).bind fun _ => ?_
    refine (Keeps.look _).bind fun handler => ?_
    refine Keeps.ite (fun _ => Keeps.pure _) fun _ => ?_
    refine (Keeps.look _).bind fun length => ?_
    split
    · exact Keeps.pure _
    · exact Keeps.raise _

theorem concatRound_sameMarks (reversed : List Value) : (concatRound reversed).Keeps SameMarks := by
  unfold concatRound
  split
  · exact Keeps.pure _
  · refine (binaryHook_sameMarks _ _ _ _).bind fun handler => ?_
    split
    · exact Keeps.pure _
    · exact Keeps.raise _

end Operations

/-! ## Comparisons that are not swapped -/

/-- The comparison asks for the call of a swapped one. -/
def Verdict.swaps : Verdict → Bool
  | .decided _ => false
  | .ask negated _ _ => negated

/-- Marks are left alone, and every result is in `P`. -/
def Spotless {α : Type} (P : α → Prop) (x : Exec α) : Prop :=
  ∀ vm, x.Post vm (fun a after => P a ∧ SameMarks vm after) (SameMarks vm)

section Spotless
variable {α β : Type} {x : Exec α} {f : α → Exec β} {P : α → Prop} {Q : β → Prop}

theorem Spotless.pure {a : α} (h : P a) : Spotless P (Pure.pure a) := fun _ => ⟨h, Eq.refl _⟩

theorem Spotless.bind (hx : Spotless P x) (hf : ∀ a, P a → Spotless Q (f a)) :
    Spotless Q (x >>= f) := by
  intro vm
  refine Post.bind ((hx vm).mono (fun a mid _ hm => ?_) fun _ h => h)
  exact (hf a hm.1 mid).mono (fun _ _ _ h => ⟨h.1, Eq.trans h.2 hm.2⟩) fun _ h => Eq.trans h hm.2

theorem spotless_of_keeps (h : x.Keeps SameMarks) : Spotless (fun _ => True) x :=
  fun vm => (h vm).mono (fun _ _ _ hp => ⟨trivial, sameMarks_of_path hp⟩) fun _ hp =>
    sameMarks_of_path hp

/-- The result of the first part does not matter. -/
theorem Spotless.after (hx : x.Keeps SameMarks) (hf : ∀ a, Spotless Q (f a)) :
    Spotless Q (x >>= f) :=
  (spotless_of_keeps hx).bind fun a _ => hf a

theorem Spotless.ite {c : Prop} [Decidable c] {y : Exec α} (hx : Spotless P x) (hy : Spotless P y) :
    Spotless P (if c then x else y) := by
  split <;> assumption

theorem equal_spotless (lhs rhs : Value) : Spotless (fun v => v.swaps = false) (equal lhs rhs) := by
  refine .ite (.pure rfl) (.after (binaryHook_sameMarks _ _ _ _) fun handler => ?_)
  split <;> exact .pure rfl

theorem lessThan_spotless (lhs rhs : Value) :
    Spotless (fun v => v.swaps = false) (lessThan lhs rhs) := by
  unfold lessThan
  split
  · exact .pure rfl
  · refine .after (binaryHook_sameMarks _ _ _ _) fun handler => ?_
    split
    · exact .pure rfl
    · exact fun _ => Post.raise (Eq.refl _)

end Spotless

/-! ## Ends of instructions -/

/-- Marks are left alone, and no swapped comparison waits for what comes next. -/
abbrev Unswapped (x : Exec Next) : Prop := Spotless (fun next => next.swaps = false) x

section Ends

theorem Spotless.proceed {y : Exec Unit} (hy : y.Keeps SameMarks) :
    Unswapped (y >>= fun _ => Pure.pure .proceed) :=
  .after hy fun _ => .pure rfl

/-- Moving the position of the current frame. -/
theorem setPc_sameMarks (g : Frame → Nat) :
    (Exec.modifyFrame fun f => { f with pc := g f }).Keeps SameMarks :=
  Keeps.modify fun vm => statuses_modifyCurrent vm _

theorem jump_sameMarks (offset : Int) : (jump offset).Keeps SameMarks := setPc_sameMarks _

theorem closeForJump_sameMarks (base a : Nat) : (closeForJump base a).Keeps SameMarks :=
  Keeps.ite (fun _ => Keeps.pure _) fun _ => Keeps.modify fun _ => sameMarks_of_frames rfl

theorem conditionalJump_sameMarks (p : Prototype) (base : Nat) (condition : Bool) :
    (conditionalJump p base condition).Keeps SameMarks := by
  refine Keeps.ite (fun _ => ?_) fun _ => jump_sameMarks 1
  refine (Keeps.look _).bind fun frame => ?_
  refine (fetchExpected_keeps _ _ _).bind fun next => ?_
  exact (closeForJump_sameMarks _ _).bind fun _ => jump_sameMarks _

theorem storeReply_unswapped (slot : Nat) (reply : Reply Value) :
    Unswapped (storeReply slot reply) := by
  cases reply with
  | done v => exact .proceed (setSlot_sameMarks _ v)
  | call handler args => exact .pure rfl

/-- Whether a swapped comparison waits is decided by the comparison. -/
theorem testVerdict_spotless (x : Activation) (verdict : Verdict) :
    Spotless (fun next => next.swaps = verdict.swaps) (testVerdict x verdict) := by
  cases verdict with
  | decided answer => exact .after (conditionalJump_sameMarks _ _ _) fun _ => .pure rfl
  | ask negated handler args => exact .pure rfl

theorem storeConcat_unswapped (slot : Nat) (reversed : List Value) :
    Unswapped (storeConcat slot reversed) := by
  refine .after (concatRound_sameMarks _) fun reply => ?_
  cases reply with
  | done v => exact .proceed (setSlot_sameMarks _ v)
  | call handler args rest => exact .pure rfl

theorem genericLoop_sameMarks (ra : Nat) (offset : Int) :
    (genericLoop ra offset).Keeps SameMarks := by
  refine (Exec.getSlot_keeps _).bind fun control => ?_
  refine Keeps.ite (fun _ => ?_) fun _ => Keeps.pure _
  exact (setSlot_sameMarks _ _).bind fun _ => jump_sameMarks _

theorem resetTop_sameMarks : resetTop.Keeps SameMarks :=
  (Keeps.look _).bind fun _ => setTop_sameMarks _

end Ends

/-! ## The instructions -/

section Plain
variable (x : Activation)

theorem opLoadKX_sameMarks : (opLoadKX x).Keeps SameMarks := by
  refine (fetchExpected_keeps _ _ _).bind fun extra => ?_
  refine (setPc_sameMarks fun f => f.pc + 1).bind fun _ => ?_
  exact (constantAt_keeps _ _).bind fun v => setSlot_sameMarks _ v

theorem opLoadBool_sameMarks : (opLoadBool x).Keeps SameMarks := by
  refine (setSlot_sameMarks _ _).bind fun _ => ?_
  exact Keeps.ite (fun _ => jump_sameMarks 1) fun _ => Keeps.pure _

theorem opSetUpval_sameMarks : (opSetUpval x).Keeps SameMarks := by
  refine (Exec.getSlot_keeps _).bind fun v => (upvalueAt_keeps _ _).bind fun r vm => ?_
  unfold Post writeUpvalue
  cases vm.upvalues.cell r with
  | opened slot => exact .single (sameMarks_of_frames rfl)
  | closed w => exact .single (sameMarks_of_frames rfl)

theorem opNewTable_sameMarks : (opNewTable x).Keeps SameMarks := by
  have hnew : Exec.newTable.Keeps SameMarks := fun _ => .single (sameMarks_of_frames rfl)
  exact hnew.bind fun _ => setSlot_sameMarks _ _

theorem opForLoop_sameMarks : (opForLoop x).Keeps SameMarks := by
  refine (loopControl_keeps _).bind fun control => ?_
  split
  · exact Keeps.pure _
  · refine (jump_sameMarks _).bind fun _ => ?_
    exact (setSlot_sameMarks _ _).bind fun _ => setSlot_sameMarks _ _

theorem opForPrep_sameMarks : (opForPrep x).Keeps SameMarks := by
  refine (loopControl_keeps _).bind fun found => ?_
  refine (settle_keeps _).bind fun control => ?_
  refine (setSlot_sameMarks _ _).bind fun _ => (setSlot_sameMarks _ _).bind fun _ => ?_
  exact (setSlot_sameMarks _ _).bind fun _ => jump_sameMarks _

theorem storeList_sameMarks (r : TableRef) (key slot count : Nat) :
    (storeList r key slot count).Keeps SameMarks := by
  induction count generalizing key slot with
  | zero => exact Keeps.pure _
  | succ count ih =>
    refine (Exec.getSlot_keeps slot).bind fun v => ?_
    exact (Keeps.modify fun _ => sameMarks_of_frames rfl).bind fun _ => ih (key + 1) (slot + 1)

theorem storeBlock_sameMarks (count block : Nat) : (storeBlock x count block).Keeps SameMarks := by
  refine (Exec.getSlot_keeps _).bind fun v => ?_
  split
  · refine Keeps.ite (fun _ => (Keeps.malformed _).bind fun _ => ?_) fun _ => ?_
    all_goals exact (storeList_sameMarks _ _ _ _).bind fun _ => resetTop_sameMarks
  · exact Keeps.malformed _

theorem opSetList_sameMarks : (opSetList x).Keeps SameMarks := by
  -- As in `opSetList_keeps`, what follows the two optional operands is the same for each of their
  -- values.
  have hblock : ∀ count, (do
      let block ←
        if x.instr.c = 0 then do
          let extra ← fetchExpected x.proto (x.pc + 1) .extraArg
          Exec.modifyFrame fun f => { f with pc := f.pc + 1 }
          pure extra.ax
        else pure x.instr.c
      storeBlock x count block : Exec Unit).Keeps SameMarks := by
    intro count
    refine Keeps.ite (fun _ => ?_) fun _ => (Keeps.pure _).bind (storeBlock_sameMarks x count)
    refine (fetchExpected_keeps _ _ _).bind fun extra => ?_
    refine (setPc_sameMarks fun f => f.pc + 1).bind fun _ => ?_
    exact (Keeps.pure _).bind (storeBlock_sameMarks x count)
  refine Keeps.ite (fun _ => ?_) fun _ => (Keeps.pure _).bind hblock
  refine (Keeps.look _).bind fun top => ?_
  exact Keeps.ite (fun _ => (Keeps.pure _).bind hblock) fun _ => (Keeps.malformed _).bind hblock

theorem opVararg_sameMarks : (opVararg x).Keeps SameMarks := by
  refine (Keeps.look _).bind fun frame => ?_
  refine (Keeps.check (Checked.sub_yields _ _)).bind fun below => ?_
  have hcopy : ∀ wanted, (do
      let available := below - (x.proto.paramCount + 1)
      let copied := min wanted available
      Exec.onStack (·.copyDown (x.base - available) x.ra copied)
      Exec.onStack (·.fillNil (x.ra + copied) (wanted - copied)) : Exec Unit).Keeps SameMarks :=
    fun wanted => (copyDown_sameMarks _ _ _).bind fun _ => fillNil_sameMarks _ _
  refine Keeps.ite (fun _ => ?_) fun _ => (Keeps.pure _).bind hcopy
  refine (keeps_sameMarks (Exec.ensure_keeps _)).bind fun _ => ?_
  exact (setTop_sameMarks _).bind fun _ => (Keeps.pure _).bind hcopy

theorem captureAll_sameMarks (sources : List UpvalueSource) :
    (captureAll x sources).Keeps SameMarks := by
  induction sources with
  | nil => exact Keeps.pure _
  | cons source rest ih =>
    have hrest : ∀ r, (captureAll x rest >>= fun refs => pure (r :: refs)).Keeps SameMarks :=
      fun r => ih.bind fun _ => Keeps.pure _
    have hcapture : (Exec.captureSlot (x.base + source.index)).Keeps SameMarks :=
      fun _ => .single (sameMarks_of_frames rfl)
    exact Keeps.ite (fun _ => hcapture.bind hrest) fun _ => (upvalueAt_keeps _ _).bind hrest

theorem opClosure_sameMarks : (opClosure x).Keeps SameMarks := by
  unfold opClosure
  split
  · exact Keeps.malformed _
  · refine (captureAll_sameMarks x _).bind fun refs => ?_
    have hnew : ∀ c, (Exec.newClosure c).Keeps SameMarks :=
      fun _ _ => .single (sameMarks_of_frames rfl)
    exact (hnew _).bind fun _ => setSlot_sameMarks _ _

theorem opTestSet_sameMarks : (opTestSet x).Keeps SameMarks := by
  refine (Exec.getSlot_keeps _).bind fun v => ?_
  refine Keeps.ite (fun _ => ?_) fun _ => conditionalJump_sameMarks _ _ _
  exact (setSlot_sameMarks _ v).bind fun _ => conditionalJump_sameMarks _ _ _

end Plain

section Hooked
variable (x : Activation)

theorem opGetTabUp_unswapped : Unswapped (opGetTabUp x) := by
  refine .after (readUpvalue_keeps _ _) fun obj => .after (operandValue_keeps _ _) fun key => ?_
  exact .after (index_sameMarks obj key) fun reply => storeReply_unswapped _ reply

theorem opGetTable_unswapped : Unswapped (opGetTable x) := by
  refine .after (Exec.getSlot_keeps _) fun obj => .after (operandValue_keeps _ _) fun key => ?_
  exact .after (index_sameMarks obj key) fun reply => storeReply_unswapped _ reply

theorem assignOperands_unswapped (obj : Value) : Unswapped (assignOperands x obj) := by
  refine .after (operandValue_keeps _ _) fun key => .after (operandValue_keeps _ _) fun value => ?_
  refine .after (newIndex_sameMarks obj key value) fun reply => ?_
  cases reply with
  | done _ => exact .pure rfl
  | call handler args => exact .pure rfl

theorem opSelf_unswapped : Unswapped (opSelf x) := by
  refine .after (Exec.getSlot_keeps _) fun obj => .after (setSlot_sameMarks _ obj) fun _ => ?_
  refine .after (operandValue_keeps _ _) fun key => ?_
  exact .after (index_sameMarks obj key) fun reply => storeReply_unswapped _ reply

theorem opArith_unswapped (op : ArithOp) : Unswapped (opArith x op) := by
  refine .after (operandValue_keeps _ _) fun lhs => .after (operandValue_keeps _ _) fun rhs => ?_
  exact .after (arith_sameMarks op lhs rhs) fun reply => storeReply_unswapped _ reply

theorem opUnary_unswapped (op : ArithOp) : Unswapped (opUnary x op) := by
  refine .after (Exec.getSlot_keeps _) fun operand => ?_
  exact .after (arith_sameMarks op operand operand) fun reply => storeReply_unswapped _ reply

theorem opLen_unswapped : Unswapped (opLen x) := by
  refine .after (Exec.getSlot_keeps _) fun v => ?_
  exact .after (length_sameMarks v) fun reply => storeReply_unswapped _ reply

theorem opConcat_unswapped : Unswapped (opConcat x) := by
  intro vm
  refine Post.bind (Post.look (Post.bind (Post.check ?_)))
  apply (vm.stack.slice_yields _ _).mono
  intro operands _
  exact storeConcat_unswapped _ operands.reverse vm

theorem opCompare_unswapped {comparison : Value → Value → Exec Verdict}
    (h : ∀ lhs rhs, Spotless (fun v => v.swaps = false) (comparison lhs rhs)) :
    Unswapped (opCompare x comparison) := by
  refine .after (operandValue_keeps _ _) fun lhs => .after (operandValue_keeps _ _) fun rhs => ?_
  refine (h lhs rhs).bind fun verdict hv => ?_
  rw [← hv]
  exact testVerdict_spotless x verdict

theorem opTForCall_unswapped : Unswapped (opTForCall x) :=
  .after (copyDown_sameMarks _ _ _) fun _ => .after (setTop_sameMarks _) fun _ => .pure rfl

end Hooked

/-! ## The swapped comparison -/

/-- The handler of two operands for an event. Raw hooks know none. -/
def hook? (vm : Vm) (event : String) (lhs rhs : Value) : Option Value :=
  match vm.hooks with
  | .raw => none
  | .standard => vm.heap.binaryHandler? vm.types event lhs rhs

/-- The machine after a consultation of the hooks. -/
def consulted (vm : Vm) (event : String) (args : List Value) : Vm :=
  { vm with consultations := vm.consultations.map (·.push (consultation event args vm)) }

/-- Neither the values themselves nor a handler of their own decide `lhs <= rhs`. -/
def FallsBack (vm : Vm) (lhs rhs : Value) : Prop :=
  rawLess? true lhs rhs = none ∧ vm.hook? "__le" lhs rhs = none

/-- The machine as it makes the swapped comparison. -/
def fallenBack (vm : Vm) (lhs rhs : Value) : Vm :=
  (vm.consulted "less_equal" [lhs, rhs]).marked true

/-- The machine as it calls the handler of the swapped comparison. -/
def asking (vm : Vm) (lhs rhs : Value) : Vm :=
  (vm.fallenBack lhs rhs).consulted "less_than" [rhs, lhs]

section Swapped
variable {vm after : Vm} {lhs rhs handler : Value}

theorem binaryHook_eq (name event : String) (lhs rhs : Value) (vm : Vm) :
    binaryHook name event lhs rhs vm = .returned (vm.hook? event lhs rhs)
      (vm.consulted name [lhs, rhs]) := by
  rw [binaryHook, consult_eq]
  rfl

theorem lessEqual_of_raw {answer : Bool} (h : rawLess? true lhs rhs = some answer) :
    lessEqual lhs rhs vm = .returned (.decided answer) vm := by
  simp only [lessEqual, h]
  rfl

theorem lessEqual_of_hook (hraw : rawLess? true lhs rhs = none)
    (hle : vm.hook? "__le" lhs rhs = some handler) :
    lessEqual lhs rhs vm = .returned (.ask false handler [lhs, rhs])
      (vm.consulted "less_equal" [lhs, rhs]) := by
  simp only [lessEqual, hraw]
  rw [Exec.bind_of_returned (binaryHook_eq _ _ _ _ _), hle]
  rfl

/-- The swapped comparison asks the handler for `rhs < lhs`. -/
theorem lessEqual_of_swapped (h : FallsBack vm lhs rhs)
    (hlt : vm.hook? "__lt" rhs lhs = some handler) :
    lessEqual lhs rhs vm = .returned (.ask true handler [rhs, lhs]) (vm.asking lhs rhs) := by
  have hmark : markSwapped true (vm.consulted "less_equal" [lhs, rhs]) =
      .returned () (vm.fallenBack lhs rhs) := rfl
  have hswap : (vm.fallenBack lhs rhs).hook? "__lt" rhs lhs = some handler := hlt
  simp only [lessEqual, h.1]
  rw [Exec.bind_of_returned (binaryHook_eq _ _ _ _ _), h.2]
  simp only
  rw [Exec.bind_of_returned hmark, Exec.bind_of_returned (binaryHook_eq _ _ _ _ _), hswap]
  rfl

/-- Without that handler the values cannot be compared. -/
theorem lessEqual_of_unordered (h : FallsBack vm lhs rhs) (hlt : vm.hook? "__lt" rhs lhs = none) :
    lessEqual lhs rhs vm =
      .raised { cause := .cannotCompare lhs.type rhs.type } ((vm.asking lhs rhs).marked false) := by
  have hmark : markSwapped true (vm.consulted "less_equal" [lhs, rhs]) =
      .returned () (vm.fallenBack lhs rhs) := rfl
  have hswap : (vm.fallenBack lhs rhs).hook? "__lt" rhs lhs = none := hlt
  simp only [lessEqual, h.1]
  rw [Exec.bind_of_returned (binaryHook_eq _ _ _ _ _), h.2]
  simp only
  rw [Exec.bind_of_returned hmark, Exec.bind_of_returned (binaryHook_eq _ _ _ _ _), hswap]
  rfl

theorem sameMarks_consulted (vm : Vm) (event : String) (args : List Value) :
    SameMarks vm (vm.consulted event args) :=
  sameMarks_of_frames rfl

theorem statuses_marked (vm : Vm) (waiting : Bool) :
    (vm.marked waiting).statuses = vm.statuses.modifyHead fun s => { s with leq := waiting } :=
  statuses_modifyCurrent vm _

theorem statuses_released (vm : Vm) (negated : Bool) :
    (vm.released negated).statuses =
      { vm.frames.current.status with
        leq := if negated then false else vm.frames.current.status.leq } ::
        vm.frames.callers.map Frame.status := by
  cases negated with
  | true => exact statuses_modifyCurrent vm _
  | false => rfl

theorem sameMarks_unmarked (hleq : vm.frames.current.status.leq = false) :
    SameMarks (vm.marked false) vm := by
  rw [SameMarks, statuses_marked, ← hleq]
  rfl

/-- `<=` marks the current frame exactly if it asks for the call of a swapped comparison. -/
theorem lessEqual_marks (lhs rhs : Value) (hleq : vm.frames.current.status.leq = false) :
    (lessEqual lhs rhs).Post vm (fun v after => SameMarks (vm.marked v.swaps) after)
    (SameMarks vm) := by
  have hunmarked := sameMarks_unmarked hleq
  unfold Post
  cases hraw : rawLess? true lhs rhs with
  | some answer =>
    rw [lessEqual_of_raw hraw]
    exact hunmarked
  | none =>
    cases hle : vm.hook? "__le" lhs rhs with
    | some handler =>
      rw [lessEqual_of_hook hraw hle]
      exact hunmarked
    | none =>
      cases hlt : vm.hook? "__lt" rhs lhs with
      | some handler =>
        rw [lessEqual_of_swapped ⟨hraw, hle⟩ hlt]
        exact sameMarks_of_frames rfl
      | none =>
        rw [lessEqual_of_unordered ⟨hraw, hle⟩ hlt]
        show Vm.statuses _ = _
        rw [statuses_marked, asking, sameMarks_consulted, fallenBack, statuses_marked,
          sameMarks_consulted, List.modifyHead_modifyHead, ← hleq]
        rfl

end Swapped

/-! ## Steps -/

/-- What an instruction that ends with an action does to the marks of the frames. The frame that
executes it does not wait for a swapped comparison. -/
inductive Remarks (op : Opcode) : List CallStatus → Action → List CallStatus → Prop
  | kept {marks : List CallStatus} {next : Next} (htail : op ≠ .tailCall) (hret : op ≠ .ret)
      (h : next.swaps = false) :
      Remarks op marks (.next next) marks
  | compared {s : CallStatus} {below : List CallStatus} (next : Next) (hop : op = .le) :
      Remarks op (s :: below) (.next next) ({ s with leq := next.swaps } :: below)
  | called (marks : List CallStatus) (hop : op = .call) :
      Remarks op marks (.next .proceed) ({ lua := true } :: marks)
  | tailCalled (s : CallStatus) (below : List CallStatus) (hop : op = .tailCall) :
      Remarks op (s :: below) (.next .proceed) ({ s with tail := true } :: below)
  | returned (s : CallStatus) (below : List CallStatus) (hop : op = .ret) :
      Remarks op (s :: below) (if s.fresh then .leave else .next .proceed) below

/-- The marks that are left where an instruction raises an error. Only a return has left its frame
by then. -/
def marksAtError (op : Opcode) (marks : List CallStatus) : List CallStatus :=
  if op = .ret then marks.tail else marks

/-- What an instruction does to the marks, whether it ends with an action or raises an error. -/
def Remarked (op : Opcode) (x : Exec Action) (vm : Vm) : Prop :=
  x.Post vm (fun action after => Remarks op vm.statuses action after.statuses)
    fun after => after.statuses = marksAtError op vm.statuses

section Steps
variable {x : Activation} {f g : Frame} {rest : List Frame} {vm after : Vm} {op : Opcode}

theorem statuses_of_active {frames : List Frame} (h : vm.frames.active = frames) :
    vm.statuses = frames.map Frame.status := by rw [statuses, h]

theorem marksAtError_of_ne {marks : List CallStatus} (h : op ≠ .ret) :
    marksAtError op marks = marks :=
  if_neg h

theorem Remarked.of_hooked {y : Exec Next} (hy : Unswapped y) (htail : op ≠ .tailCall := by decide)
    (hret : op ≠ .ret := by decide) : Remarked op (hooked y) vm := by
  refine Post.bind ((hy vm).mono (fun next mid _ h => Post.pure ?_) fun mid h => ?_)
  · rw [h.2]
    exact .kept htail hret h.1
  · rw [marksAtError_of_ne hret]
    exact h

theorem Remarked.of_plain {y : Exec Unit} (hy : y.Keeps SameMarks)
    (htail : op ≠ .tailCall := by decide) (hret : op ≠ .ret := by decide) :
    Remarked op (plain y) vm := by
  have hend : plain y = hooked (y >>= fun _ => pure .proceed) := by
    simp only [plain, hooked, bind_assoc, pure_bind]
  rw [hend]
  exact .of_hooked (.proceed hy) htail hret

/-- A frame that is entered has only the mark of a closure. -/
theorem precall_marks {func : Nat} {results : ResultCount} {tailCall : Bool} {u : Unit}
    (h : precall func results tailCall vm = .returned u after) :
    after.statuses = { lua := true } :: vm.statuses := by
  obtain ⟨r, mid, hs, -, henter⟩ := precall_eq_returned h
  obtain ⟨base, laid, hlaid, rfl⟩ :=
    (enterFrame_spec r func results tailCall mid).of_returned henter
  have hframes : laid.frames = vm.frames :=
    (onlyRegisters_of_shifts hlaid.shifts).frames.trans (onlyRegisters_of_shifts hs).frames
  rw [statuses, CallStack.active_push, hframes]
  rfl

/-- A call of the host or of a handler enters a fresh frame. -/
theorem beginCall_marks {func : Nat} {results : ResultCount} {site : CallSite}
    (h : beginCall func results vm = .returned site after) :
    after.statuses = { lua := true, fresh := true } :: vm.statuses := by
  unfold beginCall at h
  split at h
  · cases h
  · dsimp only at h
    split at h
    · next mid henter =>
      cases h
      obtain ⟨_, entered, hprecall, hfresh⟩ := Exec.bind_eq_returned_iff.mp henter
      cases hfresh
      obtain ⟨hcurrent, hcallers⟩ := List.cons.inj (precall_marks hprecall)
      rw [statuses_modifyCurrent, hcurrent, hcallers]
      rfl
    · split at h <;> cases h
    · cases h

theorem opCall_marks (x : Activation) (vm : Vm) : Remarked .call (plain (opCall x)) vm := by
  refine Post.bind (Post.intro (fun _ after h => ?_) (fun e after h => ?_) fun why h => ?_)
  · obtain ⟨_, mid, hplace, henter⟩ := Exec.bind_eq_returned_iff.mp h
    have hplaced :=
      (onlyRegisters_of_shifts ((placeArguments_keeps x vm).of_returned hplace)).frames
    refine Post.pure ?_
    rw [precall_marks henter, sameMarks_of_frames hplaced]
    exact .called _ rfl
  · exact sameMarks_of_frames
      (onlyRegisters_of_shifts ((enterCall_post x _ false vm).of_raised h)).frames
  · exact (enterCall_post x _ false vm).of_aborted h

/-- A comparison of two operands has a verdict, which decides what comes next. -/
theorem opCompare_eq_returned {comparison : Value → Value → Exec Verdict} {next : Next}
    (h : opCompare x comparison vm = .returned next after) :
    ∃ lhs rhs verdict mid, operandValue x x.instr.b vm = .returned lhs vm ∧
      operandValue x x.instr.c vm = .returned rhs vm ∧
      comparison lhs rhs vm = .returned verdict mid ∧
      testVerdict x verdict mid = .returned next after := by
  obtain ⟨lhs, _, hlhs, hright⟩ := Exec.bind_eq_returned_iff.mp h
  obtain rfl := operandValue_eq_returned hlhs
  obtain ⟨rhs, _, hrhs, hboth⟩ := Exec.bind_eq_returned_iff.mp hright
  obtain rfl := operandValue_eq_returned hrhs
  obtain ⟨verdict, mid, hverdict, htest⟩ := Exec.bind_eq_returned_iff.mp hboth
  exact ⟨lhs, rhs, verdict, mid, hlhs, hrhs, hverdict, htest⟩

/-- Reading the operands of a comparison changes nothing. -/
theorem opCompare_post {comparison : Value → Value → Exec Verdict} {R : Next → Vm → Prop}
    {E : Vm → Prop} (he : E vm)
    (h : ∀ lhs rhs, (comparison lhs rhs >>= testVerdict x).Post vm R E) :
    (opCompare x comparison).Post vm R E := by
  have hread : ∀ {operand : Nat} {next : Value → Exec Next}, (∀ v, (next v).Post vm R E) →
      (operandValue x operand >>= next).Post vm R E := by
    intro operand next hnext
    have hkept : (operandValue x operand).Keeps fun _ _ => False := operandValue_keeps x operand
    have hsame : ∀ {mid : Vm}, ReflTransGen (fun _ _ => False) vm mid → vm = mid := by
      intro mid hm
      cases hm with
      | refl => rfl
      | tail _ hnever => exact hnever.elim
    exact hkept.bind_post (fun v mid hm => hsame hm ▸ hnext v) fun mid hm => hsame hm ▸ he
  exact hread fun lhs => hread fun rhs => h lhs rhs

theorem opLessEqual_marks (x : Activation) (hleq : vm.frames.current.status.leq = false) :
    Remarked .le (hooked (opCompare x lessEqual)) vm := by
  refine Post.bind (opCompare_post rfl fun lhs rhs => Post.bind ?_)
  refine (lessEqual_marks lhs rhs hleq).mono (fun verdict mid _ hmarks => ?_) fun _ h => h
  have hremarks : ∀ {next : Next} {after : Vm}, next.swaps = verdict.swaps → SameMarks mid after →
      Remarks .le vm.statuses (.next next) after.statuses := by
    intro next after hnext hsame
    rw [hsame, hmarks, ← hnext, statuses_marked]
    exact .compared next rfl
  cases verdict with
  | ask negated handler args => exact Post.pure (Post.pure (hremarks rfl rfl))
  | decided answer =>
    -- Only an answer that is there can fail, and then no mark has been set.
    refine (testVerdict_spotless x (.decided answer) mid).mono (fun next after _ h => ?_)
      fun after h => ?_
    · exact Post.pure (hremarks h.1 h.2)
    · exact Eq.trans h (Eq.trans hmarks (sameMarks_unmarked hleq).symm)

/-- A tail call fails before it has replaced its frame, if at all. -/
theorem opTailCall_marks (hf : vm.frames.active = f :: g :: rest) :
    Remarked .tailCall (plain (opTailCall x)) vm := by
  unfold plain
  rw [opTailCall_eq]
  refine Post.bind (Post.bind ((enterCall_post x .all true vm).mono ?_ fun after hs => ?_))
  · rintro _ entered - ⟨mid, callee, hm, he⟩
    have hactive : entered.frames.active = callee :: f :: g :: rest := by
      rw [he.active, (onlyRegisters_of_shifts hm).frames, hf]
    refine (spliceTailCall_post hactive (he.heap ▸ he.1) he.top).mono
      (fun _ after _ hs => Post.pure ?_) fun _ h => h.elim
    obtain ⟨mid, frames, -, -, hreplaced, rfl⟩ := hs
    rw [statuses_of_active hf, statuses_of_active hreplaced]
    exact .tailCalled _ _ rfl
  · exact sameMarks_of_frames (onlyRegisters_of_shifts hs).frames

theorem opReturn_marks (hf : vm.frames.active = f :: g :: rest) (hb : x.base = f.base) :
    Remarked .ret (opReturn x) vm := by
  have hleft : ∀ {after : Vm}, Returned f (g :: rest) vm after →
      after.statuses = (g :: rest).map Frame.status := by
    rintro after ⟨frames, hactive, hs⟩
    refine statuses_of_active ?_
    rw [(onlyRegisters_of_shifts hs).frames]
    exact hactive
  refine (opReturn_post x hf hb).mono ?_ fun after hr => ?_
  · rintro _ after - ⟨rfl, hr⟩
    rw [hleft hr, statuses_of_active hf]
    exact .returned _ _ rfl
  · rw [hleft hr, statuses_of_active hf]
    rfl

theorem execute_marks (hf : vm.frames.active = f :: g :: rest) (hb : x.base = f.base)
    (hleq : f.status.leq = false) : Remarked op (execute x op) vm := by
  have hcurrent : vm.frames.current = f := (List.cons.inj hf).1
  cases op with
  | move => exact .of_plain ((Exec.getSlot_keeps _).bind fun v => setSlot_sameMarks _ v)
  | loadK => exact .of_plain ((constantAt_keeps _ _).bind fun v => setSlot_sameMarks _ v)
  | loadKX => exact .of_plain (opLoadKX_sameMarks x)
  | loadBool => exact .of_plain (opLoadBool_sameMarks x)
  | loadNil => exact .of_plain (fillNil_sameMarks _ _)
  | getUpval => exact .of_plain ((readUpvalue_keeps _ _).bind fun v => setSlot_sameMarks _ v)
  | setUpval => exact .of_plain (opSetUpval_sameMarks x)
  | newTable => exact .of_plain (opNewTable_sameMarks x)
  | not => exact .of_plain ((Exec.getSlot_keeps _).bind fun v => setSlot_sameMarks _ _)
  | forLoop => exact .of_plain (opForLoop_sameMarks x)
  | forPrep => exact .of_plain (opForPrep_sameMarks x)
  | tforLoop => exact .of_plain (genericLoop_sameMarks _ _)
  | setList => exact .of_plain (opSetList_sameMarks x)
  | closure => exact .of_plain (opClosure_sameMarks x)
  | vararg => exact .of_plain (opVararg_sameMarks x)
  | jmp => exact .of_plain ((closeForJump_sameMarks _ _).bind fun _ => jump_sameMarks _)
  | test => exact .of_plain ((Exec.getSlot_keeps _).bind fun _ => conditionalJump_sameMarks _ _ _)
  | testSet => exact .of_plain (opTestSet_sameMarks x)
  | getTabUp => exact .of_hooked (opGetTabUp_unswapped x)
  | getTable => exact .of_hooked (opGetTable_unswapped x)
  | setTabUp =>
    exact .of_hooked (.after (readUpvalue_keeps _ _) fun obj => assignOperands_unswapped x obj)
  | setTable =>
    exact .of_hooked (.after (Exec.getSlot_keeps _) fun obj => assignOperands_unswapped x obj)
  | self => exact .of_hooked (opSelf_unswapped x)
  | add | sub | mul | mod | pow | div | idiv | band | bor | bxor | shl | shr =>
    exact .of_hooked (opArith_unswapped x _)
  | unm | bnot => exact .of_hooked (opUnary_unswapped x _)
  | len => exact .of_hooked (opLen_unswapped x)
  | concat => exact .of_hooked (opConcat_unswapped x)
  | eq => exact .of_hooked (opCompare_unswapped x equal_spotless)
  | lt => exact .of_hooked (opCompare_unswapped x lessThan_spotless)
  | le => exact opLessEqual_marks x (hcurrent ▸ hleq)
  | tforCall => exact .of_hooked (opTForCall_unswapped x)
  | call => exact opCall_marks x vm
  | tailCall => exact opTailCall_marks hf
  | ret => exact opReturn_marks hf hb
  | extraArg => exact Post.abort rfl

theorem beginStep_marks (h : beginStep vm = .returned x after) : SameMarks vm after := by
  obtain ⟨r, instr, -, -, -, rfl⟩ := beginStep_eq_returned h
  exact statuses_modifyCurrent vm _

/-- A step of a frame that does not wait for a swapped comparison changes marks in one of the
described ways. -/
theorem dispatch_marks (hf : vm.frames.active = f :: g :: rest) (hc : f.closure.isSome)
    (hleq : f.status.leq = false) :
    dispatch.Post vm
      (fun action after => ∃ x mid op, beginStep vm = .returned x mid ∧ x.instr.op? = some op ∧
        Remarks op vm.statuses action after.statuses)
      fun after => ∃ x mid op, beginStep vm = .returned x mid ∧ x.instr.op? = some op ∧
        after.statuses = marksAtError op vm.statuses := by
  refine Post.bind ((begun_post hf hc).mono ?_ fun _ h => h.elim)
  rintro x mid - ⟨f', hbegun, hbase⟩
  have hsame := beginStep_marks hbegun.fetched
  have hstatus : f'.status = f.status := by
    have := hsame
    rw [SameMarks, statuses_of_active hf, statuses_of_active hbegun.active] at this
    exact (List.cons.inj this).1
  split
  · next op hop =>
    refine (execute_marks hbegun.active hbase (hstatus ▸ hleq)).mono (fun action after _ h => ?_)
      fun after h => ?_
    · exact ⟨x, mid, op, hbegun.fetched, hop, hsame ▸ h⟩
    · exact ⟨x, mid, op, hbegun.fetched, hop, hsame ▸ h⟩
  · exact Post.abort rfl

end Steps

section Resumed
variable {vm : Vm}

theorem endTest_marks (hc : vm.frames.current.closure.isSome) (condition : Bool) :
    (endTest condition).Post vm (fun next after => next.swaps = false ∧ SameMarks vm after)
    (SameMarks vm) := by
  refine Post.bind (Post.look (Post.bind ((runningPrototype_post hc).mono ?_ fun _ h => h)))
  rintro proto _ - rfl
  exact Spotless.proceed (conditionalJump_sameMarks _ _ _) _

theorem endRound_marks (hc : vm.frames.current.closure.isSome) :
    endRound.Post vm (fun next after => next.swaps = false ∧ SameMarks vm after)
      (SameMarks vm) := by
  refine Post.bind (Post.look (Post.bind ((runningPrototype_post hc).mono ?_ fun _ h => h)))
  rintro proto _ - rfl
  refine Spotless.after (fetchExpected_keeps _ _ _) (fun next => ?_) _
  exact .after (setPc_sameMarks _) fun _ => .proceed (genericLoop_sameMarks _ _)

/-- An instruction that goes on after a call clears the mark of a swapped comparison, and no other
mark. -/
theorem resume_marks (k : Resume) (results : List Value) (hc : vm.frames.current.closure.isSome) :
    (resume k results).Post vm (fun next after => next.swaps = false ∧
      SameMarks (vm.released k.swaps) after) (SameMarks (vm.released k.swaps)) := by
  cases k with
  | store slot => exact Spotless.proceed (setSlot_sameMarks _ _) vm
  | drop => exact Spotless.pure rfl vm
  | concat rest slot => exact storeConcat_unswapped _ _ vm
  | test negated expected =>
    have hclosure : (vm.released negated).frames.current.closure.isSome := by
      cases negated with
      | false => exact hc
      | true => simpa [released, marked] using hc
    have hend := endTest_marks hclosure (((results.headD .nil).isTruthy != negated) == expected)
    unfold Post at hend ⊢
    rw [resume_test]
    exact hend
  | iterate => exact Post.bind (Post.bind (Post.look (Post.modify (endRound_marks hc))))

end Resumed

end LuaMachine.Vm
