import LuaMachine.Machine.Dispatch
import LuaMachine.Proofs.TerritoryOperations

/-!
# Instructions in a territory

What an instruction stores or passes on comes from registers, constants, upvalues and tables, and
stays in the territory with them. So do the handlers that it asks for, and what it has to remember
until they have returned. Only one instruction widens the territory, the one that makes a table.
-/
namespace LuaMachine.Vm

open Exec (Inside Widens)

variable {D : Territory} {x : Activation} {v : Value}

/-- What an instruction remembers during a call belongs to the territory. -/
def Resume.Within (D : Territory) : Resume → Prop
  | .concat rest _ => ∀ v ∈ rest, D.Holds v
  | .store _ | .drop | .test _ _ | .iterate => True

/-- The function that is called next belongs to the territory, and so do its arguments. Those of an
iterator are in registers. -/
inductive Next.Within (D : Territory) : Next → Prop
  | proceed : Within D .proceed
  | iterate (func : Nat) (results : ResultCount) : Within D (.callAt func results .iterate)
  | invoke {handler : Value} {args : List Value} {k : Resume}
      (h : ∀ v ∈ handler :: args, D.Holds v) (hk : k.Within D) : Within D (.invoke handler args k)

/-- A step goes on in the territory. -/
inductive Action.Within (D : Territory) : Action → Prop
  | next {n : Next} (h : n.Within D) : Within D (.next n)
  | leave : Within D .leave

theorem Resume.Within.mono {D' : Territory} {k : Resume} (h : k.Within D) (hle : D ≤ D') :
    k.Within D' := by
  cases k with
  | concat rest slot => exact fun v hv => (h v hv).mono hle
  | store _ | drop | test _ _ | iterate => exact trivial

/-! ## Operands -/

theorem fetch_inside (p : Prototype) (pc : Nat) : (fetch p pc).Inside D fun _ => True := by
  unfold fetch
  split
  · exact .pure trivial
  · exact .malformed _

theorem fetchExpected_inside (p : Prototype) (pc : Nat) (op : Opcode) :
    (fetchExpected p pc op).Inside D fun _ => True :=
  (fetch_inside p pc).bind fun _ _ => .ite (fun _ => .pure trivial) fun _ => .malformed _

theorem constantAt_inside {p : Prototype} (hp : ∀ v, p.Constant v → D.Holds v) (index : Nat) :
    (constantAt p index).Inside D D.Holds := by
  unfold constantAt
  split
  · next v hv => exact .pure (hp v (.own (Array.mem_of_getElem? hv)))
  · exact .malformed _

theorem operandValue_inside (hx : D.HoldsClosure x.closure) (operand : Nat) :
    (operandValue x operand).Inside D D.Holds :=
  .ite (fun _ => constantAt_inside hx.constants _) fun _ => .getSlot _

theorem upvalueAt_inside {c : Closure} (hc : D.HoldsClosure c) (index : Nat) :
    (upvalueAt c index).Inside D D.cells := by
  unfold upvalueAt
  split
  · next r hr => exact .pure (hc.cells r (Array.mem_of_getElem? hr))
  · exact .malformed _

theorem readUpvalue_inside {c : Closure} (hc : D.HoldsClosure c) (index : Nat) :
    (readUpvalue c index).Inside D D.Holds := by
  refine (upvalueAt_inside hc index).bind fun r hr =>
    .look (fun _ {_} _ _ => rfl) fun {vm} hvm => ?_
  unfold Upvalues.read
  split
  · next slot _ => exact hvm.stack.getD slot
  · next v hv => exact hvm.cells.values r v hr hv

theorem writeUpvalue_inside (r : CellRef) (hv : D.Holds v) :
    (writeUpvalue r v).Inside D fun _ => True := by
  refine .of_closed (fun _ {vm} _ hooks => ?_) fun {vm after} hc ha => ?_
  · unfold writeUpvalue
    dsimp only
    cases vm.upvalues.cell r <;> rfl
  · unfold writeUpvalue at ha
    split at ha <;> cases ha
    · exact { hc with stack := hc.stack.setIfInBounds _ hv }
    · exact { hc with cells := hc.cells.setCell r hv }

theorem jump_inside (offset : Int) : (jump offset).Inside D fun _ => True :=
  .modifyFrame fun _ => rfl

theorem closeForJump_inside (base a : Nat) : (closeForJump base a).Inside D fun _ => True :=
  .ite (fun _ => .pure trivial) fun _ => .closeUpvalues _

theorem conditionalJump_inside (p : Prototype) (base : Nat) (condition : Bool) :
    (conditionalJump p base condition).Inside D fun _ => True := by
  refine .ite (fun _ => ?_) fun _ => jump_inside 1
  refine Inside.currentFrame.bind fun frame _ => ?_
  refine (fetchExpected_inside p frame.pc .jmp).bind fun next _ => ?_
  exact (closeForJump_inside base next.a).bind fun _ _ => jump_inside _

/-! ## Results -/

theorem storeReply_inside (slot : Nat) {reply : Reply Value} (h : Answered D D.Holds reply) :
    (storeReply slot reply).Inside D (Next.Within D) := by
  cases reply with
  | done v => exact (Inside.setSlot slot h).bind fun _ _ => .pure .proceed
  | call handler args => exact .pure (.invoke h trivial)

theorem testVerdict_inside (x : Activation) {verdict : Verdict} (h : Decided D verdict) :
    (testVerdict x verdict).Inside D (Next.Within D) := by
  cases verdict with
  | decided answer => exact (conditionalJump_inside _ _ _).bind fun _ _ => .pure .proceed
  | ask negated handler args => exact .pure (.invoke h trivial)

theorem storeConcat_inside (slot : Nat) {reversed : List Value} (h : ∀ v ∈ reversed, D.Holds v) :
    (storeConcat slot reversed).Inside D (Next.Within D) := by
  refine (concatRound_inside h).bind fun reply hreply => ?_
  cases reply with
  | done v => exact (Inside.setSlot slot hreply).bind fun _ _ => .pure .proceed
  | call handler args rest => exact .pure (.invoke hreply.1 hreply.2)

theorem genericLoop_inside (ra : Nat) (offset : Int) :
    (genericLoop ra offset).Inside D fun _ => True := by
  refine (Inside.getSlot (ra + 1)).bind fun control hcontrol => ?_
  exact .ite (fun _ => (Inside.setSlot ra hcontrol).bind fun _ _ => jump_inside offset) fun _ =>
    .pure trivial

theorem resetTop_inside : resetTop.Inside D fun _ => True :=
  Inside.currentFrame.bind fun _ _ => .setTop _

/-! ## Instructions -/

theorem opMove_inside (x : Activation) : (opMove x).Inside D fun _ => True :=
  (Inside.getSlot _).bind fun _ hv => .setSlot _ hv

theorem opLoadK_inside (hx : D.HoldsClosure x.closure) : (opLoadK x).Inside D fun _ => True :=
  (constantAt_inside hx.constants _).bind fun _ hv => .setSlot _ hv

theorem opLoadKX_inside (hx : D.HoldsClosure x.closure) : (opLoadKX x).Inside D fun _ => True := by
  refine (fetchExpected_inside _ _ _).bind fun extra _ => ?_
  refine Inside.bind (.modifyFrame fun _ => rfl) fun _ _ => ?_
  exact (constantAt_inside hx.constants _).bind fun _ hv => .setSlot _ hv

theorem opLoadBool_inside (x : Activation) : (opLoadBool x).Inside D fun _ => True :=
  Inside.bind (.setSlot _ trivial) fun _ _ => .ite (fun _ => jump_inside 1) fun _ => .pure trivial

theorem opLoadNil_inside (x : Activation) : (opLoadNil x).Inside D fun _ => True :=
  .onStack fun hs ht => hs.fillNil ht

theorem opGetUpval_inside (hx : D.HoldsClosure x.closure) : (opGetUpval x).Inside D fun _ => True :=
  (readUpvalue_inside hx _).bind fun _ hv => .setSlot _ hv

theorem opGetTabUp_inside (hx : D.HoldsClosure x.closure) :
    (opGetTabUp x).Inside D (Next.Within D) := by
  refine (readUpvalue_inside hx _).bind fun obj hobj => ?_
  refine (operandValue_inside hx _).bind fun key hkey => ?_
  exact (index_inside hobj hkey).bind fun _ hreply => storeReply_inside _ hreply

theorem opGetTable_inside (hx : D.HoldsClosure x.closure) :
    (opGetTable x).Inside D (Next.Within D) := by
  refine (Inside.getSlot _).bind fun obj hobj => ?_
  refine (operandValue_inside hx _).bind fun key hkey => ?_
  exact (index_inside hobj hkey).bind fun _ hreply => storeReply_inside _ hreply

theorem assignOperands_inside (hx : D.HoldsClosure x.closure) {obj : Value} (hobj : D.Holds obj) :
    (assignOperands x obj).Inside D (Next.Within D) := by
  refine (operandValue_inside hx _).bind fun key hkey => ?_
  refine (operandValue_inside hx _).bind fun value hvalue => ?_
  refine (newIndex_inside hobj hkey hvalue).bind fun reply hreply => ?_
  cases reply with
  | done _ => exact .pure .proceed
  | call handler args => exact .pure (.invoke hreply trivial)

theorem opSetTabUp_inside (hx : D.HoldsClosure x.closure) :
    (opSetTabUp x).Inside D (Next.Within D) :=
  (readUpvalue_inside hx _).bind fun _ hobj => assignOperands_inside hx hobj

theorem opSetTable_inside (hx : D.HoldsClosure x.closure) :
    (opSetTable x).Inside D (Next.Within D) :=
  (Inside.getSlot _).bind fun _ hobj => assignOperands_inside hx hobj

theorem opSetUpval_inside (hx : D.HoldsClosure x.closure) :
    (opSetUpval x).Inside D fun _ => True := by
  refine (Inside.getSlot _).bind fun v hv => ?_
  exact (upvalueAt_inside hx _).bind fun r _ => writeUpvalue_inside r hv

theorem opNewTable_widens (x : Activation) : (opNewTable x).Widens D fun _ _ => True :=
  Widens.newTable.bind fun _ r _ hr => (Inside.setSlot (v := .table r) _ hr).widens

theorem opSelf_inside (hx : D.HoldsClosure x.closure) : (opSelf x).Inside D (Next.Within D) := by
  refine (Inside.getSlot _).bind fun obj hobj => ?_
  refine (Inside.setSlot _ hobj).bind fun _ _ => ?_
  refine (operandValue_inside hx _).bind fun key hkey => ?_
  exact (index_inside hobj hkey).bind fun _ hreply => storeReply_inside _ hreply

theorem opArith_inside (hx : D.HoldsClosure x.closure) (op : ArithOp) :
    (opArith x op).Inside D (Next.Within D) := by
  refine (operandValue_inside hx _).bind fun lhs hl => ?_
  refine (operandValue_inside hx _).bind fun rhs hr => ?_
  exact (arith_inside op hl hr).bind fun _ hreply => storeReply_inside _ hreply

theorem opUnary_inside (x : Activation) (op : ArithOp) :
    (opUnary x op).Inside D (Next.Within D) := by
  refine (Inside.getSlot _).bind fun operand hv => ?_
  exact (arith_inside op hv hv).bind fun _ hreply => storeReply_inside _ hreply

theorem opNot_inside (x : Activation) : (opNot x).Inside D fun _ => True :=
  (Inside.getSlot _).bind fun _ _ => .setSlot _ trivial

theorem opLen_inside (x : Activation) : (opLen x).Inside D (Next.Within D) := by
  refine (Inside.getSlot _).bind fun v hv => ?_
  exact (length_inside hv).bind fun _ hreply => storeReply_inside _ hreply

/-- A look at a range of registers. -/
theorem slice_inside (start : Nat) {stop : Vm → Nat}
    (hstop : ∀ vm hooks, stop (withHooks vm hooks) = stop vm) :
    (Exec.look fun vm => vm.stack.slice start (stop vm)).Inside D
      fun found => ∀ vs, found = .ok vs → ∀ v ∈ vs, D.Holds v := by
  refine .look (fun _ {vm} _ hooks => ?_) fun hc vs hvs => hc.stack.slice hvs
  rw [hstop]

theorem opConcat_inside (x : Activation) : (opConcat x).Inside D (Next.Within D) := by
  refine (slice_inside x.rb fun _ _ => rfl).bind fun found hfound => ?_
  refine (Inside.check hfound).bind fun operands hoperands => ?_
  exact storeConcat_inside _ fun v hv => hoperands v (List.mem_reverse.mp hv)

theorem opJmp_inside (x : Activation) : (opJmp x).Inside D fun _ => True :=
  (closeForJump_inside _ _).bind fun _ _ => jump_inside _

theorem opCompare_inside {comparison : Value → Value → Exec Verdict} (hx : D.HoldsClosure x.closure)
    (h : ∀ {lhs rhs : Value}, D.Holds lhs → D.Holds rhs →
      (comparison lhs rhs).Inside D (Decided D)) :
    (opCompare x comparison).Inside D (Next.Within D) := by
  refine (operandValue_inside hx _).bind fun lhs hl => ?_
  refine (operandValue_inside hx _).bind fun rhs hr => ?_
  exact (h hl hr).bind fun _ hverdict => testVerdict_inside x hverdict

theorem opTest_inside (x : Activation) : (opTest x).Inside D fun _ => True :=
  (Inside.getSlot _).bind fun _ _ => conditionalJump_inside _ _ _

theorem opTestSet_inside (x : Activation) : (opTestSet x).Inside D fun _ => True := by
  refine (Inside.getSlot _).bind fun v hv => ?_
  refine .ite (fun _ => ?_) fun _ => conditionalJump_inside _ _ _
  exact (Inside.setSlot _ hv).bind fun _ _ => conditionalJump_inside _ _ _

theorem placeArguments_inside (x : Activation) : (placeArguments x).Inside D fun _ => True :=
  .ite (fun _ => .pure trivial) fun _ => .setTop _

theorem opCall_inside (x : Activation) : (opCall x).Inside D fun _ => True :=
  (placeArguments_inside x).bind fun _ _ => precall_inside _ _ _

theorem opTailCall_inside (x : Activation) : (opTailCall x).Inside D fun _ => True := by
  refine (placeArguments_inside x).bind fun _ _ => ?_
  exact (precall_inside _ _ _).bind fun _ _ => spliceTailCall_inside

theorem opReturn_inside (x : Activation) : (opReturn x).Inside D (Action.Within D) := by
  have hend : ∀ count, (do
      let fresh := (← Exec.currentFrame).status.fresh
      let fixedResults ← postcall x.ra count
      if fresh then return .leave
      if fixedResults then resetTop
      return .next .proceed : Exec Action).Inside D (Action.Within D) := by
    intro count
    refine Inside.currentFrame.bind fun frame _ => ?_
    refine (postcall_inside x.ra count).bind fun fixed _ => ?_
    refine .ite (fun _ => .pure .leave) fun _ => ?_
    refine .ite (fun _ => ?_) fun _ => .pure (.next .proceed)
    exact resetTop_inside.bind fun _ _ => .pure (.next .proceed)
  refine (Inside.closeUpvalues x.base).bind fun _ _ => ?_
  refine .ite (fun _ => ?_) fun _ => hend _
  refine (Inside.lookAt fun _ _ => rfl).bind fun top _ => ?_
  exact (Inside.check fun _ _ => trivial).bind fun count _ => hend count

theorem loopControl_inside (ra : Nat) : (loopControl ra).Inside D fun _ => True := by
  refine (Inside.getSlot _).bind fun index _ => ?_
  refine (Inside.getSlot _).bind fun limit _ => ?_
  exact (Inside.getSlot _).bind fun step _ => .pure trivial

/-- The control registers of a numeric loop hold numbers. -/
theorem holds_advance? (D : Territory) {c : NumericLoop.Control}
    (h : NumericLoop.advance? c = some v) : D.Holds v := by
  unfold NumericLoop.advance? at h
  split at h <;> dsimp only at h <;> split_ifs at h <;> cases h <;> exact trivial

theorem holds_prepare (D : Territory) {c prepared : NumericLoop.Control}
    (h : NumericLoop.prepare c = .ok prepared) :
    D.Holds prepared.index ∧ D.Holds prepared.limit ∧ D.Holds prepared.step := by
  have hfloats : ∀ {c : NumericLoop.Control}, NumericLoop.prepareFloats c = .ok prepared →
      D.Holds prepared.index ∧ D.Holds prepared.limit ∧ D.Holds prepared.step := by
    intro c hc
    unfold NumericLoop.prepareFloats at hc
    simp only [bind, Except.bind, pure, Except.pure] at hc
    split at hc
    · cases hc
    · split at hc
      · cases hc
      · split at hc
        · cases hc
        · split_ifs at hc
          cases hc
          exact ⟨trivial, trivial, trivial⟩
  unfold NumericLoop.prepare at h
  split at h
  · next hindex hstep =>
    split_ifs at h
    split at h
    · cases h
      refine ⟨trivial, trivial, ?_⟩
      rw [hstep]
      exact trivial
    · exact hfloats h
  · exact hfloats h

theorem opForLoop_inside (x : Activation) : (opForLoop x).Inside D fun _ => True := by
  refine (loopControl_inside x.ra).bind fun control _ => ?_
  split
  · exact .pure trivial
  · next index hindex =>
    have hindex := holds_advance? D hindex
    refine (jump_inside _).bind fun _ _ => ?_
    exact (Inside.setSlot _ hindex).bind fun _ _ => .setSlot _ hindex

theorem opForPrep_inside (x : Activation) : (opForPrep x).Inside D fun _ => True := by
  refine (loopControl_inside x.ra).bind fun control _ => ?_
  refine (settle_inside fun prepared h => holds_prepare D h).bind fun prepared h => ?_
  obtain ⟨hindex, hlimit, hstep⟩ := h
  refine (Inside.setSlot _ hlimit).bind fun _ _ => ?_
  refine (Inside.setSlot _ hstep).bind fun _ _ => ?_
  exact (Inside.setSlot _ hindex).bind fun _ _ => jump_inside _

theorem opTForCall_inside (x : Activation) : (opTForCall x).Inside D (Next.Within D) := by
  refine (Inside.onStack fun hs ht => hs.copyDown ht).bind fun _ _ => ?_
  exact (Inside.setTop _).bind fun _ _ => .pure (.iterate _ _)

theorem storeList_inside (r : TableRef) (key slot count : Nat) :
    (storeList r key slot count).Inside D fun _ => True := by
  induction count generalizing key slot with
  | zero => exact .pure trivial
  | succ count ih =>
    refine (Inside.getSlot slot).bind fun v hv => ?_
    refine Inside.bind (.modify (fun _ _ => rfl) fun hc => ?_) fun _ _ => ih (key + 1) (slot + 1)
    exact { hc with heap := hc.heap.rawSet _ hv }

theorem storeBlock_inside (x : Activation) (count block : Nat) :
    (storeBlock x count block).Inside D fun _ => True := by
  refine (Inside.getSlot x.ra).bind fun v _ => ?_
  split
  · refine .ite (fun _ => .abort _) fun _ => ?_
    exact (storeList_inside _ _ _ count).bind fun _ _ => resetTop_inside
  · exact .malformed _

theorem opSetList_inside (x : Activation) : (opSetList x).Inside D fun _ => True := by
  have hblock : ∀ count, (do
      let block ←
        if x.instr.c = 0 then do
          let extra ← fetchExpected x.proto (x.pc + 1) .extraArg
          Exec.modifyFrame fun f => { f with pc := f.pc + 1 }
          pure extra.ax
        else pure x.instr.c
      storeBlock x count block : Exec Unit).Inside D fun _ => True := by
    intro count
    refine .ite (fun _ => ?_) fun _ => storeBlock_inside x count _
    refine (fetchExpected_inside _ _ _).bind fun extra _ => ?_
    exact Inside.bind (.modifyFrame fun _ => rfl) fun _ _ => storeBlock_inside x count _
  refine .ite (fun _ => ?_) fun _ => hblock _
  refine (Inside.lookAt fun _ _ => rfl).bind fun top _ => ?_
  exact .ite (fun _ => hblock _) fun _ => .malformed _

theorem captureAll_inside (hx : D.HoldsClosure x.closure) (sources : List UpvalueSource) :
    (captureAll x sources).Inside D fun refs => ∀ r ∈ refs, D.cells r := by
  induction sources with
  | nil => exact .pure (by simp)
  | cons source rest ih =>
    have hrest : ∀ r, D.cells r → (do
        let refs ← captureAll x rest
        return r :: refs : Exec (List CellRef)).Inside D fun refs => ∀ r ∈ refs, D.cells r := by
      intro r hr
      refine ih.bind fun refs hrefs => .pure ?_
      simpa using ⟨hr, hrefs⟩
    refine .ite (fun _ => ?_) fun _ => ?_
    · exact (Inside.captureSlot _).bind hrest
    · exact (upvalueAt_inside hx _).bind hrest

theorem opClosure_inside (hx : D.HoldsClosure x.closure) :
    (opClosure x).Inside D fun _ => True := by
  unfold opClosure
  split
  · exact .malformed _
  · next child hchild =>
    refine (captureAll_inside hx _).bind fun refs hrefs => ?_
    have hcells : ∀ r ∈ refs.toArray, D.cells r := by simpa using hrefs
    exact (Inside.newClosure (hx.child (Array.mem_of_getElem? hchild) hcells)).bind fun _ hr =>
      .setSlot _ hr

theorem opVararg_inside (x : Activation) : (opVararg x).Inside D fun _ => True := by
  have hcopy : ∀ available wanted, (do
      let copied := min wanted available
      Exec.onStack (·.copyDown (x.base - available) x.ra copied)
      Exec.onStack (·.fillNil (x.ra + copied) (wanted - copied)) : Exec Unit).Inside D
        fun _ => True := by
    intro available wanted
    refine (Inside.onStack fun hs ht => hs.copyDown ht).bind fun _ _ => ?_
    exact .onStack fun hs ht => hs.fillNil ht
  refine Inside.currentFrame.bind fun frame _ => ?_
  refine (Inside.check fun _ _ => trivial).bind fun below _ => ?_
  refine .ite (fun _ => ?_) fun _ => hcopy _ _
  refine (Inside.ensure _).bind fun _ _ => ?_
  exact (Inside.setTop _).bind fun _ _ => hcopy _ _

/-! ## Steps -/

theorem recordStep_inside (p : Prototype) (pc : Nat) :
    (recordStep p pc).Inside D fun _ => True := by
  refine .of_closed (fun _ {vm} _ hooks => ?_) fun {vm after} hc ha => ?_
  · unfold recordStep
    dsimp only
    cases vm.trace <;> rfl
  · unfold recordStep at ha
    split at ha <;> cases ha
    · exact hc
    · exact { hc with }

theorem beginStep_inside : beginStep.Inside D fun x => D.HoldsClosure x.closure := by
  refine Inside.currentFrame.bind fun frame hframe => ?_
  split
  · next r hr =>
    have hlook : (Exec.look fun vm => vm.heap.closureAt r).Inside D D.HoldsClosure :=
      .look (fun _ {_} _ _ => rfl) fun hc => hc.heap.closures r (hframe r hr)
    refine hlook.bind fun closure hclosure => ?_
    refine (fetch_inside _ _).bind fun instr _ => ?_
    refine Inside.bind (.modifyFrame fun _ => rfl) fun _ _ => ?_
    exact (recordStep_inside _ _).bind fun _ _ => .pure hclosure
  · exact .abort _

theorem plain_inside {y : Exec Unit} (h : y.Inside D fun _ => True) :
    (plain y).Inside D (Action.Within D) :=
  h.bind fun _ _ => .pure (.next .proceed)

theorem hooked_inside {y : Exec Next} (h : y.Inside D (Next.Within D)) :
    (hooked y).Inside D (Action.Within D) :=
  h.bind fun _ hn => .pure (.next hn)

theorem execute_inside (hx : D.HoldsClosure x.closure) {op : Opcode} (hop : op ≠ .newTable) :
    (execute x op).Inside D (Action.Within D) := by
  cases op with
  | move => exact plain_inside (opMove_inside x)
  | loadK => exact plain_inside (opLoadK_inside hx)
  | loadKX => exact plain_inside (opLoadKX_inside hx)
  | loadBool => exact plain_inside (opLoadBool_inside x)
  | loadNil => exact plain_inside (opLoadNil_inside x)
  | getUpval => exact plain_inside (opGetUpval_inside hx)
  | getTabUp => exact hooked_inside (opGetTabUp_inside hx)
  | getTable => exact hooked_inside (opGetTable_inside hx)
  | setTabUp => exact hooked_inside (opSetTabUp_inside hx)
  | setUpval => exact plain_inside (opSetUpval_inside hx)
  | setTable => exact hooked_inside (opSetTable_inside hx)
  | newTable => exact absurd rfl hop
  | self => exact hooked_inside (opSelf_inside hx)
  | add | sub | mul | mod | pow | div | idiv | band | bor | bxor | shl | shr =>
    exact hooked_inside (opArith_inside hx _)
  | unm | bnot => exact hooked_inside (opUnary_inside x _)
  | not => exact plain_inside (opNot_inside x)
  | len => exact hooked_inside (opLen_inside x)
  | concat => exact hooked_inside (opConcat_inside x)
  | jmp => exact plain_inside (opJmp_inside x)
  | eq => exact hooked_inside (opCompare_inside hx equal_inside)
  | lt => exact hooked_inside (opCompare_inside hx lessThan_inside)
  | le => exact hooked_inside (opCompare_inside hx lessEqual_inside)
  | test => exact plain_inside (opTest_inside x)
  | testSet => exact plain_inside (opTestSet_inside x)
  | call => exact plain_inside (opCall_inside x)
  | tailCall => exact plain_inside (opTailCall_inside x)
  | ret => exact opReturn_inside x
  | forLoop => exact plain_inside (opForLoop_inside x)
  | forPrep => exact plain_inside (opForPrep_inside x)
  | tforCall => exact hooked_inside (opTForCall_inside x)
  | tforLoop => exact plain_inside (genericLoop_inside _ _)
  | setList => exact plain_inside (opSetList_inside x)
  | closure => exact plain_inside (opClosure_inside hx)
  | vararg => exact plain_inside (opVararg_inside x)
  | extraArg => exact .malformed _

/-- A step adds at most one table to the territory. -/
theorem dispatch_widens : dispatch.Widens D fun D' action => action.Within D' := by
  refine Widens.after beginStep_inside fun x hx => ?_
  split
  · next op _ =>
    by_cases hop : op = .newTable
    · subst hop
      exact (opNewTable_widens x).bind fun _ _ _ _ => (Inside.pure (.next .proceed)).widens
    · exact (execute_inside hx hop).widens
  · exact (Inside.malformed _).widens

theorem runningPrototype_inside : runningPrototype.Inside D fun _ => True := by
  refine Inside.currentFrame.bind fun frame _ => ?_
  split
  · exact .lookAt fun _ _ => rfl
  · exact .abort _

/-- An instruction goes on after the call that it has asked for. -/
theorem resume_inside {k : Resume} (hk : k.Within D) {results : List Value}
    (hr : ∀ v ∈ results, D.Holds v) : (resume k results).Inside D (Next.Within D) := by
  have hfirst : D.Holds (results.headD .nil) := by
    cases results with
    | nil => exact D.holds_nil
    | cons v vs => exact hr v List.mem_cons_self
  cases k with
  | store slot => exact (Inside.setSlot slot hfirst).bind fun _ _ => .pure .proceed
  | drop => exact .pure .proceed
  | concat rest slot => exact storeConcat_inside slot (List.forall_mem_cons.mpr ⟨hfirst, hk⟩)
  | test negated expected =>
    have hjump : (do
        let frame ← Exec.currentFrame
        let proto ← runningPrototype
        let answer := (results.headD .nil).isTruthy != negated
        conditionalJump proto frame.base (answer == expected)
        return .proceed : Exec Next).Inside D (Next.Within D) := by
      refine Inside.currentFrame.bind fun frame _ => ?_
      refine runningPrototype_inside.bind fun proto _ => ?_
      exact (conditionalJump_inside _ _ _).bind fun _ _ => .pure .proceed
    refine .ite (fun _ => ?_) fun _ => hjump
    exact (markSwapped_inside false).bind fun _ _ => hjump
  | iterate =>
    refine resetTop_inside.bind fun _ _ => ?_
    refine Inside.currentFrame.bind fun frame _ => ?_
    refine runningPrototype_inside.bind fun proto _ => ?_
    refine (fetchExpected_inside _ _ _).bind fun next _ => ?_
    refine Inside.bind (.modifyFrame fun _ => rfl) fun _ _ => ?_
    exact (genericLoop_inside _ _).bind fun _ _ => .pure .proceed

end LuaMachine.Vm
