import LuaMachine.Proofs.CallProtocol

/-!
# What a step can do

A step executes one instruction of the current frame. It works in that frame and may ask for a call,
or it captures registers or assigns an upvalue, or it enters, replaces or leaves a frame. These are
all the cases, and everything proved about runs goes by them and not by the instructions.
-/
namespace LuaMachine.Vm

open Relation (ReflTransGen)
open Exec (Keeps Post)

/-- How an instruction ends that the frame `f` executes, with the frames `below` under it. -/
inductive Executed (x : Activation) (f : Frame) (below : List Frame) (vm : Vm) :
    Opcode → Action → Vm → Prop
  | finished {op : Opcode} {next : Next} {after : Vm} (hret : op ≠ .ret) (htail : op ≠ .tailCall)
      (h : Followed f.base vm next after) : Executed x f below vm op (.next next) after
  | made {after : Vm} (h : ReflTransGen (Make f.base) vm after) :
      Executed x f below vm .closure (.next .proceed) after
  | assigned {after : Vm} (h : Assigned f.base vm after) :
      Executed x f below vm .setUpval (.next .proceed) after
  | called {func : Nat} {results : ResultCount} {g : Frame} {mid after : Vm}
      (hw : ReflTransGen (Shift f.base) vm mid) (hl : f.base ≤ func)
      (h : Entered func results g mid after) :
      Executed x f below vm .call (.next .proceed) after
  | tailCalled {func : Nat} {g : Frame} {mid entered after : Vm}
      (hw : ReflTransGen (Shift f.base) vm mid) (hl : f.base ≤ func)
      (he : Entered func .all g mid entered) (h : Spliced g f below entered after)
      (hx : (placeArguments x >>= fun _ => precall x.ra .all true) vm = .returned () entered) :
      Executed x f below vm .tailCall (.next .proceed) after
  | returned {after : Vm} (h : Returned f below vm after) :
      Executed x f below vm .ret (if f.status.fresh then .leave else .next .proceed) after

/-- Where an instruction may fail: before it has closed anything or changed the frames, except that
a return may fail after it has left the frame. -/
inductive Failed (f : Frame) (below : List Frame) (vm : Vm) : Opcode → Vm → Prop
  | works {op : Opcode} {after : Vm} (hret : op ≠ .ret) (h : ReflTransGen (Work f.base) vm after) :
      Failed f below vm op after
  | returned {after : Vm} (h : Returned f below vm after) : Failed f below vm .ret after

section Execute
variable {x : Activation} {f g : Frame} {rest : List Frame} {vm : Vm} {op : Opcode}

theorem plain_post {y : Exec Unit} (hb : x.base = f.base) (hret : op ≠ .ret)
    (htail : op ≠ .tailCall) (h : Finishes x.base y) :
    (plain y).Post vm (Executed x f (g :: rest) vm op) (Failed f (g :: rest) vm op) := by
  rw [hb] at h
  refine Post.bind ((h vm).mono (fun _ _ _ hd => ?_) fun _ hw => .works hret hw)
  exact Post.pure (.finished hret htail (.closing hd))

theorem plain_post_of_keeps {y : Exec Unit} (hb : x.base = f.base) (hret : op ≠ .ret)
    (htail : op ≠ .tailCall) (h : y.Keeps (Work x.base)) :
    (plain y).Post vm (Executed x f (g :: rest) vm op) (Failed f (g :: rest) vm op) :=
  plain_post hb hret htail (.of_keeps h)

theorem hooked_post {y : Exec Next} (hb : x.base = f.base) (hret : op ≠ .ret)
    (htail : op ≠ .tailCall) (h : Asks x.base y) :
    (hooked y).Post vm (Executed x f (g :: rest) vm op) (Failed f (g :: rest) vm op) := by
  rw [hb] at h
  refine Post.bind ((h vm).mono (fun _ _ _ hd => ?_) fun _ hw => .works hret hw)
  exact Post.pure (.finished hret htail hd)

theorem placeArguments_keeps (x : Activation) : (placeArguments x).Keeps (Shift x.ra) :=
  Keeps.ite (fun _ => Keeps.pure _) fun _ => Exec.setTop_keeps (Nat.le_add_right _ _)

/-- The arguments of a call are put in place, and then its frame is entered. -/
theorem enterCall_post (x : Activation) (results : ResultCount) (tailCall : Bool) (vm : Vm) :
    (placeArguments x >>= fun _ => precall x.ra results tailCall).Post vm
      (fun _ after => ∃ mid g, ReflTransGen (Shift x.ra) vm mid ∧ Entered x.ra results g mid after)
      (ReflTransGen (Shift x.ra) vm) := by
  refine (placeArguments_keeps x).bind_post (fun _ mid hm => ?_) fun _ h => h
  refine (precall_post x.ra results tailCall mid).mono ?_ fun _ hs => hm.trans hs
  rintro _ after - ⟨g, he⟩
  exact ⟨mid, g, hm, he⟩

theorem works_of_shifts {base : Nat} {vm after : Vm} (h : ReflTransGen (Shift base) vm after) :
    ReflTransGen (Work base) vm after :=
  ReflTransGen.mono (fun _ _ hs => .shift hs) _ _ h

theorem opCall_post (hb : x.base = f.base) :
    (plain (opCall x)).Post vm (Executed x f (g :: rest) vm .call)
    (Failed f (g :: rest) vm .call) := by
  have hl : f.base ≤ x.ra := hb ▸ base_le_ra x
  refine Post.bind ((enterCall_post x (.ofOperand x.instr.c) false vm).mono ?_ fun _ hs => ?_)
  · rintro _ after - ⟨mid, g', hm, he⟩
    exact Post.pure (.called (shifts_mono hm hl) hl he)
  · exact .works (by decide) (works_of_shifts (shifts_mono hs hl))

/-- A tail call enters its frame like any other call and then moves it. -/
theorem opTailCall_eq (x : Activation) :
    opTailCall x = (placeArguments x >>= fun _ => precall x.ra .all true) >>= fun _ =>
      spliceTailCall := by
  rw [bind_assoc]
  rfl

/-- The caller of a tail call is the frame that executes it, and has a frame below it. -/
theorem opTailCall_post (hf : vm.frames.active = f :: g :: rest) (hb : x.base = f.base) :
    (plain (opTailCall x)).Post vm (Executed x f (g :: rest) vm .tailCall)
    (Failed f (g :: rest) vm .tailCall) := by
  have hl : f.base ≤ x.ra := hb ▸ base_le_ra x
  unfold plain
  rw [opTailCall_eq]
  refine Post.bind (Post.bind ((enterCall_post x .all true vm).mono ?_ fun _ hs => ?_))
  · rintro _ entered hx ⟨mid, g', hm, he⟩
    have hactive : entered.frames.active = g' :: f :: g :: rest := by
      rw [he.active, (onlyRegisters_of_shifts hm).frames, hf]
    refine (spliceTailCall_post hactive (he.heap ▸ he.1) he.top).mono ?_ fun _ h => h.elim
    exact fun _ after _ hs => Post.pure (.tailCalled (shifts_mono hm hl) hl he hs hx)
  · exact .works (by decide) (works_of_shifts (shifts_mono hs hl))

/-- Every instruction ends in one of the described ways, and none meets an internal fault. -/
theorem execute_post (hf : vm.frames.active = f :: g :: rest) (hb : x.base = f.base) (op : Opcode) :
    (execute x op).Post vm (Executed x f (g :: rest) vm op) (Failed f (g :: rest) vm op) := by
  cases op with
  | move => exact plain_post_of_keeps hb (by decide) (by decide) (opMove_keeps x)
  | loadK => exact plain_post_of_keeps hb (by decide) (by decide) (opLoadK_keeps x)
  | loadKX => exact plain_post_of_keeps hb (by decide) (by decide) (opLoadKX_keeps x)
  | loadBool => exact plain_post_of_keeps hb (by decide) (by decide) (opLoadBool_keeps x)
  | loadNil => exact plain_post_of_keeps hb (by decide) (by decide) (opLoadNil_keeps x)
  | getUpval => exact plain_post_of_keeps hb (by decide) (by decide) (opGetUpval_keeps x)
  | newTable => exact plain_post_of_keeps hb (by decide) (by decide) (opNewTable_keeps x)
  | not => exact plain_post_of_keeps hb (by decide) (by decide) (opNot_keeps x)
  | forLoop => exact plain_post_of_keeps hb (by decide) (by decide) (opForLoop_keeps x)
  | forPrep => exact plain_post_of_keeps hb (by decide) (by decide) (opForPrep_keeps x)
  | tforLoop =>
    exact plain_post_of_keeps hb (by decide) (by decide) (genericLoop_keeps _ (base_le_ra x))
  | setList => exact plain_post_of_keeps hb (by decide) (by decide) (opSetList_keeps x)
  | vararg => exact plain_post_of_keeps hb (by decide) (by decide) (opVararg_keeps x)
  | jmp => exact plain_post hb (by decide) (by decide) (opJmp_finishes x)
  | test => exact plain_post hb (by decide) (by decide) (opTest_finishes x)
  | testSet => exact plain_post hb (by decide) (by decide) (opTestSet_finishes x)
  | getTabUp => exact hooked_post hb (by decide) (by decide) (opGetTabUp_asks x)
  | getTable => exact hooked_post hb (by decide) (by decide) (opGetTable_asks x)
  | setTabUp => exact hooked_post hb (by decide) (by decide) (opSetTabUp_asks x)
  | setTable => exact hooked_post hb (by decide) (by decide) (opSetTable_asks x)
  | self => exact hooked_post hb (by decide) (by decide) (opSelf_asks x)
  | add | sub | mul | mod | pow | div | idiv | band | bor | bxor | shl | shr =>
    exact hooked_post hb (by decide) (by decide) (opArith_asks x _)
  | unm | bnot => exact hooked_post hb (by decide) (by decide) (opUnary_asks x _)
  | len => exact hooked_post hb (by decide) (by decide) (opLen_asks x)
  | concat => exact hooked_post hb (by decide) (by decide) (opConcat_asks x)
  | eq => exact hooked_post hb (by decide) (by decide) (opCompare_asks x equal_keeps)
  | lt => exact hooked_post hb (by decide) (by decide) (opCompare_asks x lessThan_keeps)
  | le => exact hooked_post hb (by decide) (by decide) (opCompare_asks x lessEqual_keeps)
  | tforCall => exact hooked_post hb (by decide) (by decide) (opTForCall_asks x)
  | closure =>
    have hmake := opClosure_post x vm
    rw [hb] at hmake
    exact Post.bind (hmake.mono (fun _ _ _ h => Post.pure (.made h)) fun _ h => h.elim)
  | setUpval =>
    have hset := opSetUpval_post x vm
    rw [hb] at hset
    exact Post.bind (hset.mono (fun _ _ _ h => Post.pure (.assigned h)) fun _ hw =>
      .works (by decide) hw)
  | call => exact opCall_post hb
  | tailCall => exact opTailCall_post hf hb
  | ret =>
    refine (opReturn_post x hf hb).mono ?_ fun _ h => .returned h
    rintro action after - ⟨rfl, h⟩
    exact .returned h
  | extraArg => exact Post.abort rfl

end Execute

/-! ## The step -/

/-- A step has fetched its instruction. The frame `f` is now `g`, past that instruction. -/
structure Begun (f : Frame) (below : List Frame) (vm : Vm) (x : Activation) (g : Frame) (mid : Vm) :
    Prop where
  fetched : beginStep vm = .returned x mid
  stack : mid.stack = vm.stack
  works : ReflTransGen (Work f.base) vm mid
  place : g.SamePlace f
  active : mid.frames.active = g :: below

/-- What a step leads to. -/
def Stepped (f : Frame) (below : List Frame) (vm : Vm) (action : Action) (after : Vm) : Prop :=
  ∃ x g mid op, Begun f below vm x g mid ∧ x.instr.op? = some op ∧
    Executed x g below mid op action after

/-- Where a step may fail. -/
def StepFailed (f : Frame) (below : List Frame) (vm after : Vm) : Prop :=
  ∃ x g mid op, Begun f below vm x g mid ∧ x.instr.op? = some op ∧ Failed g below mid op after

theorem begun_post {f : Frame} {below : List Frame} {vm : Vm} (hf : vm.frames.active = f :: below)
    (hc : f.closure.isSome) :
    beginStep.Post vm (fun x mid => ∃ g, Begun f below vm x g mid ∧ x.base = g.base)
      fun _ => False := by
  have hcurrent : vm.frames.current = f := (List.cons.inj hf).1
  have hbegin : beginStep.Post vm
      (fun x mid => x.base = f.base ∧ mid.stack = vm.stack ∧ ReflTransGen (Work f.base) vm mid)
        fun _ => False :=
    beginStep_post (hcurrent ▸ hc) (by rw [hcurrent])
  refine hbegin.mono ?_ fun _ h => h
  rintro x mid hx ⟨hbase, hstack, hworks⟩
  obtain ⟨g, hplace, hactive⟩ := (inPlace_of_works hworks).active hf
  exact ⟨g, ⟨hx, hstack, hworks, hplace, hactive⟩, by rw [hbase, hplace.base]⟩

/-- A frame that runs a closure, and has a frame below it, can always execute a step. -/
theorem dispatch_post {f g : Frame} {rest : List Frame} {vm : Vm}
    (hf : vm.frames.active = f :: g :: rest) (hc : f.closure.isSome) :
    dispatch.Post vm (Stepped f (g :: rest) vm) (StepFailed f (g :: rest) vm) := by
  refine Post.bind ((begun_post hf hc).mono ?_ fun _ h => h.elim)
  rintro x mid - ⟨f', hbegun, hbase⟩
  split
  · next op hop =>
    refine (execute_post hbegun.active hbase op).mono ?_ ?_
    · exact fun action after _ he => ⟨x, f', mid, op, hbegun, hop, he⟩
    · exact fun after he => ⟨x, f', mid, op, hbegun, hop, he⟩
  · exact Post.abort rfl

/-- A step executes the instruction that it has fetched. -/
theorem dispatch_of_fetched {x : Activation} {vm mid : Vm} {op : Opcode}
    (hx : beginStep vm = .returned x mid) (hop : x.instr.op? = some op) :
    dispatch vm = execute x op mid := by
  rw [dispatch, Exec.bind_of_returned hx]
  simp only [hop]

/-- The state in which the tail call that a step executes, if it is one, takes the place of its
caller. -/
def splicing? (vm : Vm) : Option Vm :=
  match beginStep vm with
  | .returned x mid =>
    match x.instr.op?, (placeArguments x >>= fun _ => precall x.ra .all true) mid with
    | some .tailCall, .returned _ entered => some entered
    | _, _ => none
  | _ => none

theorem splicing?_eq_some {vm entered : Vm} :
    vm.splicing? = some entered ↔
      ∃ x mid, beginStep vm = .returned x mid ∧ x.instr.op? = some .tailCall ∧
      (placeArguments x >>= fun _ => precall x.ra .all true) mid = .returned () entered := by
  unfold splicing?
  constructor
  · intro h
    split at h
    · next x mid hx =>
      split at h
      · next _ vm' hop he =>
        cases h
        exact ⟨x, mid, hx, hop, he⟩
      · cases h
    · cases h
  · rintro ⟨x, mid, hx, hop, he⟩
    rw [hx]
    dsimp only
    rw [hop, he]

theorem dispatch_of_splicing {x : Activation} {vm mid entered : Vm} {u : Unit}
    (hx : beginStep vm = .returned x mid) (hop : x.instr.op? = some .tailCall)
    (he : (placeArguments x >>= fun _ => precall x.ra .all true) mid = .returned u entered) :
    dispatch vm = plain spliceTailCall entered := by
  rw [dispatch_of_fetched hx hop]
  show plain (opTailCall x) mid = _
  unfold plain
  rw [opTailCall_eq, bind_assoc, Exec.bind_of_returned he]

/-- A step that gets that far puts the frame in place and can no longer fail. -/
theorem dispatch_post_of_splicing {f g : Frame} {rest : List Frame} {vm entered : Vm}
    (hf : vm.frames.active = f :: g :: rest) (hc : f.closure.isSome)
    (hs : vm.splicing? = some entered) :
    entered.upvalues = vm.upvalues ∧ dispatch.Post vm
      (fun action after => action = .next .proceed ∧
        ∃ callee caller, caller.base = f.base ∧ Spliced callee caller (g :: rest) entered after)
      fun _ => False := by
  obtain ⟨x, mid, hx, hop, he⟩ := splicing?_eq_some.mp hs
  obtain ⟨f', hbegun, hbase⟩ := (begun_post hf hc).of_returned hx
  obtain ⟨placed, callee, hw, hentered⟩ := (enterCall_post x .all true mid).of_returned he
  have hsame := onlyRegisters_of_shifts hw
  have hactive : entered.frames.active = callee :: f' :: g :: rest := by
    rw [hentered.active, hsame.frames, hbegun.active]
  refine ⟨?_, ?_⟩
  · rw [hentered.upvalues, hsame.upvalues, upvalues_of_works hbegun.works]
  · unfold Post
    rw [dispatch_of_splicing hx hop he]
    refine Post.bind
      ((spliceTailCall_post hactive (hentered.heap ▸ hentered.1) hentered.top).mono ?_ fun _ h => h)
    exact fun _ after _ hspliced => Post.pure ⟨rfl, callee, f', hbegun.place.base, hspliced⟩

end LuaMachine.Vm
