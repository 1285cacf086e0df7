import LuaMachine.Proofs.InstructionWords
import LuaMachine.Proofs.StandingFrames
import LuaMachine.Proofs.WholeInstructions

/-!
# Jumps that belong to a test

A test takes the jump behind it within its own instruction, and so does the call of an iterator the
end of the loop. It makes no difference to the machine: the state is the one after the first half of
the instruction alone, followed by the instruction behind it as a step of its own. Only the log of
executed instructions tells the two apart.
-/
namespace LuaMachine

namespace CallStack
variable (s : CallStack)

theorem ext {s t : CallStack} (hframes : s.frames = t.frames) (hdepth : s.depth = t.depth) :
    s = t := by
  obtain ⟨frames, depth, h⟩ := s
  obtain ⟨frames', depth', h'⟩ := t
  cases hframes
  cases hdepth
  rfl

theorem modifyCurrent_modifyCurrent (f g : Frame → Frame) :
    (s.modifyCurrent f).modifyCurrent g = s.modifyCurrent (g ∘ f) := by
  refine ext ?_ rfl
  refine Array.ext (by simp [modifyCurrent]) fun i h h' => ?_
  simp only [modifyCurrent, Array.getElem_modify]
  split <;> rfl

theorem modifyCurrent_congr {f g : Frame → Frame} (h : f s.current = g s.current) :
    s.modifyCurrent f = s.modifyCurrent g := by
  refine ext ?_ rfl
  refine Array.ext (by simp [modifyCurrent]) fun i hi hi' => ?_
  simp only [modifyCurrent, Array.getElem_modify]
  split
  next hdepth =>
    subst hdepth
    exact h
  next => rfl

end CallStack

/-! ## One more instruction in the log -/

/-- The machine with one more instruction in its log. -/
def Vm.logged (vm : Vm) (p : Prototype) (pc : Nat) : Vm :=
  { vm with trace := vm.trace.map (Vm.appendTrace · p pc) }

/-- The end of an operation with one more instruction in the log. -/
def Outcome.logged {α : Type} (p : Prototype) (pc : Nat) : Outcome α → Outcome α
  | .returned a vm => .returned a (vm.logged p pc)
  | .raised e vm => .raised e (vm.logged p pc)
  | .aborted why => .aborted why

/-- What a step leads to, with one more instruction in the log. -/
def Run.Progress.logged (p : Prototype) (pc : Nat) : Run.Progress → Run.Progress
  | .running r => .running { r with vm := r.vm.logged p pc }
  | .ended o => .ended (o.logged p pc)

namespace Exec
variable {α β : Type} {x : Exec α} {f : α → Exec β} {p : Prototype} {pc : Nat}

/-- The operation does not see the log. -/
def Unlogged (x : Exec α) : Prop :=
  ∀ vm p pc, x (vm.logged p pc) = (x vm).logged p pc

theorem Unlogged.bind (hx : x.Unlogged) (hf : ∀ a, (f a).Unlogged) : (x >>= f).Unlogged := by
  intro vm p pc
  show Exec.bind x f (vm.logged p pc) = (Exec.bind x f vm).logged p pc
  unfold Exec.bind
  rw [hx vm p pc]
  cases x vm with
  | returned a after => exact hf a after p pc
  | raised e after => rfl
  | aborted why => rfl

theorem getSlot_unlogged (slot : Nat) : (getSlot slot).Unlogged := by
  intro vm p pc
  unfold getSlot
  simp only [Vm.logged]
  cases vm.stack.get slot <;> rfl

theorem setSlot_unlogged (slot : Nat) (v : Value) : (setSlot slot v).Unlogged := by
  intro vm p pc
  unfold setSlot onStack
  simp only [Vm.logged]
  cases vm.stack.set slot v <;> rfl

end Exec

namespace Vm
variable {vm mid half : Vm} {x y : Activation}

theorem jump_unlogged (offset : Int) : (jump offset).Unlogged := fun _ _ _ => rfl

theorem closeForJump_unlogged (base a : Nat) : (closeForJump base a).Unlogged := by
  intro vm p pc
  unfold closeForJump
  split <;> rfl

theorem genericLoop_unlogged (ra : Nat) (offset : Int) : (genericLoop ra offset).Unlogged := by
  refine (Exec.getSlot_unlogged _).bind fun control => ?_
  split
  · exact (Exec.setSlot_unlogged ra control).bind fun _ => jump_unlogged offset
  · exact fun _ _ _ => rfl

/-! ## The instruction behind a test -/

/-- The machine with the position of its current frame moved. -/
def moved (vm : Vm) (pc : Nat → Nat) : Vm :=
  { vm with frames := vm.frames.modifyCurrent fun f => { f with pc := pc f.pc } }

theorem frames_moved_succ (vm : Vm) :
    (vm.moved (· + 1)).frames = vm.frames.modifyCurrent fun f =>
      { f with pc := vm.frames.current.pc + 1 } :=
  vm.frames.modifyCurrent_congr rfl

/-- A step moves the position of the current frame past its instruction, and logs it. -/
theorem eq_of_beginStep (h : beginStep vm = .returned x mid) :
    mid = (vm.moved (· + 1)).logged x.proto x.pc := by
  obtain ⟨c, instr, -, -, rfl, rfl⟩ := beginStep_eq_returned h
  rw [← frames_moved_succ]
  rfl

theorem current_before (h : beginStep vm = .returned x mid) : x.Current vm := by
  obtain ⟨c, instr, hc, -, rfl, -⟩ := beginStep_eq_returned h
  exact ⟨rfl, c, hc, rfl⟩

/-- The instruction that a step would execute is the one that a test finds behind it. -/
theorem fetchExpected_eq {op : Opcode} (h : beginStep vm = .returned x mid)
    (hop : x.instr.op? = some op) :
    fetchExpected x.proto vm.frames.current.pc op vm = .returned x.instr vm := by
  obtain ⟨c, instr, -, hfetch, rfl, -⟩ := beginStep_eq_returned h
  have hread : fetch (vm.heap.closureAt c).proto vm.frames.current.pc vm = .returned instr vm := by
    rw [fetch, hfetch]
    rfl
  show (fetch (vm.heap.closureAt c).proto vm.frames.current.pc >>= _) vm = _
  rw [Exec.bind_of_returned hread, if_pos (Instruction.op?_eq_some.mp hop)]
  rfl

/-- The machine after a jump. -/
def afterJump (vm : Vm) (base a : Nat) (offset : Int) : Vm :=
  let closed :=
    if a = 0 then vm else { vm with upvalues := vm.upvalues.close (base + (a - 1)) vm.stack.slots }
  closed.moved (jumpTarget · offset)

theorem takeJump_eq (base a : Nat) (offset : Int) (vm : Vm) :
    (closeForJump base a >>= fun _ => jump offset) vm = .returned ()
    (vm.afterJump base a offset) := by
  unfold closeForJump afterJump
  split <;> rfl

/-- A jump from behind its instruction goes as far as one that is longer by one from the
instruction. -/
theorem jumpTarget_succ (pc : Nat) (offset : Int) :
    jumpTarget (pc + 1) offset = jumpTarget pc (offset + 1) := by
  unfold jumpTarget
  rw [show ((pc + 1 : Nat) : Int) + offset = pc + (offset + 1) by omega]

theorem afterJump_moved (vm : Vm) (base a : Nat) (offset : Int) :
    (vm.moved (· + 1)).afterJump base a offset = vm.afterJump base a (offset + 1) := by
  have hframes : (vm.frames.modifyCurrent fun f => { f with pc := f.pc + 1 }).modifyCurrent
      (fun f => { f with pc := jumpTarget f.pc offset }) =
        vm.frames.modifyCurrent fun f => { f with pc := jumpTarget f.pc (offset + 1) } := by
    rw [CallStack.modifyCurrent_modifyCurrent]
    exact vm.frames.modifyCurrent_congr (by simp [jumpTarget_succ])
  unfold afterJump
  split <;> simp only [moved, hframes]

/-- A condition that holds takes the jump behind the test, as the jump does itself. -/
theorem endTest_true (h : beginStep half = .returned y mid) (hop : y.instr.op? = some .jmp) :
    endTest true half = (opJmp y >>= fun _ => pure .proceed) (half.moved (· + 1)) := by
  have hcurrent : Exec.currentFrame half = .returned half.frames.current half := rfl
  have hjump := takeJump_eq y.base y.instr.a (y.instr.sbx + 1) half
  have hself := takeJump_eq y.base y.instr.a y.instr.sbx (half.moved (· + 1))
  rw [endTest_eq (current_before h), conditionalJump, if_pos rfl, bind_assoc,
    Exec.bind_of_returned hcurrent, bind_assoc,
    Exec.bind_of_returned (fetchExpected_eq h hop), Exec.bind_of_returned hjump,
      ← afterJump_moved, opJmp,
    Exec.bind_of_returned hself]

/-- A condition that does not hold skips one instruction. -/
theorem endTest_false (h : x.Current vm) :
    endTest false vm = .returned .proceed (vm.moved (· + 1)) := by
  have htarget : (jumpTarget · 1) = (· + 1) := by
    funext pc
    rw [← Int.zero_add 1, ← jumpTarget_succ]
    exact Int.toNat_natCast _
  rw [endTest_eq h, ← htarget]
  rfl

/-- A round of a generic loop ends as the instruction behind the call of the iterator does. -/
theorem endRound_eq (h : beginStep half = .returned y mid) (hop : y.instr.op? = some .tforLoop) :
    endRound half = (genericLoop y.ra y.instr.sbx >>= fun _ => pure .proceed)
      (half.moved (· + 1)) := by
  have hcurrent : Exec.currentFrame half = .returned half.frames.current half := rfl
  have hrunning := current_before h
  have hmoved : (Exec.modifyFrame fun f => { f with pc := half.frames.current.pc + 1 }) half =
      .returned () (half.moved (· + 1)) := by
    show Outcome.returned () { half with frames := _ } = _
    rw [← frames_moved_succ]
    rfl
  rw [endRound, Exec.bind_of_returned hcurrent,
    Exec.bind_of_returned (runningPrototype_eq hrunning),
    Exec.bind_of_returned (fetchExpected_eq h hop), Exec.bind_of_returned hmoved, hrunning.base]
  rfl

/-- The opcode of the instruction behind one in two halves. -/
def secondHalf : Opcode → Opcode
  | .tforCall => .tforLoop
  | _ => .jmp

end Vm

namespace Run
variable {root : Vm.CallSite} {suspended : List Suspended} {half mid : Vm} {y : Vm.Activation}
  {op : Opcode}

/-- An instruction that does not see the log leaves it with its own entry. -/
theorem step_eq_logged {second : Exec Unit} (h : Vm.beginStep half = .returned y mid)
    (hop : y.instr.op? = some op) (hsecond : Vm.execute y op = Vm.plain second)
    (hlog : second.Unlogged) (hnever : second.Only fun _ => True) :
    step { vm := half, root, suspended } =
      (concluded root suspended ((second >>= fun _ => pure .proceed) (half.moved (· + 1)))).logged
        y.proto y.pc := by
  have hexecute : Vm.execute y op = (second >>= fun _ => pure .proceed) >>= fun next =>
      pure (.next next) := by
    rw [hsecond, Vm.plain, bind_assoc]
    simp only [pure_bind]
  have hstep : step { vm := half, root, suspended } =
    concluded root suspended ((second >>= fun _ => pure .proceed) mid) :=
    step_eq_concluded h hop hexecute
  have hmid := hlog (half.moved (· + 1)) y.proto y.pc
  rw [← Vm.eq_of_beginStep h] at hmid
  rw [hstep]
  cases ho : second (half.moved (· + 1)) with
  | raised e after => exact absurd ho hnever.raised
  | aborted why =>
    rw [ho] at hmid
    rw [Exec.bind_of_aborted ho, Exec.bind_of_aborted hmid]
    rfl
  | returned _ after =>
    rw [ho] at hmid
    rw [Exec.bind_of_returned ho, Exec.bind_of_returned hmid]
    rfl

/-- The instruction behind one in two halves does as a step of its own what it does as the second
half. -/
theorem step_of_secondHalf (h : Vm.beginStep half = .returned y mid)
    (hop : y.instr.op? = some (Vm.secondHalf op)) :
    step { vm := half, root, suspended } =
      (concluded root suspended (Vm.lastHalf op true half)).logged y.proto y.pc := by
  have hjmp (hop : y.instr.op? = some .jmp) : step { vm := half, root, suspended } =
      (concluded root suspended (Vm.endTest true half)).logged y.proto y.pc := by
    have hlog := (Vm.closeForJump_unlogged y.base y.instr.a).bind fun _ =>
      Vm.jump_unlogged y.instr.sbx
    rw [Vm.endTest_true h hop]
    refine step_eq_logged h hop rfl hlog ⟨fun _ => trivial, fun hx => ?_⟩
    rw [Vm.opJmp, Vm.takeJump_eq] at hx
    cases hx
  cases op with
  | tforCall =>
    rw [Vm.lastHalf, Vm.endRound_eq h hop]
    exact step_eq_logged h hop rfl (Vm.genericLoop_unlogged _ _) (Vm.genericLoop_only _ _)
  | _ => exact hjmp hop

end Run

/-! ## The first half -/

namespace Vm
variable {vm mid after half : Vm} {x : Activation} {fuel : Nat}

/-- The current frame runs the same closure, and its position is the same. -/
structure SamePosition (vm after : Vm) : Prop where
  pc : after.position = vm.position
  closure : after.frames.current.closure = vm.frames.current.closure

theorem SamePosition.of_frames (h : after.frames = vm.frames) : SamePosition vm after :=
  ⟨by rw [position, h]; rfl, by rw [h]⟩

theorem SamePosition.of_active (h : after.frames.active = vm.frames.active) :
    SamePosition vm after := by
  have hcurrent : after.frames.current = vm.frames.current := (List.cons.inj h).1
  exact ⟨congrArg Frame.pc hcurrent, congrArg Frame.closure hcurrent⟩

theorem SamePosition.trans (h : SamePosition vm mid) (h' : SamePosition mid after) :
    SamePosition vm after :=
  ⟨h'.pc.trans h.pc, h'.closure.trans h.closure⟩

theorem samePosition_released (vm : Vm) (negated : Bool) :
    SamePosition vm (vm.released negated) := by
  unfold released
  split
  · exact ⟨by simp [position, marked], by simp [marked]⟩
  · exact ⟨rfl, rfl⟩

theorem answer_samePosition {v : Verdict} {b : Bool} (hu : vm.upvalues.Sound)
    (h : answer fuel v vm = .returned b after) : SamePosition vm after := by
  cases v with
  | decided _ =>
    cases h
    exact ⟨rfl, rfl⟩
  | ask negated handler args =>
    cases hcall : callFunction fuel handler args vm with
    | raised e last =>
      rw [answer_of_raised hcall] at h
      cases h
    | aborted why =>
      rw [answer_of_aborted hcall] at h
      cases h
    | returned results last =>
      rw [answer_of_returned hcall] at h
      cases h
      have hholding := (callFunction_holding fuel handler args vm ⟨hu, rfl⟩).of_returned hcall
      exact (SamePosition.of_active hholding.active).trans (samePosition_released last negated)

theorem compared_samePosition {comparison : Value → Value → Exec Verdict} {b : Bool}
    (hk : ∀ lhs rhs, (comparison lhs rhs).Keeps (Work 0))
      (hs : ∀ lhs rhs, (comparison lhs rhs).Stands fun _ => True)
    (hu : mid.upvalues.Sound)
    (h : firstHalf?.compared x (fun lhs rhs => comparison lhs rhs >>= answer fuel) mid =
      .returned b half) :
    SamePosition mid half := by
  obtain ⟨lhs, left, hl, hrest⟩ := Exec.bind_eq_returned_iff.mp h
  obtain ⟨rhs, right, hr, hanswer⟩ := Exec.bind_eq_returned_iff.mp hrest
  obtain rfl := operandValue_eq_returned hl
  obtain rfl := operandValue_eq_returned hr
  obtain ⟨answered, last, hcompared, hpure⟩ := Exec.bind_eq_returned_iff.mp hanswer
  obtain ⟨verdict, asked, hverdict, hanswered⟩ := Exec.bind_eq_returned_iff.mp hcompared
  cases hpure
  have hworks := (hk lhs rhs _).of_returned hverdict
  have hasked : SamePosition _ asked :=
    ⟨(hs lhs rhs).returned hverdict trivial, (inPlace_of_works hworks).current.closure⟩
  exact hasked.trans (answer_samePosition (durable_sound.works hworks hu) hanswered)

/-- The first half of an instruction leaves the current frame where it is. -/
theorem firstHalf_samePosition {op : Opcode} {first : Exec Bool} {b : Bool}
    (hu : mid.upvalues.Sound) (hfirst : firstHalf? fuel x op = some first)
    (h : first mid = .returned b half) : SamePosition mid half := by
  cases op with
  | eq =>
    cases hfirst
    exact compared_samePosition equal_keeps equal_stands hu h
  | lt =>
    cases hfirst
    exact compared_samePosition lessThan_keeps lessThan_stands hu h
  | le =>
    cases hfirst
    exact compared_samePosition lessEqual_keeps lessEqual_stands hu h
  | test => exact .of_frames (alone_of_test hfirst h).2
  | testSet => exact .of_frames (alone_of_testSet hfirst h).2
  | tforCall =>
    cases hfirst
    obtain ⟨_, copied, hcopy, hrest⟩ := Exec.bind_eq_returned_iff.mp h
    obtain ⟨s, -, rfl⟩ := Exec.onStack_eq_returned_iff.mp hcopy
    obtain ⟨_, placed, htop, hrest⟩ := Exec.bind_eq_returned_iff.mp hrest
    cases htop
    obtain ⟨_, last, hcall, hrest⟩ := Exec.bind_eq_returned_iff.mp hrest
    obtain ⟨_, reset, hreset, hpure⟩ := Exec.bind_eq_returned_iff.mp hrest
    cases hreset
    cases hpure
    have hplaced : Holding mid.frames.active { mid with stack := s, top := x.ra + 3 + 3 } :=
      ⟨hu, rfl⟩
    exact .of_active ((call_holding fuel _ _ _ hplaced).of_returned hcall).active
  | _ => cases hfirst

/-- The call of an iterator has no condition. -/
theorem lastHalf_false {op : Opcode} {first : Exec Bool}
    (hfirst : firstHalf? fuel x op = some first) (h : first mid = .returned false half) :
    lastHalf op false = endTest false := by
  cases op with
  | tforCall =>
    cases hfirst
    obtain ⟨_, copied, -, hrest⟩ := Exec.bind_eq_returned_iff.mp h
    obtain ⟨_, placed, -, hrest⟩ := Exec.bind_eq_returned_iff.mp hrest
    obtain ⟨_, last, -, hrest⟩ := Exec.bind_eq_returned_iff.mp hrest
    obtain ⟨_, reset, -, hpure⟩ := Exec.bind_eq_returned_iff.mp hrest
    cases hpure
  | _ => rfl

/-- An instruction whose condition holds, and which therefore takes the jump or the end of the loop
behind it, leads to what a step with that instruction alone leads to after its first half. Only the
log shows the instruction behind it then. If the condition does not hold, that instruction is
skipped and nothing else happens. If the first half fails, the run fails where it does. The first
half leaves the position of the frame behind the instruction. -/
theorem fused_eq_separate {func : Nat} {results : ResultCount} {r : Run} {op : Opcode}
    {first : Exec Bool} (hv : vm.Reachable) (hr : During vm func results r)
    (hx : beginStep r.vm = .returned x mid) (hop : x.instr.op? = some op)
    (hfirst : firstHalf? fuel x op = some first) :
    (∀ half, first mid = .returned true half → half.position = r.vm.position + 1 ∧
      ∀ y next, beginStep half = .returned y next → y.instr.op? = some (secondHalf op) →
        ∃ p, Run.Completes r.suspended r p ∧
          Run.step { r with vm := half } = p.logged y.proto y.pc) ∧
    (∀ half, first mid = .returned false half → half.position = r.vm.position + 1 ∧
      Run.Completes r.suspended r (.running { r with vm := half.moved (· + 1) })) ∧
    ∀ e after, first mid = .raised e after →
      Run.Completes r.suspended r (.ended (Run.fail e r.root r.suspended after)) := by
  obtain ⟨-, -, f, own, below, hexecuting⟩ := executing_of_during hv.sound hr
  have hmid := eq_of_beginStep hx
  have hsound : mid.upvalues.Sound := hmid ▸ hexecuting.sound
  have hposition : mid.position = r.vm.position + 1 := by
    rw [hmid]
    simp [position, moved, logged]
  have hwhole : ∀ o, first mid = o → o ≠ .aborted .outOfFuel →
      Run.Completes r.suspended r
        (Run.concluded r.root r.suspended ((first >>= lastHalf op) mid)) := by
    rintro o rfl hfuel
    exact Run.completes_of_halves hx hop hfirst hfuel
  refine ⟨fun half h => ?_, fun half h => ?_, fun e after h => ?_⟩
  · have hcompletes := hwhole _ h (by simp)
    rw [Exec.bind_of_returned h] at hcompletes
    refine ⟨(firstHalf_samePosition hsound hfirst h).pc.trans hposition, fun y next hy hopy => ?_⟩
    exact ⟨_, hcompletes, Run.step_of_secondHalf hy hopy⟩
  · have hcompletes := hwhole _ h (by simp)
    have hsame := firstHalf_samePosition hsound hfirst h
    rw [Exec.bind_of_returned h] at hcompletes
    refine ⟨hsame.pc.trans hposition, ?_⟩
    obtain ⟨-, c, hc, -⟩ := current_of_beginStep hx
    let y : Activation :=
      { x with closure := half.heap.closureAt c, base := half.frames.current.base }
    have hcurrent : y.Current half := ⟨rfl, c, hsame.closure.trans hc, rfl⟩
    rw [lastHalf_false hfirst h, endTest_false hcurrent] at hcompletes
    exact hcompletes
  · have hcompletes := hwhole _ h (by simp)
    rw [Exec.bind_of_raised h] at hcompletes
    exact hcompletes

/-- The state after the first half of the instruction that comes next, if its condition holds and
its second half is behind it. -/
def fusing? (fuel : Nat) (vm : Vm) : Option Vm := do
  let (x, mid) ← (beginStep vm).result?
  let op ← x.instr.op?
  let first ← firstHalf? fuel x op
  let (condition, half) ← (first mid).result?
  let (y, _) ← (beginStep half).result?
  if condition ∧ y.instr.op? = some (secondHalf op) then some half else none

/-- What the second half of an instruction needs. -/
theorem fusing?_eq_some (h : vm.fusing? fuel = some half) :
    ∃ x mid op first y next, beginStep vm = .returned x mid ∧ x.instr.op? = some op ∧
      firstHalf? fuel x op = some first ∧ first mid = .returned true half ∧
      beginStep half = .returned y next ∧
      y.instr.op? = some (secondHalf op) := by
  simp only [fusing?, Option.bind_eq_bind, Option.bind_eq_some_iff] at h
  obtain ⟨⟨x, mid⟩, hx, op, hop, first, hfirst, ⟨condition, half'⟩, hhalf, ⟨y, next⟩, hy, hif⟩ := h
  split at hif
  · next hboth =>
    cases hif
    obtain ⟨rfl, hsecond⟩ := hboth
    exact ⟨x, mid, op, first, y, next, Outcome.result?_eq_some hx, hop, hfirst,
      Outcome.result?_eq_some hhalf, Outcome.result?_eq_some hy, hsecond⟩
  · cases hif

/-- Goes through what an iterator gives, after one instruction that does nothing. -/
def goThrough : Prototype where
  paramCount := 3
  maxStackSize := 8
  code := #[⟨0x00000000⟩, ⟨0x00004029⟩, ⟨0x7FFF40AA⟩, ⟨0x00800026⟩]

/-- Returns its parameter. -/
def giveBack : Prototype where
  paramCount := 1
  maxStackSize := 2
  code := #[⟨0x01000026⟩]

def loopHost : Vm :=
  .new { initialStackSize := 16 } .standard {
    closures := #[
      { proto := goThrough, upvalues := #[] }, { proto := giveBack, upvalues := #[] }] } {}

/-- A loop calls its iterator and then goes back. -/
theorem fused_eq_separate_loop :
    ∃ (vm half : Vm) (r : Run) (y : Activation) (p : Run.Progress),
      Reachable vm ∧ During vm 0 .all r ∧ r.vm.fusing? 1 = some half ∧
      Run.Completes r.suspended r p ∧ Run.step { r with vm := half } = p.logged y.proto y.pc := by
  have hcheck : ((firstStep loopHost [.closure ⟨0⟩, .closure ⟨1⟩, .bool true, .nil]).any fun p =>
      (p.2.vm.fusing? 1).isSome) = true := by decide +kernel
  obtain ⟨⟨vm, r⟩, hstep, hfusing⟩ := (Option.any_eq_true _ _).mp hcheck
  obtain ⟨half, hhalf⟩ := Option.isSome_iff_exists.mp hfusing
  obtain ⟨hreachable, hduring⟩ := during_of_firstStep (.new _ _ _ rfl) hstep
  obtain ⟨x, mid, op, first, y, next, hx, hop, hfirst, hheld, hy, hsecond⟩ := fusing?_eq_some hhalf
  obtain ⟨-, hboth⟩ := (fused_eq_separate hreachable hduring hx hop hfirst).1 half hheld
  obtain ⟨p, hcompletes, hseparate⟩ := hboth y next hy hsecond
  exact ⟨vm, half, r, y, p, hreachable, hduring, hhalf, hcompletes, hseparate⟩

end Vm

end LuaMachine
