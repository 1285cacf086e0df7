import LuaMachine.Proofs.ArgumentPassing
import LuaMachine.Proofs.ResourceLimits

/-!
# The depth of tail calls

A tail call is entered one frame above its caller before it takes the caller's place, so it is
checked against the limit of the call depth plus one. In every run a function is at or below the
limit, and then the check can only fail because that sum is no machine word. With any other limit a
tail call of a closure is stopped by the stack alone.
-/
namespace LuaMachine

/-! ## Sums of words -/

namespace Checked
variable {α β : Type}

/-- The step does not end in a sum that is no machine word. -/
def InWords (c : Checked α) : Prop := c ≠ .error (.fault .wordOverflow)

theorem InWords.ok (a : α) : InWords (.ok a : Checked α) := by simp [InWords]

theorem InWords.of_error {c : Checked α} {why : Abort} (hc : c.InWords) (h : c = .error why) :
    InWords (.error why : Checked β) := by
  intro hwhy
  cases hwhy
  exact hc h

theorem add_eq_error_iff {a b : ℕ} :
    add a b = .error (.fault .wordOverflow) ↔ wordLimit ≤ a + b := by
  rw [add, ← not_lt]
  split_ifs with h <;> simp [h]

theorem sub_inWords (a b : ℕ) : (sub a b).InWords := by
  unfold sub InWords
  split_ifs <;> simp

end Checked

namespace RegisterStack
variable (s : RegisterStack) (source target : ℕ)

theorem get_inWords : (s.get source).InWords := by
  unfold get Checked.InWords
  split <;> simp [outside]

theorem set_inWords (v : Value) : (s.set target v).InWords := by
  unfold set Checked.InWords
  split_ifs <;> simp [outside]

theorem take_inWords : (s.take source).InWords := by
  fun_cases take s source with
  | case1 why h => exact (s.get_inWords source).of_error h
  | case2 v _ why h => exact (s.set_inWords source .nil).of_error h
  | case3 v _ t _ => exact .ok (v, t)

theorem fillNil_inWords (count : ℕ) : (s.fillNil target count).InWords := by
  fun_induction fillNil s target count with
  | case1 s target => exact .ok s
  | case2 s target count why h => exact (s.set_inWords target .nil).of_error h
  | case3 s target count t _ ih => exact ih

theorem copyDown_inWords (count : ℕ) : (s.copyDown source target count).InWords := by
  fun_induction copyDown s source target count with
  | case1 s => exact .ok s
  | case2 s source target count why h => exact (s.get_inWords source).of_error h
  | case3 s source target count v _ why h => exact (s.set_inWords target v).of_error h
  | case4 s source target count v _ t _ ih => exact ih

theorem takeUp_inWords (count : ℕ) : (Vm.takeUp s source target count).InWords := by
  fun_induction Vm.takeUp s source target count with
  | case1 s => exact .ok s
  | case2 s source target count why h => exact (s.take_inWords source).of_error h
  | case3 s source target count v s' _ why h => exact (s'.set_inWords target v).of_error h
  | case4 s source target count v s' _ t _ ih => exact ih

end RegisterStack

theorem CallStack.collapse_inWords (s : CallStack) (f : Frame) : (s.collapse f).InWords := by
  unfold CallStack.collapse Checked.InWords
  split_ifs <;> simp

/-! ## What can stop a tail call -/

namespace Exec
variable {α β : Type} {x : Exec α} {f : α → Exec β} {vm : Vm} {excess : Prop}

/-- The operation raises an error only in case of an excess, and no sum of words stops it. -/
def Modest (x : Exec α) (vm : Vm) (excess : Prop) : Prop :=
  match x vm with
  | .returned _ _ => True
  | .raised _ _ => excess
  | .aborted why => why ≠ .fault .wordOverflow

theorem Modest.of_raised {e : LuaError} {after : Vm} (h : x.Modest vm excess)
    (hx : x vm = .raised e after) : excess := by
  unfold Modest at h
  rwa [hx] at h

theorem Modest.ne_overflow (h : x.Modest vm excess) : x vm ≠ .aborted (.fault .wordOverflow) := by
  intro hx
  unfold Modest at h
  rw [hx] at h
  exact h rfl

theorem Modest.of_returned {a : α} {after : Vm} (h : x vm = .returned a after) :
    x.Modest vm excess := by
  unfold Modest
  rw [h]
  trivial

theorem Modest.bind (hx : x.Modest vm excess)
    (hf : ∀ a mid, x vm = .returned a mid → (f a).Modest mid excess) :
    (x >>= f).Modest vm excess := by
  unfold Modest at hx ⊢
  cases hvm : x vm with
  | returned a mid =>
    rw [bind_of_returned hvm]
    exact hf a mid hvm
  | raised e mid =>
    rw [hvm] at hx
    rwa [bind_of_raised hvm]
  | aborted why =>
    rw [hvm] at hx
    rwa [bind_of_aborted hvm]

/-- What is returned goes into the rest of the operation. -/
theorem Modest.next {a : α} {mid : Vm} (hx : x vm = .returned a mid)
    (hf : (f a).Modest mid excess) : (x >>= f).Modest vm excess := by
  unfold Modest
  rw [bind_of_returned hx]
  exact hf

theorem Modest.ite {c : Prop} [Decidable c] {y : Exec α} (hx : c → x.Modest vm excess)
    (hy : ¬ c → y.Modest vm excess) : (if c then x else y).Modest vm excess := by
  split_ifs with hc
  · exact hx hc
  · exact hy hc

theorem Modest.abort {why : Abort} (h : why ≠ .fault .wordOverflow) :
    (Exec.abort why : Exec α).Modest vm excess :=
  h

theorem Modest.check {c : Checked α} (h : c.InWords) : (check c).Modest vm excess := by
  cases c with
  | ok a => trivial
  | error why =>
    intro hwhy
    cases hwhy
    exact h rfl

theorem Modest.onStack {g : RegisterStack → Checked RegisterStack} (h : (g vm.stack).InWords) :
    (Exec.onStack g).Modest vm excess := by
  unfold Modest Exec.onStack
  dsimp only
  cases hs : g vm.stack with
  | ok s => trivial
  | error why =>
    intro hwhy
    cases hwhy
    exact h hs

theorem Modest.onFrames {g : CallStack → Checked CallStack} (h : (g vm.frames).InWords) :
    (Exec.onFrames g).Modest vm excess := by
  unfold Modest Exec.onFrames
  dsimp only
  cases hs : g vm.frames with
  | ok s => trivial
  | error why =>
    intro hwhy
    cases hwhy
    exact h hs

theorem ensure_modest (wanted : ℕ) : (ensure wanted).Modest vm (vm.stack.limit < wanted) := by
  unfold Modest
  cases hx : ensure wanted vm with
  | returned u after => trivial
  | raised e after => exact (ensure_eq_raised hx).1
  | aborted why =>
    -- Growing asks for storage and adds nothing.
    unfold ensure RegisterStack.ensure? Checked.reserve at hx
    dsimp only at hx
    split_ifs at hx with hsize hlimit hbytes
    cases hx
    simp

end Exec

namespace Vm
variable {vm : Vm} {excess : Prop} {func : ℕ} {results : ResultCount} {r : ClosureRef}

theorem adjustVarargs_modest (paramCount argCount : ℕ) :
    (adjustVarargs paramCount argCount).Modest vm excess := by
  refine .next rfl (.bind (.check (Checked.sub_inWords _ _)) fun fixed _ _ => ?_)
  refine .bind (.onStack (RegisterStack.takeUp_inWords _ _ _ _)) fun _ _ _ => ?_
  refine .bind (.onStack (RegisterStack.fillNil_inWords _ _ _)) fun _ _ _ => ?_
  exact .next rfl (.of_returned rfl)

/-- The depth check lets a call pass. -/
def DepthAllows (tailCall : Bool) (vm : Vm) : Prop :=
  ∃ limit, depthLimit tailCall vm.config.maxCallDepth = .ok limit ∧ vm.callDepth < limit

/-- A call that passes the depth check is entered unless the stack cannot hold its registers. -/
theorem enterFrame_modest {tailCall : Bool} (h : vm.DepthAllows tailCall) :
    (enterFrame r func results tailCall).Modest vm
      (vm.stack.limit < vm.top + (vm.heap.closureAt r).proto.maxStackSize) := by
  obtain ⟨limit, hlimit, hdepth⟩ := h
  have hcheck : Exec.check (depthLimit tailCall vm.config.maxCallDepth) vm =
      .returned limit vm := by rw [hlimit]; rfl
  refine .next rfl (.next rfl (.next hcheck (.next rfl (.ite (fun hle => ?_) fun _ => ?_))))
  · exact absurd hdepth (Nat.not_lt.mpr hle)
  refine .next rfl (.bind (Exec.ensure_modest _) fun _ _ _ => ?_)
  refine .bind (.check (Checked.sub_inWords _ _)) fun argCount _ _ => .ite (fun _ => ?_) fun _ => ?_
  · exact .bind (adjustVarargs_modest _ _) fun _ _ _ => .of_returned rfl
  · exact .bind (.onStack (RegisterStack.fillNil_inWords _ _ _)) fun _ _ _ => .of_returned rfl

theorem spliceTailCall_modest : spliceTailCall.Modest vm excess := by
  refine .next rfl (.next rfl ?_)
  split
  · next caller _ =>
    split
    · next r _ =>
      refine .next rfl (.next rfl (.bind (.check (Checked.sub_inWords _ _)) fun moved _ _ => ?_))
      refine .bind (.onStack (RegisterStack.copyDown_inWords _ _ _ _)) fun _ _ _ => ?_
      refine .bind (.check (Checked.sub_inWords _ _)) fun offset _ _ => .next rfl ?_
      refine .bind (.check (Checked.sub_inWords _ _)) fun height _ _ => .next rfl ?_
      refine .bind (.onFrames (CallStack.collapse_inWords _ _)) fun _ _ _ =>
        .ite (fun _ => ?_) fun _ => ?_
      · exact .abort (by simp)
      · exact .of_returned rfl
    · exact .abort (by simp)
  · exact .abort (by simp)

/-! ## Tail calls of closures -/

/-- The next instruction is a tail call, its arguments have been placed, and what it calls is a
closure. -/
structure TailCalling (vm : Vm) (x : Activation) (c : ClosureRef) (placed : Vm) : Prop where
  fetched : ∃ mid, beginStep vm = .returned x mid ∧ placeArguments x mid = .returned () placed
  op : x.instr.op? = some .tailCall
  callee : placed.stack.slots[x.ra]? = some (.closure c)

section TailCalling
variable {x : Activation} {c : ClosureRef} {placed : Vm}

/-- Nothing that the depth check reads changes before it. -/
theorem TailCalling.same (h : vm.TailCalling x c placed) :
    placed.config = vm.config ∧ placed.callDepth = vm.callDepth := by
  obtain ⟨mid, hbegin, hplace⟩ := h.fetched
  obtain ⟨_, _, -, -, -, rfl⟩ := beginStep_eq_returned hbegin
  have hshifts := (placeArguments_keeps x _).of_returned hplace
  refine ⟨(retains_of_shifts hshifts).config, ?_⟩
  rw [callDepth, (onlyRegisters_of_shifts hshifts).frames]
  rfl

/-- Such a step enters the closure and puts its frame in the place of the caller. -/
theorem TailCalling.dispatch_eq (h : vm.TailCalling x c placed) :
    dispatch vm = plain (enterFrame c x.ra .all true >>= fun _ => spliceTailCall) placed := by
  obtain ⟨mid, hbegin, hplace⟩ := h.fetched
  have hprecall : precall x.ra .all true placed = enterFrame c x.ra .all true placed :=
    enterFunction_of_closure h.callee (placed.stack.limit - placed.top)
  rw [dispatch_of_fetched hbegin h.op]
  change plain (opTailCall x) mid = _
  simp only [plain, opTailCall, bind_assoc]
  rw [Exec.bind_of_returned hplace]
  change Exec.bind (precall x.ra .all true) _ placed = Exec.bind _ _ placed
  rw [Exec.bind, Exec.bind, hprecall]

theorem depthAllows_iff (h : vm.callDepth ≤ vm.config.maxCallDepth) :
    vm.DepthAllows true ↔ vm.config.maxCallDepth + 1 < wordLimit := by
  unfold DepthAllows depthLimit Checked.add
  rw [if_pos rfl]
  constructor
  · rintro ⟨limit, hlimit, -⟩
    split_ifs at hlimit with hword
    exact hword
  · intro hword
    exact ⟨_, if_pos hword, Nat.lt_succ_of_le h⟩

/-- A depth check whose limit is no word stops the call before anything else. -/
theorem enterFrame_of_overflow (h : wordLimit ≤ vm.config.maxCallDepth + 1) :
    enterFrame c func results true vm = .aborted (.fault .wordOverflow) := by
  have hlimit : depthLimit true vm.config.maxCallDepth = .error (.fault .wordOverflow) :=
    Checked.add_eq_error_iff.mpr h
  have hcheck : Exec.check (depthLimit true vm.config.maxCallDepth) vm =
      .aborted (.fault .wordOverflow) := by
    rw [hlimit]
    rfl
  exact (Exec.bind_of_returned rfl).trans
    ((Exec.bind_of_returned rfl).trans (Exec.bind_of_aborted hcheck))

end TailCalling

/-- In every run a function is at or below the limit of the call depth. A tail call of a closure
from there passes the depth check exactly if that limit plus one is a machine word. If it is, then
no sum of words stops the call, and if it is not, then nothing but such a sum does. An error is
raised only for a stack that cannot hold the registers. -/
theorem tailCall_passes_iff (limits : Config) :
    (∀ vm func results r, Hosted limits vm → During vm func results r →
      r.vm.config = limits ∧ r.vm.callDepth ≤ limits.maxCallDepth) ∧
    ∀ vm x c placed, vm.config = limits → vm.callDepth ≤ limits.maxCallDepth →
      TailCalling vm x c placed → (placed.DepthAllows true ↔ limits.maxCallDepth + 1 < wordLimit) ∧
      (dispatch vm = .aborted (.fault .wordOverflow) ↔ ¬ placed.DepthAllows true) ∧
      ∀ e after, dispatch vm = .raised e after →
        placed.stack.limit < placed.top + (placed.heap.closureAt c).proto.maxStackSize := by
  refine ⟨fun vm func results r hvm hr => ?_, fun vm x c placed hconfig hdepth htail => ?_⟩
  · have hbounded := bounded_of_during hvm.atRest.sound hvm.atRest.firm hr
    exact ⟨hbounded.config, hbounded.depth⟩
  · obtain ⟨hsame, hplaced⟩ := htail.same
    rw [← hplaced, ← hconfig, ← hsame] at hdepth
    have hallows := depthAllows_iff hdepth
    rw [← hconfig, ← hsame]
    refine ⟨hallows, ?_⟩
    rw [htail.dispatch_eq]
    by_cases hword : placed.DepthAllows true
    · have hmodest : (plain (enterFrame c x.ra .all true >>= fun _ => spliceTailCall)).Modest placed
          (placed.stack.limit < placed.top + (placed.heap.closureAt c).proto.maxStackSize) :=
        .bind (.bind (enterFrame_modest hword) fun _ _ _ => spliceTailCall_modest) fun _ _ _ =>
          .of_returned rfl
      exact ⟨iff_of_false hmodest.ne_overflow (not_not.mpr hword),
        fun e after hx => hmodest.of_raised hx⟩
    · have haborts : plain (enterFrame c x.ra .all true >>= fun _ => spliceTailCall) placed =
          .aborted (.fault .wordOverflow) :=
        Exec.bind_of_aborted
          (Exec.bind_of_aborted (enterFrame_of_overflow (Nat.le_of_not_lt (mt hallows.mpr hword))))
      refine ⟨iff_of_true haborts hword, fun e after hx => ?_⟩
      cases haborts.symm.trans hx

/-- A function that copies its parameter and then calls it in its own place. -/
def copyThenReplace : Prototype where
  paramCount := 1
  maxStackSize := 3
  code := #[⟨0x00000040⟩, ⟨0x00800025⟩]

/-- The largest limit of the call depth that is a machine word. -/
def deepestLimits : Config := { tightLimits with maxCallDepth := 18446744073709551615 }

def deepestHost : Vm :=
  .new deepestLimits .standard { closures := #[{ proto := copyThenReplace, upvalues := #[] }] } {}

/-- With the largest limit a tail call from the first frame is stopped, though that frame is far
below the limit. -/
theorem tailCall_passes_iff_deepest :
    ∃ vm r x c placed, Hosted deepestLimits vm ∧ During vm 0 .all r ∧ r.vm.config = deepestLimits ∧
      r.vm.callDepth ≤ deepestLimits.maxCallDepth ∧ TailCalling r.vm x c placed ∧
      dispatch r.vm = .aborted (.fault .wordOverflow) := by
  have hcheck : ((firstStep deepestHost [.closure ⟨0⟩, .closure ⟨0⟩]).any fun p =>
      (beginStep p.2.vm).result?.any fun q => (placeArguments q.1 q.2).result?.any fun s =>
        q.1.instr.op? == some .tailCall && s.2.stack.slots[q.1.ra]? == some (.closure ⟨0⟩)) =
          true := by decide +kernel
  obtain ⟨⟨vm, r⟩, hfirst, hrest⟩ := (Option.any_eq_true _ _).mp hcheck
  obtain ⟨⟨x, mid⟩, hbegin, hrest⟩ := (Option.any_eq_true _ _).mp hrest
  obtain ⟨⟨_, placed⟩, hplace, hboth⟩ := (Option.any_eq_true _ _).mp hrest
  obtain ⟨hop, hslot⟩ := Bool.and_eq_true_iff.mp hboth
  have htail : TailCalling r.vm x ⟨0⟩ placed :=
    ⟨⟨mid, Outcome.result?_eq_some hbegin, Outcome.result?_eq_some hplace⟩, beq_iff_eq.mp hop,
      beq_iff_eq.mp hslot⟩
  obtain ⟨hpush, hduring⟩ := firstStep_eq_some hfirst
  have hhosted : Hosted deepestLimits vm := (Hosted.new deepestLimits _ _ rfl).pushAll hpush
  obtain ⟨hruns, hcalls⟩ := tailCall_passes_iff deepestLimits
  obtain ⟨hconfig, hdepth⟩ := hruns vm 0 .all r hhosted hduring
  obtain ⟨hallows, haborts, -⟩ := hcalls r.vm x ⟨0⟩ placed hconfig hdepth htail
  exact ⟨vm, r, x, ⟨0⟩, placed, hhosted, hduring, hconfig, hdepth, htail,
    haborts.mpr (mt hallows.mp (by decide))⟩

end Vm

end LuaMachine
