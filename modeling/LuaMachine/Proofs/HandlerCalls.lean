import LuaMachine.Proofs.ArgumentPassing
import LuaMachine.Proofs.BalancedCalls

/-!
# What a handler gives

An operation without a result of its own may come down to the call of a handler. The handler and its
arguments are pushed on top of the stack and called there. So a closure starts with these arguments,
and what it returns or fails with is what comes of the operation.
-/
namespace LuaMachine.Vm

variable {vm after : Vm} {u : Unit} {v : Value} {vs before : List Value} {start : Nat}

/-! ## The arguments of a handler -/

/-- A value that is pushed stands behind the block that ended at the top. -/
theorem push_holds (hp : push v vm = .returned u after) (hheld : vm.stack.Holds start before)
    (htop : start + before.length = vm.top) :
    after.stack.Holds start (before ++ [v]) ∧ start + (before ++ [v]).length = after.top := by
  obtain ⟨grown, hgrown, hroom, rfl⟩ := push_eq_returned hp
  refine ⟨RegisterStack.holds_append.mpr ⟨?_, ?_⟩, ?_⟩
  · refine (hgrown.holds hheld).congr fun slot _ hlt => ?_
    exact Array.getElem?_setIfInBounds_ne (by omega)
  · rw [htop, RegisterStack.holds_cons]
    exact ⟨Array.getElem?_setIfInBounds_self_of_lt hroom, RegisterStack.holds_nil⟩
  · rw [List.length_append, List.length_singleton]
    show _ = vm.top + 1
    omega

theorem pushAll_holds (hp : pushAll vs vm = .returned u after)
    (hheld : vm.stack.Holds start before) (htop : start + before.length = vm.top) :
    after.stack.Holds start (before ++ vs) ∧ start + (before ++ vs).length = after.top := by
  induction vs generalizing vm before with
  | nil =>
    cases hp
    rw [List.append_nil]
    exact ⟨hheld, htop⟩
  | cons v vs ih =>
    obtain ⟨_, mid, hpush, hrest⟩ := Exec.bind_eq_returned_iff.mp hp
    obtain ⟨hmid, hmidTop⟩ := push_holds hpush hheld htop
    rw [← List.singleton_append, ← List.append_assoc]
    exact ih hrest hmid hmidTop

/-- Values that were pushed stand from the old top to the new one. -/
theorem slice_of_pushAll (hp : pushAll (v :: vs) vm = .returned u after) :
    after.stack.slice vm.top after.top = .ok (v :: vs) := by
  obtain ⟨hheld, htop⟩ := pushAll_holds hp RegisterStack.holds_nil (Nat.add_zero vm.top)
  rw [List.nil_append] at hheld htop
  exact RegisterStack.slice_eq_ok_iff.mpr ⟨htop, htop ▸ hheld.room (List.cons_ne_nil _ _), hheld⟩

/-! ## Its results -/

/-- What comes of a call of a handler. A closure is entered with the arguments. The results of the
call are made use of, and an error is passed on, as is the one of a stack without room for the
arguments. -/
structure HandlerGives {α : Type} (fuel : Nat) (handler : Value) (args : List Value)
    (use : List Value → α) (vm : Vm) (outcome : Outcome α) : Prop where
  entered : ∀ c pushed root start, handler = .closure c →
    (vm.heap.closureAt c).proto.paramCount ≤ (vm.heap.closureAt c).proto.maxStackSize →
    pushAll (handler :: args) vm = .returned () pushed →
    beginCall vm.top .all pushed = .returned root start →
    Passed c (vm.heap.closureAt c).proto args start
  answered : ∀ pushed after results, pushAll (handler :: args) vm = .returned () pushed →
    call fuel vm.top .all pushed = .returned () after →
    after.stack.slice vm.top after.top = .ok results →
    outcome = .returned (use results) { after with top := vm.top }
  failed : ∀ pushed e after, pushAll (handler :: args) vm = .returned () pushed →
    call fuel vm.top .all pushed = .raised e after → outcome = .raised e after
  overflowed : ∀ e after, pushAll (handler :: args) vm = .raised e after →
    outcome = .raised e after

theorem callFunction_gives {α : Type} (fuel : Nat) (handler : Value) (args : List Value)
    (use : List Value → α) (vm : Vm) :
    HandlerGives fuel handler args use vm
      ((callFunction fuel handler args >>= fun results => pure (use results) : Exec α) vm) := by
  refine ⟨?_, ?_, ?_, ?_⟩
  · rintro c pushed root start rfl hparams hpush hbegin
    have hheap : pushed.heap = vm.heap := by
      obtain ⟨s, -, -, rfl⟩ := pushAll_eq_returned hpush
      rfl
    rw [← hheap] at hparams ⊢
    exact beginCall_passes (.closure c args) (slice_of_pushAll hpush) hparams hbegin
  · intro pushed after results hpush hcall hslice
    refine Exec.bind_of_returned ?_
    rw [callFunction_eq, Exec.bind_of_returned hpush, callPushed, callInPlace, bind_assoc,
      Exec.bind_of_returned hcall]
    show (Exec.check (after.stack.slice vm.top after.top) >>= _) after = _
    rw [hslice]
    rfl
  · intro pushed e after hpush hcall
    refine Exec.bind_of_raised ?_
    rw [callFunction_eq, Exec.bind_of_returned hpush, callPushed, callInPlace, bind_assoc,
      Exec.bind_of_raised hcall]
  · intro e after hpush
    refine Exec.bind_of_raised ?_
    rw [callFunction_eq, Exec.bind_of_raised hpush]

end LuaMachine.Vm
