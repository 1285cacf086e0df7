import LuaMachine.Proofs.Admission
import LuaMachine.Proofs.Reachable

/-!
# Calls that put their own arguments on the stack

`callFunction` pushes a function and its arguments one by one, calls the function and takes the
results. The frames and the number of nested calls are the same afterwards, however it ends. The top
is back as well if the call was made, and if not even the function fitted. But when the stack is
full after some of the values, these stay where they were pushed, and the top is left at the limit
of the stack.
-/
namespace LuaMachine.Vm

open Exec (Post)

variable {vm mid after : Vm} {e : LuaError} {u : Unit} {v function : Value} {vs args : List Value}
  {fuel : Nat}

/-! ## Pushing -/

theorem push_eq (v : Value) (vm : Vm) :
    push v vm = (do
      Exec.ensure (vm.top + 1)
      Exec.setSlot vm.top v
      Exec.setTop (vm.top + 1)) vm := rfl

/-- A value is pushed to the slot at the top, which is made to exist. -/
theorem push_eq_returned (h : push v vm = .returned u after) :
    ∃ grown : RegisterStack, vm.stack.Grown grown ∧ vm.top < grown.size ∧
      after = { vm with stack := grown.setIfInBounds vm.top v, top := vm.top + 1 } := by
  rw [push_eq] at h
  obtain ⟨_, mid, hensure, hset⟩ := Exec.bind_eq_returned_iff.mp h
  obtain ⟨grown, hgrown, hroom, rfl⟩ := (Exec.ensure_spec _ vm).of_returned hensure
  obtain ⟨_, mid, hset, htop⟩ := Exec.bind_eq_returned_iff.mp hset
  obtain ⟨s, hs, rfl⟩ := Exec.onStack_eq_returned_iff.mp hset
  obtain ⟨-, rfl⟩ := RegisterStack.set_eq_ok_iff.mp hs
  cases htop
  exact ⟨grown, hgrown, hroom, rfl⟩

/-- A value is pushed only below the limit of the stack. -/
theorem push_below_limit (h : push v vm = .returned u after) :
    ∃ s : RegisterStack, s.limit = vm.stack.limit ∧ vm.top < vm.stack.limit ∧
      after = { vm with stack := s, top := vm.top + 1 } := by
  obtain ⟨grown, hgrown, hroom, rfl⟩ := push_eq_returned h
  have hsize : grown.size ≤ grown.limit := grown.size_le_limit
  have hlimit := hgrown.limit
  exact ⟨grown.setIfInBounds vm.top v, hlimit, by omega, rfl⟩

/-- Pushing a value fails only on a full stack, and leaves it alone. -/
theorem push_eq_raised (h : push v vm = .raised e after) :
    vm.stack.limit ≤ vm.top ∧ e = { cause := .overflow .stack } ∧ after = vm := by
  rw [push_eq] at h
  rcases Exec.bind_eq_raised_iff.mp h with hensure | ⟨_, mid, -, hset⟩
  · obtain ⟨hlimit, he, rfl⟩ := Exec.ensure_eq_raised hensure
    exact ⟨by omega, he, rfl⟩
  · rcases Exec.bind_eq_raised_iff.mp hset with hset | ⟨_, mid, -, htop⟩
    · exact absurd hset (Exec.onStack_ne_raised _ _)
    · cases htop

theorem pushAll_eq_returned (h : pushAll vs vm = .returned u after) :
    ∃ s : RegisterStack, s.limit = vm.stack.limit ∧ vm.top + vs.length ≤ max vm.top vm.stack.limit ∧
      after = { vm with stack := s, top := vm.top + vs.length } := by
  induction vs generalizing vm with
  | nil =>
    cases h
    exact ⟨_, rfl, Nat.le_max_left _ _, rfl⟩
  | cons v vs ih =>
    obtain ⟨_, mid, hpush, hrest⟩ := Exec.bind_eq_returned_iff.mp h
    obtain ⟨s, hs, hlt, rfl⟩ := push_below_limit hpush
    obtain ⟨t, ht, hle, rfl⟩ := ih hrest
    dsimp only at ht hle
    refine ⟨t, ht.trans hs, ?_, ?_⟩
    · simp only [List.length_cons]
      omega
    · simp [Nat.add_assoc, Nat.add_comm 1]

/-- When the values do not all fit, those that fit stay on the stack. -/
theorem pushAll_eq_raised (h : pushAll vs vm = .raised e after) :
    e = { cause := .overflow .stack } ∧ vm.stack.limit < vm.top + vs.length ∧
      ∃ s : RegisterStack, after = { vm with stack := s, top := max vm.top vm.stack.limit } := by
  induction vs generalizing vm with
  | nil => cases h
  | cons v vs ih =>
    simp only [List.length_cons]
    rcases Exec.bind_eq_raised_iff.mp h with hpush | ⟨_, mid, hpush, hrest⟩
    · obtain ⟨hle, he, rfl⟩ := push_eq_raised hpush
      exact ⟨he, by omega, after.stack, by rw [Nat.max_eq_left hle]⟩
    · obtain ⟨s, hs, hlt, rfl⟩ := push_below_limit hpush
      obtain ⟨he, hlength, t, rfl⟩ := ih hrest
      dsimp only at hlength ⊢
      rw [hs] at hlength ⊢
      exact ⟨he, by omega, t, by rw [Nat.max_eq_right hlt, Nat.max_eq_right (Nat.le_of_lt hlt)]⟩

/-! ## Calling -/

/-- What a call of a function from the host leaves as it was. -/
structure Balanced (vm after : Vm) : Prop where
  top : after.top = vm.top
  depth : after.frames.depth = vm.frames.depth
  hostCalls : after.hostCalls = vm.hostCalls

/-- The states in which functions are called: those that a host brings about or that its calls pass
through, and those in which the instruction of a step asks for a handler. -/
def AtCall (vm : Vm) : Prop :=
  Reachable vm ∨ ∃ host func results r handler args k rest, Reachable host ∧
    During host func results r ∧ r.pending = .follows (.invoke handler args k) vm rest

theorem AtCall.sound (h : AtCall vm) : vm.upvalues.Sound := by
  rcases h with h | ⟨host, func, results, r, handler, args, k, rest, hhost, hduring, hp⟩
  · exact h.sound
  · obtain ⟨-, -, f, own, below, hf⟩ := executing_of_during hhost.sound hduring
    have hpending := Run.pending_sane hf
    rw [hp] at hpending
    obtain ⟨-, f', own', below', hvm, -⟩ := hpending
    exact hvm.sound

/-- Once everything is pushed, the call is balanced whether it returns or fails. -/
theorem callFunction_balanced (hu : vm.upvalues.Sound)
    (hlimit : vm.hostCalls < vm.config.maxHostCalls)
    (hp : pushAll (function :: args) vm = .returned u mid)
    (hc : (callFunction fuel function args vm).state? = some after) : Balanced vm after := by
  obtain ⟨s, -, -, hmid⟩ := pushAll_eq_returned hp
  have hcall : (callPushed fuel vm.top).Post mid (fun _ => Balanced vm) (Balanced vm) := by
    have hsound : mid.upvalues.Sound := hmid ▸ hu
    have hdepth : ∀ {last : Vm}, last.frames.active = mid.frames.active →
        last.frames.depth = vm.frames.depth := by
      intro last hactive
      rw [(CallStack.active_eq_iff.mp hactive).1, hmid]
    have hcount : mid.hostCalls = vm.hostCalls := by rw [hmid]
    refine Post.bind (Post.bind ((call_post hsound fuel).mono ?_ ?_))
    · intro _ last _ hover
      refine Post.bind
        (Post.look (Post.check ((last.stack.slice_yields vm.top last.top).mono fun values _ => ?_)))
      exact Post.bind
        (Post.modify (Post.pure ⟨rfl, hdepth hover.active, hover.hostCalls.trans hcount⟩))
    · rintro last (⟨hrefused, -⟩ | ⟨-, hbroken⟩)
      · rw [hmid] at hrefused
        exact absurd hlimit (Nat.not_lt.mpr hrefused)
      · exact ⟨hbroken.top, hdepth hbroken.active, hbroken.hostCalls.trans hcount⟩
  rw [callFunction_eq, Exec.bind_of_returned hp] at hc
  exact hcall.of_state? hc

/-- A call that may be nested is balanced exactly if the stack can hold the function and all
arguments, or not even the function. Else it fails because the stack is full, and only the top
differs: it is left at the limit of the stack. -/
theorem callFunction_balanced_iff (h : AtCall vm) (hlimit : vm.hostCalls < vm.config.maxHostCalls)
    (hc : (callFunction fuel function args vm).state? = some after) :
    (Balanced vm after ↔ vm.top + args.length < vm.stack.limit ∨ vm.stack.limit ≤ vm.top) ∧
      (¬ Balanced vm after → callFunction fuel function args vm =
        .raised { cause := .overflow .stack } after ∧
        after.top = vm.stack.limit ∧ after.frames = vm.frames ∧
        after.hostCalls = vm.hostCalls) := by
  cases hp : pushAll (function :: args) vm with
  | aborted why =>
    rw [callFunction_eq, Exec.bind_of_aborted hp] at hc
    cases hc
  | returned u mid =>
    have hbalanced := callFunction_balanced h.sound hlimit hp hc
    obtain ⟨-, -, hroom, -⟩ := pushAll_eq_returned hp
    rw [List.length_cons] at hroom
    exact ⟨⟨fun _ => by omega, fun _ => hbalanced⟩, fun hnot => absurd hbalanced hnot⟩
  | raised e mid =>
    obtain ⟨rfl, hfull, s, hmid⟩ := pushAll_eq_raised hp
    have hparts : callFunction fuel function args vm =
        .raised { cause := .overflow .stack } mid := by
      rw [callFunction_eq]
      exact Exec.bind_eq_raised_iff.mpr (.inl hp)
    rw [hparts] at hc
    obtain rfl : mid = after := Option.some.inj hc
    rw [List.length_cons] at hfull
    have htop : mid.top = max vm.top vm.stack.limit := by rw [hmid]
    by_cases hle : vm.stack.limit ≤ vm.top
    · have hbalanced : Balanced vm mid := ⟨by omega, by rw [hmid], by rw [hmid]⟩
      exact ⟨⟨fun _ => .inr hle, fun _ => hbalanced⟩, fun hnot => absurd hbalanced hnot⟩
    · have hnot : ¬ Balanced vm mid := fun hbalanced => by
        have := hbalanced.top
        omega
      exact ⟨⟨fun hbalanced => absurd hbalanced hnot, fun _ => by omega⟩,
        fun _ => ⟨hparts, by omega, by rw [hmid], by rw [hmid]⟩⟩

/-- Returns at once. -/
def idle : Prototype where
  maxStackSize := 2
  code := #[⟨0x00800026⟩]

/-- A machine whose stack has room for four values. -/
def cramped : Vm :=
  .new { initialStackSize := 4, maxStackSize := 4 } .standard
    { closures := #[{ proto := idle, upvalues := #[] }] } {}

/-- The function fits with one argument, and the call is balanced. With four arguments the last one
does not fit, and the values before it stay on the stack. -/
theorem callFunction_balanced_iff_cramped :
    (∃ after, AtCall cramped ∧ cramped.hostCalls < cramped.config.maxHostCalls ∧
      (callFunction 1 (.closure ⟨0⟩) [.nil] cramped).state? = some after ∧ Balanced cramped after) ∧
    ∃ after, AtCall cramped ∧ cramped.hostCalls < cramped.config.maxHostCalls ∧
      (callFunction 1 (.closure ⟨0⟩) [.nil, .nil, .nil, .nil] cramped).state? = some after ∧
      after.top = 4 ∧
      cramped.top = 0 := by
  have hcall : AtCall cramped := .inl (.new _ _ _ rfl)
  have hlimit : cramped.hostCalls < cramped.config.maxHostCalls := by decide
  constructor
  · have hcheck : (callFunction 1 (.closure ⟨0⟩) [.nil] cramped).state?.isSome = true := by
      decide +kernel
    obtain ⟨after, hafter⟩ := Option.isSome_iff_exists.mp hcheck
    exact ⟨after, hcall, hlimit, hafter,
      (callFunction_balanced_iff hcall hlimit hafter).1.mpr (.inl (by decide))⟩
  · have hcheck :
        (callFunction 1 (.closure ⟨0⟩) [.nil, .nil, .nil, .nil] cramped).state?.isSome = true := by
      decide +kernel
    obtain ⟨after, hafter⟩ := Option.isSome_iff_exists.mp hcheck
    obtain ⟨hiff, hnot⟩ := callFunction_balanced_iff hcall hlimit hafter
    have hunbalanced : ¬ Balanced cramped after := fun hbalanced =>
      absurd (hiff.mp hbalanced) (by decide)
    exact ⟨after, hcall, hlimit, hafter, (hnot hunbalanced).2.1, rfl⟩

end LuaMachine.Vm
