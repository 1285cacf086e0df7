import LuaMachine.Proofs.Reachable

/-!
# Room for frames

A call is admitted only below the limit of the call depth, and only after the stack has grown to
hold all registers of the called closure. Growing keeps every slot and fills the new ones with nil,
and nothing that happens afterwards makes the stack smaller or changes a closure. So a frame that
had room when it was entered has room for good.
-/
namespace LuaMachine

open Relation (ReflTransGen)
open Exec (Post)

/-! ## Growth of the stack -/

namespace RegisterStack
variable {s t : RegisterStack}

/-- The stack has grown: the slots that there were are the same, and the new ones hold nil. -/
structure Grown (s t : RegisterStack) : Prop where
  limit : t.limit = s.limit
  size : s.size ≤ t.size
  kept : ∀ slot, slot < s.size → t.slots[slot]? = s.slots[slot]?
  filled : ∀ slot, s.size ≤ slot → slot < t.size → t.slots[slot]? = some .nil

theorem Grown.refl (s : RegisterStack) : Grown s s :=
  ⟨rfl, Nat.le_refl _, fun _ _ => rfl, fun _ hle hlt => absurd hlt (Nat.not_lt.mpr hle)⟩

theorem grown_grow (s : RegisterStack) (wanted : Nat) : Grown s (s.grow wanted) := by
  refine ⟨rfl, s.size_le_grow wanted, ?_, ?_⟩
  · intro slot hlt
    exact Array.getElem?_append_left hlt
  · intro slot hle hlt
    rw [size_grow] at hlt
    simp only [size] at hle hlt
    simp only [grow, Array.getElem?_append_right hle, Array.getElem?_replicate]
    rw [if_pos (by omega)]

/-- A change of the stack: one slot takes a value, or the stack grows. -/
inductive Change (s : RegisterStack) : RegisterStack → Prop
  | store (slot : Nat) (v : Value) : Change s (s.setIfInBounds slot v)
  | grow {t : RegisterStack} (h : Grown s t) : Change s t

theorem limit_of_changes (h : ReflTransGen Change s t) : t.limit = s.limit := by
  induction h with
  | refl => rfl
  | tail _ hc ih =>
    cases hc with
    | store slot v => exact ih
    | grow h => exact h.limit.trans ih

theorem size_le_of_changes (h : ReflTransGen Change s t) : s.size ≤ t.size := by
  induction h with
  | refl => exact Nat.le_refl _
  | tail _ hc ih =>
    cases hc with
    | store slot v => simpa using ih
    | grow h => exact Nat.le_trans ih h.size

end RegisterStack

namespace Exec

/-- Making slots exist either grows the stack that far, or fails and leaves everything as it was. -/
theorem ensure_spec (wanted : Nat) (vm : Vm) :
    (ensure wanted).Post vm
      (fun _ after => ∃ s, vm.stack.Grown s ∧ wanted ≤ s.size ∧ after = { vm with stack := s })
      fun after => after = vm := by
  unfold Post ensure
  dsimp only
  split_ifs with hsize
  · exact ⟨vm.stack, .refl _, hsize, rfl⟩
  · unfold RegisterStack.ensure?
    rw [if_neg hsize]
    split_ifs with hlimit
    · rfl
    · cases hr : Checked.reserve (vm.stack.grownSize wanted) Value.bytes with
      | error why => exact (Checked.reserve_yields _ _).of_error hr
      | ok _ =>
        exact ⟨_, vm.stack.grown_grow wanted, vm.stack.le_size_grow (Nat.le_of_not_lt hlimit), rfl⟩

/-- The only error is that of a stack that would exceed its limit. -/
theorem ensure_eq_raised {wanted : Nat} {vm after : Vm} {e : LuaError}
    (h : ensure wanted vm = .raised e after) :
    vm.stack.limit < wanted ∧ e = { cause := .overflow .stack } ∧ after = vm := by
  unfold ensure at h
  dsimp only at h
  split_ifs at h with hsize
  unfold RegisterStack.ensure? at h
  rw [if_neg hsize] at h
  split_ifs at h with hlimit
  · cases h
    exact ⟨hlimit, rfl, rfl⟩
  · cases hr : Checked.reserve (vm.stack.grownSize wanted) Value.bytes with
    | error why => simp [hr] at h
    | ok _ => simp [hr] at h

end Exec

namespace Vm
variable {vm mid after : Vm} {func : Nat} {outer : List Frame}

/-! ## What is never taken back -/

/-- The limits and the closures are what they were, and the stack was only stored to and grown. -/
structure Retains (vm after : Vm) : Prop where
  config : after.config = vm.config
  heap : vm.heap.Extends after.heap
  stack : ReflTransGen RegisterStack.Change vm.stack after.stack

theorem Retains.refl (vm : Vm) : Retains vm vm := ⟨rfl, fun _ _ h => h, .refl⟩

theorem Retains.trans (h : Retains vm mid) (h' : Retains mid after) : Retains vm after where
  config := h'.config.trans h.config
  heap := fun i c hc => h'.heap i c (h.heap i c hc)
  stack := h.stack.trans h'.stack

theorem Retains.size (h : Retains vm after) : vm.stack.size ≤ after.stack.size :=
  RegisterStack.size_le_of_changes h.stack

theorem Shift.retains {level : Nat} (h : Shift level vm after) : Retains vm after := by
  cases h with
  | write h =>
    obtain ⟨slot, v, -, -, rfl⟩ := h
    exact ⟨rfl, fun _ _ h => h, .single (.store slot v)⟩
  | grow wanted => exact ⟨rfl, fun _ _ h => h, .single (.grow (vm.stack.grown_grow wanted))⟩
  | moveTop _ => exact ⟨rfl, fun _ _ h => h, .refl⟩
  | log _ _ => exact ⟨rfl, fun _ _ h => h, .refl⟩

theorem Work.retains {base : Nat} (h : Work base vm after) : Retains vm after := by
  cases h with
  | shift h => exact h.retains
  | extend h => exact ⟨rfl, h, .refl⟩
  | move _ _ => exact ⟨rfl, fun _ _ h => h, .refl⟩

theorem Event.retains (h : Event func outer vm after) : Retains vm after := by
  cases h with
  | shift h => exact h.retains
  | extend h => exact ⟨rfl, h, .refl⟩
  | capture _ _ _ _ => exact ⟨rfl, fun _ _ h => h, .refl⟩
  | close _ => exact ⟨rfl, fun _ _ h => h, .refl⟩
  | assign h =>
    unfold writeUpvalue at h
    split at h
    · cases h
      exact ⟨rfl, fun _ _ h => h, .single (.store _ _)⟩
    · cases h
      exact ⟨rfl, fun _ _ h => h, .refl⟩
  | reframe _ _ _ _ _ _ => exact ⟨rfl, fun _ _ h => h, .refl⟩
  | count _ => exact ⟨rfl, fun _ _ h => h, .refl⟩

theorem retains_of_shifts {level : Nat} (h : ReflTransGen (Shift level) vm after) :
    Retains vm after :=
  path_induction Retains.refl Retains.trans Shift.retains h

theorem retains_of_works {base : Nat} (h : ReflTransGen (Work base) vm after) : Retains vm after :=
  path_induction Retains.refl Retains.trans Work.retains h

theorem retains_of_events (h : ReflTransGen (Event func outer) vm after) : Retains vm after :=
  path_induction Retains.refl Retains.trans Event.retains h

/-! ## Admission -/

/-- There is room for the frame that was entered. Unless it is about to replace its caller, it
respects the limit of the call depth. -/
structure Admitted (tailCall : Bool) (vm : Vm) : Prop where
  room : vm.frames.current.top ≤ vm.stack.size
  depth : tailCall = false → vm.frames.depth ≤ vm.config.maxCallDepth

theorem enterFrame_admits (r : ClosureRef) (results : ResultCount) (tailCall : Bool) (vm : Vm) :
    (enterFrame r func results tailCall).Post vm (fun _ => Admitted tailCall) fun _ => True := by
  refine (enterFrame_spec r func results tailCall vm).mono ?_ fun _ _ => trivial
  rintro _ _ - ⟨base, mid, hlaid, rfl⟩
  have hbase := hlaid.base_le
  have hroom := hlaid.room
  refine ⟨?_, fun hcall => ?_⟩
  · simp only [CallStack.current_push, newFrame]
    omega
  · have hdepth := hlaid.depth hcall
    simp only [CallStack.depth_push, (onlyRegisters_of_shifts hlaid.shifts).frames,
      (retains_of_shifts hlaid.shifts).config]
    omega

/-- However many handlers are on the way, the frame that is entered in the end is admitted. -/
theorem precall_admits (func : Nat) (results : ResultCount) (tailCall : Bool) (vm : Vm) :
    (precall func results tailCall).Post vm (fun _ => Admitted tailCall) fun _ => True := by
  refine (precall_post func results tailCall vm).mono ?_ fun _ _ => trivial
  intro _ after hx _
  obtain ⟨r, mid, -, -, henter⟩ := precall_eq_returned hx
  exact (enterFrame_admits r results tailCall mid).of_returned henter

theorem enterCall_admits (x : Activation) (results : ResultCount) (tailCall : Bool) (vm : Vm) :
    (placeArguments x >>= fun _ => precall x.ra results tailCall).Post vm
      (fun _ => Admitted tailCall) fun _ => True := by
  refine (placeArguments_keeps x).bind_post (fun _ mid _ => ?_) fun _ _ => trivial
  exact precall_admits x.ra results tailCall mid

/-- A step that executes a call enters an admitted frame. -/
theorem admitted_of_dispatch {x : Activation} {action : Action}
    (hx : beginStep vm = .returned x mid) (hop : x.instr.op? = some .call)
    (h : dispatch vm = .returned action after) : Admitted false after := by
  have hcall : plain (opCall x) mid = .returned action after := by
    rw [dispatch_of_fetched hx hop] at h
    exact h
  obtain ⟨_, _, hcall, hnext⟩ := Exec.bind_eq_returned_iff.mp hcall
  cases hnext
  exact (enterCall_admits x _ false mid).of_returned hcall

/-- A call from the host is made below the limit of such calls, and enters a frame that it marks. -/
theorem beginCall_eq_returned {results : ResultCount} {site : CallSite}
    (h : beginCall func results vm = .returned site after) :
    vm.hostCalls < vm.config.maxHostCalls ∧ ∃ entered,
      precall func results false { vm with hostCalls := vm.hostCalls + 1 } = .returned () entered ∧
      after = { entered with
        frames := entered.frames.modifyCurrent fun f =>
          { f with status := { f.status with fresh := true } } } := by
  unfold beginCall at h
  split_ifs at h with hlimit
  dsimp only at h
  split at h
  · next entered hx =>
    cases h
    obtain ⟨_, mid, hprecall, hmark⟩ := Exec.bind_eq_returned_iff.mp hx
    cases hmark
    exact ⟨Nat.lt_of_not_le hlimit, mid, hprecall, rfl⟩
  · split at h <;> cases h
  · cases h

/-- The frame of a call from the host is admitted. -/
theorem admitted_of_beginCall {results : ResultCount} {site : CallSite}
    (h : beginCall func results vm = .returned site after) :
    vm.hostCalls < vm.config.maxHostCalls ∧ ∃ g entered,
      Entered func results g { vm with hostCalls := vm.hostCalls + 1 } entered ∧
      Admitted false entered ∧
      after = { entered with
        frames := entered.frames.modifyCurrent fun f =>
          { f with status := { f.status with fresh := true } } } := by
  obtain ⟨hlimit, entered, hprecall, rfl⟩ := beginCall_eq_returned h
  obtain ⟨g, hg⟩ := (precall_post func results false _).of_returned hprecall
  exact ⟨hlimit, g, entered, hg, (precall_admits func results false _).of_returned hprecall, rfl⟩

end Vm

end LuaMachine
