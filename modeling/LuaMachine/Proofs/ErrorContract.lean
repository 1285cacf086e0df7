import LuaMachine.Proofs.Reachable

/-!
# What a failed call leaves behind

An error ends a call by unwinding it: its frames are gone, no upvalue above the called function is
open, and the top is back at that function. This holds for an error at any instruction of any frame
and for one before the first frame, but not beyond the limit of nested calls. There the call is
refused before it begins, and nothing is unwound.
-/
namespace LuaMachine.Vm

variable {vm after : Vm} {func fuel : Nat} {results : ResultCount} {e : LuaError}

/-- Nothing is left of a call of the function in the slot `func`. -/
structure CleanedUp (func : Nat) (vm after : Vm) : Prop where
  depth : after.frames.depth = vm.frames.depth
  closed : ∀ p ∈ after.upvalues.opened, p.1 < func
  top : after.top = func

theorem cleanedUp_of_broken {n : Nat}
    (h : Run.Broken ⟨vm.frames.depth, func⟩ vm.frames.active n vm after) :
    CleanedUp func vm after :=
  ⟨(CallStack.active_eq_iff.mp h.active).1, h.closed, h.top⟩

/-- Beyond the limit of nested calls every call is refused, and the machine stays as it is. -/
theorem call_of_refused (h : vm.config.maxHostCalls ≤ vm.hostCalls) :
    call fuel func results vm = .raised { cause := .overflow .hostCalls } vm := by
  unfold call beginCall
  rw [if_pos h]

/-- A failed call is cleaned up exactly if it was allowed to begin, or if there was nothing to clean
up. The depth is the same in any case, and a call that is refused changes nothing at all. -/
theorem call_cleanedUp_iff (h : Reachable vm) (hc : call fuel func results vm = .raised e after) :
    (CleanedUp func vm after ↔ vm.hostCalls < vm.config.maxHostCalls ∨ CleanedUp func vm vm) ∧
      after.frames.depth = vm.frames.depth ∧
      (vm.config.maxHostCalls ≤ vm.hostCalls → e = { cause := .overflow .hostCalls } ∧
        after = vm) := by
  rcases (call_post h.sound fuel).of_raised hc with ⟨hlimit, rfl⟩ | ⟨hlimit, hbroken⟩
  · obtain rfl : { cause := .overflow .hostCalls } = e := by
      simpa using (call_of_refused hlimit).symm.trans hc
    refine ⟨⟨.inr, ?_⟩, rfl, fun _ => ⟨rfl, rfl⟩⟩
    rintro (hallowed | hclean)
    · omega
    · exact hclean
  · have hclean := cleanedUp_of_broken hbroken
    exact ⟨⟨fun _ => .inl hlimit, fun _ => hclean⟩, hclean.depth, fun hrefused => by omega⟩

/-- Captures its parameter in a closure and then calls nil. -/
def captureAndFail : Prototype where
  paramCount := 1
  maxStackSize := 3
  code := #[⟨0x0000006c⟩, ⟨0x008040a4⟩]
  functions := #[{ upvalues := #[⟨true, 0⟩] }]

def failingHost (maxHostCalls : Nat) : Vm :=
  .new { initialStackSize := 8, maxHostCalls } .standard {
    closures := #[{ proto := captureAndFail, upvalues := #[] }] } {}

/-- The machine is about to call `captureAndFail` with a parameter. -/
def failing (maxHostCalls : Nat) : Option Vm :=
  match pushAll [.closure ⟨0⟩, .bool true] (failingHost maxHostCalls) with
  | .returned _ vm => some vm
  | _ => none

theorem reachable_of_failing {maxHostCalls : Nat} (h : failing maxHostCalls = some vm) :
    Reachable vm := by
  have hhost : Reachable (failingHost maxHostCalls) := .new _ _ _ rfl
  unfold failing at h
  split at h
  · next mid hpush =>
    cases h
    exact hhost.pushAll hpush
  · cases h

/-- The captured parameter is closed when the call fails. Where no call is allowed, the function and
its parameter stay on the stack. -/
theorem call_cleanedUp_iff_failing :
    (∃ vm e after, Reachable vm ∧ vm.hostCalls < vm.config.maxHostCalls ∧
      call 2 0 .all vm = .raised e after ∧ CleanedUp 0 vm after) ∧
    ∃ vm e after, Reachable vm ∧ call 2 0 .all vm = .raised e after ∧ ¬ CleanedUp 0 vm after := by
  constructor
  · have hcheck : ((failing 1).any fun vm => vm.hostCalls < vm.config.maxHostCalls &&
        (call 2 0 .all vm).error?.isSome) = true := by decide +kernel
    obtain ⟨vm, hf, hboth⟩ := (Option.any_eq_true _ _).mp hcheck
    obtain ⟨hlimit, hraised⟩ := Bool.and_eq_true_iff.mp hboth
    have hreachable := reachable_of_failing hf
    have hallowed := of_decide_eq_true hlimit
    cases hc : call 2 0 .all vm with
    | returned _ after => simp [hc, Outcome.error?] at hraised
    | aborted why => simp [hc, Outcome.error?] at hraised
    | raised e after =>
      exact ⟨vm, e, after, hreachable, hallowed, hc,
        (call_cleanedUp_iff hreachable hc).1.mpr (.inl hallowed)⟩
  · have hcheck :
        ((failing 0).any fun vm => vm.config.maxHostCalls ≤ vm.hostCalls && vm.top ≠ 0) = true := by
      decide +kernel
    obtain ⟨vm, hf, hboth⟩ := (Option.any_eq_true _ _).mp hcheck
    obtain ⟨hlimit, htop⟩ := Bool.and_eq_true_iff.mp hboth
    have hreachable := reachable_of_failing hf
    have hrefused := of_decide_eq_true hlimit
    have hc : call 2 0 .all vm = _ := call_of_refused hrefused
    refine ⟨vm, _, vm, hreachable, hc, fun hclean => ?_⟩
    rcases (call_cleanedUp_iff hreachable hc).1.mp hclean with hallowed | hclean
    · omega
    · exact of_decide_eq_true htop hclean.top

end LuaMachine.Vm
