import LuaMachine.Proofs.Reachable

/-!
# Calls are isolated

Whatever a call does, it does above the slot of the called function. The frames below it are the
same afterwards, and so are the registers, unless one is an open upvalue, which any function that
shares it may assign.
-/
namespace LuaMachine.Vm

variable {vm after : Vm} {func fuel : Nat} {results : ResultCount}

/-- What a call of the function in the slot `func` leaves alone. A register below it can change only
as an open upvalue. -/
structure Isolated (func : Nat) (vm after : Vm) : Prop where
  registers : ∀ s, s < func → (∀ r, (s, r) ∉ vm.upvalues.opened) → after.peek s = vm.peek s
  size : vm.stack.size ≤ after.stack.size
  upvalues : ∀ s r, s < func → (s, r) ∈ vm.upvalues.opened →
    (s, r) ∈ after.upvalues.opened ∧ after.upvalues.cell r = .opened s
  depth : after.frames.depth = vm.frames.depth
  frames : ∀ d, d ≤ vm.frames.depth → after.frames.frames[d]? = vm.frames.frames[d]?
  hostCalls : after.hostCalls = vm.hostCalls

/-- A call that returns or fails leaves everything below the called function alone. -/
theorem call_isolated (h : Reachable vm) (hc : (call fuel func results vm).state? = some after) :
    Isolated func vm after := by
  obtain ⟨hevents, hactive, hcalls⟩ := over_of_call h.sound hc
  have hspared := spares_of_events hevents h.sound
  obtain ⟨hdepth, hframes⟩ := CallStack.active_eq_iff.mp hactive
  refine ⟨hspared.slots, hspared.size, ?_, hdepth, hframes, hcalls⟩
  intro s r hs hm
  have hopen := (hspared.opened s r hs).mpr hm
  exact ⟨hopen, Upvalues.cell_eq_opened.mpr (hspared.sound.cell_of_mem hopen)⟩

/-- Stores nil in its two registers and returns. -/
def wipe : Prototype where
  maxStackSize := 2
  code := #[⟨0x00800004⟩, ⟨0x00800026⟩]

/-- Captures its parameter in a closure and then calls the parameter as an iterator. -/
def captureAndIterate : Prototype where
  paramCount := 1
  maxStackSize := 6
  code := #[⟨0x0000006c⟩, ⟨0x00000029⟩, ⟨0x0000002a⟩, ⟨0x00800026⟩]
  functions := #[{ upvalues := #[⟨true, 0⟩] }]

def captureHost : Vm :=
  .new { initialStackSize := 12 } .standard {
    closures := #[
      { proto := captureAndIterate, upvalues := #[] }, { proto := wipe, upvalues := #[] }] } {}

/-- The call that a step makes, and the state in which it makes it. -/
def iterating (r : Run) : Option (Nat × ResultCount × Vm) :=
  match r.pending with
  | .follows (.callAt func results _) vm _ => some (func, results, vm)
  | _ => none

theorem reachable_of_iterating {host : Vm} {slot : Nat} {wanted : ResultCount} {r : Run}
    (h : Reachable host) (hr : During host slot wanted r)
    (hi : iterating r = some (func, results, vm)) : Reachable vm := by
  unfold iterating at hi
  split at hi
  · next hpending =>
    cases hi
    exact .calling h hr ⟨_, _, hpending, .callAt⟩
  · cases hi

/-- The iterator of a loop is called over a captured variable, which stays captured. -/
theorem call_isolated_iterating :
    ∃ vm after func results s c, Reachable vm ∧ s < func ∧ (s, c) ∈ vm.upvalues.opened ∧
      (call 4 func results vm).state? = some after ∧ Isolated func vm after := by
  have hcheck : ((firstStep captureHost [.closure ⟨0⟩, .closure ⟨1⟩]).any fun p =>
      (iterating p.2).any fun c =>
        c.2.2.upvalues.opened.any (·.1 < c.1) && (call 4 c.1 c.2.1 c.2.2).state?.isSome) =
          true := by decide +kernel
  obtain ⟨⟨host, r⟩, hfirst, hnested⟩ := (Option.any_eq_true _ _).mp hcheck
  obtain ⟨⟨func, results, vm⟩, hi, hboth⟩ := (Option.any_eq_true _ _).mp hnested
  obtain ⟨hopen, hover⟩ := Bool.and_eq_true_iff.mp hboth
  obtain ⟨⟨s, c⟩, hm, hs⟩ := List.any_eq_true.mp hopen
  obtain ⟨after, hafter⟩ := Option.isSome_iff_exists.mp hover
  obtain ⟨hhost, hduring⟩ := during_of_firstStep (.new _ _ _ rfl) hfirst
  have hreachable := reachable_of_iterating hhost hduring hi
  exact ⟨vm, after, func, results, s, c, hreachable, of_decide_eq_true hs, hm, hafter,
    call_isolated hreachable hafter⟩

end LuaMachine.Vm
