import LuaMachine.Proofs.ArgumentPassing
import LuaMachine.Proofs.FrameLifetimes
import LuaMachine.Proofs.ResourceLimits
import LuaMachine.Proofs.TailCalls

/-!
# Varargs

However a function is called, by the host, by an instruction or in the place of its caller, it finds
the same arguments. The ones besides its parameters stay in slots below its registers, which nobody
writes to as long as its frame stands. So the instruction that spreads them finds them at any time,
and any number of times.
-/
namespace LuaMachine

open Relation (ReflTransGen)

namespace Vm

/-! ## Ways into a function -/

section Entry
variable {host ready vm entered after : Vm} {func slot : Nat} {results : ResultCount} {v : Value}
  {args args' : List Value}
  {c : ClosureRef} {p : Prototype} {r r' : Run} {x : Activation} {tail : Bool} {n : Nat}

/-- The run is at the first instruction of a function, which was called in the state `ready`, in the
end by a tail call or not: whatever was called was in the slot `slot`, with its arguments above it
up to the top. -/
inductive Enters (host : Vm) (func : Nat) (results : ResultCount) : Bool → Nat → Vm → Run → Prop
  /-- The host has called the function. -/
  | host {root : CallSite} {start : Vm} (h : beginCall func results host = .returned root start) :
      Enters host func results false func host { vm := start, root }
  /-- An instruction has called it as a handler or an iterator. -/
  | nested {r r' : Run} {ready : Vm} {slot : Nat} {wanted : ResultCount} {k : Resume}
      {rest : List Suspended} (hd : During host func results r)
      (hc : r.Calls ready slot wanted k rest) (hs : Run.Leads r r') :
      Enters host func results false slot ready r'
  /-- A call has called it. -/
  | call {r r' : Run} {x : Activation} {mid ready : Vm} (hd : During host func results r)
      (hx : beginStep r.vm = .returned x mid) (hop : x.instr.op? = some .call)
      (hp : placeArguments x mid = .returned () ready) (hs : Run.Leads r r') :
      Enters host func results false x.ra ready r'
  /-- A tail call has called it, and it is in the place of its caller. -/
  | tailCall {r r' : Run} {x : Activation} {mid ready : Vm} (hd : During host func results r)
      (hx : beginStep r.vm = .returned x mid) (hop : x.instr.op? = some .tailCall)
      (hp : placeArguments x mid = .returned () ready) (hs : Run.Leads r r') :
      Enters host func results true x.ra ready r'

theorem Enters.during (h : Enters host func results tail slot ready r) :
    During host func results r := by
  cases h with
  | host h => exact ⟨_, _, h, .refl⟩
  | nested hd _ hs | call hd _ _ _ hs | tailCall hd _ _ _ hs => exact hd.tail hs

/-- The frame of a tail call takes its arguments along into the place of its caller, whose registers
no upvalue refers to any more. -/
theorem Passed.spliced {c' : ClosureRef} {base : Nat} {f h : Frame} {rest : List Frame} {u : Unit}
    (hp : Passed c p args entered) (ha : AboveCaller x c' base vm entered)
    (hf : vm.frames.active = f :: h :: rest) (hfunc : f.func ≤ x.ra) (hu : vm.upvalues.Sound)
    (hs : spliceTailCall entered = .returned u after) :
    Passed c p args after ∧ after.frames.current.func = f.func ∧
      ∀ q ∈ after.upvalues.opened, q ∈ vm.upvalues.opened ∧ q.1 < f.base := by
  let g := newFrame vm.heap c' x.ra base .all
  have hcurrent : entered.frames.current = g := by rw [ha.frames, CallStack.current_push]
  have hactive : entered.frames.active = g :: f :: h :: rest := by
    rw [ha.frames, CallStack.active_push, hf]
  obtain rfl : c' = c := by
    have hclosure := hp.closure
    rw [hcurrent] at hclosure
    exact Option.some.inj hclosure
  obtain ⟨s, frames, -, hmoved, hframes, hsplice⟩ :=
    spliceTailCall_eq hactive rfl hfunc (Nat.le_of_lt ha.above) ha.top (by rw [ha.heap]; rfl)
      (by rw [ha.heap]; exact ha.params)
  cases hsplice.symm.trans hs
  have hnew : frames.current = replacement g f := (List.cons.inj hframes).1
  have hreceived := hp.received
  rw [hcurrent] at hreceived
  rw [hp.proto] at hmoved
  refine ⟨⟨by rw [hnew]; rfl, hp.proto, ?_⟩, by rw [hnew]; rfl, fun q hq => ?_⟩
  · rw [hnew]
    exact hreceived.moved (Nat.le_of_lt ha.above) rfl hmoved
  · have hclosed := (Upvalues.mem_opened_close (ha.upvalues.symm ▸ hu)).mp hq
    rw [ha.upvalues] at hclosed
    exact hclosed

end Entry

/-! ## Spreading -/

section Spreading
variable {vm after : Vm} {x : Activation} {values : List Value}

end Spreading

/-! ## As long as the frame stands -/

section Standing
variable {host ready vm after : Vm} {func slot start level : Nat}
  {results : ResultCount} {v : Value}
  {values args args' : List Value} {c : ClosureRef} {p : Prototype} {r r' : Run} {x : Activation}

/-- A block below a level that no open upvalue refers to is spared. -/
theorem Spared.holds (h : Spared level vm after) (hheld : vm.stack.Holds start values)
    (hle : start + values.length ≤ level)
    (hfree : ∀ p ∈ vm.upvalues.opened, p.1 < start ∨ start + values.length ≤ p.1) :
    after.stack.Holds start values := by
  intro i hi
  have hvalue : vm.stack.slots[start + i]? = some values[i] :=
    (hheld i hi).trans (List.getElem?_eq_getElem hi)
  have hlt : start + i < vm.stack.size := (Array.getElem?_eq_some_iff.mp hvalue).1
  have hlt' : start + i < after.stack.slots.size := Nat.lt_of_lt_of_le hlt h.size
  have hpeek := h.slots (start + i) (by omega) fun q hm => by
    have := hfree _ hm
    omega
  rw [peek, peek, hvalue, Array.getElem?_eq_getElem hlt', Option.getD_some,
    Option.getD_some] at hpeek
  rw [Array.getElem?_eq_getElem hlt', hpeek, List.getElem?_eq_getElem hi]

end Standing

end Vm

end LuaMachine
