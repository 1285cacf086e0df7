import LuaMachine.Proofs.RegisterBlocks

/-!
# Tail calls

A tail call enters its frame above the caller, with everything that any call puts in place:
handlers, missing parameters and the arguments of a vararg function below its registers. Only then
is the whole block moved down over the caller. Source and target of the move may overlap, and
variables of the caller that closures still share are closed before they are overwritten. What is
left is the frame that a call from the place of the caller would have entered.
-/
namespace LuaMachine

open Relation (ReflTransGen)
open Exec (Post)

namespace Vm
variable {vm mid entered after : Vm} {x : Activation} {u : Unit}

/-! ## Into the place of the caller -/

/-- A frame that fits below its caller's place is moved there and nothing stops it. -/
theorem spliceTailCall_eq {g f h : Frame} {rest : List Frame} {r : ClosureRef}
    (hf : vm.frames.active = g :: f :: h :: rest) (hr : g.closure = some r)
    (hfunc : f.func ≤ g.func) (hbase : g.func ≤ g.base) (htop : vm.top = g.top)
    (hheight : g.top = g.base + (vm.heap.closureAt r).proto.maxStackSize)
    (hroom : g.base + (vm.heap.closureAt r).proto.paramCount ≤ vm.stack.size) :
    ∃ s frames, s.size = vm.stack.size ∧
      (∀ i, i < g.base + (vm.heap.closureAt r).proto.paramCount - g.func →
        s.slots[f.func + i]? = vm.stack.slots[g.func + i]?) ∧
      frames.active = replacement g f :: h :: rest ∧
      spliceTailCall vm =
        .returned () {
          vm.closeFrom f.base with stack := s, top := (replacement g f).top, frames } := by
  obtain ⟨values, hlength, hvalues⟩ := RegisterStack.exists_holds
    (show g.func + (g.base + (vm.heap.closureAt r).proto.paramCount - g.func) ≤
      vm.stack.size by omega)
  obtain ⟨s, hcopy, hputs⟩ :=
    RegisterStack.copyDown_puts hvalues (show f.func + values.length ≤ vm.stack.size by omega)
      (.inl hfunc)
  rw [hlength] at hcopy
  obtain ⟨frames, hcollapse, hactive⟩ := CallStack.collapse_of_active hf (replacement g f)
  refine ⟨s, frames, hputs.size, ?_, hactive, ?_⟩
  · intro i hi
    rw [← hlength] at hi
    rw [hputs.holds i hi, hvalues i hi]
  have hcurrent : vm.frames.current = g := (List.cons.inj hf).1
  have hprevious := CallStack.previous?_of_active hf
  have hmoved : g.func ≤ g.base + (vm.heap.closureAt r).proto.paramCount := by omega
  have hover : g.func ≤ g.top := by omega
  have hsame : f.func + (g.top - g.func) = f.func + (g.base - g.func) +
      (vm.heap.closureAt r).proto.maxStackSize := by
    omega
  simp only [replacement, hr] at hcollapse
  simp only [spliceTailCall, bind, Exec.bind, Exec.currentFrame, Exec.look, hcurrent, hprevious, hr,
    Exec.closeUpvalues,
    Exec.modify, Checked.sub, hmoved, if_pos, Exec.check, pure, Exec.pure, Exec.onStack, hcopy,
      hbase, htop, hover,
    Exec.setTop, Exec.onFrames, hcollapse]
  rw [if_neg (not_not.mpr hsame)]
  rfl

/-- A call of the function in the first operand has entered the frame of the closure `c`, above the
registers that the caller still uses. -/
structure AboveCaller (x : Activation) (c : ClosureRef) (base : Nat) (vm entered : Vm) : Prop where
  frames : entered.frames = vm.frames.push (newFrame vm.heap c x.ra base .all)
  top : entered.top = base + (vm.heap.closureAt c).proto.maxStackSize
  heap : entered.heap = vm.heap
  upvalues : entered.upvalues = vm.upvalues
  above : x.ra < base
  params : base + (vm.heap.closureAt c).proto.paramCount ≤ entered.stack.size
  room : entered.top ≤ entered.stack.size
  callee : entered.peek x.ra = .closure c
  below : ∀ slot, slot < x.ra → entered.peek slot = vm.peek slot

theorem aboveCaller_of_enterCall
    (he : (placeArguments x >>= fun _ => precall x.ra .all true) vm = .returned u entered) :
    ∃ c base, AboveCaller x c base vm entered := by
  obtain ⟨_, placed, hplace, hprecall⟩ := Exec.bind_eq_returned_iff.mp he
  have hplaced := (placeArguments_keeps x vm).of_returned hplace
  obtain ⟨c, ready, hready, hslot, henter⟩ := precall_eq_returned hprecall
  obtain ⟨base, laid, hlaid, rfl⟩ := (enterFrame_spec c x.ra .all true ready).of_returned henter
  have hshifts : ReflTransGen (Shift x.ra) vm laid :=
    (hplaced.trans hready).trans (shifts_mono hlaid.shifts (Nat.le_succ _))
  have hsame := onlyRegisters_of_shifts hshifts
  have hheap : ready.heap = vm.heap := (onlyRegisters_of_shifts (hplaced.trans hready)).heap
  have hbase := hlaid.base_le
  have hroom := hlaid.room
  have hparams := hlaid.params
  rw [hheap] at hroom hparams ⊢
  refine ⟨c, base,
    ⟨by rw [← hsame.frames], rfl, hsame.heap, hsame.upvalues, hlaid.above, hparams, ?_, ?_, ?_⟩⟩
  · show base + _ ≤ laid.stack.size
    omega
  · have hcallee : ready.peek x.ra = .closure c := by rw [peek, hslot, Option.getD_some]
    exact (peek_of_shifts hlaid.shifts (Nat.lt_succ_self _)).trans hcallee
  · intro slot hlt
    have hpeek := peek_of_shifts hshifts hlt
    exact hpeek

/-- The frame `g` is the frame `callee` in the place of `caller`: it began where that one began, and
is to give back what that one was asked for. -/
structure TakesPlace (callee caller g : Frame) : Prop where
  func : g.func = caller.func
  results : g.results = caller.results
  fresh : g.status.fresh = caller.status.fresh
  tail : g.status.tail = true
  pc : g.pc = 0
  closure : g.closure = callee.closure
  base : g.base + (callee.func - caller.func) = callee.base
  top : g.top + (callee.func - caller.func) = callee.top

/-- The current frame of `vm` has made a tail call, which was entered in the state `entered` and is
in its place in the state `after`. -/
structure TailCalled (x : Activation) (vm entered after : Vm) : Prop where
  depth : after.frames.depth = vm.frames.depth
  func : entered.frames.current.func = x.ra
  below : vm.frames.current.func < x.ra
  place : TakesPlace entered.frames.current vm.frames.current after.frames.current
  /-- The closure that was in the slot of the function runs, and its function, further arguments and
  parameters have arrived. -/
  moved : ∃ c, after.frames.current.closure = some c ∧ entered.peek x.ra = .closure c ∧
    after.frames.current.top = after.frames.current.base +
      (after.heap.closureAt c).proto.maxStackSize ∧
    ∀ slot, vm.frames.current.func ≤ slot →
      slot < after.frames.current.base + (after.heap.closureAt c).proto.paramCount →
      slot < after.stack.size ∧
        after.stack.slots[slot]? = entered.stack.slots[slot + (x.ra - vm.frames.current.func)]?
  top : after.top = after.frames.current.top
  room : after.frames.current.top ≤ after.stack.size
  closed : ∀ p ∈ after.upvalues.opened, p.1 < vm.frames.current.base
  /-- Variables of the caller that did not take part in the call keep their values. -/
  kept : ∀ slot cell, (slot, cell) ∈ vm.upvalues.opened → vm.frames.current.base ≤ slot →
    slot < x.ra → after.upvalues.cell cell = .closed (vm.peek slot)

/-- Only the place of the caller counts, not its position. -/
theorem TailCalled.congr (h : TailCalled x mid entered after)
    (hc : mid.frames.current.SamePlace vm.frames.current) (hd : mid.frames.depth = vm.frames.depth)
    (hs : mid.stack = vm.stack) (hu : mid.upvalues = vm.upvalues) :
    TailCalled x vm entered after := by
  obtain ⟨depth, func, below, place, moved, top, room, closed, kept⟩ := h
  rw [hc.func] at below moved
  rw [hc.base] at closed kept
  rw [hu] at kept
  refine ⟨depth.trans hd, func, below, ?_, moved, top, room, closed, ?_⟩
  · refine ⟨place.func.trans hc.func, place.results.trans hc.results, place.fresh.trans hc.fresh,
      place.tail, place.pc, place.closure, ?_, ?_⟩
    · rw [← hc.func]
      exact place.base
    · rw [← hc.func]
      exact place.top
  · intro slot cell hm hle hlt
    rw [kept slot cell hm hle hlt, peek, peek, hs]

/-- What a frame enters above its caller, the splice puts in the place of the caller. -/
theorem tailCalled_of_aboveCaller {c : ClosureRef} {base : Nat} {f h : Frame} {rest : List Frame}
    (ha : AboveCaller x c base vm entered) (hf : vm.frames.active = f :: h :: rest)
    (hu : vm.upvalues.Sound) (hbase : f.func < f.base) (hra : f.base ≤ x.ra) :
    ∃ after, spliceTailCall entered = .returned () after ∧ TailCalled x vm entered after := by
  let g := newFrame vm.heap c x.ra base .all
  have hcurrent : vm.frames.current = f := (List.cons.inj hf).1
  have hentered : entered.frames.current = g := by rw [ha.frames, CallStack.current_push]
  have hactive : entered.frames.active = g :: f :: h :: rest := by
    rw [ha.frames, CallStack.active_push, hf]
  have habove := ha.above
  have hparams := ha.params
  have hroom := ha.room
  have htop := ha.top
  obtain ⟨s, frames, hsize, harrived, hframes, hsplice⟩ :=
    spliceTailCall_eq hactive rfl (show f.func ≤ x.ra by omega) (Nat.le_of_lt habove) htop
      (by rw [ha.heap]; rfl) (by rw [ha.heap]; exact hparams)
  have hnew : frames.current = replacement g f := (List.cons.inj hframes).1
  have hdepth : frames.depth = vm.frames.depth := by
    rw [CallStack.depth_of_active hframes, CallStack.depth_of_active hf]
  have hsound : entered.upvalues.Sound := ha.upvalues ▸ hu
  refine ⟨_, hsplice,
    hdepth, by rw [hentered]; rfl, by rw [hcurrent]; omega, ?_, ?_, by rw [hnew], ?_, ?_, ?_⟩
  · rw [hentered, hcurrent, hnew]
    refine ⟨rfl, rfl, rfl, rfl, rfl, rfl, ?_, ?_⟩
    · simp only [replacement, g, newFrame]
      omega
    · simp only [replacement, g, newFrame]
      omega
  · refine ⟨c, by rw [hnew]; rfl, ha.callee, ?_, ?_⟩
    · rw [hnew, ha.heap]
      simp only [replacement, g, newFrame]
      omega
    · rw [hnew, hcurrent, ha.heap]
      intro slot hle hlt
      simp only [replacement, g, newFrame] at hlt
      have hslot := harrived (slot - f.func) (by rw [ha.heap]; simp only [g, newFrame]; omega)
      rw [show f.func + (slot - f.func) = slot by omega,
        show g.func + (slot - f.func) = slot + (x.ra - f.func) by
          simp only [g, newFrame]; omega] at hslot
      refine ⟨?_, hslot⟩
      show slot < s.size
      omega
  · rw [hnew]
    show (replacement g f).top ≤ s.size
    simp only [replacement, g, newFrame]
    omega
  · intro p hp
    rw [hcurrent]
    exact ((Upvalues.mem_opened_close hsound).mp hp).2
  · intro slot cell hm hle hlt
    rw [hcurrent] at hle
    have hopened : entered.upvalues.cells[cell.index]? = some (.opened slot) := by
      rw [ha.upvalues]
      exact hu.cell_of_mem hm
    show (entered.upvalues.close f.base entered.stack.slots).cell cell = _
    rw [Upvalues.cell, Upvalues.getElem?_cells_close hsound, hopened, Option.map_some,
      Option.getD_some, Cell.closedAt, if_pos hle]
    exact congrArg Cell.closed (ha.below slot hlt)

/-- Where a tail call finds a closure to enter, it cannot fail any more, and goes on in the place of
the frame that made it. -/
theorem tailCall_replaces_caller {host : Vm} {func : Nat} {results : ResultCount} {r : Run}
    (h : Reachable host) (hd : During host func results r) (hx : beginStep r.vm = .returned x mid)
    (hop : x.instr.op? = some .tailCall)
    (he : (placeArguments x >>= fun _ => precall x.ra .all true) mid = .returned u entered) :
    ∃ after, dispatch r.vm = .returned (.next .proceed) after ∧
      TailCalled x r.vm entered after := by
  obtain ⟨-, -, f, own, below, hf⟩ := executing_of_during h.sound hd
  obtain ⟨g, rest, hcallers⟩ := hf.callers
  have hactive : r.vm.frames.active = f :: g :: rest := by
    rw [hf.active, List.cons_append, hcallers]
  obtain ⟨f', hbegun, hbase⟩ := (begun_post hactive hf.frames.running.closure).of_returned hx
  obtain ⟨c, base, habove⟩ := aboveCaller_of_enterCall he
  have hrunning : f'.Running := hf.frames.running.congr hbegun.place
  have hupvalues := upvalues_of_works hbegun.works
  obtain ⟨after, hsplice, htail⟩ :=
    tailCalled_of_aboveCaller habove hbegun.active (hupvalues ▸ hf.sound) hrunning.above
      (hbase ▸ base_le_ra x)
  refine ⟨after, ?_, htail.congr ?_ ?_ hbegun.stack hupvalues⟩
  · rw [dispatch_of_splicing hx hop he]
    exact Exec.bind_of_returned hsplice
  · rw [(List.cons.inj hbegun.active).1, (List.cons.inj hactive).1]
    exact hbegun.place
  · rw [CallStack.depth_of_active hbegun.active, CallStack.depth_of_active hactive]

/-- Captures its first parameter in a closure, and then calls its second parameter with that closure
as the last thing it does. -/
def handOver : Prototype where
  paramCount := 2
  maxStackSize := 3
  code := #[⟨0x000000ac⟩, ⟨0x01000065⟩]
  functions := #[{ upvalues := #[⟨true, 0⟩] }]

/-- Takes one parameter and any further arguments, and returns at once. -/
def takeOver : Prototype where
  paramCount := 1
  isVararg := true
  maxStackSize := 2
  code := #[⟨0x00800026⟩]

def relayHost : Vm :=
  .new { initialStackSize := 8 } .standard {
    closures := #[
      { proto := handOver, upvalues := #[] }, { proto := takeOver, upvalues := #[] }] } {}

/-- The captured parameter keeps its value, although the vararg function takes its slot. -/
theorem tailCall_replaces_caller_relay :
    ∃ host r x mid entered after cell, Reachable host ∧ During host 0 .all r ∧
      beginStep r.vm = .returned x mid ∧ x.instr.op? = some .tailCall ∧
      (placeArguments x >>= fun _ => precall x.ra .all true) mid = .returned () entered ∧
      dispatch r.vm = .returned (.next .proceed) after ∧ TailCalled x r.vm entered after ∧
      (1, cell) ∈ r.vm.upvalues.opened ∧ after.upvalues.cell cell = .closed (.bool true) := by
  have hcheck : ((firstStep relayHost [.closure ⟨0⟩, .bool true, .closure ⟨1⟩]).any fun p =>
      p.2.vm.splicing?.any fun entered => p.2.vm.upvalues.opened.any fun q =>
        q.1 = 1 && p.2.vm.frames.current.base ≤ 1 && 1 < entered.frames.current.func &&
          p.2.vm.peek 1 = .bool true) = true := by
    decide +kernel
  obtain ⟨⟨host, r⟩, hstep, hsplicing⟩ := (Option.any_eq_true _ _).mp hcheck
  obtain ⟨entered, hentered, hopen⟩ := (Option.any_eq_true _ _).mp hsplicing
  obtain ⟨⟨slot, cell⟩, hmem, hfacts⟩ := List.any_eq_true.mp hopen
  simp only [Bool.and_eq_true, decide_eq_true_eq] at hfacts
  obtain ⟨⟨⟨rfl, hbase⟩, hfunc⟩, hvalue⟩ := hfacts
  obtain ⟨hhost, hduring⟩ := during_of_firstStep (.new _ _ _ rfl) hstep
  obtain ⟨x, mid, hx, hop, he⟩ := splicing?_eq_some.mp hentered
  obtain ⟨after, hdispatch, htail⟩ := tailCall_replaces_caller hhost hduring hx hop he
  have hkept := htail.kept 1 cell hmem hbase (htail.func ▸ hfunc)
  exact ⟨host, r, x, mid, entered, after, cell, hhost, hduring, hx, hop, he, hdispatch, htail, hmem,
    hvalue ▸ hkept⟩

end Vm

end LuaMachine
