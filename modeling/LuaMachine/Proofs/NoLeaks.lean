import LuaMachine.Proofs.Closing
import LuaMachine.Proofs.Reachable

/-!
# No open upvalue is leaked

A call leaves no upvalue open that was not open before, however it ends. Every cell that it makes is
closed when it is over, and every cell that it closes has taken the value of its slot.
-/
namespace LuaMachine

open Relation (ReflTransGen)
open Exec (Post)

namespace Vm

/-- The instruction that a step executes. -/
def stepOp? (vm : Vm) : Option Opcode :=
  match beginStep vm with
  | .returned x _ => x.instr.op?
  | _ => none

/-- The state in which a step closes the upvalue of a slot. Of the registers of their own frame, a
return closes them first, and a tail call closes them when its frame has been entered. Everything
else is closed in the end. -/
def closingMoment (before after : Vm) (slot : Nat) : Vm :=
  if before.frames.current.base ≤ slot then
    if before.stepOp? = some .ret then before else before.splicing?.getD after
  else after

section ClosingMoment
variable {before after entered mid : Vm} {x : Activation} {op : Opcode}

theorem closingMoment_of_ret (hop : before.stepOp? = some .ret) :
    closingMoment before after = fun s => if before.frames.current.base ≤ s then before
      else after := by
  funext s
  simp only [closingMoment, if_pos hop]

theorem closingMoment_of_splicing (hs : before.splicing? = some entered) :
    closingMoment before after = fun s => if before.frames.current.base ≤ s then entered
      else after := by
  obtain ⟨x, mid, hx, hop, -⟩ := splicing?_eq_some.mp hs
  have hret : before.stepOp? ≠ some .ret := by
    simp [stepOp?, hx, hop]
  funext s
  simp only [closingMoment, if_neg hret, hs, Option.getD_some]

theorem closingMoment_of_other (hop : before.stepOp? ≠ some .ret) (hs : before.splicing? = none) :
    closingMoment before after = fun _ => after := by
  funext s
  simp only [closingMoment, if_neg hop, hs, Option.getD_none, ite_self]

theorem stepOp?_of_fetched (hx : beginStep before = .returned x mid) (hop : x.instr.op? = some op) :
    before.stepOp? = some op := by
  simp [stepOp?, hx, hop]

end ClosingMoment

end Vm

namespace Run

section Steps
variable {root : Vm.CallSite} {outer own below : List Frame} {n : Nat} {suspended : List Suspended}
  {f g : Frame} {vm mid after : Vm}

/-- When a fresh frame has returned, the instruction that waits for it may close upvalues in the
end. -/
theorem leave_ending (h : Executing root outer n suspended vm f own below)
    (hr : Vm.Returned f (own ++ below) vm mid) (hfresh : f.status.fresh = true)
    (hl : (leave root mid suspended).state? = some after) : Vm.Ending mid after := by
  cases suspended with
  | nil =>
    cases hl
    exact .of_upvalues rfl
  | cons s rest =>
    obtain ⟨g, own', below', hg, hle, hk⟩ := (h.left hr hfresh).executing
    have hcontinue := continueWith_post hg hle hk
    simp only [leave] at hl
    cases hx : continueWith s mid with
    | aborted why =>
      rw [hx] at hl
      cases hl
    | returned next resumed =>
      rw [hx] at hl
      exact (followed_ending (hcontinue.of_returned hx) hl).head rfl
    | raised e failed =>
      rw [hx] at hl
      have hsame := Vm.upvalues_of_works (hcontinue.of_raised hx)
      exact (fail_ending hl).head hsame

/-- A return closes the upvalues of its frame first. -/
theorem accounted_of_returned (hu : vm.upvalues.Sound) (hs : mid.stack = vm.stack)
    (hv : mid.upvalues = vm.upvalues) {returned : Vm} (hr : Vm.Returned g below mid returned)
    (h : Vm.Ending returned after) :
    Vm.Accounted (fun s => if g.base ≤ s then vm else after) vm after := by
  obtain ⟨frames, -, hshifts⟩ := hr
  refine Vm.accounted_of_closeFrom hu ?_ h
  rw [(Vm.onlyRegisters_of_shifts hshifts).upvalues]
  show mid.upvalues.close g.base mid.stack.slots = vm.upvalues.close g.base vm.stack.slots
  rw [hs, hv]

/-- A tail call closes the upvalues of its caller when its own frame has been entered. -/
theorem accounted_of_splicing {r : Run} {entered : Vm}
    (h : Executing r.root outer n r.suspended r.vm f own below) (hs : r.vm.splicing? = some entered)
    (hstep : r.step.state? = some after) :
    Vm.Accounted (fun s => if f.base ≤ s then entered else after) r.vm after := by
  obtain ⟨k, rest, hcallers⟩ := h.callers
  have hactive : r.vm.frames.active = f :: k :: rest := by rw [h.active, List.cons_append, hcallers]
  obtain ⟨hsame, hdispatch⟩ := Vm.dispatch_post_of_splicing hactive h.frames.running.closure hs
  have hsound : entered.upvalues.Sound := by
    rw [hsame]
    exact h.sound
  unfold step at hstep
  cases hx : Vm.dispatch r.vm with
  | raised e failed => exact (hdispatch.of_raised hx).elim
  | aborted why =>
    rw [hx] at hstep
    cases hstep
  | returned action spliced =>
    obtain ⟨rfl, callee, caller, hbase, mid, frames, hshifts, -, -, rfl⟩ := hdispatch.of_returned hx
    rw [hx] at hstep
    have hclosed : mid.upvalues = (entered.closeFrom f.base).upvalues := by
      rw [(Vm.onlyRegisters_of_shifts hshifts).upvalues, hbase]
    exact (Vm.accounted_of_closeFrom hsound hclosed ((follow_ending hstep).head rfl)).congr
      hsame.symm

/-- What an instruction other than a tail call does, and what follows from it. -/
theorem executed_accounted {x : Vm.Activation} {op : Opcode} {action : Vm.Action} {done : Vm}
    (h : Executing root outer n suspended vm f own below)
    (hb : Vm.Begun f (own ++ below) vm x g mid)
    (hop : x.instr.op? = some op) (hs : vm.splicing? = none)
    (he : Vm.Executed x g (own ++ below) mid op action done)
    (hstep : (match action with
      | .next next => follow root suspended done next
      | .leave => leave root done suspended).state? = some after) :
    Vm.Accounted (Vm.closingMoment vm after) vm after := by
  have hcurrent : vm.frames.current = f := (List.cons.inj h.active).1
  have hsame := Vm.upvalues_of_works hb.works
  obtain ⟨-, hmid⟩ := h.begun hb
  have hfetched := Vm.stepOp?_of_fetched hb.fetched hop
  have hother : op ≠ .ret → Vm.closingMoment vm after = fun _ => after :=
    fun hne => Vm.closingMoment_of_other (by simpa [hfetched] using hne) hs
  cases he with
  | finished hret _ hf =>
    rw [hother hret]
    exact Vm.accounted_of_ending h.sound ((followed_ending hf hstep).head hsame)
  | made hm =>
    cases hstep
    exact (Vm.accounted_of_makes hm).congr hsame.symm
  | assigned ha =>
    cases hstep
    obtain ⟨worked, r, v, hw, hassign⟩ := ha
    exact (Vm.accounted_of_writeUpvalue hassign).congr ((Vm.upvalues_of_works hw).trans hsame).symm
  | called hw _ hentered =>
    cases hstep
    have hplaced := (Vm.onlyRegisters_of_shifts hw).upvalues
    exact Vm.accounted_of_upvalues (hentered.upvalues.trans (hplaced.trans hsame))
  | tailCalled _ _ _ _ hx =>
    have hsplicing := Vm.splicing?_eq_some.mpr ⟨x, mid, hb.fetched, hop, hx⟩
    rw [hs] at hsplicing
    cases hsplicing
  | returned hr =>
    have hend : Vm.Ending done after := by
      cases hfresh : g.status.fresh with
      | true =>
        rw [hfresh] at hstep
        exact leave_ending hmid hr hfresh hstep
      | false =>
        rw [hfresh] at hstep
        exact follow_ending hstep
    rw [Vm.closingMoment_of_ret hfetched, hcurrent, ← hb.place.base]
    exact accounted_of_returned h.sound hb.stack hsame hr hend

theorem failed_accounted {x : Vm.Activation} {op : Opcode} {e : LuaError} {failed : Vm}
    (h : Executing root outer n suspended vm f own below)
    (hb : Vm.Begun f (own ++ below) vm x g mid) (hop : x.instr.op? = some op)
    (hs : vm.splicing? = none) (hf : Vm.Failed g (own ++ below) mid op failed)
    (hstep : (fail e root suspended failed).state? = some after) :
    Vm.Accounted (Vm.closingMoment vm after) vm after := by
  have hcurrent : vm.frames.current = f := (List.cons.inj h.active).1
  have hsame := Vm.upvalues_of_works hb.works
  have hfetched := Vm.stepOp?_of_fetched hb.fetched hop
  cases hf with
  | works hret hw =>
    rw [Vm.closingMoment_of_other (by simpa [hfetched] using hret) hs]
    exact Vm.accounted_of_ending h.sound
      ((fail_ending hstep).head ((Vm.upvalues_of_works hw).trans hsame))
  | returned hr =>
    rw [Vm.closingMoment_of_ret hfetched, hcurrent, ← hb.place.base]
    exact accounted_of_returned h.sound hb.stack hsame hr (fail_ending hstep)

/-- Every step accounts for all cells: what it closes takes the value of its slot at the moment of
closing. -/
theorem step_accounted {r : Run} (h : Executing r.root outer n r.suspended r.vm f own below)
    (hstep : r.step.state? = some after) :
    Vm.Accounted (Vm.closingMoment r.vm after) r.vm after := by
  cases hs : r.vm.splicing? with
  | some entered =>
    have hcurrent : r.vm.frames.current = f := (List.cons.inj h.active).1
    rw [Vm.closingMoment_of_splicing hs, hcurrent]
    exact accounted_of_splicing h hs hstep
  | none =>
    unfold step at hstep
    cases hx : Vm.dispatch r.vm with
    | aborted why =>
      rw [hx] at hstep
      cases hstep
    | raised e failed =>
      rw [hx] at hstep
      obtain ⟨x, g, mid, op, hbegun, hop, hfailed⟩ := h.dispatch_post.of_raised hx
      exact failed_accounted h hbegun hop hs hfailed hstep
    | returned action done =>
      rw [hx] at hstep
      obtain ⟨x, g, mid, op, hbegun, hop, hexecuted⟩ := h.dispatch_post.of_returned hx
      refine executed_accounted h hbegun hop hs hexecuted ?_
      cases action <;> exact hstep

end Steps

end Run

namespace Vm

variable {vm after : Vm} {func fuel : Nat} {results : ResultCount}

/-- Nothing is open that was not open before, and what is new is closed. -/
structure NoneLeaked (vm after : Vm) : Prop where
  opened : ∀ p ∈ after.upvalues.opened, p ∈ vm.upvalues.opened
  cells : ∀ i s, after.cell? i = some (.opened s) → vm.cell? i = some (.opened s)
  made : ∀ i c, vm.cell? i = none → after.cell? i = some c → ∃ v, c = .closed v
  none : vm.upvalues.opened = [] → after.upvalues.opened = []

/-- From the beginning of a call to its end, every cell that is closed takes the value of its
slot. -/
structure ClosesValues (vm : Vm) (func : Nat) (results : ResultCount) : Prop where
  begins : ∀ root start, beginCall func results vm = .returned root start →
    start.upvalues = vm.upvalues
  fails : ∀ e after, beginCall func results vm = .raised e after →
    Accounted (fun _ => after) vm after
  steps : ∀ r next, During vm func results r → r.step.state? = some next →
    Accounted (closingMoment r.vm next) r.vm next

theorem closesValues (hu : vm.upvalues.Sound) : ClosesValues vm func results := by
  have hbegin := beginCall_ending func results vm
  refine ⟨fun root start hb => hbegin.of_returned hb, ?_, ?_⟩
  · exact fun e after hb => accounted_of_ending hu (hbegin.of_raised hb)
  · intro r next hr hstep
    obtain ⟨-, -, f, own, below, hf⟩ := executing_of_during hu hr
    exact Run.step_accounted hf hstep

/-- Over the frames there were before, only upvalues that were open before can be open. -/
theorem noneLeaked_of_events (hu : vm.upvalues.Sound)
    (he : ReflTransGen (Event func vm.frames.active) vm after)
    (ha : after.frames.active = vm.frames.active) : NoneLeaked vm after := by
  have hbefore : Grounded vm.upvalues.opened vm.frames.active vm := ⟨[], rfl, fun p hp => .inl hp⟩
  have hnone : after.frames.active = [] ++ vm.frames.active := ha
  have hopened : ∀ p ∈ after.upvalues.opened, p ∈ vm.upvalues.opened := by
    intro p hp
    rcases (grounded_of_events hu he hbefore).mine_of_active hnone p hp with hp | ⟨f, hf, -⟩
    · exact hp
    · cases hf
  have hsound := (spares_of_events he hu).sound
  have hcells : ∀ i s, after.cell? i = some (.opened s) → vm.cell? i = some (.opened s) :=
    fun i s hi => hu.cell_of_mem (hopened _ (hsound.mem_of_cell hi))
  refine ⟨hopened, hcells, ?_, ?_⟩
  · intro i c hi ha
    cases c with
    | closed v => exact ⟨v, rfl⟩
    | opened s =>
      rw [hcells i s ha] at hi
      cases hi
  · intro hnone
    refine List.eq_nil_iff_forall_not_mem.mpr fun p hp => ?_
    have := hopened p hp
    simp [hnone] at this

/-- A call that returns or fails leaks no open upvalue, and every cell it has closed took the value
of its slot. -/
theorem call_leaks_nothing (h : Reachable vm)
    (hc : (call fuel func results vm).state? = some after) :
    NoneLeaked vm after ∧ ClosesValues vm func results := by
  obtain ⟨hevents, hactive, -⟩ := over_of_call h.sound hc
  exact ⟨noneLeaked_of_events h.sound hevents hactive, closesValues h.sound⟩

/-- Captures its parameter in a closure and goes on in it, as a tail call. -/
def captureAndGoOn : Prototype where
  paramCount := 1
  maxStackSize := 3
  code := #[⟨0x0000006c⟩, ⟨0x00800025⟩]
  functions := #[{ upvalues := #[⟨true, 0⟩] }]

def goOnHost : Vm :=
  .new { initialStackSize := 12 } .standard
    { closures := #[{ proto := captureAndGoOn, upvalues := #[] }] } {}

/-- Called with itself, the function closes its parameter when it goes on, with the value it had
before the frame was replaced. The second time there is no parameter to go on in, and the error
closes the rest. -/
theorem call_leaks_nothing_goOn :
    ∃ vm after r next s, Reachable vm ∧ (call 4 0 .all vm).state? = some after ∧
      During vm 0 .all r ∧ r.step.state? = some next ∧ r.vm.cell? 0 = some (.opened s) ∧
      next.cell? 0 = some (.closed ((closingMoment r.vm next s).peek s)) ∧ NoneLeaked vm after := by
  have hcheck : ((firstStep goOnHost [.closure ⟨0⟩, .closure ⟨0⟩]).any fun p =>
      (call 4 0 .all p.1).state?.isSome && ((p.2.vm.cell? 0).bind Cell.slot?).isSome &&
        p.2.step.state?.any fun next => ((next.cell? 0).bind Cell.slot?).isNone) = true := by
          decide +kernel
  obtain ⟨⟨vm, r⟩, hl, hall⟩ := (Option.any_eq_true _ _).mp hcheck
  obtain ⟨hboth, hclosed⟩ := Bool.and_eq_true_iff.mp hall
  obtain ⟨hover, hopen⟩ := Bool.and_eq_true_iff.mp hboth
  obtain ⟨after, hafter⟩ := Option.isSome_iff_exists.mp hover
  obtain ⟨next, hnext, hshut⟩ := (Option.any_eq_true _ _).mp hclosed
  obtain ⟨hreachable, hduring⟩ := during_of_firstStep (.new _ _ _ rfl) hl
  obtain ⟨hleaked, hcloses⟩ := call_leaks_nothing hreachable hafter
  obtain ⟨s, hslot⟩ := Option.isSome_iff_exists.mp hopen
  obtain ⟨c, hcell, hs⟩ := Option.bind_eq_some_iff.mp hslot
  cases c with
  | closed v => cases hs
  | opened s' =>
    refine ⟨vm, after, r, next, s', hreachable, hafter, hduring, hnext, hcell, ?_, hleaked⟩
    rcases (hcloses.steps r next hduring hnext).opened 0 s' hcell with hstill | hvalue
    · simp [hstill, Cell.slot?] at hshut
    · exact hvalue

end Vm

end LuaMachine
