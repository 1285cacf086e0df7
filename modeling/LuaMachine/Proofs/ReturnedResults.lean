import LuaMachine.Proofs.RegisterBlocks
import LuaMachine.Proofs.ResourceLimits

/-!
# Returned results

A return moves its results down to the slot of the function that was called, over the registers that
are no longer needed and often over the results themselves. The caller finds there exactly the
values that it asked for: all of them, or a fixed number with nil for those that are missing.
-/
namespace LuaMachine

/-- What a caller gets of the results of a function. -/
def ResultCount.adjust : ResultCount → List Value → List Value
  | .all, values => values
  | .fixed wanted, values => Value.adjusted wanted values

/-- Whether a caller wants a fixed number of results. -/
def ResultCount.isFixed : ResultCount → Bool
  | .all => false
  | .fixed _ => true

/-- Where the top stands after the frame `f` has returned `count` results to `caller`. All results
end there. After a fixed number of them the host finds them below it, and a function has all of its
registers below it again. -/
def Frame.topAfter (f caller : Frame) (count : Nat) : Nat :=
  match f.results with
  | .all => f.func + count
  | .fixed wanted => if f.status.fresh then f.func + wanted else caller.top

namespace Vm
open RegisterStack (Grown)
variable {vm mid : Vm} {f g : Frame} {rest : List Frame} {values : List Value} {first target : Nat}
  {results : ResultCount}

/-- The stack may take the results that a caller wants in the slots from `func` on. Up to one result
needs no room besides that of the function. -/
def AdmitsResults (vm : Vm) (func : Nat) (results : ResultCount) : Prop :=
  ∀ wanted, results = .fixed wanted → 2 ≤ wanted → vm.stack.Grants (func + wanted)

/-- Moving results stores what the caller wants of them, and the top comes to stand above it. -/
theorem moveResults_puts (h : vm.stack.Holds first values) (hle : target ≤ first)
    (hroom : target < vm.stack.size) (hgrants : vm.AdmitsResults target results) :
    ∃ grown s, vm.stack.Grown grown ∧ grown.Puts target (results.adjust values) s ∧
      moveResults first target values.length results vm =
        .returned results.isFixed {
          vm with stack := s, top := target + (results.adjust values).length } := by
  match results with
  | .all =>
    have hfits : target + values.length ≤ vm.stack.size := by
      by_cases hne : values = []
      · rw [hne]
        exact Nat.le_of_lt hroom
      · have := h.room hne
        omega
    obtain ⟨s, hcopy, hs⟩ := RegisterStack.copyDown_puts h hfits (.inl hle)
    refine ⟨vm.stack, s, .refl _, hs, ?_⟩
    simp only [moveResults, bind, Exec.bind, Exec.onStack, hcopy, Exec.setTop, Exec.modify]
    rfl
  | .fixed 0 =>
    have hnone : (ResultCount.fixed 0).adjust values = [] :=
      List.length_eq_zero_iff.mp (Value.length_adjusted 0 values)
    rw [hnone]
    exact ⟨vm.stack, vm.stack, .refl _, .refl _ _, rfl⟩
  | .fixed 1 =>
    have hone : (ResultCount.fixed 1).adjust values = [values[0]?.getD .nil] := by
      cases values <;> simp [ResultCount.adjust, Value.adjusted]
    rw [hone]
    obtain ⟨s, hset, hs⟩ := RegisterStack.set_puts hroom (values[0]?.getD .nil)
    refine ⟨vm.stack, s, .refl _, hs, ?_⟩
    have hstore : (do
        Exec.setSlot target (values[0]?.getD .nil)
        Exec.setTop (target + 1)
        return true : Exec Bool) vm = .returned true { vm with stack := s, top := target + 1 } := by
      simp only [bind, Exec.bind, Exec.setSlot, Exec.onStack, hset, Exec.setTop, Exec.modify]
      rfl
    cases values with
    | nil => exact hstore
    | cons v values =>
      have hfirst : Exec.getSlot first vm = .returned v vm :=
        Exec.getSlot_eq_returned_iff.mpr ⟨h 0 (Nat.zero_lt_succ _), rfl⟩
      exact (Exec.bind_of_returned hfirst).trans hstore
  | .fixed (n + 2) =>
    have hg := hgrants (n + 2) rfl (by omega)
    obtain ⟨grown, hensure, hgrown, hsize⟩ := Exec.ensure_of_grants hg
    obtain ⟨t, s, hcopy, hfill, hs⟩ :=
      RegisterStack.copy_fill_puts (hgrown.holds h) hsize (.inl hle)
    refine ⟨grown, s, hgrown, hs, ?_⟩
    have hadd : Checked.add target (n + 2) = .ok (target + (n + 2)) := if_pos hg.word
    rw [Nat.min_comm] at hcopy hfill
    simp only [moveResults, hadd, bind, Exec.bind, Exec.check, pure, Exec.pure, hensure,
      Exec.onStack, hcopy, hfill,
      Exec.setTop, Exec.modify, ResultCount.adjust, Value.length_adjusted]
    rfl

/-- The frame `f` has returned `values` to the function below it. -/
structure Delivered (f : Frame) (values : List Value) (vm after : Vm) : Prop where
  frames : after.frames.active = vm.frames.callers
  placed : after.stack.Holds f.func (f.results.adjust values)
  kept : ∀ slot, slot < f.func ∨ f.func + (f.results.adjust values).length ≤ slot →
    after.peek slot = vm.peek slot
  size : vm.stack.size ≤ after.stack.size
  top : after.top = f.topAfter after.frames.current values.length

/-- A return of a frame delivers its results and goes on in its caller, or ends the call that the
host began with it. -/
theorem opReturn_delivers {x : Activation} (hf : vm.frames.active = f :: g :: rest)
    (hx : x.base = f.base)
    (hfunc : f.func < f.base) (hbase : f.base ≤ vm.stack.size) (h : vm.stack.Holds x.ra values)
    (hcount : if x.instr.b = 0 then x.ra + values.length = vm.top else values.length =
      x.instr.b - 1)
    (hgrants : vm.AdmitsResults f.func f.results) :
    ∃ after, opReturn x vm = .returned (if f.status.fresh then .leave else .next .proceed) after ∧
      Delivered f values vm after := by
  have hcurrent : vm.frames.current = f := (List.cons.inj hf).1
  have hra : f.func ≤ x.ra := by
    have := base_le_ra x
    omega
  obtain ⟨frames, hpop, hactive⟩ := CallStack.pop_of_active hf
  let left : Vm := { vm.closeFrom f.base with frames }
  obtain ⟨grown, s, hgrown, hs, hmove⟩ :=
    moveResults_puts (show left.stack.Holds x.ra values from h) hra
      (show f.func < vm.stack.size by omega) hgrants
  have hpost : postcall x.ra values.length (vm.closeFrom f.base) = .returned f.results.isFixed
      { left with stack := s, top := f.func + (f.results.adjust values).length } := by
    simp only [postcall, bind, Exec.bind, Exec.look, hpop, Exec.check, pure, Exec.pure, Exec.modify]
    exact hmove
  have hcaller : frames.current = g := (List.cons.inj hactive).1
  let after : Vm := { left with stack := s, top := f.topAfter g values.length }
  have hend : (do
      let fresh := (← Exec.currentFrame).status.fresh
      let fixedResults ← postcall x.ra values.length
      if fresh then return .leave
      if fixedResults then resetTop
      return .next .proceed : Exec Action) (vm.closeFrom f.base) =
        .returned (if f.status.fresh then .leave else .next .proceed) after := by
    simp only [bind, Exec.bind, Exec.currentFrame, Exec.look, hcurrent, hpost, after,
      Frame.topAfter]
    cases hfresh : f.status.fresh <;> cases hresults : f.results <;>
      simp [ResultCount.isFixed, ResultCount.adjust, resetTop, bind, Exec.bind, Exec.currentFrame,
        Exec.look, Exec.setTop, Exec.modify, pure, Exec.pure, left, hcaller]
  refine ⟨after, ?_, hactive.trans (List.cons.inj hf).2.symm, hs.holds,
    fun slot hslot => ?_, ?_, ?_⟩
  · by_cases hb : x.instr.b = 0
    · rw [if_pos hb] at hcount
      have hsub : Checked.sub vm.top x.ra = .ok values.length := by
        rw [Checked.sub, if_pos (by omega), show vm.top - x.ra = values.length by omega]
      simp only [opReturn, if_pos hb, bind, Exec.bind, Exec.closeUpvalues, Exec.modify, Exec.look,
        hx, hsub, Exec.check]
      exact hend
    · rw [if_neg hb] at hcount
      simp only [opReturn, if_neg hb, bind, Exec.bind, Exec.closeUpvalues, Exec.modify,
        hx, ← hcount]
      exact hend
  · show s.slots[slot]?.getD .nil = _
    rw [hs.kept slot hslot]
    exact hgrown.getD slot
  · show vm.stack.size ≤ s.size
    rw [hs.size]
    exact hgrown.size
  · show f.topAfter g values.length = f.topAfter frames.current values.length
    rw [hcaller]

/-- Only the place of the frame counts, not its position. -/
theorem Delivered.congr {after : Vm} (h : Delivered g values mid after) (hg : g.SamePlace f)
    (hs : mid.stack = vm.stack) (hc : mid.frames.callers = vm.frames.callers) :
    Delivered f values vm after := by
  obtain ⟨frames, placed, kept, size, top⟩ := h
  rw [hg.func, hg.results] at placed kept
  refine ⟨frames.trans hc, placed, fun slot hslot => ?_, hs ▸ size, ?_⟩
  · rw [kept slot hslot, peek, peek, hs]
  · rw [top, Frame.topAfter, Frame.topAfter, hg.func, hg.results, hg.fresh]

/-- A return gives the caller exactly what it asked for of the results, which are in the registers
from `A` on, as many as `B` says or up to the top. -/
theorem return_delivers {limits : Config} {host : Vm} {func : Nat} {wanted : ResultCount} {r : Run}
    {x : Activation}
    (h : Hosted limits host) (hd : During host func wanted r)
    (hx : beginStep r.vm = .returned x mid)
    (hop : x.instr.op? = some .ret) (hvalues : r.vm.stack.Holds x.ra values)
    (hcount : if x.instr.b = 0 then x.ra + values.length = r.vm.top else values.length =
      x.instr.b - 1)
    (hgrants : r.vm.AdmitsResults r.vm.frames.current.func r.vm.frames.current.results) :
    ∃ after,
      dispatch r.vm =
        .returned (if r.vm.frames.current.status.fresh then .leave else .next .proceed) after ∧
      Delivered r.vm.frames.current values r.vm after := by
  have hrest := h.atRest
  obtain ⟨-, -, f, own, below, hf⟩ := executing_of_during hrest.sound hd
  obtain ⟨g, rest, hcallers⟩ := hf.callers
  have hactive : r.vm.frames.active = f :: g :: rest := by
    rw [hf.active, List.cons_append, hcallers]
  have hcurrent : r.vm.frames.current = f := (List.cons.inj hactive).1
  obtain ⟨f', hbegun, hbase⟩ := (begun_post hactive hf.frames.running.closure).of_returned hx
  have hplace := hbegun.place
  have hfits := (bounded_of_during hrest.sound hrest.firm hd).current
  obtain ⟨c, hc⟩ := Option.isSome_iff_exists.mp hf.frames.running.closure
  rw [hcurrent] at hfits hgrants ⊢
  obtain ⟨hfunc, htop, hroom⟩ := hfits c hc
  have hmid : mid.top = r.vm.top := by
    obtain ⟨_, _, -, -, -, rfl⟩ := beginStep_eq_returned hx
    rfl
  rw [← hbegun.stack] at hvalues hroom
  rw [← hmid] at hcount
  rw [AdmitsResults, ← hbegun.stack, ← hplace.func, ← hplace.results] at hgrants
  obtain ⟨after, hreturn, hdelivered⟩ := opReturn_delivers hbegun.active hbase
    (by rw [hplace.func, hplace.base]; exact hfunc)
      (by rw [hplace.base]; omega) hvalues hcount hgrants
  refine ⟨after, ?_, hdelivered.congr hplace hbegun.stack ?_⟩
  · rw [dispatch_of_fetched hx hop, ← hplace.fresh]
    exact hreturn
  · rw [(List.cons.inj hbegun.active).2, (List.cons.inj hactive).2]

/-- Calls its first parameter with the two others and asks for nine results. -/
def askForNine : Prototype where
  paramCount := 3
  maxStackSize := 3
  code := #[⟨0x01828024⟩]

/-- Returns its two parameters. -/
def returnBoth : Prototype where
  paramCount := 2
  maxStackSize := 2
  code := #[⟨0x01800026⟩]

def nineHost : Vm :=
  .new { initialStackSize := 4 } .standard {
    closures :=
      #[{ proto := askForNine, upvalues := #[] }, { proto := returnBoth, upvalues := #[] }] } {}

/-- The two results move down by one slot, the second over the old place of the first, and seven
times nil comes after them. The stack grows for it. -/
theorem return_delivers_nine :
    ∃ host r x mid after, Hosted { initialStackSize := 4 } host ∧ During host 0 .all r ∧
      beginStep r.vm = .returned x mid ∧ x.instr.op? = some .ret ∧
      r.vm.stack.Holds x.ra [.bool true, .bool false] ∧ r.vm.frames.current.results = .fixed 9 ∧
      r.vm.frames.current.func + 1 = x.ra ∧ dispatch r.vm = .returned (.next .proceed) after ∧
      Delivered r.vm.frames.current [.bool true, .bool false] r.vm after ∧
      r.vm.stack.size < r.vm.frames.current.func + 9 ∧
      after.stack.Holds r.vm.frames.current.func
        (.bool true :: .bool false :: .replicate 7 .nil) := by
  have hcheck :
      ((firstStep nineHost [.closure ⟨0⟩, .closure ⟨1⟩, .bool true, .bool false]).any fun p =>
      (beginStep p.2.vm).result?.any fun q => q.1.instr.op? == some .ret && q.1.instr.b == 3 &&
        p.2.vm.stack.Holds q.1.ra [.bool true, .bool false] &&
          p.2.vm.frames.current.results = .fixed 9 &&
        p.2.vm.frames.current.func + 1 == q.1.ra && p.2.vm.frames.current.status.fresh == false &&
        p.2.vm.stack.size < p.2.vm.frames.current.func + 9 &&
        p.2.vm.stack.Grants (p.2.vm.frames.current.func + 9)) = true := by
    decide +kernel
  obtain ⟨⟨host, r⟩, hfirst, hfetched⟩ := (Option.any_eq_true _ _).mp hcheck
  obtain ⟨⟨x, mid⟩, hx, hfacts⟩ := (Option.any_eq_true _ _).mp hfetched
  simp only [Bool.and_eq_true, beq_iff_eq, decide_eq_true_eq, and_assoc] at hfacts
  obtain ⟨hop, hb, hvalues, hresults, hra, hfresh, hsize, hgrants⟩ := hfacts
  obtain ⟨hpush, hduring⟩ := firstStep_eq_some hfirst
  have hhosted : Hosted { initialStackSize := 4 } host := (Hosted.new _ _ _ rfl).pushAll hpush
  have hfetch := Outcome.result?_eq_some hx
  obtain ⟨after, hdispatch, hdelivered⟩ :=
    return_delivers hhosted hduring hfetch hop hvalues (by simp [hb]) (by
      intro wanted hwanted _
      rw [hresults] at hwanted
      cases hwanted
      exact hgrants)
  have hplaced := hdelivered.placed
  rw [hresults] at hplaced
  rw [hfresh] at hdispatch
  exact ⟨host, r, x, mid, after, hhosted, hduring, hfetch, hop, hvalues, hresults, hra, hdispatch,
    hdelivered, hsize, hplaced⟩

end Vm

end LuaMachine
