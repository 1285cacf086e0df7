import LuaMachine.Proofs.Step

/-!
# The events of a call

From the moment a function is called until the call is over, everything the machine does is a
sequence of few kinds of events, whatever the bytecode is. `outer` are the frames that were active
when the call began and `func` is the slot of the called function. What all events leave alone, a
call leaves alone.
-/
namespace LuaMachine.Vm

open Relation (ReflTransGen)

/-- What may happen during a call of the function in the slot `func`, over the frames `outer`. -/
inductive Event (func : Nat) (outer : List Frame) : Vm → Vm → Prop
  | shift {vm after : Vm} (h : Shift func vm after) : Event func outer vm after
  | extend {vm : Vm} {heap : Heap} (h : vm.heap.Extends heap) : Event func outer vm { vm with heap }
  /-- A frame of the call captures one of its registers. -/
  | capture {vm : Vm} {slot : Nat} {f : Frame} {mine : List Frame}
      (hv : vm.frames.active = mine ++ outer) (hf : f ∈ mine) (hb : func ≤ f.base)
      (h : f.base ≤ slot) :
      Event func outer vm { vm with upvalues := (vm.upvalues.capture slot).2 }
  | close {vm : Vm} {level : Nat} (h : func ≤ level) : Event func outer vm (vm.closeFrom level)
  | assign {vm after : Vm} {r : CellRef} {v : Value}
      (h : writeUpvalue r v vm = .returned () after) :
      Event func outer vm after
  /-- Frames of the call are entered, left, moved or replaced. An upvalue that was open in one of
  them is open in another. -/
  | reframe {vm : Vm} {frames : CallStack} (above new below : List Frame)
      (hv : vm.frames.active = above ++ (below ++ outer))
      (hn : frames.active = new ++ (below ++ outer))
      (h : ∀ f ∈ above, ∀ p ∈ vm.upvalues.opened, f.base ≤ p.1 → ∃ g ∈ new, g.base ≤ p.1) :
      Event func outer vm { vm with frames }
  | count {vm : Vm} (hostCalls : Nat) : Event func outer vm { vm with hostCalls }

/-! ## What events leave alone -/

section Invariants
variable {func : Nat} {outer : List Frame} {vm after : Vm}

theorem Event.spares (h : Event func outer vm after) : Spares func vm after := by
  cases h with
  | shift h => exact h.spares
  | extend _ => exact (Spares.refl func vm).congr rfl rfl rfl rfl
  | capture _ _ hb hs => exact (Make.capture (Nat.le_trans hb hs)).spares
  | close hl => exact spares_close hl
  | assign h => exact spares_of_writeUpvalue h
  | reframe => exact (Spares.refl func vm).congr rfl rfl rfl rfl
  | count _ => exact (Spares.refl func vm).congr rfl rfl rfl rfl

theorem spares_of_events (h : ReflTransGen (Event func outer) vm after) : Spares func vm after :=
  path_induction (Spares.refl func) Spares.trans Event.spares h

/-- Every open upvalue is one of `before`, or it is a register of a frame of the call. -/
def Grounded (before : List (Nat × CellRef)) (outer : List Frame) (vm : Vm) : Prop :=
  ∃ mine, vm.frames.active = mine ++ outer ∧
    ∀ p ∈ vm.upvalues.opened, p ∈ before ∨ ∃ f ∈ mine, f.base ≤ p.1

theorem Grounded.mine_of_active {before : List (Nat × CellRef)} {mine : List Frame}
    (h : Grounded before outer vm) (hv : vm.frames.active = mine ++ outer) :
    ∀ p ∈ vm.upvalues.opened, p ∈ before ∨ ∃ f ∈ mine, f.base ≤ p.1 := by
  obtain ⟨mine', hv', h⟩ := h
  rw [hv'] at hv
  rwa [List.append_cancel_right hv] at h

theorem Event.grounded {before : List (Nat × CellRef)} (hu : vm.upvalues.Sound)
    (h : Event func outer vm after) (hg : Grounded before outer vm) :
    Grounded before outer after := by
  cases h with
  | shift h =>
    obtain ⟨mine, hv, ho⟩ := hg
    have hsame := onlyRegisters_of_shifts (.single h)
    exact ⟨mine, by rw [hsame.frames, hv], by rw [hsame.upvalues]; exact ho⟩
  | extend _ => exact hg
  | capture hv hf hb hs =>
    have ho := hg.mine_of_active hv
    refine ⟨_, hv, fun p hp => ?_⟩
    rcases Upvalues.mem_opened_capture hp with hp | rfl
    · exact ho p hp
    · exact .inr ⟨_, hf, hs⟩
  | close _ =>
    obtain ⟨mine, hv, ho⟩ := hg
    exact ⟨mine, hv, fun p hp => ho p ((Upvalues.mem_opened_close hu).mp hp).1⟩
  | assign h =>
    obtain ⟨mine, hv, ho⟩ := hg
    unfold writeUpvalue at h
    split at h <;> cases h <;> exact ⟨mine, hv, ho⟩
  | reframe above new below hv hn h =>
    rw [← List.append_assoc] at hv hn
    have ho := hg.mine_of_active hv
    refine ⟨_, hn, fun p hp => ?_⟩
    rcases ho p hp with hb | ⟨f, hf, hle⟩
    · exact .inl hb
    · rcases List.mem_append.mp hf with hf | hf
      · obtain ⟨g, hg, hle'⟩ := h f hf p hp hle
        exact .inr ⟨g, List.mem_append_left _ hg, hle'⟩
      · exact .inr ⟨f, List.mem_append_right _ hf, hle⟩
  | count _ => exact hg

theorem grounded_of_events {before : List (Nat × CellRef)} (hu : vm.upvalues.Sound)
    (h : ReflTransGen (Event func outer) vm after) (hg : Grounded before outer vm) :
    Grounded before outer after := by
  induction h with
  | refl => exact hg
  | tail hp he ih => exact he.grounded (spares_of_events hp hu).sound ih

end Invariants

/-! ## Steps as events -/

section Steps
variable {func : Nat} {outer mine : List Frame} {f g : Frame} {vm after : Vm}

/-- Moving the position or the marks of the current frame. -/
theorem event_move (hv : vm.frames.active = f :: mine ++ outer) {m : Frame → Frame}
    (hm : ∀ f, (m f).SamePlace f) :
    Event func outer vm { vm with frames := vm.frames.modifyCurrent m } := by
  obtain ⟨hcurrent, hcallers⟩ := List.cons.inj hv
  refine .reframe [f] [m f] mine hv (by simp [hcurrent, hcallers]) ?_
  intro h hh p _ hle
  rw [List.mem_singleton.mp hh, ← (hm f).base] at hle
  exact ⟨m f, List.mem_singleton_self _, hle⟩

theorem event_of_work (hv : vm.frames.active = f :: mine ++ outer) {base : Nat} (hl : func ≤ base)
    (h : Work base vm after) : Event func outer vm after := by
  cases h with
  | shift h => exact .shift (h.mono hl)
  | extend h => exact .extend h
  | move m hm => exact event_move hv hm

theorem events_of_makes (hv : vm.frames.active = f :: mine ++ outer) (hl : func ≤ f.base)
    (h : ReflTransGen (Make f.base) vm after) : ReflTransGen (Event func outer) vm after := by
  induction h with
  | refl => exact .refl
  | tail hp hw ih =>
    obtain ⟨f', hplace, hactive⟩ := (inPlace_of_makes hp).active hv
    have hbase := hplace.base
    refine ih.tail ?_
    cases hw with
    | work h => exact event_of_work hactive hl h
    | capture h => exact .capture hactive List.mem_cons_self (by omega) (by omega)

theorem events_of_works (hv : vm.frames.active = f :: mine ++ outer) (hl : func ≤ f.base)
    (h : ReflTransGen (Work f.base) vm after) : ReflTransGen (Event func outer) vm after :=
  events_of_makes hv hl (ReflTransGen.mono (fun _ _ hw => .work hw) _ _ h)

theorem events_of_closes (hv : vm.frames.active = f :: mine ++ outer) (hl : func ≤ f.base)
    (h : ReflTransGen (Close f.base) vm after) : ReflTransGen (Event func outer) vm after := by
  induction h with
  | refl => exact .refl
  | tail hp hw ih =>
    obtain ⟨f', -, hactive⟩ := (inPlace_of_closes hp).active hv
    refine ih.tail ?_
    cases hw with
    | close h => exact .close (Nat.le_trans hl h)
    | move m hm => exact event_move hactive hm

theorem events_of_finished (hv : vm.frames.active = f :: mine ++ outer) (hl : func ≤ f.base)
    (h : Finished f.base vm after) : ReflTransGen (Event func outer) vm after := by
  obtain ⟨mid, hw, hc⟩ := h
  obtain ⟨f', hplace, hactive⟩ := (inPlace_of_works hw).active hv
  rw [← hplace.base] at hc
  exact (events_of_works hv hl hw).trans (events_of_closes hactive (hplace.base ▸ hl) hc)

theorem events_of_assigned (hv : vm.frames.active = f :: mine ++ outer) (hl : func ≤ f.base)
    (h : Assigned f.base vm after) : ReflTransGen (Event func outer) vm after := by
  obtain ⟨mid, r, v, hw, ha⟩ := h
  exact (events_of_works hv hl hw).tail (.assign ha)

theorem events_of_shifts {level : Nat} (hl : func ≤ level)
    (h : ReflTransGen (Shift level) vm after) : ReflTransGen (Event func outer) vm after :=
  ReflTransGen.mono (fun _ _ hs => .shift (hs.mono hl)) _ _ h

theorem events_of_entered {slot : Nat} {results : ResultCount}
    (hv : vm.frames.active = mine ++ outer) (hl : func ≤ slot)
    (h : Entered slot results g vm after) : ReflTransGen (Event func outer) vm after := by
  obtain ⟨hg, mid, hs, rfl⟩ := h
  have habove := hg.above
  have htop := hg.base_le_top
  have hframes := (onlyRegisters_of_shifts hs).frames
  have hpush : Event func outer mid { mid with frames := mid.frames.push g } :=
    .reframe [] [g] mine (by rw [hframes, hv, List.nil_append])
      (by rw [CallStack.active_push, hframes, hv, List.singleton_append]) (by simp)
  refine ((events_of_shifts hl hs).tail hpush).tail (.shift (.moveTop (.inl ?_)))
  omega

theorem events_of_returned (hu : vm.upvalues.Sound) (hv : vm.frames.active = f :: mine ++ outer)
    (hl : func ≤ f.func) (hb : func ≤ f.base) (h : Returned f (mine ++ outer) vm after) :
    ReflTransGen (Event func outer) vm after := by
  obtain ⟨frames, hn, hs⟩ := h
  have hpop : Event func outer (vm.closeFrom f.base) { vm.closeFrom f.base with frames } := by
    refine .reframe [f] [] mine hv hn ?_
    intro h hh p hp hle
    have hlt := ((Upvalues.mem_opened_close hu).mp hp).2
    rw [List.mem_singleton.mp hh] at hle
    omega
  exact .head (.close hb) (.head hpop (events_of_shifts hl hs))

theorem events_of_spliced (hu : vm.upvalues.Sound) (hv : vm.frames.active = g :: f :: mine ++ outer)
    (hl : func ≤ f.func) (hb : func ≤ f.base) (hg : f.base ≤ g.base)
    (h : Spliced g f (mine ++ outer) vm after) : ReflTransGen (Event func outer) vm after := by
  obtain ⟨mid, frames, hs, -, hn, rfl⟩ := h
  have hsame := onlyRegisters_of_shifts hs
  have hreplace : Event func outer mid { mid with frames } := by
    refine .reframe [g, f] [replacement g f] mine (by rw [hsame.frames, hv]; rfl) hn ?_
    intro h hh p hp hle
    rw [hsame.upvalues] at hp
    have hlt := ((Upvalues.mem_opened_close hu).mp hp).2
    rcases List.mem_cons.mp hh with rfl | hh
    · omega
    · rw [List.mem_singleton.mp hh] at hle
      omega
  exact .head (.close hb) ((events_of_shifts hl hs).tail hreplace)

theorem events_of_unwound {above : List Frame} {site : CallSite} (hu : vm.upvalues.Sound)
    (hv : vm.frames.active = above ++ (mine ++ outer))
    (hd : (mine ++ outer).length = site.depth + 1) (hl : func ≤ site.func)
    (ha : ∀ f ∈ above, site.func ≤ f.base) :
    ReflTransGen (Event func outer) vm (vm.unwound site) := by
  let closed : Vm := { vm.closeFrom site.func with hostCalls := vm.hostCalls - 1 }
  have hclose : ReflTransGen (Event func outer) vm closed := .head (.close hl) (.single (.count _))
  have htruncate :
      Event func outer closed { closed with frames := vm.frames.truncate site.depth } := by
    refine .reframe above [] mine hv (CallStack.active_truncate hv hd) ?_
    intro f hf p hp hle
    have hlt := ((Upvalues.mem_opened_close hu).mp hp).2
    have := ha f hf
    omega
  exact (hclose.tail htruncate).tail (.shift (.moveTop (.inl hl)))

end Steps

end LuaMachine.Vm
