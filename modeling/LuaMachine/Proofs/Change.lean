import LuaMachine.Proofs.ActiveFrames
import LuaMachine.Proofs.OpenUpvalues
import LuaMachine.Proofs.Outcome

/-!
# The changes a machine is made of

Whatever an instruction does in its own frame is a sequence of few kinds of changes, each at or
above its first register: a register takes a value, the stack grows, the top moves, the heap or a
log is extended, the position of the frame moves. Capturing and closing upvalues are kinds of their
own. What a sequence of changes leaves alone is proved here once for each kind of change, and holds
of every instruction that is such a sequence.
-/
namespace LuaMachine

open Relation (ReflTransGen)

/-! ## Storing registers -/

namespace RegisterStack
variable {level : Nat}

/-- One register at or above `level` takes a value. -/
def Write (level : Nat) (s t : RegisterStack) : Prop :=
  ∃ slot v, level ≤ slot ∧ slot < s.size ∧ t = s.setIfInBounds slot v

theorem get_yields (s : RegisterStack) (slot : Nat) :
    (s.get slot).Yields fun v => s.slots[slot]? = some v := by
  unfold get
  split
  next h => exact h
  next h => rfl

theorem set_yields (s : RegisterStack) {slot : Nat} (v : Value) (hl : level ≤ slot) :
    (s.set slot v).Yields (s.Write level) := by
  cases hs : s.set slot v with
  | ok t =>
    obtain ⟨hlt, rfl⟩ := set_eq_ok_iff.mp hs
    exact ⟨slot, v, hl, hlt, rfl⟩
  | error why =>
    unfold set at hs
    split at hs
    · cases hs
    · cases hs
      rfl

theorem size_of_writes {s t : RegisterStack} (h : ReflTransGen (Write level) s t) :
    t.size = s.size := by
  induction h with
  | refl => rfl
  | tail _ hw ih =>
    obtain ⟨slot, v, -, -, rfl⟩ := hw
    rw [size_setIfInBounds, ih]

theorem copyDown_yields (s : RegisterStack) (source : Nat) {target : Nat} (count : Nat)
    (hl : level ≤ target) :
    (s.copyDown source target count).Yields (ReflTransGen (Write level) s) := by
  induction count generalizing s source target with
  | zero => exact .refl
  | succ count ih =>
    unfold copyDown
    cases hg : s.get source with
    | error e => exact (s.get_yields source).of_error hg
    | ok v =>
      dsimp only
      cases hs : s.set target v with
      | error e => exact (s.set_yields v hl).of_error hs
      | ok t =>
        have hwrite := (s.set_yields v hl).of_ok hs
        exact (ih t (source + 1) (by omega)).mono fun _ h => .head hwrite h

theorem fillNil_yields (s : RegisterStack) {start : Nat} (count : Nat) (hl : level ≤ start) :
    (s.fillNil start count).Yields (ReflTransGen (Write level) s) := by
  induction count generalizing s start with
  | zero => exact .refl
  | succ count ih =>
    unfold fillNil
    cases hs : s.set start .nil with
    | error e => exact (s.set_yields .nil hl).of_error hs
    | ok t =>
      have hwrite := (s.set_yields .nil hl).of_ok hs
      exact (ih t (by omega)).mono fun _ h => .head hwrite h

/-- Slots that were filled exist. -/
theorem fillNil_room {s t : RegisterStack} {start count : Nat} (h : s.fillNil start count = .ok t) :
    count = 0 ∨ start + count ≤ s.size := by
  induction count generalizing s start with
  | zero => exact .inl rfl
  | succ count ih =>
    unfold fillNil at h
    cases hs : s.set start .nil with
    | error why => simp [hs] at h
    | ok s' =>
      simp only [hs] at h
      obtain ⟨hlt, rfl⟩ := set_eq_ok_iff.mp hs
      have hrest := ih h
      rw [size_setIfInBounds] at hrest
      omega

/-- Taking a value out of a slot stores nil there. -/
theorem take_yields (s : RegisterStack) {slot : Nat} (hl : level ≤ slot) :
    (s.take slot).Yields fun p => s.Write level p.2 := by
  unfold take
  cases hg : s.get slot with
  | error e => exact (s.get_yields slot).of_error hg
  | ok v =>
    dsimp only
    cases hs : s.set slot .nil with
    | error e => exact (s.set_yields .nil hl).of_error hs
    | ok t => exact (s.set_yields .nil hl).of_ok hs

theorem shiftUp_yields (s : RegisterStack) {top count : Nat} (hl : level + count ≤ top) :
    (s.shiftUp top count).Yields (ReflTransGen (Write level) s) := by
  induction count generalizing s top with
  | zero => exact .refl
  | succ count ih =>
    have htake := s.take_yields (show level ≤ top - 1 by omega)
    unfold shiftUp
    cases ht : s.take (top - 1) with
    | error e => exact htake.of_error ht
    | ok p =>
      obtain ⟨v, s'⟩ := p
      have hset := s'.set_yields v (show level ≤ top by omega)
      dsimp only
      cases hs : s'.set top v with
      | error e => exact hset.of_error hs
      | ok t =>
        have htaken := htake.of_ok ht
        have hstored := hset.of_ok hs
        exact (ih t (by omega)).mono fun _ h => .head htaken (.head hstored h)

theorem insert_yields (s : RegisterStack) (slot top : Nat) (v : Value) :
    (s.insert slot top v).Yields (ReflTransGen (Write slot) s) := by
  have hshift : (s.shiftUp top (top - slot)).Yields (ReflTransGen (Write slot) s) := by
    by_cases hle : slot ≤ top
    · exact s.shiftUp_yields (by omega)
    · -- Above the top there is nothing to move.
      rw [show top - slot = 0 by omega]
      exact .refl
  unfold insert
  cases hs : s.shiftUp top (top - slot) with
  | error e => exact hshift.of_error hs
  | ok t => exact (t.set_yields v (Nat.le_refl slot)).mono fun _ h => (hshift.of_ok hs).tail h

theorem slice_yields (s : RegisterStack) (start stop : Nat) :
    (s.slice start stop).Yields fun _ => True := by
  unfold slice
  split
  next h => trivial
  next h => rfl

/-- A slot that was never written or lies beyond the stack reads as nil, before growth and after. -/
theorem getD_grow (s : RegisterStack) (wanted slot : Nat) :
    (s.grow wanted).slots[slot]?.getD .nil = s.slots[slot]?.getD .nil := by
  simp only [grow, Array.getElem?_append]
  split_ifs with h
  · rfl
  · rw [Array.getElem?_eq_none (Nat.le_of_not_lt h), Array.getElem?_replicate]
    split_ifs <;> rfl

theorem size_grow (s : RegisterStack) (wanted : Nat) :
    (s.grow wanted).size = max s.size (s.grownSize wanted) := by
  simp only [grow, size, Array.size_append, Array.size_replicate]
  omega

theorem size_le_grow (s : RegisterStack) (wanted : Nat) : s.size ≤ (s.grow wanted).size := by
  rw [size_grow]
  exact Nat.le_max_left _ _

theorem le_size_grow (s : RegisterStack) {wanted : Nat} (h : wanted ≤ s.limit) :
    wanted ≤ (s.grow wanted).size := by
  rw [size_grow]
  simp only [grownSize]
  omega

end RegisterStack

/-! ## Kinds of changes -/

/-- Every closure of a heap is where it was. -/
def Heap.Extends (h h' : Heap) : Prop :=
  ∀ (i : Nat) (c : Closure), h.closures[i]? = some c → h'.closures[i]? = some c

theorem Heap.extends_newClosure (h : Heap) (c : Closure) : h.Extends (h.newClosure c).2 := by
  intro i c' hc
  have hi : i < h.closures.size := (Array.getElem?_eq_some_iff.mp hc).1
  simp only [newClosure, Array.getElem?_push]
  rw [if_neg (by omega), hc]

namespace Vm

/-- A change of the registers, the top or the logs. Registers are stored at or above `level`. A top
that falls goes there or to the end of the current frame. -/
inductive Shift (level : Nat) : Vm → Vm → Prop
  | write {vm : Vm} {s : RegisterStack} (h : vm.stack.Write level s) :
      Shift level vm { vm with stack := s }
  | grow {vm : Vm} (wanted : Nat) : Shift level vm { vm with stack := vm.stack.grow wanted }
  | moveTop {vm : Vm} {top : Nat} (h : level ≤ top ∨ vm.top ≤ top ∨ top = vm.frames.current.top) :
      Shift level vm { vm with top }
  | log {vm : Vm} (trace : Option (Array TraceGroup))
      (consultations : Option (Array Consultation)) :
      Shift level vm { vm with trace, consultations }

/-- What an instruction does in its own frame, whose registers begin at `base`. -/
inductive Work (base : Nat) : Vm → Vm → Prop
  | shift {vm after : Vm} (h : Shift base vm after) : Work base vm after
  | extend {vm : Vm} {heap : Heap} (h : vm.heap.Extends heap) : Work base vm { vm with heap }
  | move {vm : Vm} (g : Frame → Frame) (h : ∀ f, (g f).SamePlace f) :
      Work base vm { vm with frames := vm.frames.modifyCurrent g }

/-- What the instruction that makes a closure does: it works in its frame and captures registers of
it. -/
inductive Make (base : Nat) : Vm → Vm → Prop
  | work {vm after : Vm} (h : Work base vm after) : Make base vm after
  | capture {vm : Vm} {slot : Nat} (h : base ≤ slot) :
      Make base vm { vm with upvalues := (vm.upvalues.capture slot).2 }

/-- The machine with its upvalues closed from a level on. -/
abbrev closeFrom (vm : Vm) (level : Nat) : Vm :=
  { vm with upvalues := vm.upvalues.close level vm.stack.slots }

/-- The end of a jump: it may close upvalues, and the position of the frame moves. -/
inductive Close (base : Nat) : Vm → Vm → Prop
  | close {vm : Vm} {level : Nat} (h : base ≤ level) : Close base vm (vm.closeFrom level)
  | move {vm : Vm} (g : Frame → Frame) (h : ∀ f, (g f).SamePlace f) :
      Close base vm { vm with frames := vm.frames.modifyCurrent g }

theorem Shift.mono {level lower : Nat} {vm after : Vm} (h : Shift level vm after)
    (hl : lower ≤ level) : Shift lower vm after := by
  cases h with
  | write h =>
    obtain ⟨slot, v, hs, hlt, rfl⟩ := h
    exact .write ⟨slot, v, by omega, hlt, rfl⟩
  | grow wanted => exact .grow wanted
  | moveTop h => exact .moveTop (by omega)
  | log trace consultations => exact .log trace consultations

theorem shifts_mono {level lower : Nat} {vm after : Vm} (h : ReflTransGen (Shift level) vm after)
    (hl : lower ≤ level) : ReflTransGen (Shift lower) vm after :=
  ReflTransGen.mono (fun _ _ hs => hs.mono hl) _ _ h

/-- A property that is kept by every change of a kind is kept by a sequence of them. -/
theorem path_induction {r : Vm → Vm → Prop} {P : Vm → Vm → Prop} (hrefl : ∀ vm, P vm vm)
    (htrans : ∀ {a b c}, P a b → P b c → P a c) (hstep : ∀ {a b}, r a b → P a b) {vm after : Vm}
    (h : ReflTransGen r vm after) : P vm after := by
  induction h with
  | refl => exact hrefl vm
  | tail _ hs ih => exact htrans ih (hstep hs)

/-! ## What lies below a level -/

/-- Below a level the registers and the table of open upvalues are spared. Only a register that is
itself an open upvalue may have changed. -/
structure Spared (level : Nat) (vm after : Vm) : Prop where
  sound : after.upvalues.Sound
  size : vm.stack.size ≤ after.stack.size
  slots : ∀ s, s < level → (∀ r, (s, r) ∉ vm.upvalues.opened) → after.peek s = vm.peek s
  opened : ∀ s r, s < level → ((s, r) ∈ after.upvalues.opened ↔ (s, r) ∈ vm.upvalues.opened)

/-- Whatever was in order before is spared below `level`. -/
def Spares (level : Nat) (vm after : Vm) : Prop := vm.upvalues.Sound → Spared level vm after

section Spared
variable {level lower : Nat} {vm mid after : Vm}

theorem Spares.refl (level : Nat) (vm : Vm) : Spares level vm vm :=
  fun hu => ⟨hu, Nat.le_refl _, fun _ _ _ => rfl, fun _ _ _ => Iff.rfl⟩

theorem Spared.trans (h : Spared level vm mid) (h' : Spared level mid after) :
    Spared level vm after where
  sound := h'.sound
  size := Nat.le_trans h.size h'.size
  slots := by
    intro s hs hn
    have hn' : ∀ r, (s, r) ∉ mid.upvalues.opened := fun r hm => hn r ((h.opened s r hs).mp hm)
    rw [h'.slots s hs hn', h.slots s hs hn]
  opened := fun s r hs => (h'.opened s r hs).trans (h.opened s r hs)

theorem Spares.trans (h : Spares level vm mid) (h' : Spares level mid after) :
    Spares level vm after :=
  fun hu => (h hu).trans (h' (h hu).sound)

/-- Only the registers and the upvalues count. -/
theorem Spares.congr {vm' after' : Vm} (h : Spares level vm after) (hs : vm'.stack = vm.stack)
    (hu : vm'.upvalues = vm.upvalues) (hs' : after'.stack = after.stack)
    (hu' : after'.upvalues = after.upvalues) : Spares level vm' after' := by
  intro hsound
  rw [hu] at hsound
  have h := h hsound
  refine ⟨by rw [hu']; exact h.sound, by rw [hs, hs']; exact h.size, ?_, ?_⟩
  · intro s hlt hn
    rw [hu] at hn
    rw [peek, peek, hs, hs']
    exact h.slots s hlt hn
  · intro s r hlt
    rw [hu, hu']
    exact h.opened s r hlt

theorem Shift.spares (h : Shift level vm after) : Spares level vm after := by
  intro hu
  cases h with
  | write h =>
    obtain ⟨slot, v, hl, -, rfl⟩ := h
    refine ⟨hu, by simp, ?_, fun _ _ _ => Iff.rfl⟩
    intro s hs _
    simp only [peek, RegisterStack.setIfInBounds]
    rw [Array.getElem?_setIfInBounds_ne (by omega)]
  | grow wanted =>
    exact ⟨hu, vm.stack.size_le_grow wanted, fun s _ _ => vm.stack.getD_grow wanted s,
      fun _ _ _ => Iff.rfl⟩
  | moveTop _ => exact ⟨hu, Nat.le_refl _, fun _ _ _ => rfl, fun _ _ _ => Iff.rfl⟩
  | log _ _ => exact ⟨hu, Nat.le_refl _, fun _ _ _ => rfl, fun _ _ _ => Iff.rfl⟩

theorem Work.spares (h : Work level vm after) : Spares level vm after := by
  cases h with
  | shift h => exact h.spares
  | extend _ => exact (Spares.refl level vm).congr rfl rfl rfl rfl
  | move g _ => exact (Spares.refl level vm).congr rfl rfl rfl rfl

theorem Make.spares (h : Make level vm after) : Spares level vm after := by
  cases h with
  | work h => exact h.spares
  | capture hl =>
    intro hu
    refine ⟨hu.capture _, Nat.le_refl _, fun _ _ _ => rfl, ?_⟩
    intro s r hs
    constructor
    · intro hm
      rcases Upvalues.mem_opened_capture hm with hm | rfl
      · exact hm
      · omega
    · exact Upvalues.mem_opened_capture_of_mem

/-- Closing at or above a level spares what lies below it. -/
theorem spares_close (hl : lower ≤ level) : Spares lower vm (vm.closeFrom level) := by
  intro hu
  refine ⟨hu.close _ _, Nat.le_refl _, fun _ _ _ => rfl, ?_⟩
  intro s r hs
  rw [Upvalues.mem_opened_close hu]
  constructor
  · exact fun hm => hm.1
  · exact fun hm => ⟨hm, by show s < level; omega⟩

end Spared

/-! ## Frames and the top -/

/-- The frames are where they were. Only the position and the marks of the current one may have
moved, and the top has not fallen below the registers. -/
structure InPlace (base : Nat) (vm after : Vm) : Prop where
  current : after.frames.current.SamePlace vm.frames.current
  callers : after.frames.callers = vm.frames.callers
  hostCalls : after.hostCalls = vm.hostCalls
  config : after.config = vm.config
  top : base ≤ vm.top → base ≤ vm.frames.current.top → base ≤ after.top

section InPlace
variable {base : Nat} {vm mid after : Vm}

theorem InPlace.refl (base : Nat) (vm : Vm) : InPlace base vm vm :=
  ⟨.refl _, rfl, rfl, rfl, fun h _ => h⟩

theorem InPlace.trans (h : InPlace base vm mid) (h' : InPlace base mid after) :
    InPlace base vm after where
  current := h'.current.trans h.current
  callers := h'.callers.trans h.callers
  hostCalls := h'.hostCalls.trans h.hostCalls
  config := h'.config.trans h.config
  top := fun ht hc => h'.top (h.top ht hc) (by rw [h.current.top]; exact hc)

/-- The current frame is still there, and so are all frames below it. -/
theorem InPlace.active {f : Frame} {below : List Frame} (h : InPlace base vm after)
    (hv : vm.frames.active = f :: below) :
    ∃ g, g.SamePlace f ∧ after.frames.active = g :: below := by
  obtain ⟨hcurrent, hcallers⟩ := List.cons.inj hv
  refine ⟨after.frames.current, hcurrent ▸ h.current, ?_⟩
  rw [CallStack.active, h.callers, hcallers]

theorem inPlace_move {g : Frame → Frame} (h : ∀ f, (g f).SamePlace f) :
    InPlace base vm { vm with frames := vm.frames.modifyCurrent g } := by
  refine ⟨?_, by simp, rfl, rfl, fun h _ => h⟩
  simpa using h vm.frames.current

theorem Shift.inPlace (h : Shift base vm after) : InPlace base vm after := by
  cases h with
  | moveTop h =>
    refine ⟨.refl _, rfl, rfl, rfl, fun ht hc => ?_⟩
    dsimp only
    omega
  | write _ => exact ⟨.refl _, rfl, rfl, rfl, fun h _ => h⟩
  | grow _ => exact ⟨.refl _, rfl, rfl, rfl, fun h _ => h⟩
  | log _ _ => exact ⟨.refl _, rfl, rfl, rfl, fun h _ => h⟩

theorem Work.inPlace (h : Work base vm after) : InPlace base vm after := by
  cases h with
  | shift h => exact h.inPlace
  | extend _ => exact ⟨.refl _, rfl, rfl, rfl, fun h _ => h⟩
  | move g h => exact inPlace_move h

theorem Make.inPlace (h : Make base vm after) : InPlace base vm after := by
  cases h with
  | work h => exact h.inPlace
  | capture _ => exact ⟨.refl _, rfl, rfl, rfl, fun h _ => h⟩

theorem Close.inPlace (h : Close base vm after) : InPlace base vm after := by
  cases h with
  | close _ => exact ⟨.refl _, rfl, rfl, rfl, fun h _ => h⟩
  | move g h => exact inPlace_move h

theorem inPlace_of_shifts (h : ReflTransGen (Shift base) vm after) : InPlace base vm after :=
  path_induction (InPlace.refl base) InPlace.trans Shift.inPlace h

theorem inPlace_of_works (h : ReflTransGen (Work base) vm after) : InPlace base vm after :=
  path_induction (InPlace.refl base) InPlace.trans Work.inPlace h

theorem inPlace_of_makes (h : ReflTransGen (Make base) vm after) : InPlace base vm after :=
  path_induction (InPlace.refl base) InPlace.trans Make.inPlace h

theorem inPlace_of_closes (h : ReflTransGen (Close base) vm after) : InPlace base vm after :=
  path_induction (InPlace.refl base) InPlace.trans Close.inPlace h

end InPlace

/-- Shifting registers touches neither the heap nor the upvalues nor the frames. -/
structure OnlyRegisters (vm after : Vm) : Prop where
  heap : after.heap = vm.heap
  upvalues : after.upvalues = vm.upvalues
  frames : after.frames = vm.frames
  hostCalls : after.hostCalls = vm.hostCalls

theorem onlyRegisters_of_shifts {level : Nat} {vm after : Vm}
    (h : ReflTransGen (Shift level) vm after) : OnlyRegisters vm after := by
  induction h with
  | refl => exact ⟨rfl, rfl, rfl, rfl⟩
  | tail _ hs ih => cases hs <;> exact ⟨ih.heap, ih.upvalues, ih.frames, ih.hostCalls⟩

theorem size_of_shifts {level : Nat} {vm after : Vm} (h : ReflTransGen (Shift level) vm after) :
    vm.stack.size ≤ after.stack.size := by
  induction h with
  | refl => exact Nat.le_refl _
  | tail _ hs ih =>
    cases hs with
    | write hw =>
      have := RegisterStack.size_of_writes (.single hw)
      dsimp only
      omega
    | grow wanted => exact Nat.le_trans ih (RegisterStack.size_le_grow _ wanted)
    | moveTop _ => exact ih
    | log _ _ => exact ih

/-- Shifting registers from a level on changes no slot below it. -/
theorem peek_of_shifts {level slot : Nat} {vm after : Vm} (h : ReflTransGen (Shift level) vm after)
    (hlt : slot < level) : after.peek slot = vm.peek slot := by
  induction h with
  | refl => rfl
  | tail _ hs ih =>
    cases hs with
    | write hw =>
      obtain ⟨other, v, hle, -, rfl⟩ := hw
      rw [← ih]
      simp only [peek, RegisterStack.setIfInBounds]
      rw [Array.getElem?_setIfInBounds_ne (by omega)]
    | grow wanted => exact (RegisterStack.getD_grow _ wanted slot).trans ih
    | moveTop _ => exact ih
    | log _ _ => exact ih

/-- Work in a frame opens and closes nothing. -/
theorem upvalues_of_works {base : Nat} {vm after : Vm} (h : ReflTransGen (Work base) vm after) :
    after.upvalues = vm.upvalues := by
  induction h with
  | refl => rfl
  | tail _ hw ih =>
    cases hw with
    | shift hs => exact (onlyRegisters_of_shifts (.single hs)).upvalues.trans ih
    | extend _ => exact ih
    | move _ _ => exact ih

end Vm

/-! ## Operations as changes -/

namespace Exec
variable {r : Vm → Vm → Prop} {level base : Nat} {α : Type} {x : Exec α}

theorem Keeps.work (h : x.Keeps (Vm.Shift base)) : x.Keeps (Vm.Work base) :=
  h.mono fun _ _ => .shift

theorem getSlot_keeps (slot : Nat) : (getSlot slot).Keeps r := by
  intro vm
  unfold Post getSlot
  cases hs : vm.stack.get slot with
  | ok v => exact .refl
  | error why => exact (vm.stack.get_yields slot).of_error hs

/-- Storing registers one after another is a sequence of changes. -/
theorem shifts_of_writes {vm : Vm} {s : RegisterStack}
    (h : ReflTransGen (RegisterStack.Write level) vm.stack s) :
    ReflTransGen (Vm.Shift level) vm { vm with stack := s } := by
  induction h with
  | refl => exact .refl
  | tail _ hw ih => exact ih.tail (.write hw)

theorem onStack_keeps {g : RegisterStack → Checked RegisterStack}
    (h : ∀ s, (g s).Yields (ReflTransGen (RegisterStack.Write level) s)) :
    (onStack g).Keeps (Vm.Shift level) :=
  fun vm => Post.onStack ((h vm.stack).mono fun _ hw => shifts_of_writes hw)

theorem setSlot_keeps {slot : Nat} (v : Value) (hl : level ≤ slot) :
    (setSlot slot v).Keeps (Vm.Shift level) :=
  onStack_keeps fun s => (s.set_yields v hl).mono fun _ h => .single h

theorem setTop_keeps {top : Nat} (hl : level ≤ top) : (setTop top).Keeps (Vm.Shift level) :=
  Keeps.modify fun _ => .moveTop (.inl hl)

theorem ensure_post (level wanted : Nat) (vm : Vm) :
    (ensure wanted).Post vm
      (fun _ after => after.top = vm.top ∧ wanted ≤ after.stack.size ∧
        ReflTransGen (Vm.Shift level) vm after)
      fun after => after = vm := by
  unfold Post ensure
  dsimp only
  split_ifs with hsize
  · exact ⟨rfl, hsize, .refl⟩
  · unfold RegisterStack.ensure?
    rw [if_neg hsize]
    split_ifs with hlimit
    · rfl
    · cases hr : Checked.reserve (vm.stack.grownSize wanted) Value.bytes with
      | ok _ => exact ⟨rfl, vm.stack.le_size_grow (Nat.le_of_not_lt hlimit), .single (.grow wanted)⟩
      | error why => exact (Checked.reserve_yields _ _).of_error hr

theorem ensure_keeps (wanted : Nat) : (ensure wanted).Keeps (Vm.Shift level) :=
  fun vm => (ensure_post level wanted vm).mono (fun _ _ _ h => h.2.2) fun _ h => h ▸ .refl

theorem newTable_keeps : newTable.Keeps (Vm.Work base) :=
  fun _ => .single (.extend fun _ _ h => h)

theorem newClosure_post (base : Nat) (c : Closure) (vm : Vm) :
    (newClosure c).Post vm (fun _ after => Vm.Work base vm after) fun _ => False :=
  Vm.Work.extend (vm.heap.extends_newClosure c)

theorem modifyFrame_keeps {g : Frame → Frame} (h : ∀ f, (g f).SamePlace f) :
    (modifyFrame g).Keeps (Vm.Work base) :=
  Keeps.modify fun _ => .move g h

end Exec

namespace Vm
open Exec (Post)
variable {level : Nat} {vm : Vm}

theorem push_post (v : Value) (hl : level ≤ vm.top) :
    (push v).Post vm (fun _ after => level ≤ after.top ∧ ReflTransGen (Shift level) vm after)
      (ReflTransGen (Shift level) vm) := by
  refine Post.bind (Post.look ?_)
  refine (Exec.ensure_keeps _).bind_post (fun _ mid hm => ?_) fun _ h => h
  refine (Exec.setSlot_keeps v hl).bind_post (fun _ mid' hm' => ?_) fun _ => hm.trans
  exact Post.modify ⟨Nat.le_succ_of_le hl,
    (hm.trans hm').tail (.moveTop (.inl (Nat.le_succ_of_le hl)))⟩

theorem pushAll_post (vs : List Value) (hl : level ≤ vm.top) :
    (pushAll vs).Post vm (fun _ after => ReflTransGen (Shift level) vm after)
    (ReflTransGen (Shift level) vm) := by
  induction vs generalizing vm with
  | nil => exact Post.pure .refl
  | cons v vs ih =>
    refine Post.bind ((push_post v hl).mono ?_ fun _ h => h)
    rintro _ mid - ⟨htop, hm⟩
    exact (ih htop).mono (fun _ _ _ h => hm.trans h) fun _ => hm.trans

end Vm

end LuaMachine
