import LuaMachine.Machine.Run
import LuaMachine.Proofs.Event

/-!
# The discipline of the frames

The frames of a run belong to calls from the host, nested in each other. The lowest frame of such a
call is marked as fresh, because its return ends the call, and no other frame is. An instruction
that waits for a nested call has its frame right below that call. This order survives every step,
and it is what the assertions of the machine rely on.
-/
namespace LuaMachine

open Relation (ReflTransGen)
open Exec (Keeps Post)

/-- A frame that can execute steps. -/
structure Frame.Running (f : Frame) : Prop where
  closure : f.closure.isSome
  above : f.func < f.base
  room : f.base ≤ f.top

theorem Frame.Running.congr {f g : Frame} (h : f.Running) (hg : g.SamePlace f) : g.Running where
  closure := hg.closure ▸ h.closure
  above := by rw [hg.func, hg.base]; exact h.above
  room := by rw [hg.base, hg.top]; exact h.room

theorem Vm.Entering.running {heap : Heap} {slot : Nat} {wanted : ResultCount} {g : Frame}
    (h : Entering heap slot wanted g) : g.Running where
  closure := by
    obtain ⟨r, hr, -⟩ := h.closure
    simp [hr]
  above := h.func ▸ h.above
  room := h.base_le_top

namespace Run

/-- The state that a step leads to. An aborted one leads to none. -/
def Progress.state? : Progress → Option Vm
  | .running r => some r.vm
  | .ended o => o.state?

/-- The frames of one call of the function in the slot `func`, innermost first. The lowest one is
fresh and every other one is not. Each called function is a register of its caller. -/
inductive CallFrames (func : Nat) : List Frame → Prop
  | entered {f : Frame} (hf : f.Running) (hs : f.func = func) (hfresh : f.status.fresh = true) :
      CallFrames func [f]
  | called {g f : Frame} {own : List Frame} (hg : g.Running) (hl : f.base ≤ g.func)
      (hfresh : g.status.fresh = false) (h : CallFrames func (f :: own)) :
      CallFrames func (g :: f :: own)

namespace CallFrames
variable {func : Nat} {f g : Frame} {own : List Frame}

theorem running (h : CallFrames func (f :: own)) : f.Running := by
  cases h with
  | entered hf _ _ => exact hf
  | called hg _ _ _ => exact hg

/-- All frames of a call lie above its function. -/
theorem bounds (h : CallFrames func own) : ∀ f ∈ own, func ≤ f.func ∧ f.func < f.base := by
  induction h with
  | entered hf hs hfresh =>
    intro f hm
    rw [List.mem_singleton.mp hm, hs]
    exact ⟨Nat.le_refl _, hs ▸ hf.above⟩
  | @called g f own hg hl hfresh h ih =>
    intro f' hm
    rcases List.mem_cons.mp hm with rfl | hm
    · have := ih f List.mem_cons_self
      exact ⟨by omega, hg.above⟩
    · exact ih f' hm

theorem lt_base (h : CallFrames func own) {f : Frame} (hm : f ∈ own) : func < f.base := by
  have := h.bounds f hm
  omega

/-- The current frame may move within its place. -/
theorem congr (h : CallFrames func (f :: own)) (hg : g.SamePlace f) :
    CallFrames func (g :: own) := by
  cases h with
  | entered hf hs hfresh => exact .entered (hf.congr hg) (hg.func.trans hs) (hg.fresh.trans hfresh)
  | called hf hl hfresh h => exact .called (hf.congr hg) (hg.func ▸ hl) (hg.fresh.trans hfresh) h

/-- A tail call keeps the place and the mark of its caller. -/
theorem replaced (h : CallFrames func (f :: own)) (hg : g.Running) :
    CallFrames func (Vm.replacement g f :: own) := by
  have hrunning : (Vm.replacement g f).Running := by
    have habove := hg.above
    have hroom := hg.room
    refine ⟨hg.closure, ?_, ?_⟩ <;> simp only [Vm.replacement] <;> omega
  cases h with
  | entered hf hs hfresh => exact .entered hrunning hs hfresh
  | called hf hl hfresh h => exact .called hrunning hl hfresh h

/-- Two frames of a call are a caller and its callee. -/
theorem caller (h : CallFrames func (g :: f :: own)) :
    f.base ≤ g.func ∧ CallFrames func (f :: own) := by
  cases h with
  | called hg hl hfresh h => exact ⟨hl, h⟩

/-- A frame that is not fresh returns to another frame of the same call. -/
theorem tail (h : CallFrames func (f :: own)) (hfresh : f.status.fresh = false) :
    ∃ g rest, own = g :: rest ∧ g.base ≤ f.func ∧ CallFrames func (g :: rest) := by
  cases h with
  | entered hf hs hfresh' => simp [hfresh] at hfresh'
  | called hf hl _ h => exact ⟨_, _, rfl, hl, h⟩

/-- A fresh frame is the only one of its call. -/
theorem eq_nil (h : CallFrames func (f :: own)) (hfresh : f.status.fresh = true) :
    own = [] ∧ f.func = func := by
  cases h with
  | entered hf hs _ => exact ⟨rfl, hs⟩
  | called hf hl hfresh' h => simp [hfresh] at hfresh'

/-- Counted from below, the first frame of a call is the fresh one. -/
theorem fresh_iff (h : CallFrames func own) {i : Nat} (hi : own.reverse[i]? = some f) :
    f.closure.isSome ∧ (f.status.fresh = true ↔ i = 0) := by
  induction h with
  | entered hf hs hfresh =>
    have hzero : i = 0 := by
      have := (List.getElem?_eq_some_iff.mp hi).1
      simpa using this
    subst hzero
    obtain rfl : _ = f := by simpa using hi
    exact ⟨hf.closure, by simp [hfresh]⟩
  | @called g f' own hg hl hfresh h ih =>
    rw [List.reverse_cons, List.getElem?_append] at hi
    split at hi
    · exact ih hi
    · next hle =>
      have hlt := (List.getElem?_eq_some_iff.mp hi).1
      simp only [List.length_reverse, List.length_cons, List.length_nil] at hle hlt
      have hlast : i - (f' :: own).reverse.length = 0 := by simp; omega
      rw [hlast] at hi
      obtain rfl : g = f := by simpa using hi
      exact ⟨hg.closure, by simp [hfresh]; omega⟩

end CallFrames

/-- Where the innermost call began. -/
def innermost (root : Vm.CallSite) : List Suspended → Vm.CallSite
  | [] => root
  | s :: _ => s.site

/-- The frames below the innermost call: those of the calls that wait for it, and under them
`outer`. -/
inductive Waiting (root : Vm.CallSite) (outer : List Frame) : List Suspended → List Frame → Prop
  | root (hd : outer.length = root.depth + 1) : Waiting root outer [] outer
  | nested {s : Suspended} {rest : List Suspended} {f : Frame} {own below : List Frame}
      (h : Waiting root outer rest below) (hown : CallFrames (innermost root rest).func (f :: own))
      (hd : (f :: own ++ below).length = s.site.depth + 1) (hl : f.base ≤ s.site.func)
      (hk : s.resume.AtLeast f.base) : Waiting root outer (s :: rest) (f :: own ++ below)

namespace Waiting
variable {root : Vm.CallSite} {outer below : List Frame} {suspended : List Suspended}

theorem length_below (h : Waiting root outer suspended below) :
    below.length = (innermost root suspended).depth + 1 := by
  cases h with
  | root hd => exact hd
  | nested h hown hd hl hk => exact hd

/-- Nested calls are made above the function of the outermost one. -/
theorem root_le (h : Waiting root outer suspended below) :
    root.func ≤ (innermost root suspended).func := by
  induction h with
  | root hd => exact Nat.le_refl _
  | @nested s rest f own below h hown hd hl hk ih =>
    have := hown.lt_base List.mem_cons_self
    show root.func ≤ s.site.func
    omega

/-- A call waits in its current frame. -/
theorem frame {s : Suspended} (h : Waiting root outer (s :: suspended) below) :
    ∃ f own below', below = f :: own ++ below' ∧ Waiting root outer suspended below' ∧
      CallFrames (innermost root suspended).func (f :: own) ∧ f.base ≤ s.site.func ∧
        s.resume.AtLeast f.base := by
  cases h with
  | nested h hown hd hl hk => exact ⟨_, _, _, rfl, h, hown, hl, hk⟩

theorem suffix (h : Waiting root outer suspended below) : ∃ mine, below = mine ++ outer := by
  induction h with
  | root hd => exact ⟨[], rfl⟩
  | @nested s rest f own below h hown hd hl hk ih =>
    obtain ⟨mine, rfl⟩ := ih
    exact ⟨f :: own ++ mine, by simp⟩

end Waiting

/-! ## Failing -/

section Failing
variable {root : Vm.CallSite} {outer own below : List Frame} {n : Nat}
  {suspended : List Suspended} {f : Frame} {vm after : Vm}

/-- A state in which an error may occur: the innermost call has the frames `own`, which may be none,
over `below`. There were `n` calls from the host before the run. -/
structure Unwindable (root : Vm.CallSite) (outer : List Frame) (n : Nat)
    (suspended : List Suspended) (vm : Vm) (own below : List Frame) : Prop where
  active : vm.frames.active = own ++ below
  waiting : Waiting root outer suspended below
  above : ∀ f ∈ own, (innermost root suspended).func < f.base
  hostCalls : vm.hostCalls = n + 1 + suspended.length
  sound : vm.upvalues.Sound

/-- The run is over, and the frames and the number of calls from the host are what they were before
it. -/
structure Over (root : Vm.CallSite) (outer : List Frame) (n : Nat) (vm after : Vm) : Prop where
  events : ReflTransGen (Vm.Event root.func outer) vm after
  active : after.frames.active = outer
  hostCalls : after.hostCalls = n

/-- The run was ended by an error. -/
structure Broken (root : Vm.CallSite) (outer : List Frame) (n : Nat) (vm after : Vm) : Prop
    extends Over root outer n vm after where
  top : after.top = root.func
  closed : ∀ p ∈ after.upvalues.opened, p.1 < root.func

theorem abandon_post (base : Nat) (k : Vm.Resume) (vm : Vm) :
    (abandon k).Post vm (fun _ after => ReflTransGen (Vm.Work base) vm after) fun _ => False := by
  unfold abandon
  split
  · exact Post.modify (.single (.move _ fun _ => ⟨rfl, rfl, rfl, rfl, rfl, rfl⟩))
  · exact Post.pure .refl

/-- Work in the current frame does not stand in the way of an error. -/
theorem Unwindable.works (h : Unwindable root outer n suspended vm (f :: own) below)
    (hw : ReflTransGen (Vm.Work f.base) vm after) :
    ReflTransGen (Vm.Event root.func outer) vm after ∧
      ∃ g, g.SamePlace f ∧ Unwindable root outer n suspended after (g :: own) below := by
  obtain ⟨mine, hmine⟩ := h.waiting.suffix
  have hbase : root.func ≤ f.base := by
    have := h.above f List.mem_cons_self
    have := h.waiting.root_le
    omega
  have hv : vm.frames.active = f :: (own ++ mine) ++ outer := by rw [h.active, hmine]; simp
  have hevents := Vm.events_of_works hv hbase hw
  have hplace := Vm.inPlace_of_works hw
  obtain ⟨g, hg, hactive⟩ := hplace.active h.active
  refine ⟨hevents, g, hg, hactive, h.waiting, ?_, hplace.hostCalls.trans h.hostCalls,
    (Vm.spares_of_events hevents h.sound).sound⟩
  intro f' hm
  rcases List.mem_cons.mp hm with rfl | hm
  · rw [hg.base]
    exact h.above f List.mem_cons_self
  · exact h.above f' (List.mem_cons_of_mem _ hm)

theorem Unwindable.unwound (h : Unwindable root outer n suspended vm own below) :
    ReflTransGen (Vm.Event root.func outer) vm (vm.unwound (innermost root suspended)) := by
  obtain ⟨mine, rfl⟩ := h.waiting.suffix
  refine Vm.events_of_unwound h.sound h.active h.waiting.length_below h.waiting.root_le ?_
  exact fun f hf => Nat.le_of_lt (h.above f hf)

/-- When the innermost call is left, the frame that waited for it is current. -/
theorem Unwindable.next {s : Suspended}
    (h : Unwindable root outer n (s :: suspended) vm own below) :
    ∃ f own' below', below = f :: own' ++ below' ∧
      Unwindable root outer n suspended (vm.unwound s.site) (f :: own') below' := by
  have hunwound := h.unwound
  have hlength := h.waiting.length_below
  obtain ⟨f, own', below', rfl, hwaiting, hown, -, -⟩ := h.waiting.frame
  refine ⟨f, own', below', rfl, CallStack.active_truncate h.active hlength, hwaiting,
    fun f' hm => hown.lt_base hm, ?_, (Vm.spares_of_events hunwound h.sound).sound⟩
  have := h.hostCalls
  simp only [Vm.unwound, List.length_cons] at this ⊢
  omega

/-- Nested calls are left one after another, each down to the frame that waited for it. -/
theorem unwindNested_post (e : LuaError) (h : Unwindable root outer n suspended vm own below) :
    (unwindNested e suspended).Post vm
      (fun _ after => ReflTransGen (Vm.Event root.func outer) vm after ∧
        ∃ own, Unwindable root outer n [] after own outer) fun _ => False := by
  induction suspended generalizing e vm own below with
  | nil =>
    cases h.waiting with
    | root hd => exact Post.pure ⟨.refl, own, h⟩
  | cons s rest ih =>
    have hunwound := h.unwound
    obtain ⟨f, own', below', -, hnext⟩ := h.next
    refine Post.bind ((Vm.failCall_post e h.active h.waiting.length_below).mono ?_ fun _ h => h)
    rintro e' _ - rfl
    refine Post.bind ((abandon_post f.base s.resume _).mono ?_ fun _ h => h)
    intro _ mid _ hm
    obtain ⟨hevents, g, -, hmid⟩ := hnext.works hm
    refine (ih e' hmid).mono ?_ fun _ h => h
    rintro _ after - ⟨hrest, hlast⟩
    exact ⟨(hunwound.trans hevents).trans hrest, hlast⟩

theorem fail_post (e : LuaError) (h : Unwindable root outer n suspended vm own below) :
    (fail e root suspended).Post vm (fun _ _ => False) (Broken root outer n vm) := by
  have hall : (do
      let e ← unwindNested e suspended
      Vm.failCall e root : Exec LuaError).Post vm (fun _ => Broken root outer n vm)
        fun _ => False := by
    refine Post.bind ((unwindNested_post e h).mono ?_ fun _ h => h)
    rintro e' mid - ⟨hevents, own', hmid⟩
    refine (Vm.failCall_post e' hmid.active hmid.waiting.length_below).mono ?_ fun _ h => h
    rintro _ _ - rfl
    refine ⟨⟨hevents.trans hmid.unwound, ?_, ?_⟩, rfl, ?_⟩
    · exact CallStack.active_truncate hmid.active hmid.waiting.length_below
    · have := hmid.hostCalls
      simp only [Vm.unwound, List.length_nil] at this ⊢
      omega
    · exact fun p hp => ((Upvalues.mem_opened_close hmid.sound).mp hp).2
  exact Post.raising hall

theorem failBefore_post (k : Vm.Resume) (e : LuaError)
    (h : Unwindable root outer n suspended vm (f :: own) below) :
    (failBefore k e root suspended).Post vm (fun _ _ => False) (Broken root outer n vm) := by
  refine Post.bind ((abandon_post f.base k vm).mono ?_ fun _ h => h.elim)
  intro _ mid _ hm
  obtain ⟨hevents, g, -, hmid⟩ := h.works hm
  refine (fail_post e hmid).mono (fun _ _ _ h => h) ?_
  exact fun after hb => { hb with events := hevents.trans hb.events }

end Failing

/-! ## Beginning a call -/

section Beginning
variable {func : Nat} {outer mine : List Frame} {vm after : Vm}

/-- A call has begun at `site`, with one fresh frame `g` over all frames there were. -/
structure Began (level : Nat) (outer : List Frame) (vm : Vm) (site : Vm.CallSite) (g : Frame)
    (after : Vm) : Prop where
  depth : site.depth = vm.frames.depth
  running : g.Running
  func : g.func = site.func
  fresh : g.status.fresh = true
  active : after.frames.active = g :: vm.frames.active
  top : g.base ≤ after.top
  hostCalls : after.hostCalls = vm.hostCalls + 1
  events : ReflTransGen (Vm.Event level outer) vm after

/-- A call could not begin, and the frames are what they were. -/
structure Refused (level : Nat) (outer : List Frame) (vm after : Vm) : Prop where
  active : after.frames.active = vm.frames.active
  hostCalls : after.hostCalls = vm.hostCalls
  events : ReflTransGen (Vm.Event level outer) vm after

theorem Began.head {mid : Vm} {site : Vm.CallSite} {g : Frame}
    (h : Began func outer mid site g after) (hv : mid.frames = vm.frames)
    (hc : mid.hostCalls = vm.hostCalls) (he : ReflTransGen (Vm.Event func outer) vm mid) :
    Began func outer vm site g after :=
  { h with
    depth := hv ▸ h.depth, active := hv ▸ h.active, hostCalls := hc ▸ h.hostCalls,
    events := he.trans h.events }

/-- The frame of a call is entered and marked. -/
theorem enterFresh_post {slot : Nat} (results : ResultCount) (hv : vm.frames.active = mine ++ outer)
    (hl : func ≤ slot) :
    (do
      Vm.precall slot results false
      Exec.modifyFrame fun f => { f with status := { f.status with fresh := true } } :
        Exec Unit).Post { vm with hostCalls := vm.hostCalls + 1 }
        (fun _ after => ∃ g, Began func outer vm ⟨vm.frames.depth, slot⟩ g after)
        (ReflTransGen (Vm.Shift slot) { vm with hostCalls := vm.hostCalls + 1 }) := by
  refine Post.bind ((Vm.precall_post slot results false _).mono ?_ fun _ h => h)
  rintro _ entered - ⟨g, he⟩
  have hactive : entered.frames.active = g :: mine ++ outer := by
    rw [he.active, hv, List.cons_append]
  obtain ⟨hcurrent, hcallers⟩ := List.cons.inj hactive
  let marked : Frame := { g with status := { g.status with fresh := true } }
  have hmarked : marked.Running := ⟨he.1.running.closure, he.1.running.above, he.1.running.room⟩
  have hframes :
      (entered.frames.modifyCurrent fun f =>
        { f with status := { f.status with fresh := true } }).active =
      marked :: mine ++ outer := by
    rw [CallStack.active_modifyCurrent, hcurrent, hcallers]
    rfl
  refine Post.modify ⟨marked, rfl, hmarked, he.1.func, rfl,
    hframes.trans (by rw [hv, List.cons_append]), ?_, ?_, ?_⟩
  · show g.base ≤ entered.top
    rw [he.top]
    exact he.1.base_le_top
  · obtain ⟨-, mid, hs, rfl⟩ := he
    exact (Vm.onlyRegisters_of_shifts hs).hostCalls
  · have hentered :
        ReflTransGen (Vm.Event func outer) { vm with hostCalls := vm.hostCalls + 1 } entered :=
      Vm.events_of_entered hv hl he
    refine .head (.count _) (hentered.tail (.reframe [g] [marked] mine hactive hframes ?_))
    intro f hf p _ hle
    rw [List.mem_singleton.mp hf] at hle
    exact ⟨marked, List.mem_singleton_self _, hle⟩

/-- A call begins, or it fails and is taken back. Beyond the limit of nested calls nothing happens
at all. -/
theorem beginCall_post {slot : Nat} (results : ResultCount) (hu : vm.upvalues.Sound)
    (hv : vm.frames.active = mine ++ outer) (hl : func ≤ slot) :
    (Vm.beginCall slot results).Post vm
      (fun site after => vm.hostCalls < vm.config.maxHostCalls ∧ site.func = slot ∧
        ∃ g, Began func outer vm site g after)
      fun after => Refused func outer vm after ∧
        (vm.config.maxHostCalls ≤ vm.hostCalls ∧ after = vm ∨
          vm.hostCalls < vm.config.maxHostCalls ∧ after.top = slot ∧ ∀ p ∈ after.upvalues.opened,
            p.1 < slot) := by
  unfold Post Vm.beginCall
  split_ifs with hlimit
  · exact ⟨⟨rfl, rfl, .refl⟩, .inl ⟨hlimit, rfl⟩⟩
  have henter := enterFresh_post results hv hl
  dsimp only
  generalize hx : (do
    Vm.precall slot results false
    Exec.modifyFrame fun f => { f with status := { f.status with fresh := true } } : Exec Unit) =
      enter at henter ⊢
  cases ho : enter { vm with hostCalls := vm.hostCalls + 1 } with
  | returned _ after => exact ⟨by omega, rfl, henter.of_returned ho⟩
  | aborted why => exact henter.of_aborted ho
  | raised e mid =>
    have hs := henter.of_raised ho
    have hsame := Vm.onlyRegisters_of_shifts hs
    have hmid : mid.frames.active = [] ++ (mine ++ outer) := by rw [hsame.frames]; exact hv
    have hd : (mine ++ outer).length = vm.frames.depth + 1 := by rw [← hv, CallStack.length_active]
    have hfail : (Vm.failCall e ⟨vm.frames.depth, slot⟩).Post mid
        (fun _ after => after = mid.unwound ⟨vm.frames.depth, slot⟩) fun _ => False :=
      Vm.failCall_post e hmid hd
    have hsound : mid.upvalues.Sound := by rw [hsame.upvalues]; exact hu
    dsimp only
    cases hf : Vm.failCall e ⟨vm.frames.depth, slot⟩ mid with
    | raised _ _ => exact (hfail.of_raised hf).elim
    | aborted why => exact hfail.of_aborted hf
    | returned e' after =>
      obtain rfl := hfail.of_returned hf
      refine ⟨⟨?_, ?_, ?_⟩,
        .inr ⟨by omega, rfl, fun p hp => ((Upvalues.mem_opened_close hsound).mp hp).2⟩⟩
      · rw [hv]
        exact CallStack.active_truncate hmid hd
      · simp only [Vm.unwound, hsame.hostCalls]
        omega
      · refine .head (.count _) ((Vm.events_of_shifts hl hs).trans ?_)
        exact Vm.events_of_unwound hsound hmid hd hl (by simp)

end Beginning

end Run

end LuaMachine
