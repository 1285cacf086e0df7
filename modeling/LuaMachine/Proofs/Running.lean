import LuaMachine.Proofs.Discipline

/-!
# Steps of a run

A step of a run keeps the discipline of the frames, and all it does are events of the call that the
run carries out. So a run that ends has left the frames below it as they were, and no run ends by an
internal fault.
-/
namespace LuaMachine.Run

open Relation (ReflTransGen)
open Exec (Keeps Post)

variable {root : Vm.CallSite} {outer own below : List Frame} {n : Nat} {suspended : List Suspended}
  {f g : Frame} {vm mid after : Vm}

/-- The innermost call executes its frame `f`, which is current. -/
structure Executing (root : Vm.CallSite) (outer : List Frame) (n : Nat) (suspended : List Suspended)
    (vm : Vm) (f : Frame) (own below : List Frame) : Prop where
  active : vm.frames.active = f :: own ++ below
  frames : CallFrames (innermost root suspended).func (f :: own)
  waiting : Waiting root outer suspended below
  top : f.base ≤ vm.top
  hostCalls : vm.hostCalls = n + 1 + suspended.length
  sound : vm.upvalues.Sound

namespace Executing

theorem unwindable (h : Executing root outer n suspended vm f own below) :
    Unwindable root outer n suspended vm (f :: own) below :=
  ⟨h.active, h.waiting, fun _ hm => h.frames.lt_base hm, h.hostCalls, h.sound⟩

theorem root_le_func (h : Executing root outer n suspended vm f own below) :
    root.func ≤ f.func := by
  have := h.waiting.root_le
  have := (h.frames.bounds f List.mem_cons_self).1
  omega

theorem root_le_base (h : Executing root outer n suspended vm f own below) :
    root.func ≤ f.base := by
  have := h.root_le_func
  have := h.frames.running.above
  omega

/-- All frames above `outer` belong to the run. -/
theorem mine (h : Executing root outer n suspended vm f own below) :
    ∃ mine, own ++ below = mine ++ outer ∧ vm.frames.active = f :: mine ++ outer := by
  obtain ⟨mine, rfl⟩ := h.waiting.suffix
  exact ⟨own ++ mine, by simp, by rw [h.active]; simp⟩

/-- A frame is always below the current one. -/
theorem callers (h : Executing root outer n suspended vm f own below) :
    ∃ g rest, own ++ below = g :: rest := by
  have hlength := h.waiting.length_below
  cases hc : own ++ below with
  | nil => simp [List.append_eq_nil_iff.mp hc] at hlength
  | cons g rest => exact ⟨g, rest, rfl⟩

/-- Whatever stays in the frame keeps it executing. -/
theorem inPlace (h : Executing root outer n suspended vm f own below)
    (hp : Vm.InPlace f.base vm after) (hs : after.upvalues.Sound) :
    ∃ g, g.SamePlace f ∧ Executing root outer n suspended after g own below := by
  obtain ⟨g, hg, hactive⟩ := hp.active h.active
  have hcurrent : vm.frames.current = f := (List.cons.inj h.active).1
  refine ⟨g, hg, hactive, h.frames.congr hg, h.waiting, ?_, hp.hostCalls.trans h.hostCalls, hs⟩
  rw [hg.base]
  exact hp.top h.top (hcurrent ▸ h.frames.running.room)

end Executing

/-- How a run may end. -/
def Ends (root : Vm.CallSite) (outer : List Frame) (n : Nat) (vm : Vm) : Outcome Unit → Prop
  | .returned _ after => Over root outer n vm after
  | .raised _ after => Broken root outer n vm after
  | .aborted why => why.isInternal = false

theorem Ends.head {o : Outcome Unit} (he : ReflTransGen (Vm.Event root.func outer) vm mid)
    (h : Ends root outer n mid o) : Ends root outer n vm o := by
  cases o with
  | returned _ after => exact { h with events := he.trans h.events }
  | raised _ after => exact { h with events := he.trans h.events }
  | aborted why => exact h

theorem ends_of_broken {x : Exec Unit} (h : x.Post vm (fun _ _ => False) (Broken root outer n vm)) :
    Ends root outer n vm (x vm) := by
  cases hx : x vm with
  | returned a after => exact (h.of_returned hx).elim
  | raised e after => exact h.of_raised hx
  | aborted why => exact h.of_aborted hx

/-- What a step may lead to: the run goes on in order, or it is over. -/
def Progress.Sane (root : Vm.CallSite) (outer : List Frame) (n : Nat) (vm : Vm) : Progress → Prop
  | .running r => r.root = root ∧ ReflTransGen (Vm.Event root.func outer) vm r.vm ∧
      ∃ f own below, Executing root outer n r.suspended r.vm f own below
  | .ended o => Ends root outer n vm o

theorem Progress.Sane.head {p : Progress} (he : ReflTransGen (Vm.Event root.func outer) vm mid)
    (h : p.Sane root outer n mid) : p.Sane root outer n vm := by
  cases p with
  | running r => exact ⟨h.1, he.trans h.2.1, h.2.2⟩
  | ended o => exact Ends.head he h

/-! ## Nested calls -/

/-- A call that could not begin leaves everything in order for the error. -/
theorem Executing.refused (h : Executing root outer n suspended vm f own below)
    (hr : Refused root.func outer vm after) :
    Unwindable root outer n suspended after (f :: own) below :=
  { h.unwindable with
    active := hr.active.trans h.active, hostCalls := hr.hostCalls.trans h.hostCalls
    sound := (Vm.spares_of_events hr.events h.sound).sound }

/-- A nested call with which the run goes on has begun. -/
theorem nest_eq_running {k : Vm.Resume} {begin : Exec Vm.CallSite} {r : Run}
    (h : nest root suspended k begin vm = .running r) :
    r.root = root ∧ ∃ site, begin vm = .returned site r.vm := by
  unfold nest at h
  split at h
  · next site after hbegin =>
    cases h
    exact ⟨rfl, site, hbegin⟩
  · cases h
  · cases h

/-- A call is nested over the frame that waits for it, or the run ends. -/
theorem nest_sane {k : Vm.Resume} {begin : Exec Vm.CallSite}
    (h : Executing root outer n suspended vm f own below) (hk : k.AtLeast f.base)
    (hbegin :
      begin.Post vm (fun site after => f.base ≤ site.func ∧ ∃ g,
        Began root.func outer vm site g after)
      (Refused root.func outer vm)) : (nest root suspended k begin vm).Sane root outer n vm := by
  unfold nest
  cases hx : begin vm with
  | aborted why => exact hbegin.of_aborted hx
  | returned site after =>
    obtain ⟨hl, g, hg⟩ := hbegin.of_returned hx
    have hframes : CallFrames site.func [g] := .entered hg.running hg.func hg.fresh
    have hlength : (f :: own ++ below).length = site.depth + 1 := by
      rw [← h.active, CallStack.length_active, hg.depth]
    refine ⟨rfl, hg.events, g, [], f :: own ++ below,
      hg.active.trans (by rw [h.active]; rfl), hframes,
      .nested h.waiting h.frames hlength hl hk, hg.top, ?_,
        (Vm.spares_of_events hg.events h.sound).sound⟩
    rw [hg.hostCalls, h.hostCalls, List.length_cons]
    omega
  | raised e after =>
    have hr := hbegin.of_raised hx
    exact (ends_of_broken (failBefore_post k e (h.refused hr))).head hr.events

theorem beginCallAt_post {slot : Nat} (results : ResultCount)
    (h : Executing root outer n suspended vm f own below) (hl : f.base ≤ slot) :
    (Vm.beginCall slot results).Post vm (fun site after => f.base ≤ site.func ∧ ∃ g,
      Began root.func outer vm site g after) (Refused root.func outer vm) := by
  obtain ⟨mine, -, hactive⟩ := h.mine
  have hroot : root.func ≤ slot := Nat.le_trans h.root_le_base hl
  refine (beginCall_post results h.sound hactive hroot).mono ?_ fun _ h => h.1
  rintro site after - ⟨-, rfl, hg⟩
  exact ⟨hl, hg⟩

theorem beginInvoke_eq_returned {handler : Value} {args : List Value} {site : Vm.CallSite}
    (h : beginInvoke handler args vm = .returned site after) :
    ∃ mid, Vm.pushAll (handler :: args) vm = .returned () mid ∧
      Vm.beginCall vm.top .all mid = .returned site after := by
  obtain ⟨_, _, hlook, h⟩ := Exec.bind_eq_returned_iff.mp h
  cases hlook
  obtain ⟨_, mid, hpush, h⟩ := Exec.bind_eq_returned_iff.mp h
  exact ⟨mid, hpush, h⟩

/-- A handler is called at the top, which is above all registers of the frame that asks for it. -/
theorem beginInvoke_post (handler : Value) (args : List Value)
    (h : Executing root outer n suspended vm f own below) :
    (beginInvoke handler args).Post vm
      (fun site after => f.base ≤ site.func ∧ ∃ g, Began root.func outer vm site g after)
      (Refused root.func outer vm) := by
  refine Post.bind (Post.look (Post.bind ((Vm.pushAll_post (handler :: args) h.top).mono ?_ ?_)))
  · intro _ mid _ hm
    have hsame := Vm.onlyRegisters_of_shifts hm
    have hevents : ReflTransGen (Vm.Event root.func outer) vm mid :=
      Vm.events_of_shifts h.root_le_base hm
    have hsound := (Vm.spares_of_events hevents h.sound).sound
    obtain ⟨f', hf', hmid⟩ := h.inPlace (Vm.inPlace_of_shifts hm) hsound
    refine (beginCallAt_post .all hmid (hf'.base ▸ h.top)).mono ?_ ?_
    · rintro site after - ⟨hl, g, hg⟩
      exact ⟨hf'.base ▸ hl, g, hg.head hsame.frames hsame.hostCalls hevents⟩
    · exact fun after hr =>
        ⟨hsame.frames ▸ hr.active, hsame.hostCalls ▸ hr.hostCalls, hevents.trans hr.events⟩
  · intro mid hm
    have hsame := Vm.onlyRegisters_of_shifts hm
    exact ⟨by rw [hsame.frames], hsame.hostCalls, Vm.events_of_shifts h.root_le_base hm⟩

theorem follow_sane {next : Vm.Next} (h : Executing root outer n suspended vm f own below)
    (hn : next.AtLeast f.base) : (follow root suspended vm next).Sane root outer n vm := by
  cases next with
  | proceed => exact ⟨rfl, .refl, f, own, below, h⟩
  | invoke handler args k => exact nest_sane h hn (beginInvoke_post handler args h)
  | callAt func results k => exact nest_sane h hn.2 (beginCallAt_post results h hn.1)

/-! ## The end of a nested call -/

/-- The results of a nested call are taken off the stack, down to where it was called. -/
theorem collect_keeps {site : Vm.CallSite} {base : Nat} (k : Vm.Resume) (hl : base ≤ site.func) :
    (collect site k).Keeps (Vm.Shift base) := by
  intro vm
  unfold collect
  split
  · exact Post.pure .refl
  · refine Post.bind
      (Post.look
        (Post.bind (Post.check ((RegisterStack.slice_yields _ _ _).mono fun results _ => ?_))))
    exact Post.bind (Post.modify (Post.pure (.single (.moveTop (.inl hl)))))

theorem continueWith_post {s : Suspended}
    (h : Executing root outer n suspended { vm with hostCalls := vm.hostCalls - 1 } f own below)
    (hl : f.base ≤ s.site.func) (hk : s.resume.AtLeast f.base) :
    (continueWith s).Post vm
      (Vm.Followed f.base { vm with hostCalls := vm.hostCalls - 1 })
      (ReflTransGen (Vm.Work f.base) { vm with hostCalls := vm.hostCalls - 1 }) := by
  refine Post.bind (Post.modify ?_)
  refine (collect_keeps s.resume hl).work.bind_post (fun results mid hm => ?_) fun _ h => h
  obtain ⟨g, hg, hactive⟩ := (Vm.inPlace_of_works hm).active h.active
  have hcurrent : mid.frames.current = g := (List.cons.inj hactive).1
  have hclosure : mid.frames.current.closure.isSome := by
    rw [hcurrent, hg.closure]
    exact h.frames.running.closure
  have hbase : mid.frames.current.base = f.base := by rw [hcurrent, hg.base]
  exact (Vm.resume_post results hclosure hbase hk).mono (fun _ _ _ hd => hd.head hm)
    fun _ hw => hm.trans hw

/-- A frame that ends an instruction goes on in order. -/
theorem Executing.finished (h : Executing root outer n suspended vm f own below)
    (hd : Vm.Finished f.base vm after) :
    ReflTransGen (Vm.Event root.func outer) vm after ∧
      ∃ g, g.SamePlace f ∧ Executing root outer n suspended after g own below := by
  obtain ⟨mine, -, hactive⟩ := h.mine
  have hevents : ReflTransGen (Vm.Event root.func outer) vm after :=
    Vm.events_of_finished hactive h.root_le_base hd
  exact ⟨hevents, h.inPlace hd.inPlace (Vm.spares_of_events hevents h.sound).sound⟩

/-! ## Steps -/

/-- What is left of a step when its instruction is over. -/
inductive Pending where
  | follows (next : Vm.Next) (vm : Vm) (suspended : List Suspended)
  | ended (o : Outcome Unit)

/-- After a return to the host, the instruction that waits for it is continued. -/
def pendingAfter (root : Vm.CallSite) (vm : Vm) : List Suspended → Vm.Action → Pending
  | suspended, .next next => .follows next vm suspended
  | [], .leave => .ended (.returned () { vm with hostCalls := vm.hostCalls - 1 })
  | s :: rest, .leave =>
    match continueWith s vm with
    | .returned next vm => .follows next vm rest
    | .raised e vm => .ended (fail e root rest vm)
    | .aborted why => .ended (.aborted why)

/-- The first part of a step, up to a call that comes next. -/
def pending (r : Run) : Pending :=
  match Vm.dispatch r.vm with
  | .returned action vm => pendingAfter r.root vm r.suspended action
  | .raised e vm => .ended (fail e r.root r.suspended vm)
  | .aborted why => .ended (.aborted why)

theorem step_eq (r : Run) : r.step = match r.pending with
    | .follows next vm suspended => follow r.root suspended vm next
    | .ended o => .ended o := by
  unfold step pending
  cases Vm.dispatch r.vm with
  | raised e vm => rfl
  | aborted why => rfl
  | returned action vm =>
    cases action with
    | next next => rfl
    | leave =>
      cases r.suspended with
      | nil => rfl
      | cons s rest =>
        simp only [leave, pendingAfter]
        cases continueWith s vm <;> rfl

/-- An instruction is over when it has been executed, or when it goes on after the call that it
waits for. -/
theorem pending_eq_follows {r : Run} {next : Vm.Next}
    (h : r.pending = .follows next after suspended) :
    Vm.dispatch r.vm = .returned (.next next) after ∧ suspended = r.suspended ∨
      ∃ s mid, Vm.dispatch r.vm = .returned .leave mid ∧ r.suspended = s :: suspended ∧
        continueWith s mid = .returned next after := by
  unfold pending at h
  cases hx : Vm.dispatch r.vm with
  | raised e mid => simp [hx] at h
  | aborted why => simp [hx] at h
  | returned action mid =>
    simp only [hx] at h
    cases action with
    | next next' =>
      rw [pendingAfter] at h
      cases h
      exact .inl ⟨rfl, rfl⟩
    | leave =>
      cases hs : r.suspended with
      | nil => simp [hs, pendingAfter] at h
      | cons s rest =>
        cases hc : continueWith s mid with
        | raised e last => simp [hs, pendingAfter, hc] at h
        | aborted why => simp [hs, pendingAfter, hc] at h
        | returned next' last =>
          simp only [hs, pendingAfter, hc] at h
          cases h
          exact .inr ⟨s, mid, rfl, rfl, hc⟩

/-- The instruction is over in order, or the run is. -/
def Pending.Sane (root : Vm.CallSite) (outer : List Frame) (n : Nat) (vm : Vm) : Pending → Prop
  | .follows next after suspended => ReflTransGen (Vm.Event root.func outer) vm after ∧
      ∃ f own below, Executing root outer n suspended after f own below ∧ next.AtLeast f.base
  | .ended o => Ends root outer n vm o

theorem Pending.Sane.head {p : Pending} (he : ReflTransGen (Vm.Event root.func outer) vm mid)
    (h : p.Sane root outer n mid) : p.Sane root outer n vm := by
  cases p with
  | follows next after suspended => exact ⟨he.trans h.1, h.2⟩
  | ended o => exact Ends.head he h

/-- The fresh frame of the innermost call has returned. -/
structure Left (root : Vm.CallSite) (outer : List Frame) (n : Nat) (suspended : List Suspended)
    (vm : Vm) : Prop where
  waiting : Waiting root outer suspended vm.frames.active
  hostCalls : vm.hostCalls = n + 1 + suspended.length
  sound : vm.upvalues.Sound
  top : ∀ f rest, vm.frames.active = f :: rest → f.base ≤ f.top →
    f.base ≤ (innermost root suspended).func → f.base ≤ vm.top

/-- The frame that waits for a nested call executes again when that call has returned. -/
theorem Left.executing {s : Suspended} (h : Left root outer n (s :: suspended) vm) :
    ∃ f own below, Executing root outer n suspended { vm with hostCalls := vm.hostCalls - 1 }
      f own below ∧ f.base ≤ s.site.func ∧ s.resume.AtLeast f.base := by
  obtain ⟨f, own, below, hactive, hwaiting, hown, hl, hk⟩ := h.waiting.frame
  refine ⟨f, own, below,
    ⟨hactive, hown, hwaiting, h.top f _ hactive hown.running.room hl, ?_, h.sound⟩, hl, hk⟩
  have := h.hostCalls
  simp only [List.length_cons] at this ⊢
  omega

/-- The fresh frame of the innermost call has returned, and the call that waits for it goes on. -/
theorem leave_sane (h : Left root outer n suspended vm) :
    (pendingAfter root vm suspended .leave).Sane root outer n vm := by
  cases suspended with
  | nil =>
    obtain ⟨hwaiting, hc, -, -⟩ := h
    generalize hactive : vm.frames.active = below at hwaiting
    cases hwaiting with
    | root hd =>
      refine ⟨.single (.count _), hactive, ?_⟩
      simp only [List.length_nil] at hc
      show vm.hostCalls - 1 = n
      omega
  | cons s rest =>
    obtain ⟨f, own, below', hf, hl, hk⟩ := h.executing
    have hcontinue := continueWith_post hf hl hk
    simp only [pendingAfter]
    refine Pending.Sane.head (.single (.count (vm.hostCalls - 1))) ?_
    cases hx : continueWith s vm with
    | aborted why => exact hcontinue.of_aborted hx
    | returned next after =>
      have hd := hcontinue.of_returned hx
      obtain ⟨hevents, g, hg, hafter⟩ := hf.finished hd.finished
      exact ⟨hevents, g, own, below', hafter, hg.base ▸ hd.atLeast⟩
    | raised e after =>
      obtain ⟨hevents, g, -, hafter⟩ := hf.unwindable.works (hcontinue.of_raised hx)
      exact (ends_of_broken (fail_post e hafter)).head hevents

/-- The current frame calls a function from one of its registers. -/
theorem Executing.called {slot : Nat} {results : ResultCount}
    (h : Executing root outer n suspended vm f own below)
    (hw : ReflTransGen (Vm.Shift f.base) vm mid) (hl : f.base ≤ slot)
    (he : Vm.Entered slot results g mid after) :
    ReflTransGen (Vm.Event root.func outer) vm after ∧
      Executing root outer n suspended after g (f :: own) below := by
  obtain ⟨mine, -, hactive⟩ := h.mine
  have hsame := Vm.onlyRegisters_of_shifts hw
  have hevents : ReflTransGen (Vm.Event root.func outer) vm after :=
    (Vm.events_of_shifts h.root_le_base hw).trans
      (Vm.events_of_entered (hsame.frames ▸ hactive) (Nat.le_trans h.root_le_base hl) he)
  have hg := he.1
  refine ⟨hevents, ?_, .called hg.running (hg.func ▸ hl) hg.fresh h.frames, h.waiting, ?_, ?_,
    (Vm.spares_of_events hevents h.sound).sound⟩
  · rw [he.active, hsame.frames, h.active]
    rfl
  · rw [he.top]
    exact hg.base_le_top
  · rw [he.hostCalls, hsame.hostCalls, h.hostCalls]

/-- A tail call goes on in the place of the current frame. -/
theorem Executing.spliced (h : Executing root outer n suspended vm g (f :: own) below)
    (hs : Vm.Spliced g f (own ++ below) vm after) :
    ReflTransGen (Vm.Event root.func outer) vm after ∧
      Executing root outer n suspended after (Vm.replacement g f) own below := by
  obtain ⟨mine, hmine⟩ := h.waiting.suffix
  have hg := h.frames.running
  obtain ⟨hl, hf⟩ := h.frames.caller
  have hbounds := hf.bounds f List.mem_cons_self
  have hroot := h.waiting.root_le
  have habove := hg.above
  have hactive : vm.frames.active = g :: f :: (own ++ mine) ++ outer := by
    rw [h.active, hmine]; simp
  have hevents : ReflTransGen (Vm.Event root.func outer) vm after := by
    refine Vm.events_of_spliced h.sound hactive (by omega) (by omega) (by omega) ?_
    rwa [hmine, ← List.append_assoc] at hs
  obtain ⟨mid, frames, hm, htop, hframes, rfl⟩ := hs
  have hreplaced := hf.replaced hg
  refine ⟨hevents, hframes, hreplaced, h.waiting, ?_, ?_,
    (Vm.spares_of_events hevents h.sound).sound⟩
  · show (Vm.replacement g f).base ≤ mid.top
    rw [htop]
    exact hreplaced.running.room
  · exact (Vm.onlyRegisters_of_shifts hm).hostCalls.trans h.hostCalls

/-- A return goes on in the caller, or ends the call. -/
theorem Executing.returned (h : Executing root outer n suspended vm f own below)
    (hr : Vm.Returned f (own ++ below) vm after) :
    ReflTransGen (Vm.Event root.func outer) vm after ∧
      Unwindable root outer n suspended after own below ∧
      ∀ g rest, own ++ below = g :: rest → g.base ≤ g.top → g.base ≤ f.func →
      g.base ≤ after.top := by
  obtain ⟨mine, hmine⟩ := h.waiting.suffix
  have hactive : vm.frames.active = f :: (own ++ mine) ++ outer := by rw [h.active, hmine]; simp
  have hevents : ReflTransGen (Vm.Event root.func outer) vm after := by
    refine Vm.events_of_returned h.sound hactive h.root_le_func h.root_le_base ?_
    rwa [hmine, ← List.append_assoc] at hr
  obtain ⟨frames, hframes, hs⟩ := hr
  have hsame := Vm.onlyRegisters_of_shifts hs
  refine ⟨hevents, ⟨?_, h.waiting, fun g hm => h.frames.lt_base (List.mem_cons_of_mem _ hm), ?_,
    (Vm.spares_of_events hevents h.sound).sound⟩, ?_⟩
  · rw [hsame.frames]
    exact hframes
  · exact hsame.hostCalls.trans h.hostCalls
  · intro g rest hg hroom hl
    have hcurrent : frames.current = g := (List.cons.inj (hframes.trans hg)).1
    have htop := h.top
    have habove := h.frames.running.above
    refine (Vm.inPlace_of_shifts (Vm.shifts_mono hs hl)).top ?_ (hcurrent ▸ hroom)
    show g.base ≤ vm.top
    omega

/-- When a fresh frame returns, the innermost call is over. -/
theorem Executing.left (h : Executing root outer n suspended vm f own below)
    (hr : Vm.Returned f (own ++ below) vm after) (hfresh : f.status.fresh = true) :
    Left root outer n suspended after := by
  obtain ⟨-, hafter, htop⟩ := h.returned hr
  obtain ⟨rfl, hfunc⟩ := h.frames.eq_nil hfresh
  have hactive : after.frames.active = below := hafter.active
  refine ⟨hactive ▸ h.waiting, hafter.hostCalls, hafter.sound, ?_⟩
  rw [hactive]
  exact hfunc ▸ htop

theorem executed_sane {x : Vm.Activation} {op : Opcode} {action : Vm.Action}
    (h : Executing root outer n suspended vm f own below)
    (he : Vm.Executed x f (own ++ below) vm op action after) :
    (pendingAfter root after suspended action).Sane root outer n vm := by
  cases he with
  | finished _ _ hd =>
    obtain ⟨hevents, g, hg, hafter⟩ := h.finished hd.finished
    exact ⟨hevents, g, own, below, hafter, hg.base ▸ hd.atLeast⟩
  | made hm =>
    obtain ⟨mine, -, hactive⟩ := h.mine
    have hevents : ReflTransGen (Vm.Event root.func outer) vm after :=
      Vm.events_of_makes hactive h.root_le_base hm
    obtain ⟨g, hg, hafter⟩ :=
      h.inPlace (Vm.inPlace_of_makes hm) (Vm.spares_of_events hevents h.sound).sound
    exact ⟨hevents, g, own, below, hafter, trivial⟩
  | assigned ha =>
    obtain ⟨mine, -, hactive⟩ := h.mine
    have hevents : ReflTransGen (Vm.Event root.func outer) vm after :=
      Vm.events_of_assigned hactive h.root_le_base ha
    obtain ⟨g, hg, hafter⟩ := h.inPlace ha.inPlace (Vm.spares_of_events hevents h.sound).sound
    exact ⟨hevents, g, own, below, hafter, trivial⟩
  | called hw hl he =>
    obtain ⟨hevents, hafter⟩ := h.called hw hl he
    exact ⟨hevents, _, _, _, hafter, trivial⟩
  | tailCalled hw hl he hs _ =>
    obtain ⟨hentered, hmid⟩ := h.called hw hl he
    obtain ⟨hevents, hafter⟩ := hmid.spliced hs
    exact ⟨hentered.trans hevents, _, _, _, hafter, trivial⟩
  | returned hr =>
    obtain ⟨hevents, hafter, htop⟩ := h.returned hr
    refine Pending.Sane.head hevents ?_
    cases hfresh : f.status.fresh with
    | true => exact leave_sane (h.left hr hfresh)
    | false =>
      obtain ⟨g, rest, rfl, hl, hframes⟩ := h.frames.tail hfresh
      have hg : Executing root outer n suspended after g rest below :=
        ⟨hafter.active, hframes, h.waiting, htop g _ rfl hframes.running.room hl, hafter.hostCalls,
          hafter.sound⟩
      exact ⟨.refl, g, rest, below, hg, trivial⟩

/-- Only the return of a fresh frame ends a call. -/
theorem executed_left {x : Vm.Activation} {op : Opcode}
    (h : Executing root outer n suspended vm f own below)
    (he : Vm.Executed x f (own ++ below) vm op .leave after) :
    Left root outer n suspended after := by
  generalize ha : Vm.Action.leave = action at he
  cases he with
  | finished | made | assigned | called | tailCalled => cases ha
  | returned hr =>
    cases hfresh : f.status.fresh with
    | true => exact h.left hr hfresh
    | false =>
      rw [hfresh] at ha
      cases ha

/-- Wherever an instruction fails, everything is in order for the error. -/
theorem Executing.failed {op : Opcode} (h : Executing root outer n suspended vm f own below)
    (hf : Vm.Failed f (own ++ below) vm op after) :
    ReflTransGen (Vm.Event root.func outer) vm after ∧ ∃ own',
      Unwindable root outer n suspended after own' below := by
  cases hf with
  | works _ hw =>
    obtain ⟨hevents, g, -, hafter⟩ := h.unwindable.works hw
    exact ⟨hevents, _, hafter⟩
  | returned hr =>
    obtain ⟨hevents, hafter, -⟩ := h.returned hr
    exact ⟨hevents, _, hafter⟩

theorem failed_sane {op : Opcode} (e : LuaError)
    (h : Executing root outer n suspended vm f own below)
    (hf : Vm.Failed f (own ++ below) vm op after) :
    Ends root outer n vm (fail e root suspended after) := by
  obtain ⟨hevents, own', hafter⟩ := h.failed hf
  exact (ends_of_broken (fail_post e hafter)).head hevents

theorem Executing.begun {x : Vm.Activation} (h : Executing root outer n suspended vm f own below)
    (hb : Vm.Begun f (own ++ below) vm x g mid) :
    ReflTransGen (Vm.Event root.func outer) vm mid ∧
      Executing root outer n suspended mid g own below := by
  obtain ⟨hevents, g', -, hmid⟩ := h.finished (.of_works hb.works)
  obtain rfl : g' = g := (List.cons.inj (hmid.active.symm.trans hb.active)).1
  exact ⟨hevents, hmid⟩

theorem Executing.dispatch_post (h : Executing root outer n suspended vm f own below) :
    Vm.dispatch.Post vm (Vm.Stepped f (own ++ below) vm) (Vm.StepFailed f (own ++ below) vm) := by
  obtain ⟨g, rest, hcallers⟩ := h.callers
  have hactive : vm.frames.active = f :: g :: rest := by rw [h.active, List.cons_append, hcallers]
  rw [hcallers]
  exact Vm.dispatch_post hactive h.frames.running.closure

theorem pending_sane {r : Run} (h : Executing r.root outer n r.suspended r.vm f own below) :
    r.pending.Sane r.root outer n r.vm := by
  have hdispatch := h.dispatch_post
  unfold pending
  cases hx : Vm.dispatch r.vm with
  | aborted why => exact hdispatch.of_aborted hx
  | raised e after =>
    obtain ⟨x, f', mid, op, hbegun, -, hfailed⟩ := hdispatch.of_raised hx
    obtain ⟨hevents, hmid⟩ := h.begun hbegun
    exact (failed_sane e hmid hfailed).head hevents
  | returned action after =>
    obtain ⟨x, f', mid, op, hbegun, -, hexecuted⟩ := hdispatch.of_returned hx
    obtain ⟨hevents, hmid⟩ := h.begun hbegun
    exact (executed_sane hmid hexecuted).head hevents

/-- A step of a run leads on in order, or ends the run. -/
theorem step_sane {r : Run} (h : Executing r.root outer n r.suspended r.vm f own below) :
    r.step.Sane r.root outer n r.vm := by
  have hpending := pending_sane h
  rw [step_eq]
  cases hp : r.pending with
  | ended o =>
    rw [hp] at hpending
    exact hpending
  | follows next after suspended =>
    rw [hp] at hpending
    obtain ⟨hevents, f', own', below', hafter, hn⟩ := hpending
    exact (follow_sane hafter hn).head hevents

theorem steps_end (fuel : Nat) {r : Run}
    (h : Executing r.root outer n r.suspended r.vm f own below) :
    Ends r.root outer n r.vm (steps fuel r) := by
  induction fuel generalizing r f own below with
  | zero => exact rfl
  | succ fuel ih =>
    have hstep := step_sane h
    unfold steps
    cases hp : r.step with
    | ended o =>
      rw [hp] at hstep
      exact hstep
    | running r' =>
      rw [hp] at hstep
      obtain ⟨hroot, hevents, f', own', below', hr⟩ := hstep
      rw [← hroot] at hr hevents ⊢
      exact (ih hr).head hevents

/-! ## Whole calls -/

/-- One step leads from `r` to `r'`. -/
def Leads (r r' : Run) : Prop := r.step = .running r'

end LuaMachine.Run

namespace LuaMachine.Vm

open Relation (ReflTransGen)
open Exec (Post)

variable {vm after : Vm} {func : Nat} {results : ResultCount}

/-- `r` is a state of the call of the function in the slot `func` that is made in the state `vm`. -/
def During (vm : Vm) (func : Nat) (results : ResultCount) (r : Run) : Prop :=
  ∃ root start, beginCall func results vm = .returned root start ∧
    ReflTransGen Run.Leads { vm := start, root } r

/-- A call that has begun has one frame, above all frames there were. -/
theorem executing_of_began {root : CallSite} {start : Vm} (hu : vm.upvalues.Sound)
    (h : beginCall func results vm = .returned root start) :
    vm.hostCalls < vm.config.maxHostCalls ∧ root = ⟨vm.frames.depth, func⟩ ∧
      ReflTransGen (Event func vm.frames.active) vm start ∧
      ∃ g, Run.Executing root vm.frames.active vm.hostCalls [] start g [] vm.frames.active := by
  have hactive : vm.frames.active = [] ++ vm.frames.active := rfl
  obtain ⟨hlimit, hfunc, g, hg⟩ :=
    (Run.beginCall_post results hu hactive (Nat.le_refl func)).of_returned h
  have hdepth := hg.depth
  have hlength := vm.frames.length_active
  refine ⟨hlimit, ?_, hg.events, g, hg.active, .entered hg.running hg.func hg.fresh,
    .root (by omega), hg.top, hg.hostCalls, (spares_of_events hg.events hu).sound⟩
  rw [← hfunc, ← hdepth]

theorem executing_of_during {r : Run} (hu : vm.upvalues.Sound) (h : During vm func results r) :
    r.root = ⟨vm.frames.depth, func⟩ ∧ ReflTransGen (Event func vm.frames.active) vm r.vm ∧
      ∃ f own below, Run.Executing r.root vm.frames.active vm.hostCalls r.suspended r.vm f
        own below := by
  obtain ⟨root, start, hbegin, hsteps⟩ := h
  obtain ⟨-, hroot, hstart, g, hg⟩ := executing_of_began hu hbegin
  induction hsteps with
  | refl => exact ⟨hroot, hstart, g, [], _, hg⟩
  | tail _ hstep ih =>
    obtain ⟨hr, hevents, f, own, below, hf⟩ := ih
    have hsane := Run.step_sane hf
    rw [show _ = _ from hstep] at hsane
    obtain ⟨hroot', hevents', hf'⟩ := hsane
    rw [← hroot'] at hr hf'
    rw [← hroot', hr] at hevents'
    exact ⟨hr, hevents.trans hevents', hf'⟩

/-- A call that returns or fails has left the frames below it as they were. Only beyond the limit of
nested calls does it fail at once. -/
theorem call_post (hu : vm.upvalues.Sound) (fuel : Nat) :
    (call fuel func results).Post vm
      (fun _ after => Run.Over ⟨vm.frames.depth, func⟩ vm.frames.active vm.hostCalls vm after)
      fun after => vm.config.maxHostCalls ≤ vm.hostCalls ∧ after = vm ∨
        vm.hostCalls < vm.config.maxHostCalls ∧
          Run.Broken ⟨vm.frames.depth, func⟩ vm.frames.active vm.hostCalls vm after := by
  have hactive : vm.frames.active = [] ++ vm.frames.active := rfl
  have hbegin := Run.beginCall_post results hu hactive (Nat.le_refl func)
  unfold Post call
  cases hx : beginCall func results vm with
  | aborted why => exact hbegin.of_aborted hx
  | raised e after =>
    obtain ⟨hr, hcase⟩ := hbegin.of_raised hx
    rcases hcase with hlimit | ⟨hlimit, htop, hclosed⟩
    · exact .inl hlimit
    · exact .inr ⟨hlimit, ⟨hr.events, hr.active, hr.hostCalls⟩, htop, hclosed⟩
  | returned root start =>
    obtain ⟨hlimit, rfl, hevents, g, hg⟩ := executing_of_began hu hx
    let r : Run := { vm := start, root := ⟨vm.frames.depth, func⟩ }
    have hcall : Run.Ends r.root vm.frames.active vm.hostCalls vm (Run.steps fuel r) :=
      (Run.steps_end fuel hg).head hevents
    dsimp only
    revert hcall
    cases Run.steps fuel r with
    | returned _ after => exact fun hcall => hcall
    | raised e after => exact fun hcall => .inr ⟨hlimit, hcall⟩
    | aborted why => exact fun hcall => hcall

/-- A call that is over consisted of events, and has left the frames and the number of nested calls
alone. -/
theorem over_of_call {fuel : Nat} (hu : vm.upvalues.Sound)
    (hc : (call fuel func results vm).state? = some after) :
    ReflTransGen (Event func vm.frames.active) vm after ∧ after.frames.active = vm.frames.active ∧
      after.hostCalls = vm.hostCalls := by
  have hover : (call fuel func results).Post vm
      (fun _ after => ReflTransGen (Event func vm.frames.active) vm after ∧
        after.frames.active = vm.frames.active ∧ after.hostCalls = vm.hostCalls)
      fun after => ReflTransGen (Event func vm.frames.active) vm after ∧
        after.frames.active = vm.frames.active ∧ after.hostCalls = vm.hostCalls := by
    refine (call_post hu fuel).mono ?_ ?_
    · exact fun _ after _ ho => ⟨ho.events, ho.active, ho.hostCalls⟩
    · rintro after (⟨-, rfl⟩ | ⟨-, hb⟩)
      · exact ⟨.refl, rfl, rfl⟩
      · exact ⟨hb.events, hb.active, hb.hostCalls⟩
  exact hover.of_state? hc

end LuaMachine.Vm
