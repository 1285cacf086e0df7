import LuaMachine.Proofs.FrameMarks
import LuaMachine.Proofs.TableMap

/-!
# Frames inside a swapped comparison

Where nothing else decides `lhs <= rhs`, it is the negation of `rhs < lhs`, and while a handler
finds that one out the frame that compares is marked. The handler runs frames of its own, with tail
calls, comparisons and errors among them. Still the marked frames are at every moment exactly those
inside such a comparison: a run takes the mark from the frame that it put it on, and no other frame
gets one.
-/
namespace LuaMachine

open Relation (ReflTransGen)
open Exec (Keeps Post)

namespace Vm

/-! ## Marks at given depths -/

/-- Exactly the frames at these depths are marked. The marks stand innermost first. -/
def Flagged (depths : List Nat) : List CallStatus → Prop
  | [] => True
  | s :: below => (s.leq = true ↔ below.length ∈ depths) ∧ Flagged depths below

/-- The depth of a frame, if it is inside a swapped comparison. -/
def waitAt (swaps : Bool) (depth : Nat) : List Nat := if swaps then [depth] else []

theorem mem_waitAt {swaps : Bool} {depth d : Nat} :
    d ∈ waitAt swaps depth ↔ swaps = true ∧ d = depth := by
  cases swaps <;> simp [waitAt]

section Flagged
variable {depths depths' : List Nat} {marks below : List CallStatus} {s : CallStatus}

theorem Flagged.congr (h : Flagged depths marks)
    (hd : ∀ d < marks.length, d ∈ depths ↔ d ∈ depths') : Flagged depths' marks := by
  induction marks with
  | nil => trivial
  | cons s below ih =>
    refine ⟨h.1.trans (hd _ (Nat.lt_succ_self _)), ih h.2 fun d hlt => hd d ?_⟩
    exact Nat.lt_succ_of_lt hlt

/-- Marking the current frame. -/
theorem Flagged.mark (h : Flagged depths (s :: below)) (hfree : below.length ∉ depths)
    (waiting : Bool) :
    Flagged (waitAt waiting below.length ++ depths) ({ s with leq := waiting } :: below) := by
  refine ⟨by simp [mem_waitAt, hfree], h.2.congr fun d hlt => ?_⟩
  have hne : d ≠ below.length := Nat.ne_of_lt hlt
  simp [mem_waitAt, hne]

/-- Taking the mark of a swapped comparison that is over, if it was one. -/
theorem Flagged.unmark {swaps : Bool}
    (h : Flagged (waitAt swaps below.length ++ depths) (s :: below))
    (hfree : below.length ∉ depths) :
    Flagged depths ({ s with leq := if swaps then false else s.leq } :: below) := by
  refine ⟨?_, h.2.congr fun d hlt => ?_⟩
  · cases swaps with
    | true => simp [hfree]
    | false => simpa [waitAt] using h.1
  · have hne : d ≠ below.length := Nat.ne_of_lt hlt
    simp [mem_waitAt, hne]

/-- What a step does to the marks fits to whether it asks for the call of a swapped comparison. -/
theorem Flagged.remarks {op : Opcode} {next : Next} {after : List CallStatus}
    (h : Flagged depths marks) (hd : ∀ d ∈ depths, d + 1 < marks.length)
    (hr : Remarks op marks (.next next) after) :
    Flagged (waitAt next.swaps (after.length - 1) ++ depths) after := by
  generalize ha : Action.next next = action at hr
  cases hr with
  | kept _ _ hnext =>
    cases ha
    rw [hnext]
    exact h
  | @compared s below next' =>
    cases ha
    refine h.mark (fun hm => ?_) _
    have := hd _ hm
    simp at this
  | called marks =>
    cases ha
    refine ⟨iff_of_false Bool.false_ne_true fun hm => ?_, h⟩
    have := hd _ hm
    omega
  | tailCalled s below =>
    cases ha
    exact h
  | returned s below =>
    cases hfresh : s.fresh with
    | true => simp [hfresh] at ha
    | false =>
      obtain rfl : next = .proceed := by simpa [hfresh] using ha
      exact h.2

theorem Remarks.of_leave {op : Opcode} {after : List CallStatus}
    (h : Remarks op marks .leave after) : ∃ s, marks = s :: after := by
  generalize ha : Action.leave = action at h
  cases h with
  | kept | compared | called | tailCalled => cases ha
  | returned s below => exact ⟨s, rfl⟩

/-- Only `<=` asks for the call of a swapped comparison. -/
theorem Remarks.of_swaps {op : Opcode} {next : Next} {after : List CallStatus}
    (h : Remarks op marks (.next next) after) (hs : next.swaps = true) : op = .le := by
  generalize ha : Action.next next = action at h
  cases h with
  | kept _ _ hnext =>
    cases ha
    simp [hnext] at hs
  | compared _ hop => exact hop
  | called | tailCalled =>
    cases ha
    cases hs
  | returned s below =>
    cases hfresh : s.fresh with
    | true => simp [hfresh] at ha
    | false =>
      obtain rfl : next = .proceed := by simpa [hfresh] using ha
      cases hs

theorem length_statuses (vm : Vm) : vm.statuses.length = vm.frames.depth + 1 := by
  rw [statuses, List.length_map, CallStack.length_active]

/-- The marks counted from below, where the depth is the index. -/
theorem Flagged.of_getElem? {d : Nat} {t : CallStatus} (h : Flagged depths marks)
    (ht : marks.reverse[d]? = some t) : t.leq = true ↔ d ∈ depths := by
  induction marks with
  | nil => simp at ht
  | cons s below ih =>
    rw [List.reverse_cons, List.getElem?_append] at ht
    split at ht
    · exact ih h.2 ht
    · next hle =>
      have hlt := (List.getElem?_eq_some_iff.mp ht).1
      simp only [List.length_reverse, List.length_cons, List.length_nil] at hle hlt
      obtain rfl : d = below.length := by omega
      obtain rfl : s = t := by simpa using ht
      exact h.1

end Flagged

/-- The table of open upvalues is sound, and exactly the frames at these depths are marked. -/
structure MarkedAt (depths : List Nat) (vm : Vm) : Prop where
  sound : vm.upvalues.Sound
  flagged : Flagged depths vm.statuses
  bound : ∀ d ∈ depths, d ≤ vm.frames.depth

section MarkedAt
variable {depths : List Nat} {vm after : Vm}

theorem depth_of_sameMarks (h : SameMarks vm after) : after.frames.depth = vm.frames.depth := by
  have := congrArg List.length h
  rw [length_statuses, length_statuses] at this
  omega

theorem MarkedAt.congr (h : MarkedAt depths vm) (hu : after.upvalues.Sound)
    (hs : SameMarks vm after) : MarkedAt depths after := by
  refine ⟨hu, ?_, ?_⟩
  · rw [hs]
    exact h.flagged
  · rw [depth_of_sameMarks hs]
    exact h.bound

theorem MarkedAt.unmarked (h : MarkedAt depths vm) (hfree : vm.frames.depth ∉ depths) :
    vm.frames.current.status.leq = false := by
  have hiff : vm.frames.current.status.leq = true ↔
      (vm.frames.callers.map Frame.status).length ∈ depths := h.flagged.1
  rw [List.length_map, CallStack.length_callers] at hiff
  exact Bool.eq_false_iff.mpr fun hleq => hfree (hiff.mp hleq)

theorem MarkedAt.leq_iff (h : MarkedAt depths vm) {d : Nat} {f : Frame} (hd : d ≤ vm.frames.depth)
    (hf : vm.frames.frames[d]? = some f) : f.status.leq = true ↔ d ∈ depths := by
  refine h.flagged.of_getElem? ?_
  rw [statuses, ← List.map_reverse, List.getElem?_map, CallStack.getElem?_reverse_active hd, hf]
  rfl

/-- A new frame is not marked. -/
theorem MarkedAt.begun {func : Nat} {results : ResultCount} {site : CallSite}
    (h : MarkedAt depths vm) (hb : beginCall func results vm = .returned site after) :
    MarkedAt depths after := by
  obtain ⟨-, -, -, g, hg⟩ := executing_of_began h.sound hb
  have hmarks := beginCall_marks hb
  have hdepth : after.frames.depth = vm.frames.depth + 1 := by
    have := congrArg List.length hmarks
    rw [List.length_cons, length_statuses, length_statuses] at this
    omega
  refine ⟨hg.sound, ?_, fun d hm => ?_⟩
  · rw [hmarks]
    refine ⟨iff_of_false Bool.false_ne_true fun hm => ?_, h.flagged⟩
    have := h.bound _ hm
    rw [length_statuses] at this
    omega
  · have := h.bound d hm
    omega

end MarkedAt

end Vm

/-! ## Runs -/

namespace Run
variable {r r' : Run} {root : Vm.CallSite} {outer own below : List Frame} {n : Nat} {f : Frame}
  {vm after : Vm}
  {suspended rest : List Suspended} {s : Suspended} {next : Vm.Next} {depths : List Nat}

/-- The depths of the frames that wait for a swapped comparison. -/
def waits : List Suspended → List Nat
  | [] => []
  | s :: rest => Vm.waitAt s.resume.swaps s.site.depth ++ waits rest

/-- A frame that waits belongs to the run, and is below the frames of the innermost call. -/
theorem Waiting.waits_lt (h : Waiting root outer suspended below) :
    root.depth < below.length ∧ ∀ d ∈ waits suspended, d < below.length := by
  induction h with
  | root hd => exact ⟨by omega, nofun⟩
  | @nested s rest f own below h hown hd hl hk ih =>
    have hlonger : below.length < (f :: own ++ below).length := by simp
    refine ⟨by omega, fun d hm => ?_⟩
    rcases List.mem_append.mp hm with hm | hm
    · rw [(Vm.mem_waitAt.mp hm).2]
      omega
    · have := ih.2 d hm
      omega

/-- The frames of the innermost call do not wait. -/
theorem Executing.waits_lt (h : Executing root outer n suspended vm f own below)
    (hd : ∀ d ∈ depths, d ≤ root.depth) : ∀ d ∈ waits suspended ++ depths, d < vm.frames.depth := by
  intro d hm
  obtain ⟨hroot, hwaits⟩ := h.waiting.waits_lt
  have hdepth : vm.frames.depth = (own ++ below).length := CallStack.depth_of_active h.active
  rw [List.length_append] at hdepth
  rcases List.mem_append.mp hm with hm | hm
  · have := hwaits d hm
    omega
  · have := hd d hm
    omega

/-- A step of a run changes marks in one of the described ways. -/
theorem Executing.remarks (h : Executing root outer n suspended vm f own below)
    (hm : Vm.MarkedAt (waits suspended ++ depths) vm) (hd : ∀ d ∈ depths, d ≤ root.depth) :
    Vm.dispatch.Post vm
      (fun action after => ∃ x mid op, Vm.beginStep vm = .returned x mid ∧ x.instr.op? = some op ∧
        Vm.Remarks op vm.statuses action after.statuses)
      fun after => ∃ x mid op, Vm.beginStep vm = .returned x mid ∧ x.instr.op? = some op ∧
        after.statuses = Vm.marksAtError op vm.statuses := by
  have hunmarked : f.status.leq = false := by
    rw [← (List.cons.inj h.active).1]
    exact hm.unmarked fun hmem => Nat.lt_irrefl _ (h.waits_lt hd _ hmem)
  obtain ⟨g, callers, hcallers⟩ := h.callers
  have hactive : vm.frames.active = f :: g :: callers := by
    rw [h.active, List.cons_append, hcallers]
  exact Vm.dispatch_marks hactive h.frames.running.closure hunmarked

theorem continueWith_marks (s : Suspended) (hc : vm.frames.current.closure.isSome) :
    (continueWith s).Post vm (fun next after => next.swaps = false ∧
      Vm.SameMarks (vm.released s.resume.swaps) after)
      (Vm.SameMarks (vm.released s.resume.swaps)) := by
  have hkept : (collect s.site s.resume).Keeps (Vm.Shift 0) :=
    collect_keeps s.resume (Nat.zero_le _)
  refine Post.bind
    (Post.modify
      (Post.bind (Post.intro (fun results mid hx => ?_) (fun e mid hx => ?_) fun why hx => ?_)))
  · have hframes : mid.frames = vm.frames :=
      (Vm.onlyRegisters_of_shifts ((hkept _).of_returned hx)).frames
    have hsame : Vm.SameMarks (vm.released s.resume.swaps) (mid.released s.resume.swaps) := by
      refine Vm.sameMarks_of_frames ?_
      cases s.resume.swaps with
      | false => exact hframes
      | true => exact congrArg (fun frames => CallStack.modifyCurrent frames _) hframes
    refine (Vm.resume_marks s.resume results (hframes ▸ hc)).mono (fun next after _ h => ?_)
      fun after h => ?_
    · exact ⟨h.1, Eq.trans h.2 hsame⟩
    · exact Eq.trans h hsame
  · exact absurd hx collect_ne_raised
  · exact (hkept _).of_aborted hx

/-- A step that ends a call has left its fresh frame. -/
theorem Executing.left_of_leave (h : Executing root outer n suspended vm f own below)
    (hx : Vm.dispatch vm = .returned .leave after) : Left root outer n suspended after := by
  obtain ⟨x, g, mid, op, hbegun, -, hexecuted⟩ := h.dispatch_post.of_returned hx
  exact executed_left (h.begun hbegun).2 hexecuted

/-- The frame that waits for a call runs a closure. -/
theorem Left.closure (h : Left root outer n (s :: rest) vm) : vm.frames.current.closure.isSome := by
  obtain ⟨f, own, below, hf, -, -⟩ := h.executing
  have hcurrent : vm.frames.current = f := (List.cons.inj hf.active).1
  rw [hcurrent]
  exact hf.frames.running.closure

/-- When the call is over that a frame waits for, the frame goes on and is no longer marked. -/
theorem Left.flagged (h : Left root outer n (s :: rest) vm) (hd : ∀ d ∈ depths, d ≤ root.depth)
    (hf : Vm.Flagged (waits (s :: rest) ++ depths) vm.statuses)
    (hc : continueWith s vm = .returned next after) :
    next.swaps = false ∧ Vm.Flagged (waits rest ++ depths) after.statuses := by
  obtain ⟨f, own, below, hexecuting, -, -⟩ := h.executing
  obtain ⟨hnext, hsame⟩ := (continueWith_marks s h.closure).of_returned hc
  have hsite : (vm.frames.callers.map Frame.status).length = s.site.depth := by
    rw [List.length_map]
    exact Nat.succ.inj h.waiting.length_below
  have hfree : s.site.depth ∉ waits rest ++ depths := by
    intro hm
    have hlt : s.site.depth < vm.frames.depth := hexecuting.waits_lt hd _ hm
    rw [List.length_map, CallStack.length_callers] at hsite
    omega
  refine ⟨hnext, ?_⟩
  rw [hsame, Vm.statuses_released]
  rw [waits, List.append_assoc, ← hsite] at hf
  exact hf.unmark (hsite ▸ hfree)

/-- After an instruction, the frames inside a swapped comparison are those that wait, and the
current one if a swapped comparison asks for the call that comes next. -/
theorem pending_markedAt (h : Executing r.root outer n r.suspended r.vm f own below)
    (hm : Vm.MarkedAt (waits r.suspended ++ depths) r.vm) (hd : ∀ d ∈ depths, d ≤ r.root.depth)
    (hp : r.pending = .follows next after rest) :
    Vm.MarkedAt (Vm.waitAt next.swaps after.frames.depth ++ (waits rest ++ depths)) after := by
  have hlt := h.waits_lt hd
  have hsane := pending_sane h
  rw [hp] at hsane
  obtain ⟨-, f', own', below', hafter, -⟩ := hsane
  refine ⟨hafter.sound, ?_, fun d hmem => ?_⟩
  · rcases pending_eq_follows hp with ⟨hx, rfl⟩ | ⟨s, mid, hx, hs, hc⟩
    · obtain ⟨-, -, op, -, -, hremarks⟩ := (h.remarks hm hd).of_returned hx
      -- The frame that executes the instruction is above all that wait.
      have hflagged := hm.flagged.remarks (fun d hmem => ?_) hremarks
      · rwa [Vm.length_statuses] at hflagged
      · have := hlt d hmem
        rw [Vm.length_statuses]
        omega
    · -- A return takes away the fresh frame, and what is then the current one goes on.
      have hleft := h.left_of_leave hx
      obtain ⟨-, -, op, -, -, hremarks⟩ := (h.remarks hm hd).of_returned hx
      obtain ⟨t, hmarks⟩ := hremarks.of_leave
      have hflagged := hm.flagged
      rw [hs] at hleft hflagged
      rw [hmarks] at hflagged
      obtain ⟨hnext, hwaiting⟩ := hleft.flagged hd hflagged.2 hc
      rw [hnext]
      exact hwaiting
  · rcases List.mem_append.mp hmem with hmem | hmem
    · exact Nat.le_of_eq (Vm.mem_waitAt.mp hmem).2
    · exact Nat.le_of_lt (hafter.waits_lt hd d hmem)

/-- A call that comes next is made with the marks that the instruction has left. -/
theorem calls_markedAt {start : Vm} {slot : Nat} {wanted : ResultCount} {k : Vm.Resume}
    (h : Executing r.root outer n r.suspended r.vm f own below)
    (hm : Vm.MarkedAt (waits r.suspended ++ depths) r.vm) (hd : ∀ d ∈ depths, d ≤ r.root.depth)
    (hc : r.Calls start slot wanted k rest) :
    Vm.MarkedAt (Vm.waitAt k.swaps start.frames.depth ++ (waits rest ++ depths)) start := by
  obtain ⟨next, vm, hp, hrequest⟩ := hc
  have hpending := pending_markedAt h hm hd hp
  cases hrequest with
  | callAt => exact hpending
  | invoke hpush =>
    have hframes :=
      Vm.onlyRegisters_of_shifts ((Vm.pushAll_post _ (Nat.zero_le _)).of_returned hpush)
    rw [hframes.frames]
    exact hpending.congr (hframes.upvalues ▸ hpending.sound) (Vm.sameMarks_of_frames hframes.frames)

/-- A step makes no call, or one that has begun where the run goes on. -/
theorem leads_cases (h : Leads r r') :
    r.pending = .follows .proceed r'.vm r'.suspended ∨
      ∃ start slot wanted k rest site, r.Calls start slot wanted k rest ∧
        Vm.beginCall slot wanted start = .returned site r'.vm ∧
          r'.suspended = ⟨site, k⟩ :: rest := by
  unfold Leads at h
  rw [step_eq] at h
  cases hp : r.pending with
  | ended o => simp [hp] at h
  | follows next vm rest =>
    simp only [hp] at h
    have hnested : ∀ {start slot wanted k}, Requests vm next start slot wanted k →
        ∃ start slot wanted k rest site, r.Calls start slot wanted k rest ∧
        Vm.beginCall slot wanted start = .returned site r'.vm ∧
          r'.suspended = ⟨site, k⟩ :: rest := by
      intro start slot wanted k hrequest
      have hcalls : r.Calls start slot wanted k rest := ⟨next, vm, hp, hrequest⟩
      have hstep := step_of_calls hcalls
      rw [step_eq, hp] at hstep
      simp only at hstep
      rw [h, nest] at hstep
      split at hstep
      · next site after hbegin =>
        cases hstep
        exact ⟨start, slot, wanted, k, rest, site, hcalls, hbegin, rfl⟩
      · cases hstep
      · cases hstep
    cases next with
    | proceed =>
      cases h
      exact .inl rfl
    | invoke handler args k =>
      obtain ⟨-, site, hbegin⟩ := nest_eq_running h
      obtain ⟨start, hpush, -⟩ := beginInvoke_eq_returned hbegin
      exact .inr (hnested (.invoke hpush))
    | callAt func results k => exact .inr (hnested .callAt)

/-- A step keeps the marks in order. -/
theorem Leads.markedAt (h : Executing r.root outer n r.suspended r.vm f own below)
    (hm : Vm.MarkedAt (waits r.suspended ++ depths) r.vm) (hd : ∀ d ∈ depths, d ≤ r.root.depth)
    (hl : Leads r r') : Vm.MarkedAt (waits r'.suspended ++ depths) r'.vm := by
  rcases leads_cases hl with hp | ⟨start, slot, wanted, k, rest, site, hc, hbegin, hs⟩
  · exact pending_markedAt h hm hd hp
  · have hstart := calls_markedAt h hm hd hc
    obtain rfl := site_of_beginCall hbegin
    rw [hs, waits, List.append_assoc]
    exact hstart.begun hbegin

end Run

namespace Vm

/-- The marks are in order in every state of a run. -/
theorem MarkedAt.during {depths : List Nat} {vm : Vm} {func : Nat} {results : ResultCount} {r : Run}
    (h : MarkedAt depths vm) (hr : During vm func results r) :
    MarkedAt (Run.waits r.suspended ++ depths) r.vm ∧ ∀ d ∈ depths, d ≤ r.root.depth := by
  obtain ⟨root, start, hbegin, hsteps⟩ := hr
  induction hsteps with
  | refl =>
    obtain rfl := Run.site_of_beginCall hbegin
    exact ⟨h.begun hbegin, h.bound⟩
  | @tail r r' hprefix hstep ih =>
    obtain ⟨hroot, -, f, own, below, hf⟩ :=
      executing_of_during h.sound ⟨root, start, hbegin, hprefix⟩
    obtain ⟨hm, hd⟩ := ih
    rw [Run.root_of_leads hstep]
    exact ⟨hstep.markedAt hf hm hd, hd⟩

/-! ## Operations of the host -/

/-- The table of open upvalues is sound, and the frames have these marks. -/
structure Steady (marks : List CallStatus) (vm : Vm) : Prop where
  sound : vm.upvalues.Sound
  marks : vm.statuses = marks

section Steady
variable {marks : List CallStatus} {α : Type} {x : Exec α} (fuel : Nat)

theorem steady_of_keeps (hw : x.Keeps (Work 0)) (hm : x.Keeps SameMarks) :
    x.Maintains (Steady marks) := by
  intro vm h
  have hsteady : ∀ {after}, ReflTransGen (Work 0) vm after → ReflTransGen SameMarks vm after →
      Steady marks after :=
    fun hworks hpath =>
      ⟨upvalues_of_works hworks ▸ h.sound, Eq.trans (sameMarks_of_path hpath) h.marks⟩
  apply Post.intro
  · exact fun a after hx => hsteady ((hw vm).of_returned hx) ((hm vm).of_returned hx)
  · exact fun e after hx => hsteady ((hw vm).of_raised hx) ((hm vm).of_raised hx)
  · exact fun why hx => (hw vm).of_aborted hx

theorem steady_of_shifts (hx : x.Keeps (Shift 0)) : x.Maintains (Steady marks) :=
  steady_of_keeps hx.work (keeps_sameMarks hx)

/-- What leaves all frames as they are leaves their marks alone. -/
theorem steady_of_holding (hx : ∀ frames, x.Maintains (Holding frames)) :
    x.Maintains (Steady marks) := by
  intro vm h
  have hsteady : ∀ {after}, Holding vm.frames.active after → Steady marks after := by
    intro after hheld
    refine ⟨hheld.sound, Eq.trans ?_ h.marks⟩
    rw [statuses, hheld.active]
    rfl
  exact (hx _ vm ⟨h.sound, rfl⟩).mono (fun _ _ _ hheld => hsteady hheld) fun _ hheld =>
    hsteady hheld

theorem push_steady (v : Value) : (push v).Maintains (Steady marks) :=
  steady_of_shifts fun _ => (push_post v (Nat.zero_le _)).mono (fun _ _ _ h => h.2) fun _ h => h

theorem callOnce_steady (handler : Value) (args : List Value) :
    (callOnce fuel handler args).Maintains (Steady marks) :=
  (steady_of_holding fun _ => callFunction_holding fuel handler args).bind fun _ => .pure _

theorem fulfil_steady (reply : Reply Value) : (fulfil fuel reply).Maintains (Steady marks) := by
  cases reply with
  | done v => exact .pure v
  | call handler args => exact callOnce_steady fuel handler args

theorem setIndex_steady (obj key value : Value) :
    (setIndex fuel obj key value).Maintains (Steady marks) := by
  refine (steady_of_keeps (newIndex_keeps obj key value) (newIndex_sameMarks obj key value)).bind
    fun reply => ?_
  cases reply with
  | done _ => exact .pure _
  | call handler args =>
    exact (steady_of_holding fun _ => callFunction_holding fuel handler args).bind fun _ => .pure _

theorem concatReversed_steady (rounds : Nat) (reversed : List Value) :
    (concatReversed fuel rounds reversed).Maintains (Steady marks) := by
  have hround : ∀ reversed, (concatRound reversed).Maintains (Steady marks) :=
    fun reversed => steady_of_keeps (concatRound_keeps reversed) (concatRound_sameMarks reversed)
  induction rounds generalizing reversed with
  | zero =>
    refine (hround reversed).bind fun reply => ?_
    cases reply with
    | done v => exact .pure v
    | call handler args rest => exact callOnce_steady fuel handler args
  | succ rounds ih =>
    refine (hround reversed).bind fun reply => ?_
    cases reply with
    | done v => exact .pure v
    | call handler args rest =>
      exact (callOnce_steady fuel handler args).bind fun v => ih (v :: rest)

/-- An answer clears the mark of a swapped comparison, whether the handler returns or fails. -/
theorem answer_steady (verdict : Verdict) {vm : Vm} (hu : vm.upvalues.Sound) :
    (answer fuel verdict).Post vm (fun _ => Steady (vm.released verdict.swaps).statuses)
      (Steady (vm.released verdict.swaps).statuses) := by
  cases verdict with
  | decided b => exact ⟨hu, rfl⟩
  | ask negated handler args =>
    have hcall := callFunction_holding fuel handler args vm ⟨hu, rfl⟩
    have hsteady : ∀ {after}, Holding vm.frames.active after →
        Steady (vm.released negated).statuses (after.released negated) := by
      intro after hheld
      refine ⟨by cases negated <;> exact hheld.sound, ?_⟩
      obtain ⟨hcurrent, hcallers⟩ := List.cons.inj hheld.active
      rw [statuses_released, statuses_released, hcurrent, hcallers]
    unfold Post
    cases hx : callFunction fuel handler args vm with
    | returned results after =>
      rw [answer_of_returned hx]
      exact hsteady (hcall.of_returned hx)
    | raised e after =>
      rw [answer_of_raised hx]
      exact hsteady (hcall.of_raised hx)
    | aborted why =>
      rw [answer_of_aborted hx]
      exact hcall.of_aborted hx

/-- A comparison in a frame that is not marked leaves all marks as they were. -/
theorem compare_steady {comparison : Exec Verdict} {s : CallStatus} {below : List CallStatus}
    (hs : s.leq = false) (hw : comparison.Keeps (Work 0))
    (hm : ∀ {vm : Vm}, vm.frames.current.status.leq = false →
      comparison.Post vm (fun v after => SameMarks (vm.marked v.swaps) after) (SameMarks vm)) :
    (comparison >>= answer fuel).Maintains (Steady (s :: below)) := by
  intro vm h
  obtain ⟨hcurrent, hcallers⟩ := List.cons.inj h.marks
  have hleq : vm.frames.current.status.leq = false := hcurrent ▸ hs
  have hsound : ∀ {mid}, ReflTransGen (Work 0) vm mid → mid.upvalues.Sound :=
    fun hp => upvalues_of_works hp ▸ h.sound
  refine Post.bind (Post.intro (fun v mid hx => ?_) (fun e mid hx => ?_) fun why hx =>
    (hw vm).of_aborted hx)
  · have hmarked : SameMarks (vm.marked v.swaps) mid := (hm hleq).of_returned hx
    have hreleased : (mid.released v.swaps).statuses = s :: below := by
      rw [SameMarks, statuses_marked, h.marks] at hmarked
      obtain ⟨hhead, htail⟩ := List.cons.inj hmarked
      rw [statuses_released, hhead, htail]
      cases v.swaps <;> simp [← hs]
    rw [← hreleased]
    exact answer_steady fuel v (hsound ((hw vm).of_returned hx))
  · exact ⟨hsound ((hw vm).of_raised hx), Eq.trans ((hm hleq).of_raised hx) h.marks⟩

theorem isLessEqual_steady {s : CallStatus} {below : List CallStatus} (hs : s.leq = false)
    (lhs rhs : Value) : (isLessEqual fuel lhs rhs).Maintains (Steady (s :: below)) :=
  compare_steady fuel hs (lessEqual_keeps lhs rhs) (lessEqual_marks lhs rhs)

/-- A comparison that is never swapped puts no mark on a frame. -/
theorem Spotless.compared {comparison : Exec Verdict}
    (h : Spotless (fun v => v.swaps = false) comparison) {vm : Vm}
    (hleq : vm.frames.current.status.leq = false) :
    comparison.Post vm (fun v after => SameMarks (vm.marked v.swaps) after) (SameMarks vm) := by
  refine (h vm).mono (fun v after _ hv => ?_) fun _ hsame => hsame
  rw [hv.1]
  exact Eq.trans hv.2 (sameMarks_unmarked hleq)

/-- Between two operations of the host no mark is left. -/
theorem HostOp.run_steady {s : CallStatus} {below : List CallStatus} (hs : s.leq = false)
    (op : HostOp) : (op.run fuel).Maintains (Steady (s :: below)) := by
  cases op with
  | push v => exact push_steady v
  | poke slot v =>
    refine steady_of_shifts ((Keeps.check (Checked.add_yields _ _)).bind fun wanted => ?_)
    exact (Exec.ensure_keeps wanted).bind fun _ => Exec.setSlot_keeps v (Nat.zero_le _)
  | raiseTop top =>
    have hset : (Exec.setTop top).Keeps (Shift 0) := Exec.setTop_keeps (Nat.zero_le _)
    refine steady_of_shifts
      ((Exec.ensure_keeps top).bind fun _ => (Keeps.look _).bind fun old => ?_)
    refine Keeps.ite (fun _ => ?_) fun _ => hset
    exact (Exec.onStack_keeps fun s => s.fillNil_yields _ (Nat.zero_le _)).bind fun _ => hset
  | call func results => exact steady_of_holding fun _ => call_holding fuel func results
  | callFunction function args =>
    exact (steady_of_holding fun _ => callFunction_holding fuel function args).discard
  | getIndex obj key =>
    exact ((steady_of_keeps (index_keeps obj key) (index_sameMarks obj key)).bind
      (fulfil_steady fuel)).discard
  | setIndex obj key value => exact setIndex_steady fuel obj key value
  | applyArith op lhs rhs =>
    exact ((steady_of_keeps (arith_keeps op lhs rhs) (arith_sameMarks op lhs rhs)).bind
      (fulfil_steady fuel)).discard
  | lengthOf v =>
    exact ((steady_of_keeps (length_keeps v) (length_sameMarks v)).bind
      (fulfil_steady fuel)).discard
  | isEqual lhs rhs =>
    exact (compare_steady fuel hs (equal_keeps lhs rhs) (equal_spotless lhs rhs).compared).discard
  | isLess lhs rhs =>
    exact (compare_steady fuel hs (lessThan_keeps lhs rhs)
      (lessThan_spotless lhs rhs).compared).discard
  | isLessEqual lhs rhs => exact (isLessEqual_steady fuel hs lhs rhs).discard
  | concatAll values =>
    rw [HostOp.run, concatAll_eq]
    exact (concatReversed_steady fuel _ _).discard
  | load proto env =>
    refine Exec.Maintains.discard fun vm h => ?_
    exact ⟨load_sound proto env vm h.sound, h.marks⟩

end Steady

/-! ## The comparison -/

/-- What `lhs <= rhs` comes to. No mark is left, and where it falls back it is the negation of what
the handler of `rhs < lhs` says. -/
structure LessEqual (fuel : Nat) (lhs rhs : Value) (vm : Vm) : Prop where
  marks : ∀ after, (isLessEqual fuel lhs rhs vm).state? = some after → after.statuses = vm.statuses
  returned : ∀ handler v after, vm.FallsBack lhs rhs → vm.hook? "__lt" rhs lhs = some handler →
    callOnce fuel handler [rhs, lhs] (vm.asking lhs rhs) = .returned v after →
    isLessEqual fuel lhs rhs vm = .returned (!v.isTruthy) (after.marked false)
  raised : ∀ handler e after, vm.FallsBack lhs rhs → vm.hook? "__lt" rhs lhs = some handler →
    callOnce fuel handler [rhs, lhs] (vm.asking lhs rhs) = .raised e after →
    isLessEqual fuel lhs rhs vm = .raised e (after.marked false)
  unordered : vm.FallsBack lhs rhs → vm.hook? "__lt" rhs lhs = none →
    isLessEqual fuel lhs rhs vm =
      .raised { cause := .cannotCompare lhs.type rhs.type } ((vm.asking lhs rhs).marked false)

section LessEqual
variable {depths : List Nat} {vm : Vm}

theorem fallsBack_of_lessEqual {lhs rhs : Value} {verdict : Verdict} {after : Vm}
    (h : lessEqual lhs rhs vm = .returned verdict after) (hs : verdict.swaps = true) :
    vm.FallsBack lhs rhs := by
  cases hraw : rawLess? true lhs rhs with
  | some answer =>
    rw [lessEqual_of_raw hraw] at h
    cases h
    cases hs
  | none =>
    cases hle : vm.hook? "__le" lhs rhs with
    | some handler =>
      rw [lessEqual_of_hook hraw hle] at h
      cases h
      cases hs
    | none => exact ⟨hraw, hle⟩

theorem MarkedAt.steady (h : MarkedAt depths vm) :
    Steady (vm.frames.current.status :: vm.frames.callers.map Frame.status) vm := ⟨h.sound, rfl⟩

theorem MarkedAt.lessEqual (h : MarkedAt depths vm) (hfree : vm.frames.depth ∉ depths) (fuel : Nat)
    (lhs rhs : Value) : LessEqual fuel lhs rhs vm where
  marks := fun after ho =>
    ((isLessEqual_steady fuel (h.unmarked hfree) lhs rhs _ h.steady).of_state? ho).marks
  returned := by
    intro handler v after hback hlt hcall
    obtain ⟨results, mid, hcalled, hpure⟩ := Exec.bind_eq_returned_iff.mp hcall
    cases hpure
    rw [isLessEqual, Exec.bind_of_returned (lessEqual_of_swapped hback hlt),
      answer_of_returned hcalled, Bool.bne_true]
    rfl
  raised := by
    intro handler e after hback hlt hcall
    have hcalled : callFunction fuel handler [rhs, lhs] (vm.asking lhs rhs) = .raised e after := by
      rcases Exec.bind_eq_raised_iff.mp hcall with hcalled | ⟨_, _, _, hpure⟩
      · exact hcalled
      · cases hpure
    rw [isLessEqual, Exec.bind_of_returned (lessEqual_of_swapped hback hlt),
      answer_of_raised hcalled]
    rfl
  unordered := fun hback hlt => Exec.bind_of_raised (lessEqual_of_unordered hback hlt)

end LessEqual

end Vm

namespace Run
variable {r : Run} {outer own below : List Frame} {n : Nat} {f : Frame} {start mid : Vm}
  {depths : List Nat}
  {slot : Nat} {wanted : ResultCount} {k : Vm.Resume} {rest : List Suspended} {x : Vm.Activation}
    {lhs rhs : Value}

/-- The next instruction of the run compares `lhs <= rhs`. It is fetched, and `mid` is the state
after that. -/
structure Compares (r : Run) (x : Vm.Activation) (lhs rhs : Value) (mid : Vm) : Prop where
  fetched : Vm.beginStep r.vm = .returned x mid
  op : x.instr.op? = some .le
  left : Vm.operandValue x x.instr.b mid = .returned lhs mid
  right : Vm.operandValue x x.instr.c mid = .returned rhs mid

/-- The next instruction of the run is `<=`, and falls back to the swapped comparison. -/
def FallsBack (r : Run) : Prop := ∃ x lhs rhs mid, r.Compares x lhs rhs mid ∧ mid.FallsBack lhs rhs

theorem Compares.dispatch_eq (h : r.Compares x lhs rhs mid) :
    Vm.dispatch r.vm = Vm.hooked (Vm.lessEqual lhs rhs >>= Vm.testVerdict x) mid := by
  rw [Vm.dispatch_of_fetched h.fetched h.op]
  simp only [Vm.execute, Vm.hooked, Vm.opCompare, bind_assoc]
  rw [Exec.bind_of_returned h.left, Exec.bind_of_returned h.right]

/-- A swapped comparison calls its handler. -/
theorem swaps_of_fallsBack (h : r.FallsBack) (hc : r.Calls start slot wanted k rest) :
    k.swaps = true := by
  obtain ⟨x, lhs, rhs, mid, hcompares, hback⟩ := h
  obtain ⟨next, vm, hp, hrequest⟩ := hc
  have hdispatch := hcompares.dispatch_eq
  rw [Vm.hooked, bind_assoc] at hdispatch
  unfold pending at hp
  cases hlt : mid.hook? "__lt" rhs lhs with
  | none =>
    rw [hdispatch, Exec.bind_of_raised (Vm.lessEqual_of_unordered hback hlt)] at hp
    cases hp
  | some handler =>
    rw [hdispatch, Exec.bind_of_returned (Vm.lessEqual_of_swapped hback hlt)] at hp
    cases hp
    cases hrequest
    rfl

/-- Only a swapped comparison makes such a call. -/
theorem fallsBack_of_swaps (h : Executing r.root outer n r.suspended r.vm f own below)
    (hm : Vm.MarkedAt (waits r.suspended ++ depths) r.vm) (hd : ∀ d ∈ depths, d ≤ r.root.depth)
    (hc : r.Calls start slot wanted k rest) (hk : k.swaps = true) : r.FallsBack := by
  obtain ⟨next, vm, hp, hrequest⟩ := hc
  have hnext : next.swaps = true := by cases hrequest <;> exact hk
  rcases pending_eq_follows hp with ⟨hx, rfl⟩ | ⟨s, mid, hx, hs, hcontinue⟩
  · obtain ⟨x, mid, op, hfetched, hop, hremarks⟩ := (h.remarks hm hd).of_returned hx
    obtain rfl := hremarks.of_swaps hnext
    rw [Vm.dispatch_of_fetched hfetched hop] at hx
    obtain ⟨_, last, hcompare, hend⟩ := Exec.bind_eq_returned_iff.mp hx
    cases hend
    obtain ⟨lhs, rhs, verdict, compared, hlhs, hrhs, hverdict, htest⟩ :=
      Vm.opCompare_eq_returned hcompare
    have hswaps : verdict.swaps = true :=
      ((Vm.testVerdict_spotless x verdict compared).of_returned htest).1 ▸ hnext
    exact ⟨x, lhs, rhs, _, ⟨hfetched, hop, hlhs, hrhs⟩, Vm.fallsBack_of_lessEqual hverdict hswaps⟩
  · -- The instruction that goes on after a call asks for no swapped comparison.
    have hleft := h.left_of_leave hx
    rw [hs] at hleft
    have hnever := ((continueWith_marks s hleft.closure).of_returned hcontinue).1
    simp [hnever] at hnext

/-- The instruction ends with the answer of the comparison. -/
theorem Compares.completes (h : r.Compares x lhs rhs mid) {fuel : Nat}
    (hfuel : Vm.isLessEqual fuel lhs rhs mid ≠ .aborted .outOfFuel) :
    Completes r.suspended r (concluded r.root r.suspended
      ((Vm.isLessEqual fuel lhs rhs >>= fun answer => Vm.endTest (answer == (x.instr.a != 0)))
        mid)) := by
  have hhalf : Vm.firstHalf?.compared x (Vm.isLessEqual fuel) mid =
      (Vm.isLessEqual fuel lhs rhs >>= fun answer => pure (answer == (x.instr.a != 0))) mid := by
    rw [Vm.firstHalf?.compared, Exec.bind_of_returned h.left, Exec.bind_of_returned h.right]
  have hwhole : (Vm.firstHalf?.compared x (Vm.isLessEqual fuel) >>= Vm.endTest) mid =
      (Vm.isLessEqual fuel lhs rhs >>= fun answer => Vm.endTest (answer == (x.instr.a != 0)))
        mid := by
    simp only [Vm.firstHalf?.compared, bind_assoc, pure_bind]
    rw [Exec.bind_of_returned h.left, Exec.bind_of_returned h.right]
  have hdone : Vm.firstHalf?.compared x (Vm.isLessEqual fuel) mid ≠ .aborted .outOfFuel := by
    rw [hhalf]
    cases ho : Vm.isLessEqual fuel lhs rhs mid with
    | returned answer after => rw [Exec.bind_of_returned ho]; simp [pure, Exec.pure]
    | raised e after => rw [Exec.bind_of_raised ho]; simp
    | aborted why =>
      rw [Exec.bind_of_aborted ho]
      exact ho ▸ hfuel
  rw [← hwhole]
  exact completes_of_halves h.fetched h.op rfl hdone

end Run

namespace Vm

/-! ## Reachable states -/

/-- The states that a host can bring about, and those that its operations pass through, with the
depths of the frames inside a swapped comparison. Such a frame does nothing but call the handler. -/
inductive Awaits : List Nat → Vm → Prop
  /-- A new machine. Closures that the host made before have closed upvalues. -/
  | created {config : Config} {hooks : Hooks} {heap : Heap} {upvalues : Upvalues} {vm : Vm}
      (h : Vm.create config hooks heap upvalues = .ok vm) (ho : upvalues.opened = [])
      (hc : ∀ r slot, upvalues.cell r ≠ .opened slot) : Awaits [] vm
  | operated {depths : List Nat} {vm after : Vm} (h : Awaits depths vm)
      (hfree : vm.frames.depth ∉ depths) (op : HostOp) (fuel : Nat)
      (ho : (op.run fuel vm).state? = some after) : Awaits depths after
  /-- The host makes and changes objects, and metatables of types, as it likes. -/
  | built {depths : List Nat} {vm : Vm} (h : Awaits depths vm) (heap : Heap)
      (types : TypeMetatables) :
      Awaits depths { vm with heap, types }
  | allocated {depths : List Nat} {vm : Vm} (h : Awaits depths vm) (v : Value) :
      Awaits depths { vm with upvalues := (vm.upvalues.allocate (.closed v)).2 }
  | logged {depths : List Nat} {vm : Vm} (h : Awaits depths vm) (trace : Option (Array TraceGroup))
      (consultations : Option (Array Consultation)) : Awaits depths { vm with trace, consultations }
  /-- The current frame compares two values, and falls back to the swapped comparison. -/
  | fellBack {depths : List Nat} {vm : Vm} {lhs rhs : Value} (h : Awaits depths vm)
      (hfree : vm.frames.depth ∉ depths) (hback : vm.FallsBack lhs rhs) :
      Awaits (vm.frames.depth :: depths) (vm.fallenBack lhs rhs)
  | pushed {depths : List Nat} {vm after : Vm} (h : Awaits depths vm) (v : Value)
      (hp : (push v vm).state? = some after) : Awaits depths after
  /-- A call is over. -/
  | called {depths : List Nat} {vm after : Vm} {fuel func : Nat} {results : ResultCount}
      (h : Awaits depths vm) (hc : (call fuel func results vm).state? = some after) :
      Awaits depths after
  /-- A state of a run between two steps. -/
  | running {depths : List Nat} {vm : Vm} {func : Nat} {results : ResultCount} {r : Run}
      (h : Awaits depths vm) (hr : During vm func results r) :
      Awaits (Run.waits r.suspended ++ depths) r.vm
  /-- A state in which a step has fetched its instruction. -/
  | fetched {depths : List Nat} {vm mid : Vm} {func : Nat} {results : ResultCount} {r : Run}
      {x : Activation} (h : Awaits depths vm) (hr : During vm func results r)
      (hx : beginStep r.vm = .returned x mid) :
      Awaits (Run.waits r.suspended ++ depths) mid
  /-- A state in which a step of a run calls a function. -/
  | calling {depths : List Nat} {vm start : Vm} {func : Nat} {results : ResultCount} {r : Run}
      {slot : Nat} {wanted : ResultCount} {k : Resume} {rest : List Suspended}
      (h : Awaits depths vm) (hr : During vm func results r)
      (hc : r.Calls start slot wanted k rest) :
      Awaits (waitAt k.swaps start.frames.depth ++ (Run.waits rest ++ depths)) start

section Awaits
variable {depths : List Nat} {vm after : Vm}

theorem MarkedAt.operated (h : MarkedAt depths vm) (hfree : vm.frames.depth ∉ depths) {op : HostOp}
    {fuel : Nat} (ho : (op.run fuel vm).state? = some after) : MarkedAt depths after := by
  have hsteady := (op.run_steady fuel (h.unmarked hfree) vm h.steady).of_state? ho
  exact h.congr hsteady.sound hsteady.marks

theorem MarkedAt.fellBack {lhs rhs : Value} (h : MarkedAt depths vm)
    (hfree : vm.frames.depth ∉ depths) :
    MarkedAt (vm.frames.depth :: depths) (vm.fallenBack lhs rhs) := by
  have hlength : (vm.frames.callers.map Frame.status).length = vm.frames.depth := by
    rw [List.length_map, CallStack.length_callers]
  have hdepth : (vm.fallenBack lhs rhs).frames.depth = vm.frames.depth := rfl
  refine ⟨h.sound, ?_, ?_⟩
  · rw [fallenBack, statuses_marked, sameMarks_consulted]
    have hflagged :
        Flagged depths (vm.frames.current.status :: vm.frames.callers.map Frame.status) := h.flagged
    have hmark := hflagged.mark (hlength ▸ hfree) true
    rw [hlength] at hmark
    exact hmark
  · rw [hdepth]
    simpa using h.bound

/-- A step that fetches its instruction changes no mark. -/
theorem MarkedAt.fetched {func : Nat} {results : ResultCount} {r : Run} {x : Activation} {mid : Vm}
    (h : MarkedAt depths vm) (hr : During vm func results r)
    (hx : beginStep r.vm = .returned x mid) :
    MarkedAt (Run.waits r.suspended ++ depths) mid ∧
      mid.frames.depth ∉ Run.waits r.suspended ++ depths := by
  obtain ⟨-, -, f, own, below, hf⟩ := executing_of_during h.sound hr
  obtain ⟨hm, hd⟩ := h.during hr
  have hsame := beginStep_marks hx
  obtain ⟨c, instr, -, -, -, rfl⟩ := beginStep_eq_returned hx
  exact ⟨hm.congr hm.sound hsame, fun hmem => Nat.lt_irrefl _ (hf.waits_lt hd _ hmem)⟩

theorem Awaits.markedAt (h : Awaits depths vm) : MarkedAt depths vm := by
  induction h with
  | @created config hooks heap upvalues vm h ho hc =>
    rw [create_eq_ok h]
    exact ⟨.of_closed ho hc, ⟨iff_of_false Bool.false_ne_true List.not_mem_nil, trivial⟩, nofun⟩
  | operated _ hfree op fuel ho ih => exact ih.operated hfree ho
  | built _ heap types ih => exact ih.congr ih.sound (sameMarks_of_frames rfl)
  | allocated _ v ih => exact ih.congr (ih.sound.allocateClosed v) (sameMarks_of_frames rfl)
  | logged _ trace consultations ih => exact ih.congr ih.sound (sameMarks_of_frames rfl)
  | fellBack _ hfree _ ih => exact ih.fellBack hfree
  | pushed _ v hp ih =>
    have hsteady := (push_steady v _ ih.steady).of_state? hp
    exact ih.congr hsteady.sound hsteady.marks
  | called _ hc ih =>
    have hsteady := (steady_of_holding (fun _ => call_holding _ _ _) _ ih.steady).of_state? hc
    exact ih.congr hsteady.sound hsteady.marks
  | running _ hr ih => exact (ih.during hr).1
  | fetched _ hr hx ih => exact (ih.fetched hr hx).1
  | calling _ hr hc ih =>
    obtain ⟨-, -, f, own, below, hf⟩ := executing_of_during ih.sound hr
    obtain ⟨hm, hd⟩ := ih.during hr
    exact Run.calls_markedAt hf hm hd hc

/-- Exactly the frames inside a swapped comparison are marked. So `<=` leaves no mark, whatever it
comes to, and where it falls back it is the negation of what the handler says. In a run, the
instruction `<=` ends with what the comparison comes to, and it is the only one whose call makes its
frame wait for a swapped comparison. -/
theorem leq_iff_awaits (h : Awaits depths vm) :
    (∀ d f, d ≤ vm.frames.depth → vm.frames.frames[d]? = some f →
      (f.status.leq = true ↔ d ∈ depths)) ∧
      (vm.frames.depth ∉ depths → ∀ fuel lhs rhs, LessEqual fuel lhs rhs vm) ∧
      ∀ func results r, During vm func results r →
        (∀ start slot wanted k rest, r.Calls start slot wanted k rest →
          (k.swaps = true ↔ r.FallsBack)) ∧
        ∀ x lhs rhs mid fuel, r.Compares x lhs rhs mid → LessEqual fuel lhs rhs mid ∧
          (isLessEqual fuel lhs rhs mid ≠ .aborted .outOfFuel →
            Run.Completes r.suspended r (Run.concluded r.root r.suspended
              ((isLessEqual fuel lhs rhs >>= fun answer => endTest (answer == (x.instr.a != 0)))
                mid))) := by
  have hmarked := h.markedAt
  refine ⟨fun d f hd hf => hmarked.leq_iff hd hf, fun hfree => hmarked.lessEqual hfree, ?_⟩
  intro func results r hr
  obtain ⟨-, -, f, own, below, hf⟩ := executing_of_during hmarked.sound hr
  obtain ⟨hm, hd⟩ := hmarked.during hr
  refine ⟨fun start slot wanted k rest hc => ?_, fun x lhs rhs mid fuel hcompares => ?_⟩
  · exact ⟨Run.fallsBack_of_swaps hf hm hd hc, fun hback => Run.swaps_of_fallsBack hback hc⟩
  · obtain ⟨hmid, hfree⟩ := hmarked.fetched hr hcompares.fetched
    exact ⟨hmid.lessEqual hfree fuel lhs rhs, hcompares.completes⟩

/-- Returns its first argument. -/
def returnFirst : Prototype where
  paramCount := 2
  maxStackSize := 2
  code := #[⟨0x00000000⟩, ⟨0x01000026⟩]

/-- A table that only has a handler for `<`. -/
def orderedHost : Vm :=
  .new { initialStackSize := 16 } .standard {
    tables := #[{ metatable := some ⟨1⟩ },
      { content := Table.empty.set (.ofText "__lt") (.closure ⟨0⟩) }]
    closures := #[{ proto := returnFirst, upvalues := #[] }] } {}

theorem metafield_orderedHost (event : String) :
    orderedHost.heap.metafield orderedHost.types (.table ⟨0⟩) event =
      if Key.ofText "__lt" = Key.ofText event then .closure ⟨0⟩ else .nil := by
  show (Table.empty.set (.ofText "__lt") (.closure ⟨0⟩)).get (.ofText event) = _
  rw [Table.get_set, Table.get_empty]

theorem fallsBack_orderedHost : orderedHost.FallsBack (.table ⟨0⟩) .nil := by
  refine ⟨rfl, ?_⟩
  show (Value.notNil? (orderedHost.heap.metafield orderedHost.types (.table ⟨0⟩) "__le")).or none =
    none
  rw [metafield_orderedHost, if_neg (by decide)]
  rfl

theorem hook_orderedHost : orderedHost.hook? "__lt" .nil (.table ⟨0⟩) = some (.closure ⟨0⟩) := by
  show (Value.notNil? .nil).or
    (orderedHost.heap.metafield orderedHost.types (.table ⟨0⟩) "__lt").notNil? = _
  rw [metafield_orderedHost, if_pos rfl]
  rfl

/-- The table is not more than `nil`, since the handler finds that `nil` is not less than it. While
the handler runs, the frame of the host is marked and its own is not. -/
theorem leq_iff_awaits_host :
    (∃ (vm : Vm) (r : Run),
      pushAll [.closure ⟨0⟩, .nil, .table ⟨0⟩] (orderedHost.asking (.table ⟨0⟩) .nil) =
        .returned () vm ∧
      Awaits [0] vm ∧ During vm 0 .all r ∧
      (r.vm.frames.frames.map fun f => f.status.leq) = #[true, false] ∧
      ∀ d f, d ≤ r.vm.frames.depth → r.vm.frames.frames[d]? = some f →
      (f.status.leq = true ↔ d ∈ [0])) ∧
    ∃ after, isLessEqual 2 (.table ⟨0⟩) .nil orderedHost = .returned true after ∧
      after.statuses = orderedHost.statuses := by
  have hhost : Awaits [] orderedHost :=
    .created (create_of_reserve .standard _ {} rfl) rfl Upvalues.cell_empty_ne_opened
  constructor
  · have hcheck : ((firstStep (orderedHost.asking (.table ⟨0⟩) .nil)
        [.closure ⟨0⟩, .nil, .table ⟨0⟩]).any fun p =>
        p.2.suspended.isEmpty && (p.2.vm.frames.frames.map fun f => f.status.leq) ==
          #[true, false]) =
        true := by
      decide +kernel
    obtain ⟨⟨vm, r⟩, hstep, hmarks⟩ := (Option.any_eq_true _ _).mp hcheck
    rw [Bool.and_eq_true, List.isEmpty_iff, beq_iff_eq] at hmarks
    obtain ⟨hpush, hduring⟩ := firstStep_eq_some hstep
    have hasking : Awaits [0] (orderedHost.asking (.table ⟨0⟩) .nil) :=
      hhost.fellBack List.not_mem_nil fallsBack_orderedHost
    have hpushed : Awaits [0] vm := pushAll_induction (fun v h hv => h.pushed v hv) hasking hpush
    have hrunning := hpushed.running hduring
    rw [hmarks.1] at hrunning
    exact ⟨vm, r, hpush, hpushed, hduring, hmarks.2, (leq_iff_awaits hrunning).1⟩
  · have hcheck : ((callOnce 2 (.closure ⟨0⟩) [.nil, .table ⟨0⟩]
        (orderedHost.asking (.table ⟨0⟩) .nil)).result?.any fun p => !p.1.isTruthy) = true := by
      decide +kernel
    obtain ⟨⟨v, after⟩, hcall, hanswer⟩ := (Option.any_eq_true _ _).mp hcheck
    have hless := (leq_iff_awaits hhost).2.1 List.not_mem_nil 2 (.table ⟨0⟩) .nil
    have hreturned := hless.returned _ _ _ fallsBack_orderedHost hook_orderedHost
      (Outcome.result?_eq_some hcall)
    rw [hanswer] at hreturned
    exact ⟨_, hreturned, hless.marks _ (by rw [hreturned]; rfl)⟩

end Awaits

end Vm

end LuaMachine
