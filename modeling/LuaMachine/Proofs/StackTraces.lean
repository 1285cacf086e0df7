import LuaMachine.Proofs.Assertions
import LuaMachine.Proofs.ResourceLimits
import LuaMachine.Proofs.StandingFrames

/-!
# Stack traces

An error leaves the calls of a run one after another, and every one of them adds its own frames to
the trace. Put together, the trace has every function that was active when the error was raised,
innermost first, each with the instruction that it was executing. Which one that was is known from
the history of the run: it is the last instruction that was executed at the depth of the frame.
-/
namespace LuaMachine

open Relation (ReflTransGen)
open Exec (Post)

/-! ## Recording -/

section Recording

/-- An active function with the instruction that it executes. -/
structure ActiveCall where
  proto : Prototype
  pc : Nat
  tail : Bool

/-- The entries of a trace for an active function. -/
def ActiveCall.entries (c : ActiveCall) : List TraceEntry :=
  .lua c.pc c.proto :: if c.tail then [.tailCalls 1] else []

/-- The function of a frame, at the instruction before its position. -/
def Frame.call (heap : Heap) (f : Frame) : ActiveCall where
  proto := (heap.closureAt (f.closure.getD default)).proto
  pc := f.pc - 1
  tail := f.status.tail

/-- The error with entries for more functions. -/
def LuaError.recording (e : LuaError) (calls : List ActiveCall) : LuaError :=
  { e with trace := e.trace ++ (calls.flatMap ActiveCall.entries).toArray }

variable {e : LuaError} {heap : Heap} {vm after : Vm}

@[simp] theorem LuaError.recording_nil (e : LuaError) : e.recording [] = e := by
  simp [recording]

@[simp] theorem LuaError.recording_recording (e : LuaError) (calls calls' : List ActiveCall) :
    (e.recording calls).recording calls' = e.recording (calls ++ calls') := by
  simp [recording]

/-- An entry for tail calls comes right behind the one for its function, so it is never joined to
another one. -/
theorem Vm.traceFrame_eq {f : Frame} (hf : f.closure.isSome) :
    traceFrame heap e f = e.recording [f.call heap] := by
  obtain ⟨r, hr⟩ := Option.isSome_iff_exists.mp hf
  cases ht : f.status.tail with
  | false =>
    simp [traceFrame, hr, ht, LuaError.traceLua, LuaError.recording, Frame.call, ActiveCall.entries]
  | true =>
    have hboth : ∀ a b : TraceEntry, (e.trace.push a).push b = e.trace ++ #[a, b] := by
      intro a b
      apply Array.ext'
      simp
    simp [traceFrame, hr, ht, LuaError.traceLua, LuaError.traceTailCall,
      LuaError.recording, Frame.call, ActiveCall.entries, hboth]

theorem Vm.foldl_traceFrame (heap : Heap) (e : LuaError) {frames : List Frame}
    (hf : ∀ f ∈ frames, f.closure.isSome) :
    frames.foldl (traceFrame heap) e = e.recording (frames.map (Frame.call heap)) := by
  induction frames generalizing e with
  | nil => simp
  | cons f frames ih =>
    rw [List.foldl_cons, traceFrame_eq (hf f List.mem_cons_self),
      ih _ fun g hg => hf g (List.mem_cons_of_mem _ hg)]
    simp

/-- A call that fails adds its frames. -/
theorem Vm.failCall_eq {above below : List Frame} {site : CallSite}
    (hv : vm.frames.active = above ++ below) (hd : below.length = site.depth + 1)
    (hc : ∀ f ∈ above, f.closure.isSome) :
    failCall e site vm = .returned (e.recording (above.map (Frame.call vm.heap)))
      (vm.unwound site) := by
  have hframes := CallStack.activeAbove_eq hv hd
  have hfold := foldl_traceFrame vm.heap e hc
  simp only [failCall, unwind, bind, Exec.bind, Exec.modify, Exec.look, hframes, Exec.check, pure,
    Exec.pure, hfold]
  rfl

end Recording

namespace Run

/-! ## Unwinding -/

section Unwinding
variable {root : Vm.CallSite} {outer own below mine : List Frame} {n : Nat}
  {suspended : List Suspended} {f : Frame} {e e' : LuaError} {vm after : Vm}

/-- What an instruction has marked does not show in a trace. -/
theorem abandon_records {k : Vm.Resume} (h : abandon k vm = .returned () after) :
    after.heap = vm.heap ∧ after.frames.callers = vm.frames.callers ∧
      after.frames.current.closure = vm.frames.current.closure ∧
      after.frames.current.call vm.heap = vm.frames.current.call vm.heap := by
  unfold abandon at h
  split at h
  · cases h
    simp [Frame.call]
  · cases h
    exact ⟨rfl, rfl, rfl, rfl⟩

/-- Leaving a nested call marks nothing that a trace shows, so that the frames that are left keep
their entries. -/
theorem Unwindable.abandoned {k : Vm.Resume}
    (h : Unwindable root outer n suspended vm (f :: own) below)
    (ha : abandon k vm = .returned () after) :
    ∃ g, Unwindable root outer n suspended after (g :: own) below ∧ g.closure = f.closure ∧
      g.call vm.heap = f.call vm.heap ∧ after.heap = vm.heap := by
  obtain ⟨hheap, -, hclosure, hcall⟩ := abandon_records ha
  obtain ⟨-, g, -, hafter⟩ := h.works ((abandon_post f.base k vm).of_returned ha)
  have hf : vm.frames.current = f := (List.cons.inj h.active).1
  have hg : after.frames.current = g := (List.cons.inj hafter.active).1
  rw [hf, hg] at hclosure hcall
  exact ⟨g, hafter, hclosure, hcall, hheap⟩

/-- Nested calls are recorded one after another. What is left are frames of the outermost call. -/
theorem unwindNested_records (h : Unwindable root outer n suspended vm own below)
    (hm : own ++ below = mine ++ outer) (hc : ∀ f ∈ mine, f.closure.isSome)
    (hx : unwindNested e suspended vm = .returned e' after) :
    ∃ last, after.frames.active = last ++ outer ∧ (∀ f ∈ last, f.closure.isSome) ∧
      after.heap = vm.heap ∧
      e'.recording (last.map (Frame.call vm.heap)) =
        e.recording (mine.map (Frame.call vm.heap)) := by
  induction suspended generalizing e vm own below mine with
  | nil =>
    cases hx
    exact ⟨mine, h.active.trans hm, hc, rfl, rfl⟩
  | cons s rest ih =>
    obtain ⟨f, own', below', rfl, hnext⟩ := h.next
    obtain ⟨mine', rfl⟩ := hnext.waiting.suffix
    obtain rfl : mine = own ++ (f :: own' ++ mine') := by
      have : own ++ (f :: own' ++ mine') ++ outer = mine ++ outer := by simpa using hm
      exact (List.append_cancel_right this).symm
    have hfail := Vm.failCall_eq (e := e) h.active h.waiting.length_below
      fun f hf => hc f (List.mem_append_left _ hf)
    obtain ⟨e₁, mid, hfailed, hx⟩ := Exec.bind_eq_returned_iff.mp hx
    obtain ⟨rfl, rfl⟩ := Outcome.returned.inj (hfail.symm.trans hfailed)
    obtain ⟨_, mid, ha, hx⟩ := Exec.bind_eq_returned_iff.mp hx
    obtain ⟨g, hmid, hclosure, hcall, hheap⟩ := hnext.abandoned ha
    have hcg : ∀ f' ∈ g :: own' ++ mine', f'.closure.isSome := by
      intro f' hf'
      rw [List.cons_append, List.mem_cons] at hf'
      rcases hf' with rfl | hf'
      · rw [hclosure]
        exact hc f (by simp)
      · exact hc f' (by simp [List.mem_append.mp hf'])
    have hheap' : mid.heap = vm.heap := hheap
    obtain ⟨last, hactive, hlast, hafter, hrecord⟩ := ih hmid (List.append_assoc _ _ _).symm hcg hx
    refine ⟨last, hactive, hlast, hafter.trans hheap', ?_⟩
    rw [hheap', LuaError.recording_recording] at hrecord
    have hcall' : g.call vm.heap = f.call vm.heap := hcall
    rw [hrecord]
    simp [hcall']

theorem fail_records (h : Unwindable root outer n suspended vm own below)
    (hm : own ++ below = mine ++ outer) (hc : ∀ f ∈ mine, f.closure.isSome)
    (hx : fail e root suspended vm = .raised e' after) :
    e' = e.recording (mine.map (Frame.call vm.heap)) := by
  have hunwind := unwindNested_post e h
  unfold fail at hx
  dsimp only at hx
  cases hu : unwindNested e suspended vm with
  | raised e₁ mid => exact (hunwind.of_raised hu).elim
  | aborted why =>
    rw [Exec.bind_of_aborted hu] at hx
    cases hx
  | returned e₁ mid =>
    obtain ⟨last, hactive, hlast, hheap, hrecord⟩ := unwindNested_records h hm hc hu
    obtain ⟨-, own', hmid⟩ := hunwind.of_returned hu
    have hd : outer.length = root.depth + 1 := hmid.waiting.length_below
    rw [Exec.bind_of_returned hu, Vm.failCall_eq hactive hd hlast] at hx
    obtain ⟨rfl, -⟩ := Outcome.raised.inj hx
    rw [hheap, hrecord]

theorem failBefore_records {k : Vm.Resume}
    (h : Unwindable root outer n suspended vm (f :: own) below)
    (hm : f :: own ++ below = mine ++ outer) (hc : ∀ f ∈ mine, f.closure.isSome)
    (hx : failBefore k e root suspended vm = .raised e' after) :
    e' = e.recording (mine.map (Frame.call vm.heap)) := by
  obtain ⟨mine', rfl⟩ := h.waiting.suffix
  obtain rfl : mine = f :: own ++ mine' := by
    have : f :: own ++ mine' ++ outer = mine ++ outer := by simpa using hm
    exact (List.append_cancel_right this).symm
  rcases Exec.bind_eq_raised_iff.mp hx with ha | ⟨_, mid, ha, hx⟩
  · exact ((abandon_post f.base k vm).of_raised ha).elim
  · obtain ⟨g, hmid, hclosure, hcall, hheap⟩ := h.abandoned ha
    have hcg : ∀ f' ∈ g :: own ++ mine', f'.closure.isSome := by
      intro f' hf'
      rw [List.cons_append, List.mem_cons] at hf'
      rcases hf' with rfl | hf'
      · rw [hclosure]
        exact hc f (by simp)
      · exact hc f' (by simp [List.mem_append.mp hf'])
    rw [fail_records hmid (List.append_assoc _ _ _).symm hcg hx, hheap]
    simp [hcall]

end Unwinding

/-! ## The history of a run -/

section History
variable {start r r' : Run} {past history : List Run} {outer frames : List Frame} {f g : Frame}
  {vm after : Vm}

/-- A run got from `start` to `r` through the states `past`, the latest first. -/
inductive Trail (start : Run) : List Run → Run → Prop
  | start : Trail start [] start
  | step {past : List Run} {r r' : Run} (h : Trail start past r) (hs : Leads r r') :
      Trail start (r :: past) r'

/-- The last state of a history in which an instruction was executed at a depth. -/
def lastAt (history : List Run) (depth : Nat) : Option Run :=
  history.find? fun r => r.vm.frames.depth == depth

/-- The frame at a depth is the one that executed the last instruction at that depth, and its
position is just past it. -/
structure Executes (history : List Run) (depth : Nat) (f : Frame) : Prop where
  closure : f.closure.isSome
  last : ∃ r, lastAt history depth = some r ∧ f.SamePlace r.vm.frames.current ∧
    f.pc = r.vm.frames.current.pc + 1

/-- All of the frames over `outer` are just past the instruction that they execute. -/
inductive Standing (history : List Run) (outer : List Frame) : List Frame → Prop
  | outer : Standing history outer outer
  | frame {f : Frame} {rest : List Frame} (hf : Executes history rest.length f)
      (h : Standing history outer rest) :
      Standing history outer (f :: rest)

theorem Executes.congr {depth : Nat} (h : Executes history depth f) (hg : g.SamePlace f)
    (hpc : g.pc = f.pc) : Executes history depth g := by
  obtain ⟨hclosure, r, hr, hplace, hf⟩ := h
  exact ⟨hg.closure ▸ hclosure, r, hr, hg.trans hplace, hpc.trans hf⟩

theorem Executes.later {depth : Nat} (h : Executes history depth f)
    (hd : depth < r.vm.frames.depth) : Executes (r :: history) depth f := by
  obtain ⟨hclosure, r', hr', hf⟩ := h
  refine ⟨hclosure, r', ?_, hf⟩
  rw [lastAt, List.find?_cons_of_neg (by simp; omega)]
  exact hr'

/-- A step above the frames does not touch them. -/
theorem Standing.later (h : Standing history outer frames)
    (hd : frames.length ≤ r.vm.frames.depth) : Standing (r :: history) outer frames := by
  induction h with
  | outer => exact .outer
  | frame hf _ ih =>
    rw [List.length_cons] at hd
    exact .frame (hf.later (by omega)) (ih (by omega))

theorem Standing.tail (h : Standing history outer (f :: frames))
    (hl : outer.length ≤ frames.length) :
    Executes history frames.length f ∧ Standing history outer frames := by
  cases h with
  | outer => simp at hl
  | frame hf h => exact ⟨hf, h⟩

/-- Counted from the innermost one, which is at the depth `d`, every frame executes an
instruction. -/
theorem Standing.executes {mine : List Frame} {i d : Nat}
    (h : Standing history outer (mine ++ outer)) (hd : (mine ++ outer).length = d + 1)
    (hi : mine[i]? = some f) : Executes history (d - i) f := by
  induction mine generalizing i d with
  | nil => simp at hi
  | cons g mine ih =>
    rw [List.cons_append] at h
    obtain ⟨hg, hrest⟩ := h.tail (by simp)
    simp only [List.cons_append, List.length_cons, Nat.add_right_cancel_iff] at hd
    cases i with
    | zero =>
      obtain rfl : g = f := by simpa using hi
      rwa [hd] at hg
    | succ i =>
      have hlt := (List.getElem?_eq_some_iff.mp hi).1
      rw [List.length_cons] at hlt
      rw [List.length_append] at hd
      have := ih hrest (d := d - 1) (by rw [List.length_append]; omega) (by simpa using hi)
      rwa [show d - (i + 1) = d - 1 - i by omega]

/-- An operation in the current frame that leaves its position alone leaves all frames standing. -/
theorem Standing.inPlace {base : Nat} (h : Standing history outer vm.frames.active)
    (hl : outer.length ≤ vm.frames.depth) (hp : Vm.InPlace base vm after)
    (hpos : after.position = vm.position) : Standing history outer after.frames.active := by
  obtain ⟨hcurrent, hcallers⟩ := h.tail (by simpa using hl)
  rw [CallStack.active, hp.callers]
  exact .frame (hcurrent.congr hp.current hpos) hcallers

end History

/-! ## Steps -/

section Steps
variable {r : Run} {root : Vm.CallSite} {outer own below : List Frame} {n : Nat}
  {suspended : List Suspended}
  {f g : Frame} {vm mid after : Vm} {past history : List Run} {e : LuaError} {x : Vm.Activation}
    {op : Opcode}

/-- When an instruction is fetched, its frame joins those that execute one. -/
theorem Executing.standing (h : Executing r.root outer n r.suspended r.vm f own below)
    (hs : Standing past outer r.vm.frames.callers) (hb : Vm.Begun f (own ++ below) r.vm x g mid) :
    Standing (r :: past) outer mid.frames.active := by
  obtain ⟨hcurrent, hcallers⟩ := List.cons.inj h.active
  have hdepth := r.vm.frames.length_callers
  rw [show r.vm.frames.callers = own ++ below from hcallers] at hs hdepth
  have hpc := Vm.position_of_beginStep hb.fetched
  rw [Vm.position, Vm.position, hcurrent, (List.cons.inj hb.active).1] at hpc
  rw [hb.active]
  refine .frame ⟨?_, r, ?_, hcurrent ▸ hb.place, hcurrent ▸ hpc⟩ (hs.later (by omega))
  · rw [hb.place.closure]
    exact h.frames.running.closure
  · rw [lastAt, List.find?_cons_of_pos (by simp [hdepth])]

/-- After an instruction the callers of the current frame stand, and all frames if the instruction
is not over. -/
def Stays (history : List Run) (outer : List Frame) (after : Vm) : Vm.Action → Prop
  | .next n =>
    Standing history outer after.frames.callers ∧
      (n.Asks → Standing history outer after.frames.active)
  | .leave => Standing history outer after.frames.active

theorem Executing.outer_le (h : Executing root outer n suspended vm f own below) :
    outer.length ≤ vm.frames.depth := by
  obtain ⟨mine, -, hactive⟩ := h.mine
  have hlength := congrArg List.length hactive
  simp only [CallStack.length_active, List.length_append, List.length_cons] at hlength
  omega

/-- An instruction that goes on in its frame, whether it asks for a call or not. -/
theorem stays_inPlace {base : Nat} {next : Vm.Next} (hs : Standing history outer vm.frames.active)
    (hl : outer.length ≤ vm.frames.depth) (hp : Vm.InPlace base vm after)
    (hpos : next.Asks → after.position = vm.position) : Stays history outer after (.next next) := by
  refine ⟨?_, fun hask => hs.inPlace hl hp (hpos hask)⟩
  rw [hp.callers]
  exact (hs.tail (by simpa using hl)).2

theorem executed_stays {action : Vm.Action} (h : Executing root outer n suspended vm f own below)
    (hs : Standing history outer vm.frames.active)
    (hx : Vm.execute x op vm = .returned action after)
    (he : Vm.Executed x f (own ++ below) vm op action after) :
    Stays history outer after action := by
  have hl := h.outer_le
  have hcallers : vm.frames.callers = own ++ below := (List.cons.inj h.active).2
  have hstand : Standing history outer (own ++ below) := hcallers ▸ (hs.tail (by simpa using hl)).2
  cases he with
  | finished hret _ hd =>
    exact stays_inPlace hs hl hd.finished.inPlace ((Vm.execute_stands hret).returned hx)
  | made hm => exact stays_inPlace hs hl (Vm.inPlace_of_makes hm) fun h => absurd rfl h
  | assigned ha => exact stays_inPlace hs hl ha.inPlace fun h => absurd rfl h
  | called hw hl' he =>
    refine ⟨?_, fun h => absurd rfl h⟩
    have hactive := he.active
    rw [(Vm.onlyRegisters_of_shifts hw).frames] at hactive
    rwa [(List.cons.inj hactive).2]
  | tailCalled hw hl' he hsplice _ =>
    refine ⟨?_, fun h => absurd rfl h⟩
    obtain ⟨mid, frames, -, -, hframes, rfl⟩ := hsplice
    rw [show frames.callers = own ++ below from (List.cons.inj hframes).2]
    exact hstand
  | returned hr =>
    obtain ⟨frames, hframes, hshift⟩ := hr
    have hactive : after.frames.active = own ++ below := by
      rw [(Vm.onlyRegisters_of_shifts hshift).frames]
      exact hframes
    cases hfresh : f.status.fresh with
    | true =>
      show Standing history outer after.frames.active
      rwa [hactive]
    | false =>
      refine ⟨?_, fun h => absurd rfl h⟩
      obtain ⟨g, rest, rfl, -, -⟩ := h.frames.tail hfresh
      obtain ⟨mine, rfl⟩ := h.waiting.suffix
      rw [(List.cons.inj hactive).2]
      exact (Standing.tail hstand (by simp; omega)).2

/-- Where an instruction fails, all frames stand, and the error has recorded none of them. -/
theorem failed_standing (h : Executing root outer n suspended vm f own below)
    (hs : Standing history outer vm.frames.active) (hx : Vm.execute x op vm = .raised e after)
    (hf : Vm.Failed f (own ++ below) vm op after) :
    e.trace = #[] ∧ Standing history outer after.frames.active := by
  have hl := h.outer_le
  cases hf with
  | works hret hw =>
    obtain ⟨htrace, hpos⟩ := (Vm.execute_stands hret).raised hx
    exact ⟨htrace, hs.inPlace hl (Vm.inPlace_of_works hw) hpos⟩
  | returned hr =>
    refine ⟨Vm.opReturn_unrecorded x vm after e hx, ?_⟩
    obtain ⟨frames, hframes, hshift⟩ := hr
    rw [(Vm.onlyRegisters_of_shifts hshift).frames]
    have hcallers : vm.frames.callers = own ++ below := (List.cons.inj h.active).2
    show Standing history outer frames.active
    rw [hframes, ← hcallers]
    exact (hs.tail (by simpa using hl)).2

/-- An error at its origin: it has no trace, all frames stand, and the run can be ended. -/
structure Origin (history : List Run) (root : Vm.CallSite) (outer : List Frame) (n : Nat)
    (suspended : List Suspended) (e : LuaError) (vm : Vm) : Prop where
  trace : e.trace = #[]
  standing : Standing history outer vm.frames.active
  unwindable : ∃ own below, Unwindable root outer n suspended vm own below

/-- The instruction that waits for a nested call goes on in its frame. -/
theorem continueWith_stays {s : Suspended} {next : Vm.Next}
    (h : Left root outer n (s :: suspended) vm) (hs : Standing history outer vm.frames.active)
    (hx : continueWith s vm = .returned next after) : Stays history outer after (.next next) := by
  obtain ⟨f, own, below, hf, hl, hk⟩ := h.executing
  have hd := (continueWith_post hf hl hk).of_returned hx
  have hstanding :
      Standing history outer ({ vm with hostCalls := vm.hostCalls - 1 } : Vm).frames.active := hs
  have hpos : next.Asks → after.position = vm.position := (continueWith_stands s).returned hx
  exact stays_inPlace hstanding hf.outer_le hd.finished.inPlace hpos

theorem continueWith_origin {s : Suspended} (h : Left root outer n (s :: suspended) vm)
    (hs : Standing history outer vm.frames.active) (hx : continueWith s vm = .raised e after) :
    Origin history root outer n suspended e after := by
  obtain ⟨f, own, below, hf, hl, hk⟩ := h.executing
  have hw := (continueWith_post hf hl hk).of_raised hx
  obtain ⟨htrace, hpos⟩ := (continueWith_stands s).raised hx
  have hstanding :
      Standing history outer ({ vm with hostCalls := vm.hostCalls - 1 } : Vm).frames.active := hs
  obtain ⟨-, g, -, hafter⟩ := hf.unwindable.works hw
  exact ⟨htrace, hstanding.inPlace hf.outer_le (Vm.inPlace_of_works hw) hpos, _, _, hafter⟩

theorem dispatch_stays {action : Vm.Action}
    (h : Executing r.root outer n r.suspended r.vm f own below)
    (hs : Standing past outer r.vm.frames.callers)
    (hx : Vm.dispatch r.vm = .returned action after) :
    Stays (r :: past) outer after action ∧
      (action = .leave → Left r.root outer n r.suspended after) := by
  obtain ⟨x, g, mid, op, hbegun, hop, hexecuted⟩ := h.dispatch_post.of_returned hx
  have hmid := (h.begun hbegun).2
  rw [Vm.dispatch_of_fetched hbegun.fetched hop] at hx
  refine ⟨executed_stays hmid (h.standing hs hbegun) hx hexecuted, ?_⟩
  rintro rfl
  exact executed_left hmid hexecuted

theorem dispatch_origin (h : Executing r.root outer n r.suspended r.vm f own below)
    (hs : Standing past outer r.vm.frames.callers) (hx : Vm.dispatch r.vm = .raised e after) :
    Origin (r :: past) r.root outer n r.suspended e after := by
  obtain ⟨x, g, mid, op, hbegun, hop, hfailed⟩ := h.dispatch_post.of_raised hx
  have hmid := (h.begun hbegun).2
  rw [Vm.dispatch_of_fetched hbegun.fetched hop] at hx
  obtain ⟨htrace, hstanding⟩ := failed_standing hmid (h.standing hs hbegun) hx hfailed
  obtain ⟨-, own', hafter⟩ := hmid.failed hfailed
  exact ⟨htrace, hstanding, own', below, hafter⟩

theorem pending_stays {next : Vm.Next} (h : Executing r.root outer n r.suspended r.vm f own below)
    (hs : Standing past outer r.vm.frames.callers) (hp : r.pending = .follows next vm suspended) :
    Stays (r :: past) outer vm (.next next) := by
  rcases pending_eq_follows hp with ⟨hx, -⟩ | ⟨s, mid, hx, hr, hc⟩
  · exact (dispatch_stays h hs hx).1
  · obtain ⟨hstays, hleft⟩ := dispatch_stays h hs hx
    exact continueWith_stays (hr ▸ hleft rfl) hstays hc

/-- A nested call begins above frames that stand. -/
theorem nest_stands {r' : Run} {k : Vm.Resume} {begin : Exec Vm.CallSite} {level base : Nat}
    (hs : Standing history outer vm.frames.active)
    (hbegin :
      begin.Post vm (fun site after => base ≤ site.func ∧ ∃ g, Began level outer vm site g after)
      (Refused level outer vm)) (hn : nest root suspended k begin vm = .running r') :
    Standing history outer r'.vm.frames.callers := by
  obtain ⟨-, site, hx⟩ := nest_eq_running hn
  obtain ⟨-, g, hg⟩ := hbegin.of_returned hx
  rwa [show r'.vm.frames.callers = vm.frames.active from (List.cons.inj hg.active).2]

/-- Between two steps all callers of the current frame are just past the instruction that they
execute. -/
theorem Leads.standing {r' : Run} (h : Executing r.root outer n r.suspended r.vm f own below)
    (hs : Standing past outer r.vm.frames.callers) (hl : Leads r r') :
    Standing (r :: past) outer r'.vm.frames.callers := by
  have hpending := pending_sane h
  rw [Leads, step_eq] at hl
  cases hp : r.pending with
  | ended o => simp [hp] at hl
  | follows next vm suspended =>
    obtain ⟨hcallers, hactive⟩ := pending_stays h hs hp
    rw [hp] at hpending hl
    obtain ⟨-, f', own', below', hvm, hn⟩ := hpending
    cases next with
    | proceed =>
      cases hl
      exact hcallers
    | invoke handler args k =>
      exact nest_stands (hactive (Vm.Next.asks_invoke handler args k))
        (beginInvoke_post handler args hvm) hl
    | callAt func results k =>
      exact nest_stands (hactive (Vm.Next.asks_callAt func results k))
        (beginCallAt_post results hvm hn.1) hl

end Steps

/-! ## Raising an error -/

section Raising
variable {r : Run} {root : Vm.CallSite} {outer own below : List Frame} {n : Nat}
  {suspended : List Suspended}
  {f : Frame} {vm after : Vm} {past history : List Run} {e e' : LuaError}

/-- The step of a run raises an error in a state: the instruction itself does, or the instruction
that waits for the call that has just returned, or a call that comes next and cannot begin. -/
inductive Raises (r : Run) : LuaError → Vm → Prop
  | executed {e : LuaError} {vm : Vm} (h : Vm.dispatch r.vm = .raised e vm) : Raises r e vm
  | continued {s : Suspended} {rest : List Suspended} {vm after : Vm} {e : LuaError}
      (hd : Vm.dispatch r.vm = .returned .leave vm) (hs : r.suspended = s :: rest)
      (h : continueWith s vm = .raised e after) : Raises r e after
  | invoked {handler : Value} {args : List Value} {k : Vm.Resume} {vm after : Vm}
      {rest : List Suspended} {e : LuaError}
      (hp : r.pending = .follows (.invoke handler args k) vm rest)
      (h : beginInvoke handler args vm = .raised e after) :
      Raises r e after
  | called {func : Nat} {results : ResultCount} {k : Vm.Resume} {vm after : Vm}
      {rest : List Suspended} {e : LuaError}
      (hp : r.pending = .follows (.callAt func results k) vm rest)
      (h : Vm.beginCall func results vm = .raised e after) :
      Raises r e after

/-- A step that ends a run with an error has raised one. -/
theorem raises_of_step (h : r.step = .ended (.raised e' after)) : ∃ e vm, r.Raises e vm := by
  rw [step_eq] at h
  cases hp : r.pending with
  | follows next vm suspended =>
    simp only [hp] at h
    cases next with
    | proceed => cases h
    | invoke handler args k =>
      simp only [follow, nest] at h
      split at h
      · cases h
      · next e mid hx => exact ⟨e, mid, .invoked hp hx⟩
      · cases h
    | callAt func results k =>
      simp only [follow, nest] at h
      split at h
      · cases h
      · next e mid hx => exact ⟨e, mid, .called hp hx⟩
      · cases h
  | ended o =>
    simp only [hp, Progress.ended.injEq] at h
    subst h
    unfold pending at hp
    cases hx : Vm.dispatch r.vm with
    | raised e vm => exact ⟨e, vm, .executed hx⟩
    | aborted why => simp [hx] at hp
    | returned action vm =>
      simp only [hx] at hp
      cases action with
      | next next => cases hp
      | leave =>
        cases hr : r.suspended with
        | nil => simp [hr, pendingAfter] at hp
        | cons s rest =>
          cases hc : continueWith s vm with
          | raised e mid => exact ⟨e, mid, .continued hx hr hc⟩
          | returned next mid => simp [hr, pendingAfter, hc] at hp
          | aborted why => simp [hr, pendingAfter, hc] at hp

/-- A call that cannot begin has no frames of its own to record. -/
theorem beginCall_unrecorded (func : Nat) (results : ResultCount) :
    (Vm.beginCall func results).Unrecorded := by
  intro vm after e hx
  unfold Vm.beginCall at hx
  split at hx
  · cases hx
    rfl
  · have hactive : vm.frames.active = [] ++ vm.frames.active := rfl
    have henter := enterFresh_post results hactive (Nat.le_refl func)
    dsimp only at hx
    split at hx
    · cases hx
    · next e₀ mid henters =>
      have hframes := (Vm.onlyRegisters_of_shifts (henter.of_raised henters)).frames
      have hmid : mid.frames.active = [] ++ vm.frames.active := by rw [hframes]; rfl
      rw [Vm.failCall_eq hmid vm.frames.length_active (by simp)] at hx
      obtain ⟨rfl, -⟩ := Outcome.raised.inj hx
      rcases Exec.bind_eq_raised_iff.mp henters with hprecall | ⟨_, _, _, hmark⟩
      · exact ((Vm.precall_stands func results false).raised hprecall).1
      · cases hmark
    · cases hx

theorem beginInvoke_unrecorded (handler : Value) (args : List Value) :
    (beginInvoke handler args).Unrecorded :=
  (Exec.Quiet.look _).unrecorded.bind fun func =>
    (Vm.pushAll_stands _).unrecorded.bind fun _ => beginCall_unrecorded func .all

/-- The error `e'` is `e` with the trace of all frames over `outer`. -/
def Traced (history : List Run) (outer : List Frame) (e : LuaError) (vm : Vm) (e' : LuaError) :
    Prop :=
  ∃ mine, vm.frames.active = mine ++ outer ∧ Standing history outer (mine ++ outer) ∧
    e'.cause = e.cause ∧
    e'.trace.toList = (mine.map (Frame.call vm.heap)).flatMap ActiveCall.entries

theorem Standing.closure {mine : List Frame} (h : Standing history outer (mine ++ outer)) :
    ∀ f ∈ mine, f.closure.isSome := by
  intro f hf
  obtain ⟨i, hi⟩ := List.mem_iff_getElem?.mp hf
  have hpos := List.length_pos_of_mem hf
  exact (h.executes (d := (mine ++ outer).length - 1)
    (by rw [List.length_append]; omega) hi).closure

theorem Traced.of_recording {mine : List Frame} (hv : vm.frames.active = mine ++ outer)
    (hs : Standing history outer (mine ++ outer)) (ht : e.trace = #[])
    (he : e' = e.recording (mine.map (Frame.call vm.heap))) : Traced history outer e vm e' := by
  subst he
  exact ⟨mine, hv, hs, rfl, by simp [LuaError.recording, ht]⟩

theorem Origin.traced (h : Origin history root outer n suspended e vm)
    (hx : fail e root suspended vm = .raised e' after) : Traced history outer e vm e' := by
  obtain ⟨own, below, hu⟩ := h.unwindable
  obtain ⟨mine, rfl⟩ := hu.waiting.suffix
  have hmine : own ++ (mine ++ outer) = own ++ mine ++ outer := (List.append_assoc _ _ _).symm
  have hactive : vm.frames.active = own ++ mine ++ outer := hu.active.trans hmine
  have hs : Standing history outer (own ++ mine ++ outer) := hactive ▸ h.standing
  exact .of_recording hactive hs h.trace (fail_records hu hmine hs.closure hx)

/-- A nested call that cannot begin leaves the frames as they are. -/
theorem Refused.traced {k : Vm.Resume} {mid : Vm} (hr : Refused root.func outer vm mid)
    (h : Executing root outer n suspended vm f own below)
    (hs : Standing history outer vm.frames.active) (ht : e.trace = #[])
    (hx : failBefore k e root suspended mid = .raised e' after) :
    Traced history outer e mid e' := by
  obtain ⟨mine, -, hactive⟩ := h.mine
  rw [hactive] at hs
  have hmid : mid.frames.active = f :: mine ++ outer := hr.active.trans hactive
  have hframes : f :: own ++ below = f :: mine ++ outer := h.active.symm.trans hactive
  exact .of_recording hmid hs ht (failBefore_records (h.refused hr) hframes hs.closure hx)

/-- The trace of an error tells all frames that are active where it is raised. -/
theorem Raises.traced (h : Executing r.root outer n r.suspended r.vm f own below)
    (hs : Standing past outer r.vm.frames.callers) (hr : r.Raises e vm)
    (hstep : r.step = .ended (.raised e' after)) : Traced (r :: past) outer e vm e' := by
  cases hr with
  | executed hx =>
    simp only [step, hx, Progress.ended.injEq] at hstep
    exact (dispatch_origin h hs hx).traced hstep
  | @continued s rest mid _ _ hd hrest hx =>
    obtain ⟨hstays, hleft⟩ := dispatch_stays h hs hd
    have hleft := hleft rfl
    simp only [step, hd, hrest, leave, hx, Progress.ended.injEq] at hstep
    rw [hrest] at hleft
    exact (continueWith_origin hleft hstays hx).traced hstep
  | @invoked handler args k mid _ rest _ hp hx =>
    have hpending := pending_sane h
    rw [hp] at hpending
    obtain ⟨-, f', own', below', hmid, hn⟩ := hpending
    simp only [step_eq, hp, follow, nest, hx, Progress.ended.injEq] at hstep
    have hrefused := (beginInvoke_post handler args hmid).of_raised hx
    have hstands := (pending_stays h hs hp).2 (Vm.Next.asks_invoke handler args k)
    exact hrefused.traced hmid hstands (beginInvoke_unrecorded handler args _ _ _ hx) hstep
  | @called func results k mid _ rest _ hp hx =>
    have hpending := pending_sane h
    rw [hp] at hpending
    obtain ⟨-, f', own', below', hmid, hn⟩ := hpending
    simp only [step_eq, hp, follow, nest, hx, Progress.ended.injEq] at hstep
    have hrefused := (beginCallAt_post results hmid hn.1).of_raised hx
    have hstands := (pending_stays h hs hp).2 (Vm.Next.asks_callAt func results k)
    exact hrefused.traced hmid hstands (beginCall_unrecorded func results _ _ _ hx) hstep

end Raising

/-! ## Whole runs -/

/-- A run that fails has come to a step that raises an error, and its callers stand there. -/
theorem steps_raised {fuel n : Nat} {start r : Run} {past : List Run} {outer own below : List Frame}
    {f : Frame} {e : LuaError} {after : Vm} (ht : Trail start past r)
    (h : Executing r.root outer n r.suspended r.vm f own below)
    (hs : Standing past outer r.vm.frames.callers) (hx : steps fuel r = .raised e after) :
    ∃ past' r' raw failing, Trail start past' r' ∧ r'.Raises raw failing ∧
      Traced (r' :: past') outer raw failing e := by
  induction fuel generalizing r past f own below with
  | zero => cases hx
  | succ fuel ih =>
    have hstep := step_sane h
    unfold steps at hx
    cases hp : r.step with
    | ended o =>
      simp only [hp] at hx
      rw [hx] at hp
      obtain ⟨raw, failing, hraises⟩ := raises_of_step hp
      exact ⟨past, r, raw, failing, ht, hraises, hraises.traced h hs hp⟩
    | running r' =>
      rw [hp] at hstep
      simp only [hp] at hx
      obtain ⟨hroot, -, f', own', below', h'⟩ := hstep
      rw [← hroot] at h'
      exact ih (ht.step hp) h' (Leads.standing h hs hp) hx

end Run

namespace Vm
variable {limits : Config} {vm after : Vm} {fuel func : Nat} {results : ResultCount} {e : LuaError}

/-- An active function of a frame at a depth, at the instruction that the frame executes: the one
that was executed last at that depth. The position of the frame is just past it. -/
structure Tells (history : List Run) (heap : Heap) (depth : Nat) (f : Frame) (c : ActiveCall) :
    Prop where
  proto : ∃ r, f.closure = some r ∧ c.proto = (heap.closureAt r).proto
  tail : c.tail = f.status.tail
  instruction : ∃ r, Run.lastAt history depth = some r ∧ f.SamePlace r.vm.frames.current ∧
    c.pc = r.vm.frames.current.pc
  position : f.pc = c.pc + 1

/-- The trace tells every active function, innermost first, and nothing else. -/
def FullTrace (history : List Run) (vm : Vm) (trace : Array TraceEntry) : Prop :=
  ∃ calls : List ActiveCall, calls.length = vm.activeFrames.length ∧
    (∀ i f c, vm.activeFrames[i]? = some f → calls[i]? = some c →
      Tells history vm.heap (vm.callDepth - i) f c) ∧
    trace.toList = calls.flatMap ActiveCall.entries

theorem tells_call {history : List Run} {heap : Heap} {depth : Nat} {f : Frame}
    (h : Run.Executes history depth f) : Tells history heap depth f (f.call heap) := by
  obtain ⟨hclosure, r, hr, hplace, hpc⟩ := h
  obtain ⟨ref, href⟩ := Option.isSome_iff_exists.mp hclosure
  have hcall : (f.call heap).pc = r.vm.frames.current.pc := by rw [Frame.call, hpc]; rfl
  exact ⟨⟨ref, href, by rw [Frame.call, href]; rfl⟩, rfl,
    ⟨r, hr, hplace, hcall⟩, by rw [hcall, hpc]⟩

/-- The active functions are those over the frame of the host. -/
theorem activeFrames_eq {mine : List Frame} {host : Frame} (h : vm.frames.active = mine ++ [host]) :
    vm.activeFrames = mine := by
  have hreverse := vm.frames.reverse_active
  rw [h, List.reverse_append, List.reverse_singleton, List.singleton_append] at hreverse
  rw [activeFrames, Array.toList_extract, List.extract_eq_take_drop, Nat.add_sub_cancel,
    List.take_drop, Nat.add_comm, ← hreverse, List.drop_one, List.tail_cons, List.reverse_reverse]

theorem AtRest.active (h : AtRest limits vm) : ∃ host, vm.frames.active = [host] := by
  have hlength := vm.frames.length_callers
  rw [h.depth, List.length_eq_zero_iff] at hlength
  exact ⟨vm.frames.current, by rw [CallStack.active, hlength]⟩

/-- The trace of an error has an entry for every function that was active when it was raised,
innermost first, with the instruction that the function was executing, and behind it one for tail
calls if the function was called by one. -/
theorem call_traced (hv : Hosted limits vm) (h : call fuel func results vm = .raised e after) :
    (beginCall func results vm = .raised e after ∧ vm.activeFrames = [] ∧ after.activeFrames = [] ∧
      e.trace = #[]) ∨
    ∃ root start past r raw failing,
      beginCall func results vm = .returned root start ∧ Run.Trail { vm := start, root } past r ∧
      r.Raises raw failing ∧ e.cause = raw.cause ∧ FullTrace (r :: past) failing e.trace := by
  have hrest := hv.atRest
  obtain ⟨host, hhost⟩ := hrest.active
  have hactive : vm.frames.active = [] ++ vm.frames.active := rfl
  unfold call at h
  cases hx : beginCall func results vm with
  | aborted why => simp [hx] at h
  | raised e' mid =>
    simp only [hx] at h
    obtain ⟨rfl, rfl⟩ := Outcome.raised.inj h
    obtain ⟨hrefused, -⟩ :=
      (Run.beginCall_post results hrest.sound hactive (Nat.le_refl func)).of_raised hx
    refine .inl ⟨rfl, activeFrames_eq hhost, activeFrames_eq (hrefused.active.trans hhost), ?_⟩
    exact Run.beginCall_unrecorded func results vm mid e' hx
  | returned root start =>
    simp only [hx] at h
    obtain ⟨-, -, -, g, hg⟩ := executing_of_began hrest.sound hx
    have hcallers : start.frames.callers = vm.frames.active := (List.cons.inj hg.active).2
    have hstanding : Run.Standing [] vm.frames.active start.frames.callers := hcallers ▸ .outer
    obtain ⟨past, r, raw, failing, htrail, hraises, mine, hmine, hstands, hcause, htrace⟩ :=
      Run.steps_raised .start hg hstanding h
    rw [hhost] at hmine hstands
    have hframes : failing.activeFrames = mine := activeFrames_eq hmine
    have hdepth : (mine ++ [host]).length = failing.callDepth + 1 := by
      rw [← hmine, CallStack.length_active]; rfl
    refine .inr ⟨root, start, past, r, raw, failing, rfl, htrail, hraises, hcause,
      mine.map (Frame.call failing.heap), by rw [hframes, List.length_map], ?_, htrace⟩
    intro i f c hf hc
    rw [hframes] at hf
    rw [List.getElem?_map, hf, Option.map_some, Option.some.injEq] at hc
    subst hc
    exact tells_call (hstands.executes hdepth hf)

/-- The iterator of a loop is called by an instruction. It goes on in itself by a tail call, and
then cannot call nil. -/
theorem call_traced_goOn :
    ∃ vm e after root start past r raw failing, Hosted { initialStackSize := 12 } vm ∧
      call 3 0 .all vm = .raised e after ∧ e.trace.size = 3 ∧
      beginCall 0 .all vm = .returned root start ∧
      Run.Trail { vm := start, root } past r ∧ r.Raises raw failing ∧ e.cause = raw.cause ∧
      FullTrace (r :: past) failing e.trace := by
  have hcheck : ((firstStep iterateHost [.closure ⟨0⟩, .closure ⟨1⟩, .closure ⟨1⟩]).any fun p =>
      (call 3 0 .all p.1).error?.any fun e => e.trace.size == 3) = true := by decide +kernel
  obtain ⟨⟨vm, step⟩, hfirst, hfails⟩ := (Option.any_eq_true _ _).mp hcheck
  obtain ⟨hpush, -⟩ := firstStep_eq_some hfirst
  have hhosted : Hosted { initialStackSize := 12 } vm := (Hosted.new _ _ _ rfl).pushAll hpush
  obtain ⟨e, he, hsize⟩ := (Option.any_eq_true _ _).mp hfails
  have hsize : e.trace.size = 3 := beq_iff_eq.mp hsize
  obtain ⟨after, hcall⟩ := Outcome.error?_eq_some he
  rcases call_traced hhosted hcall with ⟨-, -, -, hempty⟩ | ⟨root, start, past, r, raw,
    failing, htraced⟩
  · rw [hempty] at hsize
    cases hsize
  · exact ⟨vm, e, after, root, start, past, r, raw, failing, hhosted, hcall, hsize, htraced⟩

end Vm

end LuaMachine
