import LuaMachine.Proofs.Admission

/-!
# Resource limits

Before every instruction the call depth, the number of nested calls from the host and the size of
the stack are within the limits of the configuration, and every active function has all of its
registers. The host may create a machine in any way, give it any bytecode and use its operations in
any order.
-/
namespace LuaMachine

open Relation (ReflTransGen)
open Exec (Post)

/-! ## Frames with room -/

/-- The registers of a function lie above it, are as many as its prototype asks for, and are all
allocated. -/
def Frame.Fits (vm : Vm) (f : Frame) : Prop :=
  ∀ r, f.closure = some r →
    f.func < f.base ∧ f.top = f.base + (vm.heap.closureAt r).proto.maxStackSize ∧
      f.top ≤ vm.stack.size

/-- The frame fits and its closure exists, which then stays what it is. -/
structure Frame.Stands (vm : Vm) (f : Frame) : Prop where
  fits : f.Fits vm
  exists_closure : ∀ r, f.closure = some r → ∃ c, vm.heap.closures[r.index]? = some c

namespace Frame
variable {vm after : Vm} {f g : Frame}

theorem Fits.congr (h : f.Fits vm) (hg : g.SamePlace f) : g.Fits vm := by
  intro r hr
  rw [hg.func, hg.base, hg.top]
  exact h r (hg.closure ▸ hr)

theorem Stands.congr (h : f.Stands vm) (hg : g.SamePlace f) : g.Stands vm :=
  ⟨h.fits.congr hg, fun r hr => h.exists_closure r (hg.closure ▸ hr)⟩

theorem Stands.retained (h : f.Stands vm) (hr : vm.Retains after) : f.Stands after := by
  have hclosures : ∀ r, f.closure = some r → ∃ c, vm.heap.closures[r.index]? = some c ∧
      after.heap.closures[r.index]? = some c := by
    intro r hf
    obtain ⟨c, hc⟩ := h.exists_closure r hf
    exact ⟨c, hc, hr.heap _ _ hc⟩
  refine ⟨fun r hf => ?_, fun r hf => ?_⟩
  · obtain ⟨habove, htop, hroom⟩ := h.fits r hf
    obtain ⟨c, hc, hc'⟩ := hclosures r hf
    have hsame : after.heap.closureAt r = vm.heap.closureAt r := by
      simp only [Heap.closureAt, hc, hc']
    exact ⟨habove, hsame ▸ htop, Nat.le_trans hroom hr.size⟩
  · obtain ⟨c, -, hc'⟩ := hclosures r hf
    exact ⟨c, hc'⟩

theorem Stands.of_host (h : f.closure = none) : f.Stands vm :=
  ⟨fun r hr => by simp [h] at hr, fun r hr => by simp [h] at hr⟩

end Frame

namespace Vm
variable {limits : Config} {vm mid after : Vm} {f g : Frame} {below : List Frame} {func : Nat}
  {results : ResultCount}

/-! ## States within the limits -/

/-- The state is within the limits of a configuration. -/
structure Limited (limits : Config) (vm : Vm) : Prop where
  config : vm.config = limits
  stack : vm.stack.limit = limits.maxStackSize
  depth : vm.frames.depth ≤ limits.maxCallDepth
  hostCalls : vm.hostCalls ≤ limits.maxHostCalls

theorem Limited.retained (h : Limited limits vm) (hr : Retains vm after)
    (hd : after.frames.depth ≤ limits.maxCallDepth) (hc : after.hostCalls ≤ limits.maxHostCalls) :
    Limited limits after where
  config := hr.config.trans h.config
  stack := (RegisterStack.limit_of_changes hr.stack).trans h.stack
  depth := hd
  hostCalls := hc

/-- All active frames stand. -/
structure Firm (limits : Config) (vm : Vm) : Prop extends Limited limits vm where
  active : ∀ f ∈ vm.frames.active, f.Stands vm

/-- The state before a step: the current frame fits, and those below it stand. -/
structure Bounded (limits : Config) (vm : Vm) : Prop extends Limited limits vm where
  current : vm.frames.current.Fits vm
  callers : ∀ f ∈ vm.frames.callers, f.Stands vm

theorem Firm.bounded (h : Firm limits vm) : Bounded limits vm where
  toLimited := h.toLimited
  current := (h.active _ List.mem_cons_self).fits
  callers := fun f hf => h.active f (List.mem_cons_of_mem _ hf)

theorem Bounded.fits (h : Bounded limits vm) : ∀ f ∈ vm.frames.active, f.Fits vm := by
  intro f hf
  rcases List.mem_cons.mp hf with rfl | hf
  · exact h.current
  · exact (h.callers f hf).fits

/-- The frames below the current one stand for good. -/
theorem Firm.callers (h : Firm limits vm) (hv : vm.frames.active = f :: below)
    (hr : Retains vm after) : ∀ g ∈ below, g.Stands after :=
  fun g hg => (h.active g (hv ▸ List.mem_cons_of_mem _ hg)).retained hr

/-- Whatever stays in the current frame leaves all frames standing. -/
theorem Firm.inPlace (h : Firm limits vm) (hr : Retains vm after)
    (hv : vm.frames.active = f :: below) (ha : after.frames.active = g :: below)
    (hg : g.SamePlace f) (hc : after.hostCalls = vm.hostCalls) : Firm limits after where
  toLimited := by
    refine h.toLimited.retained hr ?_ (hc ▸ h.hostCalls)
    rw [CallStack.depth_of_active ha, ← CallStack.depth_of_active hv]
    exact h.depth
  active := by
    intro f' hf'
    rw [ha] at hf'
    rcases List.mem_cons.mp hf' with rfl | hf'
    · exact ((h.active f (hv ▸ List.mem_cons_self)).retained hr).congr hg
    · exact h.callers hv hr f' hf'

theorem Firm.counted {calls : Nat} (h : Firm limits vm) (hc : calls ≤ limits.maxHostCalls) :
    Firm limits { vm with hostCalls := calls } where
  toLimited := ⟨h.config, h.stack, h.depth, hc⟩
  active := fun f hf => (h.active f hf).retained ⟨rfl, fun _ _ h => h, .refl⟩

/-- A frame can only be left for the frames below it. -/
theorem Firm.left (h : Firm limits vm) (hr : Retains vm after) (hv : vm.frames.active = f :: below)
    (ha : after.frames.active = below) (hc : after.hostCalls ≤ vm.hostCalls) :
    Firm limits after where
  toLimited := by
    refine h.toLimited.retained hr ?_ (Nat.le_trans hc h.hostCalls)
    have hbelow := h.depth
    rw [CallStack.depth_of_active hv, ← ha, CallStack.length_active] at hbelow
    omega
  active := ha ▸ h.callers hv hr

/-! ## Calls -/

theorem Entered.retains (h : Entered func results g vm after) : Retains vm after := by
  obtain ⟨-, mid, hs, rfl⟩ := h
  have hmid := retains_of_shifts hs
  exact ⟨hmid.config, hmid.heap, hmid.stack⟩

theorem Entered.fits (h : Entered func results g vm after) (hroom : g.top ≤ after.stack.size) :
    g.Fits after := by
  obtain ⟨r, hr, htop⟩ := h.1.closure
  intro r' hr'
  obtain rfl : r = r' := Option.some.inj (hr.symm.trans hr')
  exact ⟨h.1.func ▸ h.1.above, h.heap ▸ htop, hroom⟩

/-- A call that is admitted stays within the limits. -/
theorem Firm.entered (h : Firm limits vm) (he : Entered func results g vm after)
    (ha : Admitted false after) : Bounded limits after := by
  obtain ⟨hcurrent, hcallers⟩ := List.cons.inj he.active
  have hr := he.retains
  refine ⟨h.toLimited.retained hr ?_ (he.hostCalls ▸ h.hostCalls), ?_, ?_⟩
  · rw [← h.config, ← hr.config]
    exact ha.depth rfl
  · rw [hcurrent]
    exact he.fits (hcurrent ▸ ha.room)
  · rw [hcallers]
    exact fun f hf => (h.active f hf).retained hr

theorem Spliced.retains (h : Spliced g f below vm after) : Retains vm after := by
  obtain ⟨mid, frames, hs, -, -, rfl⟩ := h
  have hmid := retains_of_shifts hs
  exact ⟨hmid.config, hmid.heap, hmid.stack⟩

/-- A tail call finds its registers where those of its caller began, so the room that it was entered
with is enough. -/
theorem Firm.spliced {entered : Vm} (h : Firm limits vm) (hv : vm.frames.active = f :: below)
    (hr : Retains vm mid) (he : Entered func results g mid entered) (hl : f.func ≤ func)
    (hc : mid.hostCalls = vm.hostCalls) (ha : Admitted true entered)
    (hs : Spliced g f below entered after) : Bounded limits after := by
  have hretains : Retains vm after := (hr.trans he.retains).trans hs.retains
  have hcurrent : entered.frames.current = g := (List.cons.inj he.active).1
  have hroom : g.top ≤ entered.stack.size := hcurrent ▸ ha.room
  have hsize := hs.retains.size
  have hfits := he.fits hroom
  have hbase := he.1.base_le_top
  have hfunc := he.1.func
  obtain ⟨mid', frames, hshift, -, hactive, rfl⟩ := hs
  have hsame := onlyRegisters_of_shifts hshift
  obtain ⟨hreplaced, hcallers⟩ := List.cons.inj hactive
  refine ⟨h.toLimited.retained hretains ?_ ?_, ?_, ?_⟩
  · show frames.depth ≤ _
    rw [CallStack.depth_of_active hactive, ← CallStack.depth_of_active hv]
    exact h.depth
  · show mid'.hostCalls ≤ _
    rw [hsame.hostCalls, show (entered.closeFrom f.base).hostCalls = entered.hostCalls from rfl,
      he.hostCalls, hc]
    exact h.hostCalls
  · show frames.current.Fits _
    rw [hreplaced]
    intro r hr'
    obtain ⟨habove, htop, -⟩ := hfits r hr'
    refine ⟨?_, ?_, ?_⟩
    · simp only [replacement]
      omega
    · show f.func + (g.top - g.func) = f.func + (g.base - g.func) +
        (mid'.heap.closureAt r).proto.maxStackSize
      rw [hsame.heap]
      show _ = _ + (entered.heap.closureAt r).proto.maxStackSize
      omega
    · refine Nat.le_trans ?_ hsize
      simp only [replacement]
      omega
  · show ∀ f ∈ frames.callers, _
    rw [hcallers]
    exact h.callers hv hretains

/-- Code is only found in a closure that exists. -/
theorem exists_closure_of_beginStep {x : Activation} (h : beginStep vm = .returned x mid) :
    ∀ r, vm.frames.current.closure = some r → ∃ c, vm.heap.closures[r.index]? = some c := by
  intro r hr
  obtain ⟨r', instr, hr', hcode, -⟩ := beginStep_eq_returned h
  obtain rfl : r = r' := Option.some.inj (hr.symm.trans hr')
  cases hc : vm.heap.closures[r.index]? with
  | some c => exact ⟨c, rfl⟩
  | none =>
    have hempty : vm.heap.closureAt r = default := by simp [Heap.closureAt, hc]
    have hnone : (default : Closure).proto.code = #[] := rfl
    simp [hempty, hnone] at hcode

/-- The frame that has fetched an instruction stands. -/
theorem Bounded.begun {x : Activation} (h : Bounded limits vm) (hv : vm.frames.active = f :: below)
    (hb : Begun f below vm x g mid) : Firm limits mid := by
  have hcurrent : vm.frames.current = f := (List.cons.inj hv).1
  have hcallers : vm.frames.callers = below := (List.cons.inj hv).2
  have hfirm : Firm limits vm := by
    refine ⟨h.toLimited, fun f' hf' => ?_⟩
    rcases List.mem_cons.mp hf' with rfl | hf'
    · exact ⟨h.current, exists_closure_of_beginStep hb.fetched⟩
    · exact h.callers f' hf'
  exact hfirm.inPlace (retains_of_works hb.works) hv hb.active hb.place
    (inPlace_of_works hb.works).hostCalls

end Vm

/-! ## Runs within the limits -/

namespace Run
variable {root : Vm.CallSite} {outer own below : List Frame} {n : Nat}
  {suspended : List Suspended} {f : Frame} {limits : Config} {vm mid after : Vm}

/-- What comes next begins within the limits. A call that comes next finds only standing frames. -/
def Pending.Bounded (limits : Config) : Pending → Prop
  | .follows next vm _ => vm.Bounded limits ∧ (next ≠ .proceed → vm.Firm limits)
  | .ended _ => True

theorem Pending.bounded_of_firm {next : Vm.Next} (h : vm.Firm limits) :
    (Pending.follows next vm suspended).Bounded limits :=
  ⟨h.bounded, fun _ => h⟩

theorem Pending.bounded_of_proceed (h : vm.Bounded limits) :
    (Pending.follows .proceed vm suspended).Bounded limits :=
  ⟨h, fun hne => absurd rfl hne⟩

/-- The frame that waited for a nested call goes on and all frames stand. -/
theorem leave_bounded (hleft : Left root outer n suspended vm) (hfirm : vm.Firm limits) :
    (pendingAfter root vm suspended .leave).Bounded limits := by
  cases suspended with
  | nil => trivial
  | cons s rest =>
    obtain ⟨f, own, below', h, hl, hk⟩ := hleft.executing
    have hcounted := hfirm.counted (Nat.le_trans (Nat.sub_le vm.hostCalls 1) hfirm.hostCalls)
    simp only [pendingAfter]
    cases hx : continueWith s vm with
    | aborted why => trivial
    | raised e after => trivial
    | returned next after =>
      obtain ⟨hevents, g, hg, hafter⟩ :=
        h.finished ((continueWith_post h hl hk).of_returned hx).finished
      refine Pending.bounded_of_firm ?_
      exact hcounted.inPlace (Vm.retains_of_events hevents) h.active hafter.active hg
        (hafter.hostCalls.trans h.hostCalls.symm)

/-- An instruction keeps within the limits. -/
theorem executed_bounded {x : Vm.Activation} {op : Opcode} {action : Vm.Action}
    (h : Executing root outer n suspended vm f own below) (hfirm : vm.Firm limits)
    (he : Vm.Executed x f (own ++ below) vm op action after)
    (ha : op = .call → Vm.Admitted false after) :
    (pendingAfter root after suspended action).Bounded limits := by
  cases he with
  | finished _ _ hd =>
    obtain ⟨hevents, g, hg, hafter⟩ := h.finished hd.finished
    refine Pending.bounded_of_firm ?_
    exact hfirm.inPlace (Vm.retains_of_events hevents) h.active hafter.active hg
      (hafter.hostCalls.trans h.hostCalls.symm)
  | made hm =>
    obtain ⟨mine, -, hactive⟩ := h.mine
    obtain ⟨g, hg, hafter⟩ := (Vm.inPlace_of_makes hm).active h.active
    refine Pending.bounded_of_firm ?_
    exact hfirm.inPlace (Vm.retains_of_events (Vm.events_of_makes hactive h.root_le_base hm))
      h.active hafter hg (Vm.inPlace_of_makes hm).hostCalls
  | assigned hs =>
    obtain ⟨mine, -, hactive⟩ := h.mine
    obtain ⟨g, hg, hafter⟩ := hs.inPlace.active h.active
    refine Pending.bounded_of_firm ?_
    exact hfirm.inPlace (Vm.retains_of_events (Vm.events_of_assigned hactive h.root_le_base hs))
      h.active hafter hg hs.inPlace.hostCalls
  | @called func results g mid _ hw hl he =>
    have hmid : mid.Firm limits := by
      obtain ⟨g, hg, hactive⟩ := (Vm.inPlace_of_shifts hw).active h.active
      exact hfirm.inPlace (Vm.retains_of_shifts hw) h.active hactive hg
        (Vm.onlyRegisters_of_shifts hw).hostCalls
    exact Pending.bounded_of_proceed (hmid.entered he (ha rfl))
  | @tailCalled func g mid entered _ hw hl he hs hx =>
    have hle : f.func ≤ func := Nat.le_trans (Nat.le_of_lt h.frames.running.above) hl
    have hadmitted : Vm.Admitted true entered := (Vm.enterCall_admits x .all true vm).of_returned hx
    refine Pending.bounded_of_proceed ?_
    exact hfirm.spliced h.active (Vm.retains_of_shifts hw) he hle
      (Vm.onlyRegisters_of_shifts hw).hostCalls hadmitted hs
  | returned hr =>
    obtain ⟨hevents, hafter, htop⟩ := h.returned hr
    have hleft : after.Firm limits := by
      refine hfirm.left (Vm.retains_of_events hevents) h.active hafter.active (Nat.le_of_eq ?_)
      exact hafter.hostCalls.trans h.hostCalls.symm
    cases hfresh : f.status.fresh with
    | true => exact leave_bounded (h.left hr hfresh) hleft
    | false => exact Pending.bounded_of_firm hleft

theorem pending_bounded {r : Run} (h : Executing r.root outer n r.suspended r.vm f own below)
    (hb : r.vm.Bounded limits) : r.pending.Bounded limits := by
  unfold pending
  cases hx : Vm.dispatch r.vm with
  | aborted why => trivial
  | raised e after => trivial
  | returned action after =>
    obtain ⟨x, f', mid, op, hbegun, hop, hexecuted⟩ := h.dispatch_post.of_returned hx
    have hfirm := hb.begun h.active hbegun
    refine executed_bounded (h.begun hbegun).2 hfirm hexecuted ?_
    rintro rfl
    exact Vm.admitted_of_dispatch hbegun.fetched hop hx

/-- A call from the host begins within the limits. -/
theorem beginCall_bounded {func : Nat} {results : ResultCount} {site : Vm.CallSite}
    (h : vm.Firm limits) (hx : Vm.beginCall func results vm = .returned site after) :
    after.Bounded limits := by
  obtain ⟨hlimit, g, entered, he, ha, rfl⟩ := Vm.admitted_of_beginCall hx
  have hentered := (h.counted (h.config ▸ hlimit)).entered he ha
  have hsame : entered.Retains { entered with
      frames := entered.frames.modifyCurrent fun f =>
        { f with status := { f.status with fresh := true } } } :=
    ⟨rfl, fun _ _ h => h, .refl⟩
  refine ⟨hentered.toLimited.retained hsame hentered.depth hentered.hostCalls, ?_, ?_⟩
  · rw [CallStack.current_modifyCurrent]
    exact hentered.current
  · rw [CallStack.callers_modifyCurrent]
    exact fun f hf => (hentered.callers f hf).retained hsame

theorem beginInvoke_bounded {handler : Value} {args : List Value} {site : Vm.CallSite}
    (h : vm.Firm limits) (hx : beginInvoke handler args vm = .returned site after) :
    after.Bounded limits := by
  obtain ⟨mid, hpush, hx⟩ := beginInvoke_eq_returned hx
  have hshifts := (Vm.pushAll_post (handler :: args) (Nat.le_refl _)).of_returned hpush
  have hsame := Vm.onlyRegisters_of_shifts hshifts
  have hmid : mid.Firm limits :=
    h.inPlace (Vm.retains_of_shifts hshifts) rfl (by rw [hsame.frames]; rfl) (.refl _)
      hsame.hostCalls
  exact beginCall_bounded hmid hx

/-- A step of a run keeps within the limits. -/
theorem step_bounded {r r' : Run} (h : Executing r.root outer n r.suspended r.vm f own below)
    (hb : r.vm.Bounded limits) (hstep : r.step = .running r') : r'.vm.Bounded limits := by
  have hpending := pending_bounded h hb
  rw [step_eq] at hstep
  cases hp : r.pending with
  | ended o =>
    rw [hp] at hstep
    cases hstep
  | follows next after suspended =>
    rw [hp] at hstep hpending
    obtain ⟨hafter, hcalls⟩ := hpending
    cases next with
    | proceed =>
      cases hstep
      exact hafter
    | invoke handler args k =>
      have hfirm := hcalls (by simp)
      obtain ⟨-, site, hbegin⟩ := nest_eq_running hstep
      exact beginInvoke_bounded hfirm hbegin
    | callAt func results k =>
      have hfirm := hcalls (by simp)
      obtain ⟨-, site, hbegin⟩ := nest_eq_running hstep
      exact beginCall_bounded hfirm hbegin

end Run

namespace Vm
variable {limits : Config} {vm mid after : Vm} {func : Nat} {results : ResultCount}

theorem bounded_of_during {r : Run} (hu : vm.upvalues.Sound) (h : Firm limits vm)
    (hr : During vm func results r) : Bounded limits r.vm := by
  obtain ⟨root, start, hbegin, hsteps⟩ := hr
  induction hsteps with
  | refl => exact Run.beginCall_bounded h hbegin
  | tail hsteps hstep ih =>
    obtain ⟨-, -, f, own, below, hf⟩ := executing_of_during hu ⟨root, start, hbegin, hsteps⟩
    exact Run.step_bounded hf ih hstep

/-! ## The host -/

/-- The machine is in the hands of the host: only its frame is active. -/
structure AtRest (limits : Config) (vm : Vm) : Prop where
  config : vm.config = limits
  stack : vm.stack.limit = limits.maxStackSize
  depth : vm.frames.depth = 0
  host : vm.frames.current.closure = none
  hostCalls : vm.hostCalls = 0
  sound : vm.upvalues.Sound

theorem AtRest.firm (h : AtRest limits vm) : Firm limits vm where
  toLimited := ⟨h.config, h.stack, h.depth ▸ Nat.zero_le _, h.hostCalls ▸ Nat.zero_le _⟩
  active := by
    have hlength := vm.frames.length_callers
    rw [h.depth, List.length_eq_zero_iff] at hlength
    intro f hf
    rw [CallStack.active, hlength, List.mem_singleton] at hf
    exact .of_host (hf ▸ h.host)

theorem AtRest.retained (h : AtRest limits vm) (hr : Retains vm after)
    (hd : after.frames.depth = vm.frames.depth)
    (hf : after.frames.current.closure = vm.frames.current.closure)
    (hc : after.hostCalls = vm.hostCalls) (hu : after.upvalues.Sound) : AtRest limits after where
  config := hr.config.trans h.config
  stack := (RegisterStack.limit_of_changes hr.stack).trans h.stack
  depth := hd.trans h.depth
  host := hf.trans h.host
  hostCalls := hc.trans h.hostCalls
  sound := hu

theorem AtRest.over {root : CallSite} (h : AtRest limits vm)
    (ho : Run.Over root vm.frames.active vm.hostCalls vm after) : AtRest limits after := by
  refine h.retained (retains_of_events ho.events) ?_ ?_ ho.hostCalls
    (spares_of_events ho.events h.sound).sound
  · have := congrArg List.length ho.active
    simpa using this
  · rw [(List.cons.inj ho.active).1]

/-- Every operation gives the machine back to the host. -/
theorem durable_atRest (limits : Config) : Durable (AtRest limits) where
  work := by
    intro vm after hw h
    have hplace : InPlace 0 vm after := inPlace_of_works (.single hw)
    refine h.retained hw.retains ?_ hplace.current.closure hplace.hostCalls
      (hw.spares h.sound).sound
    have := congrArg List.length hplace.callers
    simpa using this
  call := by
    intro fuel func results vm h
    refine (call_post h.sound fuel).mono (fun _ after _ ho => h.over ho) ?_
    rintro after (⟨-, rfl⟩ | ⟨-, hb⟩)
    · exact h
    · exact h.over hb.toOver
  load := by
    intro proto env vm h
    exact h.retained ⟨rfl, vm.heap.extends_newClosure _, .refl⟩ rfl rfl rfl
      (load_sound proto env vm h.sound)

/-- No operation takes back what it finds. -/
theorem durable_retains (vm : Vm) :
    Durable fun after => Retains vm after ∧ after.upvalues.Sound where
  work := fun hw h => ⟨h.1.trans hw.retains, (hw.spares h.2).sound⟩
  call := by
    intro fuel func results mid h
    refine (call_post h.2 fuel).mono ?_ ?_
    · exact fun _ after _ ho =>
        ⟨h.1.trans (retains_of_events ho.events), (spares_of_events ho.events h.2).sound⟩
    · rintro after (⟨-, rfl⟩ | ⟨-, hb⟩)
      · exact h
      · exact ⟨h.1.trans (retains_of_events hb.events), (spares_of_events hb.events h.2).sound⟩
  load := fun proto env mid h =>
    ⟨h.1.trans ⟨rfl, mid.heap.extends_newClosure _, .refl⟩, load_sound proto env mid h.2⟩

/-- What an operation of the host does before it may call a handler. -/
inductive Query where
  | index (obj key : Value)
  | newIndex (obj key value : Value)
  | arith (op : ArithOp) (lhs rhs : Value)
  | length (v : Value)
  | equal (lhs rhs : Value)
  | lessThan (lhs rhs : Value)
  | lessEqual (lhs rhs : Value)
  | concat (reversed : List Value)

def Query.run : Query → Exec Unit
  | .index obj key => discard (Vm.index obj key)
  | .newIndex obj key value => discard (Vm.newIndex obj key value)
  | .arith op lhs rhs => discard (Vm.arith op lhs rhs)
  | .length v => discard (Vm.length v)
  | .equal lhs rhs => discard (Vm.equal lhs rhs)
  | .lessThan lhs rhs => discard (Vm.lessThan lhs rhs)
  | .lessEqual lhs rhs => discard (Vm.lessEqual lhs rhs)
  | .concat reversed => discard (concatRound reversed)

theorem Query.run_maintains {P : Vm → Prop} (h : Durable P) (q : Query) : q.run.Maintains P := by
  cases q with
  | index obj key => exact (h.of_works (index_keeps obj key)).discard
  | newIndex obj key value => exact (h.of_works (newIndex_keeps obj key value)).discard
  | arith op lhs rhs => exact (h.of_works (arith_keeps op lhs rhs)).discard
  | length v => exact (h.of_works (length_keeps v)).discard
  | equal lhs rhs => exact (h.of_works (equal_keeps lhs rhs)).discard
  | lessThan lhs rhs => exact (h.of_works (lessThan_keeps lhs rhs)).discard
  | lessEqual lhs rhs => exact (h.of_works (lessEqual_keeps lhs rhs)).discard
  | concat reversed => exact (h.of_works (concatRound_keeps reversed)).discard

/-- The states in the hands of the host, between its operations and, where an operation calls a
function, before that call. -/
inductive Hosted (limits : Config) : Vm → Prop
  | created {hooks : Hooks} {heap : Heap} {upvalues : Upvalues} {vm : Vm}
      (h : Vm.create limits hooks heap upvalues = .ok vm) (ho : upvalues.opened = [])
      (hc : ∀ r slot, upvalues.cell r ≠ .opened slot) : Hosted limits vm
  | operated {vm after : Vm} (h : Hosted limits vm) (op : HostOp) (fuel : Nat)
      (ho : (op.run fuel vm).state? = some after) : Hosted limits after
  | asked {vm after : Vm} (h : Hosted limits vm) (q : Query) (hq : (q.run vm).state? = some after) :
      Hosted limits after
  /-- The host makes and changes objects, and metatables of types, as it likes. -/
  | built {vm : Vm} (h : Hosted limits vm) (heap : Heap) (types : TypeMetatables) :
      Hosted limits { vm with heap, types }
  | allocated {vm : Vm} (h : Hosted limits vm) (v : Value) :
      Hosted limits { vm with upvalues := (vm.upvalues.allocate (.closed v)).2 }
  | logged {vm : Vm} (h : Hosted limits vm) (trace : Option (Array TraceGroup))
      (consultations : Option (Array Consultation)) : Hosted limits { vm with trace, consultations }

theorem Hosted.atRest (h : Hosted limits vm) : AtRest limits vm := by
  induction h with
  | created h ho hc =>
    obtain rfl := create_eq_ok h
    exact ⟨rfl, rfl, rfl, rfl, rfl, .of_closed ho hc⟩
  | operated _ op fuel ho ih =>
    exact (op.run_maintains (durable_atRest limits) fuel _ ih).of_state? ho
  | asked _ q hq ih => exact (q.run_maintains (durable_atRest limits) _ ih).of_state? hq
  | built _ _ _ ih => exact { ih with }
  | allocated _ v ih => exact { ih with sound := ih.sound.allocateClosed v }
  | logged _ _ _ ih => exact { ih with }

theorem Hosted.new (limits : Config) (hooks : Hooks) (heap : Heap)
    (h : Checked.reserve limits.initialStackSize Value.bytes = .ok ()) :
    Hosted limits (.new limits hooks heap {}) :=
  .created (create_of_reserve hooks heap {} h) rfl Upvalues.cell_empty_ne_opened

/-- What a call pushes, the host could push itself. -/
theorem Hosted.pushAll {vs : List Value} (h : Hosted limits vm)
    (hp : Vm.pushAll vs vm = .returned () after) : Hosted limits after :=
  pushAll_induction (fun v h hv => h.operated (.push v) 0 hv) h hp

/-! ## The limits hold -/

/-- The limits hold, and the frame of every active function fits. -/
structure Respects (limits : Config) (vm : Vm) : Prop where
  callDepth : vm.callDepth ≤ limits.maxCallDepth
  hostCalls : vm.hostCalls ≤ limits.maxHostCalls
  stack : vm.stack.size ≤ limits.maxStackSize
  frames : ∀ f ∈ vm.activeFrames, f.Fits vm

theorem mem_active_of_mem_activeFrames {f : Frame} (h : f ∈ vm.activeFrames) :
    f ∈ vm.frames.active := by
  have hlt := vm.frames.depth_lt_size
  rw [← List.mem_reverse, CallStack.reverse_active]
  rw [activeFrames, List.mem_reverse, Array.toList_extract, List.extract_eq_take_drop] at h
  rw [List.take_drop, Nat.add_sub_cancel, Nat.add_comm] at h
  exact List.mem_of_mem_drop h

theorem Bounded.respects (h : Bounded limits vm) : Respects limits vm where
  callDepth := h.depth
  hostCalls := h.hostCalls
  stack := h.stack ▸ vm.stack.size_le_limit
  frames := fun f hf => h.fits f (mem_active_of_mem_activeFrames hf)

/-- Whatever the host does, every instruction finds the machine within its limits, with room for all
registers of every active function. The stack is only ever stored to and grown: growing keeps all
slots and fills new ones with nil, and a growth beyond the limit changes nothing. -/
theorem limits_hold (h : Hosted limits vm) :
    Respects limits vm ∧
    (∀ (op : HostOp) (fuel : Nat) (after : Vm), (op.run fuel vm).state? = some after →
      ReflTransGen RegisterStack.Change vm.stack after.stack) ∧
    (∀ (func : Nat) (results : ResultCount) (r : Run), During vm func results r →
      Respects limits r.vm ∧ ReflTransGen RegisterStack.Change vm.stack r.vm.stack) ∧
    ∀ (found : Vm) (wanted : Nat),
      (∀ after, Exec.ensure wanted found = .returned () after →
        ∃ s, found.stack.Grown s ∧ wanted ≤ s.size ∧ after = { found with stack := s }) ∧
      ∀ e after, Exec.ensure wanted found = .raised e after →
        found.stack.limit < wanted ∧ e = { cause := .overflow .stack } ∧ after = found := by
  have hrest := h.atRest
  refine ⟨hrest.firm.bounded.respects, ?_, ?_, ?_⟩
  · intro op fuel after ho
    exact ((op.run_maintains (durable_retains vm) fuel vm ⟨.refl vm, hrest.sound⟩).of_state?
      ho).1.stack
  · intro func results r hr
    obtain ⟨-, hevents, -⟩ := executing_of_during hrest.sound hr
    exact ⟨(bounded_of_during hrest.sound hrest.firm hr).respects,
      (retains_of_events hevents).stack⟩
  · intro found wanted
    exact ⟨fun after hx => (Exec.ensure_spec wanted found).of_returned hx,
      fun e after hx => Exec.ensure_eq_raised hx⟩

/-- A function that calls its parameter in its own place. -/
def replaceSelf : Prototype where
  paramCount := 1
  maxStackSize := 3
  code := #[⟨0x00800025⟩]

def tightLimits : Config where
  initialStackSize := 1
  maxStackSize := 8
  maxCallDepth := 1
  maxHostCalls := 1

def tightHost : Vm :=
  .new tightLimits .standard { closures := #[{ proto := replaceSelf, upvalues := #[] }] } {}

/-- A tail call at the limit of the call depth goes one frame beyond it for a moment, and is within
it before the next instruction. -/
theorem limits_hold_replaced :
    ∃ vm r, Hosted tightLimits vm ∧ During vm 0 .all r ∧ r.vm.callDepth = tightLimits.maxCallDepth ∧
      r.vm.frames.current.status.tail = true ∧ Respects tightLimits r.vm ∧
      ReflTransGen RegisterStack.Change vm.stack r.vm.stack := by
  have hcheck : ((firstStep tightHost [.closure ⟨0⟩, .closure ⟨0⟩]).any fun p =>
      p.2.vm.callDepth == tightLimits.maxCallDepth && p.2.vm.frames.current.status.tail) =
        true := by decide +kernel
  obtain ⟨⟨vm, r⟩, hfirst, hboth⟩ := (Option.any_eq_true _ _).mp hcheck
  obtain ⟨hdepth, htail⟩ := Bool.and_eq_true_iff.mp hboth
  obtain ⟨hpush, hduring⟩ := firstStep_eq_some hfirst
  have hhosted : Hosted tightLimits vm := (Hosted.new tightLimits _ _ rfl).pushAll hpush
  obtain ⟨-, -, hruns, -⟩ := limits_hold hhosted
  exact ⟨vm, r, hhosted, hduring, beq_iff_eq.mp hdepth, htail, hruns 0 .all r hduring⟩

end Vm

end LuaMachine
