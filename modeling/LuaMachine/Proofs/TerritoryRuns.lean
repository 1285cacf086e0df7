import LuaMachine.Proofs.Reachable
import LuaMachine.Proofs.TerritoryInstructions

/-!
# Runs in a territory

A run stays in the territory that it begins in, but for the tables that it makes, and so does
whatever the host does with values of the territory. What waits for a call meanwhile still belongs
to the wider territory that the call ends in.
-/
namespace LuaMachine

open Exec (Inside Widens)

namespace Vm
variable {D : Territory} {v : Value}

theorem push_inside (hv : D.Holds v) : (push v).Inside D fun _ => True := by
  refine (Inside.lookAt fun _ _ => rfl).bind fun top _ => ?_
  refine (Inside.ensure _).bind fun _ _ => ?_
  exact (Inside.setSlot top hv).bind fun _ _ => .setTop _

theorem pushAll_inside {vs : List Value} (hvs : ∀ v ∈ vs, D.Holds v) :
    (pushAll vs).Inside D fun _ => True := by
  induction vs with
  | nil => exact .pure trivial
  | cons v vs ih =>
    refine (push_inside (hvs v List.mem_cons_self)).bind fun _ _ => ?_
    exact ih fun w hw => hvs w (List.mem_cons_of_mem _ hw)

end Vm

/-! ## Runs -/

namespace Territory
variable {D D' : Territory} {suspended : List Suspended}

/-- What waits for a call belongs to the territory. -/
def HoldsSuspended (D : Territory) (suspended : List Suspended) : Prop :=
  ∀ s ∈ suspended, s.resume.Within D

theorem HoldsSuspended.mono (h : D.HoldsSuspended suspended) (hle : D ≤ D') :
    D'.HoldsSuspended suspended :=
  fun s hs => (h s hs).mono hle

end Territory

namespace Run
variable {D : Territory} {root : Vm.CallSite} {suspended : List Suspended}

def withHooks (r : Run) (hooks : Hooks) : Run := { r with vm := r.vm.withHooks hooks }

def Progress.withHooks (hooks : Hooks) : Progress → Progress
  | .running r => .running (r.withHooks hooks)
  | .ended o => .ended (o.withHooks hooks)

/-- The run goes on in the territory or a wider one, or has ended there. -/
def Progress.Widens (D : Territory) : Progress → Prop
  | .running r => ∃ D', D ≤ D' ∧ D'.Closed r.vm ∧ D'.HoldsSuspended r.suspended
  | .ended o => ∀ after, o.state? = some after → ∃ D', D ≤ D' ∧ D'.Closed after

theorem Progress.Widens.of_le {D' : Territory} {p : Progress} (h : p.Widens D') (hle : D ≤ D') :
    p.Widens D := by
  cases p with
  | running r =>
    obtain ⟨D'', hle', hr⟩ := h
    exact ⟨D'', hle.trans hle', hr⟩
  | ended o =>
    intro after ha
    obtain ⟨D'', hle', hafter⟩ := h after ha
    exact ⟨D'', hle.trans hle', hafter⟩

/-- The part of a step adds at most tables to the territory. Where nothing has a metatable it leads
to the same with all hooks. -/
structure Steady (D : Territory) (p : Vm → Progress) : Prop where
  agrees : ¬ D.hooked → ∀ {vm : Vm}, D.Closed vm → ∀ hooks,
    p (vm.withHooks hooks) = (p vm).withHooks hooks
  widens : ∀ {vm : Vm}, D.Closed vm → (p vm).Widens D

/-- A part of a step goes on with the result of an operation, or ends the run when it fails. -/
def after {α : Type} (x : Exec α) (p : α → Vm → Progress) (y : LuaError → Exec Unit) (vm : Vm) :
    Progress :=
  match x vm with
  | .returned a vm => p a vm
  | .raised e vm => .ended (y e vm)
  | .aborted why => .ended (.aborted why)

theorem steady_after {α : Type} {x : Exec α} {Q : Territory → α → Prop} {p : α → Vm → Progress}
    {y : LuaError → Exec Unit} (hx : x.Widens D Q)
    (hp : ∀ D' a, D ≤ D' → Q D' a → Steady D' (p a))
    (hy : ∀ (D' : Territory) e, (y e).Inside D' fun _ => True) : Steady D (after x p y) where
  agrees := by
    intro hd vm hc hooks
    unfold after
    rw [hx.agrees hd hc hooks]
    cases ho : x vm with
    | returned a mid =>
      obtain ⟨D', hle, hq, hmid⟩ := hx.returned hc ho
      rw [← Territory.hooked_eq_of_le hle] at hd
      exact (hp D' a hle hq).agrees hd hmid hooks
    | raised e mid =>
      obtain ⟨D', hle, hmid⟩ := hx.raised hc ho
      rw [← Territory.hooked_eq_of_le hle] at hd
      exact congrArg Progress.ended ((hy D' e).agrees hd hmid hooks)
    | aborted why => rfl
  widens := by
    intro vm hc
    unfold after
    cases ho : x vm with
    | returned a mid =>
      obtain ⟨D', hle, hq, hmid⟩ := hx.returned hc ho
      exact ((hp D' a hle hq).widens hmid).of_le hle
    | raised e mid =>
      obtain ⟨D', hle, hmid⟩ := hx.raised hc ho
      exact fun after ha => ⟨D', hle, (hy D' e).closed hmid ha⟩
    | aborted why => exact fun after ha => by cases ha

theorem steady_running (hs : D.HoldsSuspended suspended) :
    Steady D fun vm => .running { vm, root, suspended } :=
  ⟨fun _ _ _ _ => rfl, fun hc => ⟨D, le_refl D, hc, hs⟩⟩

theorem abandon_inside (k : Vm.Resume) : (abandon k).Inside D fun _ => True := by
  unfold abandon
  split
  · exact Vm.markSwapped_inside false
  · exact .pure trivial

theorem unwindNested_inside (e : LuaError) (suspended : List Suspended) :
    (unwindNested e suspended).Inside D fun _ => True := by
  induction suspended generalizing e with
  | nil => exact .pure trivial
  | cons s rest ih =>
    refine (Vm.failCall_inside e s.site).bind fun e' _ => ?_
    exact (abandon_inside s.resume).bind fun _ _ => ih e'

theorem fail_inside (e : LuaError) (root : Vm.CallSite) (suspended : List Suspended) :
    (fail e root suspended).Inside D fun _ => True :=
  ((unwindNested_inside e suspended).bind fun e' _ => Vm.failCall_inside e' root).thrown

theorem failBefore_inside (k : Vm.Resume) (e : LuaError) (root : Vm.CallSite)
    (suspended : List Suspended) : (failBefore k e root suspended).Inside D fun _ => True :=
  (abandon_inside k).bind fun _ _ => fail_inside e root suspended

theorem nest_eq_after (root : Vm.CallSite) (suspended : List Suspended) (k : Vm.Resume)
    (begin : Exec Vm.CallSite) :
    nest root suspended k begin = after begin
      (fun site vm => .running { vm, root, suspended := { site, resume := k } :: suspended })
      fun e => failBefore k e root suspended := by
  funext vm
  unfold nest after
  cases begin vm <;> rfl

theorem nest_steady {begin : Exec Vm.CallSite} {k : Vm.Resume} {Q : Vm.CallSite → Prop}
    (hb : begin.Inside D Q) (hk : k.Within D) (hs : D.HoldsSuspended suspended) :
    Steady D (nest root suspended k begin) := by
  rw [nest_eq_after]
  have hwide : begin.Widens D fun _ _ => True := (hb.mono fun _ _ => trivial).widens
  refine steady_after hwide (fun D' site hle _ => steady_running ?_) fun _ e =>
    failBefore_inside k e root suspended
  exact List.forall_mem_cons.mpr ⟨hk.mono hle, hs.mono hle⟩

theorem beginInvoke_inside {handler : Value} {args : List Value}
    (h : ∀ v ∈ handler :: args, D.Holds v) :
    (beginInvoke handler args).Inside D fun _ => True := by
  refine (Inside.lookAt fun _ _ => rfl).bind fun func _ => ?_
  exact (Vm.pushAll_inside h).bind fun _ _ => Vm.beginCall_inside func .all

theorem follow_steady {next : Vm.Next} (hn : next.Within D) (hs : D.HoldsSuspended suspended) :
    Steady D fun vm => follow root suspended vm next := by
  cases hn with
  | proceed => exact steady_running hs
  | iterate func results => exact nest_steady (Vm.beginCall_inside func results) trivial hs
  | invoke h hk => exact nest_steady (beginInvoke_inside h) hk hs

/-- The results of a call are in registers. -/
theorem collect_inside (site : Vm.CallSite) (k : Vm.Resume) :
    (collect site k).Inside D fun results => ∀ v ∈ results, D.Holds v := by
  unfold collect
  split
  · exact .pure (by simp)
  · refine (Vm.slice_inside site.func fun _ _ => rfl).bind fun found hfound => ?_
    refine (Inside.check hfound).bind fun results hresults => ?_
    exact (Inside.setTop site.func).bind fun _ _ => .pure hresults

theorem continueWith_inside {s : Suspended} (hs : s.resume.Within D) :
    (continueWith s).Inside D (Vm.Next.Within D) := by
  refine Inside.bind (.modify (fun _ _ => rfl) fun hc => { hc with }) fun _ _ => ?_
  exact (collect_inside s.site s.resume).bind fun results hr => Vm.resume_inside hs hr

theorem leave_eq_after (root : Vm.CallSite) (s : Suspended) (rest : List Suspended) :
    (fun vm => leave root vm (s :: rest)) = after (continueWith s)
      (fun next vm => follow root rest vm next) fun e => fail e root rest := by
  funext vm
  unfold leave after
  dsimp only
  cases continueWith s vm <;> rfl

theorem leave_steady (hs : D.HoldsSuspended suspended) :
    Steady D fun vm => leave root vm suspended := by
  cases suspended with
  | nil =>
    refine ⟨fun _ _ _ _ => rfl, fun hc after ha => ⟨D, le_refl D, ?_⟩⟩
    cases ha
    exact { hc with }
  | cons s rest =>
    obtain ⟨hs, hrest⟩ := List.forall_mem_cons.mp hs
    rw [leave_eq_after]
    refine steady_after (Q := fun D' next => next.Within D') (continueWith_inside hs).widens ?_
      fun _ e => fail_inside e root rest
    exact fun D' next hle hn => follow_steady hn (Territory.HoldsSuspended.mono hrest hle)

/-- What comes after the instruction of a step. -/
def afterAction (root : Vm.CallSite) (suspended : List Suspended) : Vm.Action → Vm → Progress
  | .next next, vm => follow root suspended vm next
  | .leave, vm => leave root vm suspended

theorem step_eq_after (root : Vm.CallSite) (suspended : List Suspended) (vm : Vm) :
    step { vm, root, suspended } =
      after Vm.dispatch (afterAction root suspended) (fun e => fail e root suspended) vm := by
  unfold step after
  dsimp only
  cases Vm.dispatch vm with
  | returned action mid => cases action <;> rfl
  | raised e mid => rfl
  | aborted why => rfl

theorem step_steady (hs : D.HoldsSuspended suspended) :
    Steady D fun vm => step { vm, root, suspended } := by
  simp only [step_eq_after]
  refine steady_after Vm.dispatch_widens (fun D' action hle ha => ?_) fun _ e =>
    fail_inside e root suspended
  cases ha with
  | next hn => exact follow_steady hn (hs.mono hle)
  | leave => exact leave_steady (hs.mono hle)

/-- A whole run adds at most tables to the territory. -/
theorem steps_widens (fuel : Nat) (root : Vm.CallSite) (hs : D.HoldsSuspended suspended) :
    Exec.Widens D (fun vm => steps fuel { vm, root, suspended } : Exec Unit) fun _ _ => True := by
  induction fuel generalizing D root suspended with
  | zero => exact (Inside.abort .outOfFuel).widens
  | succ fuel ih =>
    -- A step hands on to the rest of the run the territory that it ends in, with all that waits.
    have hstep : Steady D fun vm => step { vm, root, suspended } := step_steady hs
    refine .of_closed (fun hd {vm} hc hooks => ?_) fun {vm after} hc ha => ?_
    · have hagrees : step { vm := vm.withHooks hooks, root, suspended } =
          (step { vm, root, suspended }).withHooks hooks := hstep.agrees hd hc hooks
      have hwide := hstep.widens hc
      unfold steps
      rw [hagrees]
      cases hp : step { vm, root, suspended } with
      | ended o => rfl
      | running r =>
        rw [hp] at hwide
        obtain ⟨D', hle, hclosed, hwaiting⟩ := hwide
        rw [← Territory.hooked_eq_of_le hle] at hd
        exact (ih r.root hwaiting).agrees hd hclosed hooks
    · have hwide := hstep.widens hc
      unfold steps at ha
      cases hp : step { vm, root, suspended } with
      | ended o =>
        rw [hp] at ha hwide
        exact hwide after ha
      | running r =>
        rw [hp] at ha hwide
        obtain ⟨D', hle, hclosed, hwaiting⟩ := hwide
        obtain ⟨D'', hle', hafter⟩ := (ih r.root hwaiting).closed hclosed ha
        exact ⟨D'', hle.trans hle', hafter⟩

end Run

namespace Vm
variable {D : Territory} {v : Value}

theorem call_eq (fuel func : Nat) (results : ResultCount) :
    call fuel func results = beginCall func results >>= fun root vm =>
      Run.steps fuel { vm, root } := by
  funext vm
  show _ = Exec.bind _ _ vm
  unfold call Exec.bind
  cases beginCall func results vm <;> rfl

theorem call_widens (fuel func : Nat) (results : ResultCount) :
    (call fuel func results).Widens D fun _ _ => True := by
  rw [call_eq]
  refine Widens.after (beginCall_inside func results) fun root _ => Run.steps_widens fuel root ?_
  exact fun s hs => absurd hs List.not_mem_nil

/-- Every state of a run is in a territory that has grown from the one where it began. -/
theorem closed_of_during {vm : Vm} {func : Nat} {results : ResultCount} {r : Run}
    (hc : D.Closed vm) (h : During vm func results r) :
    ∃ D', D ≤ D' ∧ D'.Closed r.vm ∧ D'.HoldsSuspended r.suspended := by
  obtain ⟨root, start, hbegin, hleads⟩ := h
  have hstart := ((beginCall_inside func results).returned hc hbegin).2
  induction hleads with
  | refl => exact ⟨D, le_refl D, hstart, fun s hs => absurd hs List.not_mem_nil⟩
  | @tail r r' _ hstep ih =>
    obtain ⟨D', hle, hr, hs⟩ := ih
    have hwide : r.step.Widens D' := (Run.step_steady hs).widens hr
    rw [show r.step = .running r' from hstep] at hwide
    obtain ⟨D'', hle', hr'⟩ := hwide
    exact ⟨D'', hle.trans hle', hr'⟩

theorem poke_inside (slot : Nat) (hv : D.Holds v) : (poke slot v).Inside D fun _ => True := by
  refine (Inside.check fun _ _ => trivial).bind fun wanted _ => ?_
  exact (Inside.ensure wanted).bind fun _ _ => .setSlot slot hv

theorem raiseTop_inside (top : Nat) : (raiseTop top).Inside D fun _ => True := by
  refine (Inside.ensure top).bind fun _ _ => ?_
  refine (Inside.lookAt fun _ _ => rfl).bind fun old _ => ?_
  refine .ite (fun _ => ?_) fun _ => .setTop top
  exact (Inside.onStack fun hs ht => hs.fillNil ht).bind fun _ _ => .setTop top

theorem callInPlace_widens (fuel func : Nat) (results : ResultCount) :
    (callInPlace fuel func results).Widens D fun D' vs => ∀ v ∈ vs, D'.Holds v := by
  refine (call_widens fuel func results).bind fun D' _ _ _ => Inside.widens ?_
  exact (slice_inside func fun _ _ => rfl).bind fun found hfound => .check hfound

theorem callFunction_widens (fuel : Nat) {function : Value} {args : List Value}
    (h : ∀ v ∈ function :: args, D.Holds v) :
    (callFunction fuel function args).Widens D fun D' vs => ∀ v ∈ vs, D'.Holds v := by
  refine Widens.after (Inside.lookAt fun _ _ => rfl) fun func _ => ?_
  refine Widens.after (pushAll_inside h) fun _ _ => ?_
  refine (callInPlace_widens fuel func .all).bind fun D' results _ hresults => Inside.widens ?_
  exact (Inside.setTop func).bind fun _ _ => .pure hresults

theorem callOnce_widens (fuel : Nat) {handler : Value} {args : List Value}
    (h : ∀ v ∈ handler :: args, D.Holds v) :
    (callOnce fuel handler args).Widens D fun D' v => D'.Holds v := by
  refine (callFunction_widens fuel h).bind fun D' results _ hresults => Inside.widens (.pure ?_)
  cases results with
  | nil => exact D'.holds_nil
  | cons v vs => exact hresults v List.mem_cons_self

theorem fulfil_widens (fuel : Nat) {reply : Reply Value} (h : Answered D D.Holds reply) :
    (fulfil fuel reply).Widens D fun D' v => D'.Holds v := by
  cases reply with
  | done v => exact (Inside.pure (show D.Holds v from h)).widens
  | call handler args => exact callOnce_widens fuel h

/-- The frame is unmarked in the territory that the operation ends in. -/
theorem unmarkAfter_widens {α : Type} {x : Exec α} {Q : Territory → α → Prop}
    (hx : x.Widens D Q) : (unmarkAfter x).Widens D fun _ _ => True := by
  have hunmark : ∀ D' : Territory, (markSwapped false).Inside D' fun _ => True := fun _ =>
    markSwapped_inside false
  refine .of_closed (fun hd {vm} hc hooks => ?_) fun {vm after} hc ha => ?_
  · unfold unmarkAfter
    rw [hx.agrees hd hc hooks]
    cases ho : x vm with
    | returned a mid => rfl
    | raised e mid => rfl
    | aborted why => rfl
  · unfold unmarkAfter at ha
    cases ho : x vm with
    | returned a mid =>
      rw [ho] at ha
      obtain ⟨D', hle, -, hmid⟩ := hx.returned hc ho
      have hpure : (markSwapped false >>= fun _ => pure a : Exec α).Inside D' fun _ => True :=
        (hunmark D').bind fun _ _ => .pure trivial
      exact ⟨D', hle, hpure.closed hmid ha⟩
    | raised e mid =>
      rw [ho] at ha
      obtain ⟨D', hle, hmid⟩ := hx.raised hc ho
      refine ⟨D', hle, (hunmark D').closed hmid ?_⟩
      cases ha
      rfl
    | aborted why =>
      rw [ho] at ha
      cases ha

theorem answer_widens (fuel : Nat) {verdict : Verdict} (h : Decided D verdict) :
    (answer fuel verdict).Widens D fun _ _ => True := by
  unfold answer
  split
  · exact (Inside.pure trivial).widens
  · exact (callOnce_widens fuel h).bind fun _ _ _ _ => (Inside.pure trivial).widens
  · refine (unmarkAfter_widens (callOnce_widens fuel h)).bind fun _ _ _ _ => ?_
    exact (Inside.pure trivial).widens

theorem setIndex_widens (fuel : Nat) {obj key value : Value} (hobj : D.Holds obj)
    (hkey : D.Holds key) (hv : D.Holds value) :
    (setIndex fuel obj key value).Widens D fun _ _ => True := by
  refine Widens.after (newIndex_inside hobj hkey hv) fun reply hreply => ?_
  cases reply with
  | done _ => exact (Inside.pure trivial).widens
  | call handler args =>
    exact (callFunction_widens fuel hreply).bind fun _ _ _ _ => (Inside.pure trivial).widens

theorem concatReversed_widens (fuel rounds : Nat) {reversed : List Value}
    (h : ∀ v ∈ reversed, D.Holds v) :
    (concatReversed fuel rounds reversed).Widens D fun D' v => D'.Holds v := by
  induction rounds generalizing D reversed with
  | zero =>
    refine Widens.after (concatRound_inside h) fun reply hreply => ?_
    cases reply with
    | done v => exact (Inside.pure (show D.Holds v from hreply)).widens
    | call handler args rest => exact callOnce_widens fuel hreply.1
  | succ rounds ih =>
    refine Widens.after (concatRound_inside h) fun reply hreply => ?_
    cases reply with
    | done v => exact (Inside.pure (show D.Holds v from hreply)).widens
    | call handler args rest =>
      -- The operands that are left still belong to the territory after the call.
      refine (callOnce_widens fuel hreply.1).bind fun D' v hle hv => ih ?_
      exact List.forall_mem_cons.mpr ⟨hv, fun w hw => (hreply.2 w hw).mono hle⟩

/-- The cells of a loaded closure are new. -/
theorem loadCells_holds (sources : List UpvalueSource) {env : Value} (henv : D.Holds env)
    (made : Array CellRef × Upvalues) (hrefs : ∀ r ∈ made.1, D.cells r)
    (hcells : D.HoldsCells made.2) :
    (∀ r ∈ (sources.foldl (fun made _ => loadCell env made) made).1, D.cells r) ∧
      D.HoldsCells (sources.foldl (fun made _ => loadCell env made) made).2 := by
  induction sources generalizing made with
  | nil => exact ⟨hrefs, hcells⟩
  | cons source rest ih =>
    have hvalue : D.Holds (if made.1.isEmpty then env else .nil) := by
      split
      · exact henv
      · exact D.holds_nil
    obtain ⟨hcell, hnew⟩ :=
      hcells.allocate (.closed (if made.1.isEmpty then env else .nil)) fun v hv =>
      Cell.closed.inj hv ▸ hvalue
    refine ih (loadCell env made) (fun r hr => ?_) hnew
    rcases Array.mem_push.mp hr with hr | rfl
    · exact hrefs r hr
    · exact hcell

theorem load_inside {proto : Prototype} {env : Value} (hp : ∀ v, proto.Constant v → D.Holds v)
    (henv : D.Holds env) : (load proto env).Inside D fun _ => True where
  agrees := fun _ _ _ _ => rfl
  returned := by
    intro vm after r hc hl
    cases hl
    have hloaded := loadCells_holds proto.upvalues.toList henv (#[], vm.upvalues) (by simp) hc.cells
    rw [Array.foldl_toList] at hloaded
    have hclosure := hc.heap.newClosure (c := { proto, upvalues := _ }) ⟨hp, hloaded.1⟩
    exact ⟨trivial, { hc with heap := hclosure.2, cells := hloaded.2 }⟩
  raised := fun _ he => by cases he

/-! ## Operations of the host -/

/-- What an operation gives to the host. -/
inductive Answer where
  | done
  | value (v : Value)
  | values (vs : List Value)
  | truth (b : Bool)
  | function (r : ClosureRef)

/-- Does an operation for its result. The results of a plain call stay in the registers. -/
def HostOp.perform (fuel : Nat) : HostOp → Exec Answer
  | .push v => Vm.push v >>= fun _ => pure .done
  | .poke slot v => Vm.poke slot v >>= fun _ => pure .done
  | .raiseTop top => Vm.raiseTop top >>= fun _ => pure .done
  | .call func results => Vm.call fuel func results >>= fun _ => pure .done
  | .callFunction function args => return .values (← Vm.callFunction fuel function args)
  | .getIndex obj key => return .value (← Vm.getIndex fuel obj key)
  | .setIndex obj key value => Vm.setIndex fuel obj key value >>= fun _ => pure .done
  | .applyArith op lhs rhs => return .value (← Vm.applyArith fuel op lhs rhs)
  | .lengthOf v => return .value (← Vm.lengthOf fuel v)
  | .isEqual lhs rhs => return .truth (← Vm.isEqual fuel lhs rhs)
  | .isLess lhs rhs => return .truth (← Vm.isLess fuel lhs rhs)
  | .isLessEqual lhs rhs => return .truth (← Vm.isLessEqual fuel lhs rhs)
  | .concatAll values => return .value (← Vm.concatAll fuel values)
  | .load proto env => return .function (← Vm.load proto env)

/-- The values that the host passes to an operation. -/
def HostOp.Passes : HostOp → Value → Prop
  | .push v, w => w = v
  | .poke _ v, w => w = v
  | .raiseTop _, _ => False
  | .call _ _, _ => False
  | .callFunction function args, w => w ∈ function :: args
  | .getIndex obj key, w => w ∈ [obj, key]
  | .setIndex obj key value, w => w ∈ [obj, key, value]
  | .applyArith _ lhs rhs, w => w ∈ [lhs, rhs]
  | .lengthOf v, w => w = v
  | .isEqual lhs rhs, w => w ∈ [lhs, rhs]
  | .isLess lhs rhs, w => w ∈ [lhs, rhs]
  | .isLessEqual lhs rhs, w => w ∈ [lhs, rhs]
  | .concatAll values, w => w ∈ values
  | .load proto env, w => w = env ∨ proto.Constant w

theorem reported_widens {α : Type} {x : Exec α} {Q : Territory → α → Prop} {report : α → Answer}
    (h : x.Widens D Q) : (x >>= fun a => pure (report a)).Widens D fun _ _ => True :=
  h.bind fun _ _ _ _ => (Inside.pure trivial).widens

theorem reported_inside {α : Type} {x : Exec α} {report : α → Answer}
    (h : x.Inside D fun _ => True) :
    (x >>= fun a => pure (report a)).Widens D fun _ _ => True :=
  reported_widens (Q := fun _ _ => True) h.widens

/-- What the host does with values of the territory adds at most tables to it. -/
theorem HostOp.perform_widens (fuel : Nat) {op : HostOp} (h : ∀ v, op.Passes v → D.Holds v) :
    (op.perform fuel).Widens D fun _ _ => True := by
  cases op with
  | push v => exact reported_inside (push_inside (h v rfl))
  | poke slot v => exact reported_inside (poke_inside slot (h v rfl))
  | raiseTop top => exact reported_inside (raiseTop_inside top)
  | call func results => exact reported_widens (call_widens fuel func results)
  | callFunction function args => exact reported_widens (callFunction_widens fuel h)
  | getIndex obj key =>
    have hindex := index_inside (h obj (by simp [Passes])) (h key (by simp [Passes]))
    exact reported_widens (Widens.after hindex fun _ hreply => fulfil_widens fuel hreply)
  | setIndex obj key value =>
    exact reported_widens (setIndex_widens fuel (h obj (by simp [Passes]))
      (h key (by simp [Passes])) (h value (by simp [Passes])))
  | applyArith op lhs rhs =>
    have harith := arith_inside op (h lhs (by simp [Passes])) (h rhs (by simp [Passes]))
    exact reported_widens (Widens.after harith fun _ hreply => fulfil_widens fuel hreply)
  | lengthOf v =>
    have hlength := length_inside (h v rfl)
    exact reported_widens (Widens.after hlength fun _ hreply => fulfil_widens fuel hreply)
  | isEqual lhs rhs =>
    have hequal := equal_inside (h lhs (by simp [Passes])) (h rhs (by simp [Passes]))
    exact reported_widens (Widens.after hequal fun _ hverdict => answer_widens fuel hverdict)
  | isLess lhs rhs =>
    have hless := lessThan_inside (h lhs (by simp [Passes])) (h rhs (by simp [Passes]))
    exact reported_widens (Widens.after hless fun _ hverdict => answer_widens fuel hverdict)
  | isLessEqual lhs rhs =>
    have hle := lessEqual_inside (h lhs (by simp [Passes])) (h rhs (by simp [Passes]))
    exact reported_widens (Widens.after hle fun _ hverdict => answer_widens fuel hverdict)
  | concatAll values =>
    have hconcat : (Vm.concatAll fuel values).Widens D fun D' v => D'.Holds v := by
      rw [concatAll_eq]
      exact concatReversed_widens fuel _ fun v hv => h v (List.mem_reverse.mp hv)
    exact reported_widens hconcat
  | load proto env =>
    exact reported_inside (load_inside (fun v hv => h v (.inr hv)) (h env (.inl rfl)))

end Vm

end LuaMachine
