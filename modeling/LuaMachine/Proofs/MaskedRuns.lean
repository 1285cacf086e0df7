import LuaMachine.Proofs.HookTransparency
import LuaMachine.Proofs.MaskedInstructions

/-!
# Runs under a mask

A run of the masked machine goes step by step with the run of the machine itself, and so do the
operations of the host that make runs. The masked run need not be within any limits itself: what a
step relies on is known from the other one.
-/
namespace LuaMachine

open Relation (ReflTransGen)
open Exec (Unaware UnawareOn)

/-! ## Steps -/

namespace Run
variable {m : Mask} {r : Run}

def hide (m : Mask) (r : Run) : Run := { r with vm := m.hide r.vm }

/-- The masked run goes on where the run does, and ends where it ends, unless that end is
excused. -/
inductive Progress.Hidden (m : Mask) : Progress → Progress → Prop
  | running {r : Run} (h : m.Settled r.vm) : Hidden m (.running r) (.running (r.hide m))
  | ended {o o' : Outcome Unit} (h : o.Hidden m o') : Hidden m (.ended o) (.ended o')
  | excused {why : Abort} {p : Progress} (h : m.excused why) : Hidden m (.ended (.aborted why)) p

theorem after_hidden {α : Type} {x : Exec α} {p : α → Vm → Progress} {y : LuaError → Exec Unit}
    {vm : Vm} (hx : (x vm).Hidden m (x (m.hide vm)))
    (hp : ∀ a mid, m.Settled mid → (p a mid).Hidden m (p a (m.hide mid)))
    (hy : ∀ e, (y e).Unaware m) : (after x p y vm).Hidden m (after x p y (m.hide vm)) := by
  unfold after
  generalize x vm = o, x (m.hide vm) = o' at hx
  cases hx with
  | returned hs => exact hp _ _ hs
  | raised hs => exact .ended (hy _ _ hs)
  | aborted h =>
    rcases h with h | rfl
    · exact .excused h
    · exact .ended (.aborted (.inr rfl))

theorem abandon_unaware (k : Vm.Resume) : (abandon k).Unaware m := by
  unfold abandon
  split
  · exact Vm.markSwapped_unaware false
  · exact .pure _

theorem unwindNested_unaware (e : LuaError) (suspended : List Suspended) :
    (unwindNested e suspended).Unaware m := by
  induction suspended generalizing e with
  | nil => exact .pure e
  | cons s rest ih =>
    refine (Vm.failCall_unaware e s.site).bind fun e' => ?_
    exact (abandon_unaware s.resume).bind fun _ => ih e'

theorem fail_unaware (e : LuaError) (root : Vm.CallSite) (suspended : List Suspended) :
    (fail e root suspended).Unaware m :=
  ((unwindNested_unaware e suspended).bind fun e' => Vm.failCall_unaware e' root).thrown

theorem failBefore_unaware (k : Vm.Resume) (e : LuaError) (root : Vm.CallSite)
    (suspended : List Suspended) : (failBefore k e root suspended).Unaware m :=
  (abandon_unaware k).bind fun _ => fail_unaware e root suspended

theorem collect_unaware (site : Vm.CallSite) (k : Vm.Resume) : (collect site k).Unaware m := by
  unfold collect
  split
  · exact .pure _
  · exact .slice site.func (fun _ => rfl) fun results => (Unaware.setTop _).bind fun _ =>
      .pure results

theorem continueWith_unaware (s : Suspended) : (continueWith s).Unaware m := by
  refine Unaware.bind (.modify (fun _ => rfl) fun _ hs => hs) fun _ => ?_
  exact (collect_unaware s.site s.resume).bind fun results => Vm.resume_unaware s.resume results

theorem nest_hidden {root : Vm.CallSite} {suspended : List Suspended} {k : Vm.Resume}
    {begin : Exec Vm.CallSite} {vm : Vm} (hb : begin.Unaware m) (hs : m.Settled vm) :
    (nest root suspended k begin vm).Hidden m (nest root suspended k begin (m.hide vm)) := by
  rw [nest_eq_after]
  exact after_hidden (hb vm hs) (fun _ _ hmid => .running hmid) fun e =>
    failBefore_unaware k e root suspended

theorem beginInvoke_unaware (handler : Value) (args : List Value) :
    (beginInvoke handler args).Unaware m := by
  refine Unaware.bind (.look fun _ => rfl) fun func => ?_
  exact (Vm.pushAll_unaware _).bind fun _ => Vm.beginCall_unaware func .all

theorem follow_hidden {root : Vm.CallSite} {suspended : List Suspended} {vm : Vm} (next : Vm.Next)
    (hs : m.Settled vm) :
    (follow root suspended vm next).Hidden m (follow root suspended (m.hide vm) next) := by
  cases next with
  | proceed => exact .running hs
  | invoke handler args k => exact nest_hidden (beginInvoke_unaware handler args) hs
  | callAt func results k => exact nest_hidden (Vm.beginCall_unaware func results) hs

theorem leave_hidden {root : Vm.CallSite} {suspended : List Suspended} {vm : Vm}
    (hs : m.Settled vm) :
    (leave root vm suspended).Hidden m (leave root (m.hide vm) suspended) := by
  cases suspended with
  | nil => exact .ended (.returned hs)
  | cons s rest =>
    have heq := leave_eq_after root s rest
    rw [congrFun heq vm, congrFun heq (m.hide vm)]
    refine after_hidden (continueWith_unaware s vm hs) (fun next mid hmid => ?_) fun e =>
      fail_unaware e root rest
    exact follow_hidden next hmid

theorem afterAction_hidden {root : Vm.CallSite} {suspended : List Suspended} {vm : Vm}
    (action : Vm.Action) (hs : m.Settled vm) :
    (afterAction root suspended action vm).Hidden m
      (afterAction root suspended action (m.hide vm)) := by
  cases action with
  | next next => exact follow_hidden next hs
  | leave => exact leave_hidden hs

theorem step_hidden [m.Recording] (hs : m.Settled r.vm)
    (hf : m.rooted → r.vm.frames.current.Fits r.vm) : r.step.Hidden m (r.hide m).step := by
  have hstep := step_eq_after r.root r.suspended
  rw [show r.step = _ from hstep r.vm, show (r.hide m).step = _ from hstep (m.hide r.vm)]
  exact after_hidden (Vm.dispatch_unaware r.vm hf hs)
    (fun action _ hmid => afterAction_hidden action hmid) fun e =>
    fail_unaware e _ _

/-- A run in whose states the current frame has its registers, if need be, goes with the masked
run. -/
theorem steps_hidden [m.Recording] (fuel : Nat) (hs : m.Settled r.vm)
    (hf : ∀ r', ReflTransGen Leads r r' → m.rooted → r'.vm.frames.current.Fits r'.vm) :
    (steps fuel r).Hidden m (steps fuel (r.hide m)) := by
  induction fuel generalizing r with
  | zero => exact .aborted (.inr rfl)
  | succ fuel ih =>
    have hstep := step_hidden hs (hf r .refl)
    unfold steps
    generalize hp : r.step = p, (r.hide m).step = p' at hstep
    cases hstep with
    | running h => exact ih h fun r' hr => hf r' (.head hp hr)
    | ended h => exact h
    | excused h => exact .aborted (.inl h)

end Run

/-! ## Operations of the host -/

/-- The values from a slot up to the top. -/
theorem Vm.valuesFrom_unaware {m : Mask} (func : Nat) :
    (Exec.look (fun vm => vm.stack.slice func vm.top) >>= fun found => Exec.check found).Unaware
      m := by
  have hslice : (Exec.look (fun vm => vm.stack.slice func vm.top) >>= fun found =>
      Exec.check found >>= Pure.pure).Unaware m := .slice func (fun _ => rfl) fun vs => .pure vs
  simpa only [bind_pure] using hslice

theorem Exec.UnawareOn.bind {m : Mask} {P : Vm → Prop} {α β : Type} {x : Exec α} {f : α → Exec β}
    (hx : x.UnawareOn m P) (hp : x.Maintains P) (hf : ∀ a, (f a).UnawareOn m P) :
    (x >>= f).UnawareOn m P :=
  fun vm hvm hs => Hidden.bind (hx vm hvm hs) fun a mid ha hmid =>
    hf a mid ((hp vm hvm).of_returned ha) hmid

namespace Vm
variable {m : Mask} {limits : Config} (fuel : Nat)

theorem poke_unaware (slot : Nat) (v : Value) : (poke slot v).Unaware m := by
  refine (Unaware.check _).bind fun wanted => ?_
  exact (Unaware.ensure wanted).bind fun _ => .setSlot slot v

theorem raiseTop_unaware (top : Nat) : (raiseTop top).Unaware m := by
  refine (Unaware.ensure top).bind fun _ => ?_
  refine Unaware.bind (.look fun _ => rfl) fun old => .ite ?_ (.setTop top)
  exact (Unaware.onStack fun s => m.fillNil_follows s _ _).bind fun _ => .setTop top

theorem unmarkAfter_unaware {α : Type} {x : Exec α} {P : Vm → Prop} (h : x.UnawareOn m P) :
    (unmarkAfter x).UnawareOn m P := by
  intro vm hvm hs
  have hx := h vm hvm hs
  unfold unmarkAfter
  generalize x vm = o, x (m.hide vm) = o' at hx
  cases hx with
  | returned hs => exact ((markSwapped_unaware false).bind fun _ => .pure _) _ hs
  | raised hs => exact .raised hs
  | aborted h =>
    refine .aborted (h.imp_right ?_)
    rintro rfl
    rfl

/-- The cells of a loaded closure are closed. -/
theorem loadCells_within {size : Nat} (sources : List UpvalueSource) (env : Value)
    (made : Array CellRef × Upvalues) (h : made.2.Within size) :
    (sources.foldl (fun made _ => loadCell env made) made).2.Within size := by
  induction sources generalizing made with
  | nil => exact h
  | cons source rest ih => exact ih _ (h.allocate fun slot hc => by cases hc)

theorem load_unaware {proto : Prototype} (env : Value) (hp : m.rooted → proto.Scoped) :
    (load proto env).Unaware m := by
  intro vm hs
  refine .returned fun hr => ⟨?_, (hs hr).2.newClosure (hp hr)⟩
  have hcells := loadCells_within proto.upvalues.toList env (#[], vm.upvalues) (hs hr).1
  rwa [Array.foldl_toList] at hcells

/-- The host loads only prototypes that are scoped. -/
def HostOp.Scoped : HostOp → Prop
  | .load proto _ => proto.Scoped
  | _ => True

theorem reported_unaware {α : Type} {x : Exec α} {report : α → Answer}
    (h : x.UnawareOn m (AtRest limits)) (hp : x.Maintains (AtRest limits)) :
    (x >>= fun a => pure (report a)).UnawareOn m (AtRest limits) :=
  h.bind hp fun _ => (Unaware.pure _).on

section Calls
variable [m.Recording]

theorem call_unaware (func : Nat) (results : ResultCount) :
    (call fuel func results).UnawareOn m (AtRest limits) := by
  intro vm hrest hs
  rw [call_eq]
  refine Exec.Hidden.bind (beginCall_unaware func results vm hs) fun root start hbegin hstart => ?_
  refine Run.steps_hidden fuel hstart fun r' hleads _ => ?_
  exact (bounded_of_during hrest.sound hrest.firm ⟨root, start, hbegin, hleads⟩).current

theorem callInPlace_unaware (func : Nat) (results : ResultCount) :
    (callInPlace fuel func results).UnawareOn m (AtRest limits) :=
  (call_unaware fuel func results).bind ((durable_atRest limits).call fuel func results) fun _ =>
    (valuesFrom_unaware func).on

theorem callFunction_unaware (function : Value) (args : List Value) :
    (callFunction fuel function args).UnawareOn m (AtRest limits) := by
  have h := durable_atRest limits
  refine UnawareOn.bind (Unaware.look fun _ => rfl).on (.look _) fun func => ?_
  refine (pushAll_unaware _).on.bind (h.pushAll _) fun _ => ?_
  refine (callInPlace_unaware fuel func .all).bind (h.callInPlace fuel func .all) fun results => ?_
  exact ((Unaware.setTop func).bind fun _ => .pure results).on

theorem callOnce_unaware (handler : Value) (args : List Value) :
    (callOnce fuel handler args).UnawareOn m (AtRest limits) :=
  (callFunction_unaware fuel handler args).bind
    ((durable_atRest limits).callFunction fuel handler args) fun _ =>
    (Unaware.pure _).on

theorem fulfil_unaware (reply : Reply Value) : (fulfil fuel reply).UnawareOn m (AtRest limits) := by
  cases reply with
  | done v => exact (Unaware.pure v).on
  | call handler args => exact callOnce_unaware fuel handler args

theorem answer_unaware (verdict : Verdict) : (answer fuel verdict).UnawareOn m (AtRest limits) := by
  have h := durable_atRest limits
  unfold answer
  split
  · exact (Unaware.pure _).on
  · exact (callOnce_unaware fuel _ _).bind (h.callOnce fuel _ _) fun _ => (Unaware.pure _).on
  · refine (unmarkAfter_unaware (callOnce_unaware fuel _ _)).bind
      (h.unmarkAfter (h.callOnce fuel _ _)) fun _ => ?_
    exact (Unaware.pure _).on

theorem setIndex_unaware (obj key value : Value) :
    (setIndex fuel obj key value).UnawareOn m (AtRest limits) := by
  have h := durable_atRest limits
  refine (newIndex_unaware obj key value).on.bind (h.of_works (newIndex_keeps obj key value))
    fun reply => ?_
  cases reply with
  | done _ => exact (Unaware.pure _).on
  | call handler args =>
    refine (callFunction_unaware fuel handler args).bind
      (h.callFunction fuel handler args) fun _ => ?_
    exact (Unaware.pure _).on

theorem concatReversed_unaware (rounds : Nat) (reversed : List Value) :
    (concatReversed fuel rounds reversed).UnawareOn m (AtRest limits) := by
  have h := durable_atRest limits
  induction rounds generalizing reversed with
  | zero =>
    refine (concatRound_unaware reversed).on.bind (h.of_works (concatRound_keeps reversed))
      fun reply => ?_
    cases reply with
    | done v => exact (Unaware.pure v).on
    | call handler args rest => exact callOnce_unaware fuel handler args
  | succ rounds ih =>
    refine (concatRound_unaware reversed).on.bind (h.of_works (concatRound_keeps reversed))
      fun reply => ?_
    cases reply with
    | done v => exact (Unaware.pure v).on
    | call handler args rest =>
      exact (callOnce_unaware fuel handler args).bind (h.callOnce fuel handler args) fun v =>
        ih (v :: rest)

theorem HostOp.perform_unaware {op : HostOp} (hop : m.rooted → op.Scoped) :
    (op.perform fuel).UnawareOn m (AtRest limits) := by
  have h := durable_atRest limits
  cases op with
  | push v => exact reported_unaware (push_unaware v).on (h.push v)
  | poke slot v => exact reported_unaware (poke_unaware slot v).on (h.poke slot v)
  | raiseTop top => exact reported_unaware (raiseTop_unaware top).on (h.raiseTop top)
  | call func results =>
    exact reported_unaware (call_unaware fuel func results) (h.call fuel func results)
  | callFunction function args =>
    exact reported_unaware (callFunction_unaware fuel function args)
      (h.callFunction fuel function args)
  | getIndex obj key =>
    have hindex := h.of_works (index_keeps obj key)
    exact reported_unaware ((index_unaware obj key).on.bind hindex (fulfil_unaware fuel))
      (hindex.bind (h.fulfil fuel))
  | setIndex obj key value =>
    exact reported_unaware (setIndex_unaware fuel obj key value) (h.setIndex fuel obj key value)
  | applyArith op lhs rhs =>
    have harith := h.of_works (arith_keeps op lhs rhs)
    exact reported_unaware ((arith_unaware op lhs rhs).on.bind harith (fulfil_unaware fuel))
      (harith.bind (h.fulfil fuel))
  | lengthOf v =>
    have hlength := h.of_works (length_keeps v)
    exact reported_unaware ((length_unaware v).on.bind hlength (fulfil_unaware fuel))
      (hlength.bind (h.fulfil fuel))
  | isEqual lhs rhs =>
    have hequal := h.of_works (equal_keeps lhs rhs)
    exact reported_unaware ((equal_unaware lhs rhs).on.bind hequal (answer_unaware fuel))
      (hequal.bind (h.answer fuel))
  | isLess lhs rhs =>
    have hless := h.of_works (lessThan_keeps lhs rhs)
    exact reported_unaware ((lessThan_unaware lhs rhs).on.bind hless (answer_unaware fuel))
      (hless.bind (h.answer fuel))
  | isLessEqual lhs rhs =>
    have hle := h.of_works (lessEqual_keeps lhs rhs)
    exact reported_unaware ((lessEqual_unaware lhs rhs).on.bind hle (answer_unaware fuel))
      (hle.bind (h.answer fuel))
  | concatAll values =>
    have hconcat : (concatReversed fuel values.length values.reverse).UnawareOn m (AtRest limits) :=
      concatReversed_unaware fuel _ _
    rw [← concatAll_eq] at hconcat
    exact reported_unaware hconcat (h.concatAll fuel values)
  | load proto env => exact reported_unaware (load_unaware env hop).on (h.load proto env)

end Calls

/-! ## Histories -/

/-- The ends of operations that are done one after another, after errors too. -/
def history : List HostOp → Vm → List (Outcome Answer)
  | [], _ => []
  | op :: ops, vm => op.perform fuel vm :: (op.perform fuel vm).state?.elim [] (history ops)

theorem state?_report {α β : Type} (x : Exec α) (report : α → β) (vm : Vm) :
    ((x >>= fun a => pure (report a)) vm).state? = (x vm).state? := by
  show (Exec.bind x _ vm).state? = _
  unfold Exec.bind
  cases x vm <;> rfl

theorem HostOp.perform_state? (op : HostOp) (vm : Vm) :
    (op.perform fuel vm).state? = (op.run fuel vm).state? := by
  have hdiscard : ∀ {α : Type} (x : Exec α) (report : α → Answer),
      ((x >>= fun a => pure (report a)) vm).state? = ((discard x : Exec Unit) vm).state? :=
    fun x report => (state?_report x report vm).trans (state?_report x (fun _ => ()) vm).symm
  cases op with
  | push v => exact state?_report _ _ vm
  | poke slot v => exact state?_report _ _ vm
  | raiseTop top => exact state?_report _ _ vm
  | call func results => exact state?_report _ _ vm
  | setIndex obj key value => exact state?_report _ _ vm
  | callFunction function args => exact hdiscard _ _
  | getIndex obj key => exact hdiscard _ _
  | applyArith op lhs rhs => exact hdiscard _ _
  | lengthOf v => exact hdiscard _ _
  | isEqual lhs rhs => exact hdiscard _ _
  | isLess lhs rhs => exact hdiscard _ _
  | isLessEqual lhs rhs => exact hdiscard _ _
  | concatAll values => exact hdiscard _ _
  | load proto env => exact hdiscard _ _

end Vm

/-- The end of an operation under a mask. -/
def Outcome.hide (m : Mask) {α : Type} : Outcome α → Outcome α
  | .returned a vm => .returned a (m.hide vm)
  | .raised e vm => .raised e (m.hide vm)
  | .aborted why => .aborted why

namespace Outcome.Hidden
variable {m : Mask} {α : Type} {o o' : Outcome α}

theorem eq_hide (h : o.Hidden m o') (hn : ∀ why, o = .aborted why → ¬ m.excused why) :
    o' = o.hide m := by
  cases h with
  | returned _ => rfl
  | raised _ => rfl
  | aborted h => exact h.resolve_left (hn _ rfl)

theorem settled {vm : Vm} (h : o.Hidden m o') (hv : o.state? = some vm) : m.Settled vm := by
  cases h with
  | returned hs =>
    cases hv
    exact hs
  | raised hs =>
    cases hv
    exact hs
  | aborted _ => cases hv

end Outcome.Hidden

theorem Outcome.state?_hide (m : Mask) {α : Type} (o : Outcome α) :
    (o.hide m).state? = o.state?.map m.hide := by
  cases o <;> rfl

namespace Vm

theorem AtRest.perform {limits : Config} {fuel : Nat} {op : HostOp} {vm after : Vm}
    (h : AtRest limits vm) (ho : (op.perform fuel vm).state? = some after) :
    AtRest limits after := by
  rw [HostOp.perform_state?] at ho
  exact (op.run_maintains (durable_atRest limits) fuel vm h).of_state? ho

/-- A history without excused aborts is the same under a mask, but for what is hidden. -/
theorem history_hide {m : Mask} [m.Recording] {limits : Config} (fuel : Nat) {ops : List HostOp}
    {vm : Vm} (hrest : AtRest limits vm) (hs : m.Settled vm)
    (hops : ∀ op ∈ ops, m.rooted → op.Scoped)
    (hn : ∀ o ∈ history fuel ops vm, ∀ why, o = .aborted why → ¬ m.excused why) :
    history fuel ops (m.hide vm) = (history fuel ops vm).map (Outcome.hide m) := by
  induction ops generalizing vm with
  | nil => rfl
  | cons op ops ih =>
    have hop := HostOp.perform_unaware fuel (hops op List.mem_cons_self) vm hrest hs
    have hsame := hop.eq_hide (hn _ List.mem_cons_self)
    rw [history, history, hsame, Outcome.state?_hide, List.map_cons]
    cases hafter : (op.perform fuel vm).state? with
    | none => rfl
    | some after =>
      have hlater : ∀ o ∈ history fuel ops after, ∀ why, o = .aborted why → ¬ m.excused why := by
        intro o ho
        refine hn o ?_
        rw [history, hafter]
        exact List.mem_cons_of_mem _ ho
      simp only [Option.map_some, Option.elim_some]
      rw [ih (hrest.perform hafter) (hop.settled hafter)
        (fun op' hm => hops op' (List.mem_cons_of_mem _ hm)) hlater]

end Vm

end LuaMachine
