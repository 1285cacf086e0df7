import LuaMachine.Proofs.MaskedRuns

/-!
# The log of executed instructions

A machine that records its execution adds every instruction it fetches to a log, in groups of one
prototype. Nothing else writes to the log. So after any operation of the host, what was added is the
course of that operation: the instructions that its runs fetch, step by step and with all nested
calls. The course is read off the runs themselves, and not off the log.
-/
namespace LuaMachine

/-! ## Groups -/

/-- Positions of instructions, each with its prototype, in the order in which they are fetched. -/
abbrev Course := List (Prototype × Nat)

/-- A course with only the identities of its prototypes. -/
def Course.identities (course : Course) : List (Nat × Nat) := course.map fun p => (p.1.id, p.2)

/-- A prototype of the course is known by its identity. -/
def Course.Distinct (course : Course) : Prop :=
  ∀ p ∈ course, ∀ q ∈ course, p.1.id = q.1.id → p.1 = q.1

def TraceGroup.course (g : TraceGroup) : Course := g.pcs.toList.map fun pc => (g.proto, pc)

/-- All instructions of a log in order. -/
def flattened (log : Array TraceGroup) : Course := log.toList.flatMap TraceGroup.course

/-- The log is the course in groups: none is empty, and one ends only where the next prototype is
another one. -/
structure Groups (log : Array TraceGroup) (course : Course) : Prop where
  identities : (flattened log).identities = course.identities
  flattened : course.Distinct → flattened log = course
  nonempty : ∀ g ∈ log.toList, g.pcs.toList ≠ []
  apart : log.toList.IsChain fun g g' => g.proto.id ≠ g'.proto.id

/-- The log after a course. -/
def recorded (course : Course) (log : Array TraceGroup) : Array TraceGroup :=
  course.foldl (fun log p => Vm.appendTrace log p.1 p.2) log

theorem recorded_append (c c' : Course) (log : Array TraceGroup) :
    recorded (c ++ c') log = recorded c' (recorded c log) := List.foldl_append

theorem map_recorded_append (c c' : Course) (trace : Option (Array TraceGroup)) :
    trace.map (recorded (c ++ c')) = (trace.map (recorded c)).map (recorded c') := by
  cases trace with
  | none => rfl
  | some log => simp [recorded_append]

theorem Course.identities_append (c c' : Course) :
    identities (c ++ c') = c.identities ++ c'.identities :=
  List.map_append

theorem Course.Distinct.left {c c' : Course} (h : Distinct (c ++ c')) : c.Distinct :=
  fun p hp q hq =>
  h p (List.mem_append_left _ hp) q (List.mem_append_left _ hq)

/-- An instruction joins the last group if that one is of its prototype, and begins a new group
otherwise. -/
theorem appendTrace_cases (log : Array TraceGroup) (p : Prototype) (pc : Nat) :
    (∃ init g, log.toList = init ++ [g] ∧ g.proto.id = p.id ∧
      (Vm.appendTrace log p pc).toList = init ++ [{ g with pcs := g.pcs.push pc }]) ∨
    (∀ g ∈ log.toList.getLast?, g.proto.id ≠ p.id) ∧
      (Vm.appendTrace log p pc).toList = log.toList ++ [{ proto := p, pcs := #[pc] }] := by
  obtain ⟨l⟩ := log
  rcases List.eq_nil_or_concat' l with rfl | ⟨init, g, rfl⟩
  · right
    simp [Vm.appendTrace]
  · by_cases hid : g.proto.id = p.id
    · left
      refine ⟨init, g, rfl, hid, ?_⟩
      simp [Vm.appendTrace, hid, List.modify_eq_take_drop]
    · right
      simp [Vm.appendTrace, hid]

/-- The new instruction comes last, under a prototype of its identity. That is its own one or one of
the log. -/
theorem flattened_appendTrace (log : Array TraceGroup) (p : Prototype) (pc : Nat) :
    ∃ q : Prototype, q.id = p.id ∧ (q = p ∨ ∃ g ∈ log.toList, g.proto = q) ∧
      flattened (Vm.appendTrace log p pc) = flattened log ++ [(q, pc)] := by
  rcases appendTrace_cases log p pc with ⟨init, g, hlog, hid, happend⟩ | ⟨-, happend⟩
  · refine ⟨g.proto, hid, .inr ⟨g, by simp [hlog], rfl⟩, ?_⟩
    simp [flattened, hlog, happend, TraceGroup.course]
  · refine ⟨p, rfl, .inl rfl, ?_⟩
    simp [flattened, happend, TraceGroup.course]

namespace Groups
variable {log : Array TraceGroup} {course : Course}

/-- The prototype of a group was fetched. -/
theorem mem_course (h : Groups log course) (hd : course.Distinct) {g : TraceGroup}
    (hg : g ∈ log.toList) : ∃ pc, (g.proto, pc) ∈ course := by
  obtain ⟨pc, hpc⟩ := List.exists_mem_of_ne_nil _ (h.nonempty g hg)
  refine ⟨pc, ?_⟩
  rw [← h.flattened hd]
  exact List.mem_flatMap.mpr ⟨g, hg, List.mem_map.mpr ⟨pc, hpc, rfl⟩⟩

/-- Recording one more instruction. -/
theorem append (h : Groups log course) (p : Prototype) (pc : Nat) :
    Groups (Vm.appendTrace log p pc) (course ++ [(p, pc)]) := by
  obtain ⟨q, hid, hq, hflat⟩ := flattened_appendTrace log p pc
  constructor
  case identities =>
    rw [hflat, Course.identities_append, Course.identities_append, h.identities]
    simp [Course.identities, hid]
  case flattened =>
    intro hd
    have hsame : q = p := by
      rcases hq with hq | ⟨g, hg, rfl⟩
      · exact hq
      · obtain ⟨pc', hfetched⟩ := h.mem_course hd.left hg
        exact hd _ (List.mem_append_left _ hfetched) (p, pc) (by simp) hid
    rw [hflat, h.flattened hd.left, hsame]
  case nonempty =>
    intro g' hg'
    rcases appendTrace_cases log p pc with ⟨init, g, hlog, -, happend⟩ | ⟨-, happend⟩
    · rw [happend] at hg'
      rcases List.mem_append.mp hg' with hg' | hg'
      · exact h.nonempty g' (by simp [hlog, hg'])
      · simp [List.mem_singleton.mp hg']
    · rw [happend] at hg'
      rcases List.mem_append.mp hg' with hg' | hg'
      · exact h.nonempty g' hg'
      · simp [List.mem_singleton.mp hg']
  case apart =>
    have hapart := h.apart
    rcases appendTrace_cases log p pc with ⟨init, g, hlog, -, happend⟩ | ⟨hlast, happend⟩
    · rw [hlog, List.isChain_append] at hapart
      rw [happend, List.isChain_append]
      exact ⟨hapart.1, List.isChain_singleton _, by simpa using hapart.2.2⟩
    · rw [happend, List.isChain_append]
      exact ⟨hapart, List.isChain_singleton _, by simpa using hlast⟩

theorem extend (h : Groups log course) (more : Course) :
    Groups (recorded more log) (course ++ more) := by
  induction more generalizing log course with
  | nil => simpa [recorded] using h
  | cons p more ih =>
    have hmore := ih (h.append p.1 p.2)
    rwa [List.append_assoc] at hmore

theorem of_recorded (course : Course) : Groups (recorded course #[]) course := by
  have hempty : Groups #[] [] := ⟨rfl, fun _ => rfl, by simp, List.isChain_nil⟩
  exact hempty.extend course

end Groups

/-! ## Courses -/

/-- The course of what comes after an operation. -/
def Exec.next {α : Type} (x : Exec α) (course : α → Vm → Course) (vm : Vm) : Course :=
  match x vm with
  | .returned a mid => course a mid
  | .raised _ _ | .aborted _ => []

/-- The instruction that the next step fetches. -/
def Vm.fetching? (vm : Vm) : Option (Prototype × Nat) :=
  vm.frames.current.closure.bind fun r =>
    let proto := (vm.heap.closureAt r).proto
    proto.code[vm.frames.current.pc]?.map fun _ => (proto, vm.frames.current.pc)

/-- The instructions that a run fetches. -/
def Run.course : Nat → Run → Course
  | 0, _ => []
  | fuel + 1, r =>
    r.vm.fetching?.toList ++
      match r.step with
      | .running r => course fuel r
      | .ended _ => []

namespace Vm
variable (fuel : Nat)

def callCourse (func : Nat) (results : ResultCount) : Vm → Course :=
  (beginCall func results).next fun root vm => Run.course fuel { vm, root }

def callFunctionCourse (function : Value) (args : List Value) (vm : Vm) : Course :=
  (pushAll (function :: args)).next (fun _ => callCourse fuel vm.top .all) vm

def replyCourse {α : Type} : Reply α → Vm → Course
  | .done _, _ => []
  | .call handler args, vm => callFunctionCourse fuel handler args vm

def answerCourse : Verdict → Vm → Course
  | .decided _, _ => []
  | .ask _ handler args, vm => callFunctionCourse fuel handler args vm

/-- The course of a concatenation, with the rounds that follow the call of a handler. -/
def concatCourse : Nat → List Value → Vm → Course
  | 0, reversed => (concatRound reversed).next fun
    | .done _, _ => []
    | .call handler args _, vm => callFunctionCourse fuel handler args vm
  | rounds + 1, reversed => (concatRound reversed).next fun
    | .done _, _ => []
    | .call handler args rest, vm =>
      callFunctionCourse fuel handler args vm ++
        (callOnce fuel handler args).next (fun v => concatCourse rounds (v :: rest)) vm

/-- The instructions that an operation of the host fetches. -/
def HostOp.course : HostOp → Vm → Course
  | .push _, _ | .poke _ _, _ | .raiseTop _, _ | .load _ _, _ => []
  | .call func results, vm => callCourse fuel func results vm
  | .callFunction function args, vm => callFunctionCourse fuel function args vm
  | .getIndex obj key, vm => (index obj key).next (replyCourse fuel) vm
  | .setIndex obj key value, vm => (newIndex obj key value).next (replyCourse fuel) vm
  | .applyArith op lhs rhs, vm => (arith op lhs rhs).next (replyCourse fuel) vm
  | .lengthOf v, vm => (length v).next (replyCourse fuel) vm
  | .isEqual lhs rhs, vm => (equal lhs rhs).next (answerCourse fuel) vm
  | .isLess lhs rhs, vm => (lessThan lhs rhs).next (answerCourse fuel) vm
  | .isLessEqual lhs rhs, vm => (lessEqual lhs rhs).next (answerCourse fuel) vm
  | .concatAll values, vm => concatCourse fuel values.length values.reverse vm

/-- The instructions that a session fetches. -/
def sessionCourse : List HostOp → Vm → Course
  | [], _ => []
  | op :: ops, vm => op.course fuel vm ++ (op.perform fuel vm).state?.elim [] (sessionCourse ops)

end Vm

/-! ## What is logged -/

/-- The mask that puts a log in the place of the trace, and marks the configuration. -/
def Mask.logAs (log : Option (Array TraceGroup)) (mark : Config → Bool) : Mask where
  stack := id
  config := fun c => { c with recordTrace := mark c }
  trace := fun _ => log
  consultations := id
  excused := fun _ => False
  rooted := False
  limit := fun _ => rfl
  peek := fun _ _ => rfl
  get := fun s slot => .refl (s.get slot)
  set := fun s slot v => .refl (s.set slot v)
  assign := fun _ _ _ _ => rfl
  slice := fun s start stop => .refl (s.slice start stop)
  ensure? := fun s wanted => by
    rw [Option.map_id]
    exact .refl (s.ensure? wanted)
  maxCallDepth := fun _ => rfl
  maxHostCalls := fun _ => rfl
  consult := .inr ⟨fun _ => rfl, fun _ => rfl⟩

theorem Mask.settled_logAs (log : Option (Array TraceGroup)) (mark : Config → Bool) (vm : Vm) :
    (logAs log mark).Settled vm := False.elim

/-- The mask that changes nothing in a machine with this log. -/
def Mask.asLogged (log : Option (Array TraceGroup)) : Mask := .logAs log (·.recordTrace)

theorem Mask.hide_asLogged (vm : Vm) : (asLogged vm.trace).hide vm = vm := rfl

theorem Outcome.Hidden.trace_eq {log : Option (Array TraceGroup)} {α : Type} {o : Outcome α}
    {after : Vm} (h : o.Hidden (.asLogged log) o) (ho : o.state? = some after) :
    after.trace = log := by
  have hsame := congrArg Outcome.state? (h.eq_hide fun _ _ => id)
  rw [state?_hide, ho] at hsame
  exact congrArg Vm.trace (Option.some.inj hsame)

namespace Exec
variable {α β : Type} {x : Exec α} {f : α → Exec β} {c : Vm → Course} {d : α → Vm → Course}

/-- What the operation adds to the log is its course. -/
def Logs (x : Exec α) (course : Vm → Course) : Prop :=
  ∀ vm after, (x vm).state? = some after → after.trace = vm.trace.map (recorded (course vm))

/-- The operation leaves the log alone. -/
def Silent (x : Exec α) : Prop := x.Logs fun _ => []

theorem silent_iff :
    x.Silent ↔ ∀ vm after, (x vm).state? = some after → after.trace = vm.trace := by
  have hnone : recorded [] = id := rfl
  simp [Silent, Logs, hnone]

/-- An operation that does not see what is in the place of the trace cannot have changed it. -/
theorem Silent.of_unaware (h : ∀ log, x.Unaware (.asLogged log)) : x.Silent :=
  silent_iff.mpr fun vm _ ho => (h vm.trace vm (Mask.settled_logAs _ _ vm)).trace_eq ho

theorem Logs.bind (hx : x.Logs c) (hf : ∀ a, (f a).Logs (d a)) :
    (x >>= f).Logs fun vm => c vm ++ x.next d vm := by
  intro vm after ho
  change (Exec.bind x f vm).state? = some after at ho
  have hx := hx vm
  show after.trace = vm.trace.map (recorded (c vm ++ x.next d vm))
  unfold Exec.bind at ho
  unfold next
  cases hxv : x vm with
  | returned a mid =>
    rw [hxv] at ho hx
    rw [hf a mid after ho, hx mid rfl, map_recorded_append]
  | raised e mid =>
    rw [hxv] at ho hx
    rw [hx after ho, List.append_nil]
  | aborted why =>
    rw [hxv] at ho
    cases ho

theorem Silent.bind (hx : x.Silent) (hf : ∀ a, (f a).Logs (d a)) : (x >>= f).Logs (x.next d) := by
  simpa using Logs.bind hx hf

theorem next_nil (x : Exec α) (vm : Vm) : x.next (fun _ _ => []) vm = [] := by
  unfold next
  split <;> rfl

theorem Logs.bind_silent (hx : x.Logs c) (hf : ∀ a, (f a).Silent) : (x >>= f).Logs c := by
  simpa [next_nil] using hx.bind hf

theorem Silent.pure (a : α) : (Pure.pure a : Exec α).Silent := .of_unaware fun _ => .pure a

end Exec

open Exec (Logs Silent)

/-! ## Steps -/

namespace Vm

/-- To fetch an instruction raises no error. -/
theorem beginStep_ne_raised (vm : Vm) (e : LuaError) (after : Vm) :
    beginStep vm ≠ .raised e after := by
  intro hbegin
  cases hc : vm.frames.current.closure with
  | none =>
    have habort : beginStep vm = .aborted (.fault .noClosure) := by
      rw [beginStep,
        Exec.bind_of_returned (rfl : Exec.currentFrame vm = .returned vm.frames.current vm)]
      simp only [hc]
      rfl
    rw [habort] at hbegin
    cases hbegin
  | some r =>
    have hpost :=
      beginStep_post (Option.isSome_iff_exists.mpr ⟨r, hc⟩) (rfl : vm.frames.current.base = _)
    exact hpost.of_raised hbegin

theorem beginStep_logs : beginStep.Logs fun vm => vm.fetching?.toList := by
  intro vm after ho
  cases hbegin : beginStep vm with
  | returned x mid =>
    obtain ⟨r, instr, hr, hi, -, rfl⟩ := beginStep_eq_returned hbegin
    rw [hbegin] at ho
    cases ho
    have hfetching : vm.fetching? = some ((vm.heap.closureAt r).proto, vm.frames.current.pc) := by
      simp [fetching?, hr, hi]
    simp only [hfetching]
    rfl
  | raised e mid => exact absurd hbegin (beginStep_ne_raised vm e mid)
  | aborted why =>
    rw [hbegin] at ho
    cases ho

/-- The only entry that an instruction makes is its own, and that is made before it is executed. -/
theorem dispatch_logs : dispatch.Logs fun vm => vm.fetching?.toList := by
  refine beginStep_logs.bind_silent fun x => .of_unaware fun log => ?_
  cases x.instr.op? with
  | none => exact .malformed _
  | some op => exact fun vm hs => execute_hidden op hs False.elim

end Vm

namespace Run

theorem Progress.Hidden.trace_eq {log : Option (Array TraceGroup)} {p p' : Progress} {after : Vm}
    (h : p.Hidden (.asLogged log) p') (hsame : p' = p) (hp : p.state? = some after) :
    after.trace = log := by
  cases h with
  | running hs =>
    cases hp
    exact congrArg (fun r : Run => r.vm.trace) (Progress.running.inj hsame).symm
  | ended ho =>
    obtain rfl := Progress.ended.inj hsame
    exact ho.trace_eq hp
  | excused hexcused => exact hexcused.elim

theorem after_logs {α : Type} {x : Exec α} {c : Vm → Course} {p : α → Vm → Progress}
    {y : LuaError → Exec Unit} (hx : x.Logs c)
    (hp : ∀ a mid after, (p a mid).state? = some after → after.trace = mid.trace)
    (hy : ∀ e, (y e).Silent) {vm after : Vm} (ha : (Run.after x p y vm).state? = some after) :
    after.trace = vm.trace.map (recorded (c vm)) := by
  have hx := hx vm
  unfold Run.after at ha
  cases hxv : x vm with
  | returned a mid =>
    rw [hxv] at ha hx
    rw [hp a mid after ha, hx mid rfl]
  | raised e mid =>
    rw [hxv] at ha hx
    rw [Exec.silent_iff.mp (hy e) mid after ha, hx mid rfl]
  | aborted why =>
    rw [hxv] at ha
    cases ha

/-- A step logs what it fetches. -/
theorem step_logs {r : Run} {after : Vm} (h : r.step.state? = some after) :
    after.trace = r.vm.trace.map (recorded r.vm.fetching?.toList) := by
  obtain ⟨vm, root, suspended⟩ := r
  rw [step_eq_after] at h
  refine after_logs Vm.dispatch_logs (fun action mid after hp => ?_)
    (fun e => .of_unaware fun _ => fail_unaware e _ _) h
  have hhidden : (afterAction root suspended action mid).Hidden (.asLogged mid.trace) _ :=
    afterAction_hidden action (Mask.settled_logAs _ _ mid)
  exact hhidden.trace_eq (by rw [Mask.hide_asLogged]) hp

/-- A run logs its course. -/
theorem steps_logs {fuel : Nat} {r : Run} {after : Vm} (h : (steps fuel r).state? = some after) :
    after.trace = r.vm.trace.map (recorded (r.course fuel)) := by
  induction fuel generalizing r with
  | zero => cases h
  | succ fuel ih =>
    unfold steps at h
    unfold course
    cases hstep : r.step with
    | running next =>
      rw [hstep] at h
      have hnext := step_logs (congrArg Progress.state? hstep)
      rw [ih h, hnext, map_recorded_append]
    | ended o =>
      rw [hstep] at h
      rw [List.append_nil]
      exact step_logs ((congrArg Progress.state? hstep).trans h)

end Run

/-! ## Operations of the host -/

namespace Vm
variable (fuel : Nat)

theorem call_logs (func : Nat) (results : ResultCount) :
    (call fuel func results).Logs (callCourse fuel func results) := by
  rw [call_eq]
  refine Silent.bind (.of_unaware fun _ => beginCall_unaware func results) fun root vm after h => ?_
  exact Run.steps_logs h

theorem callInPlace_logs (func : Nat) (results : ResultCount) :
    (callInPlace fuel func results).Logs (callCourse fuel func results) :=
  (call_logs fuel func results).bind_silent fun _ => .of_unaware fun _ => valuesFrom_unaware func

theorem callFunction_logs (function : Value) (args : List Value) :
    (callFunction fuel function args).Logs (callFunctionCourse fuel function args) := by
  intro vm after h
  rw [callFunction_eq] at h
  have hpush : (pushAll (function :: args)).Silent := .of_unaware fun _ => pushAll_unaware _
  refine hpush.bind (fun _ => ?_) vm after h
  refine (callInPlace_logs fuel vm.top .all).bind_silent fun results => .of_unaware fun _ => ?_
  exact (Exec.Unaware.setTop vm.top).bind fun _ => .pure results

theorem callOnce_logs (handler : Value) (args : List Value) :
    (callOnce fuel handler args).Logs (callFunctionCourse fuel handler args) :=
  (callFunction_logs fuel handler args).bind_silent fun _ => .pure _

theorem fulfil_logs (reply : Reply Value) : (fulfil fuel reply).Logs (replyCourse fuel reply) := by
  cases reply with
  | done v => exact Silent.pure v
  | call handler args => exact callOnce_logs fuel handler args

theorem unmarkAfter_logs {α : Type} {x : Exec α} {c : Vm → Course} (hx : x.Logs c) :
    (unmarkAfter x).Logs c := by
  have hmark : (markSwapped false).Silent := .of_unaware fun _ => markSwapped_unaware false
  intro vm after h
  have hx := hx vm
  unfold unmarkAfter at h
  cases hxv : x vm with
  | returned a mid =>
    rw [hxv] at h hx
    have hpure := hmark.bind_silent fun _ => Silent.pure a
    rw [Exec.silent_iff.mp hpure mid after h, hx mid rfl]
  | raised e mid =>
    rw [hxv] at h hx
    have hsame : after.trace = mid.trace := by
      refine Exec.silent_iff.mp hmark mid after ?_
      dsimp only at h
      cases hm : markSwapped false mid <;> rw [hm] at h <;> exact h
    rw [hsame, hx mid rfl]
  | aborted why =>
    rw [hxv] at h
    cases h

theorem answer_logs (verdict : Verdict) :
    (answer fuel verdict).Logs (answerCourse fuel verdict) := by
  unfold answer
  split
  · exact Silent.pure _
  · exact (callOnce_logs fuel _ _).bind_silent fun _ => .pure _
  · exact (unmarkAfter_logs (callOnce_logs fuel _ _)).bind_silent fun _ => .pure _

theorem setIndex_logs (obj key value : Value) :
    (setIndex fuel obj key value).Logs ((newIndex obj key value).next (replyCourse fuel)) := by
  refine Silent.bind (.of_unaware fun _ => newIndex_unaware obj key value) fun reply => ?_
  cases reply with
  | done _ => exact Silent.pure _
  | call handler args => exact (callFunction_logs fuel handler args).bind_silent fun _ => .pure _

theorem concatReversed_logs (rounds : Nat) (reversed : List Value) :
    (concatReversed fuel rounds reversed).Logs (concatCourse fuel rounds reversed) := by
  have hround : ∀ reversed, (concatRound reversed).Silent := fun reversed => .of_unaware fun _ =>
    concatRound_unaware reversed
  induction rounds generalizing reversed with
  | zero =>
    unfold concatCourse
    refine (hround reversed).bind fun reply => ?_
    cases reply with
    | done v => exact Silent.pure v
    | call handler args rest => exact callOnce_logs fuel handler args
  | succ rounds ih =>
    unfold concatCourse
    refine (hround reversed).bind fun reply => ?_
    cases reply with
    | done v => exact Silent.pure v
    | call handler args rest => exact (callOnce_logs fuel handler args).bind fun v => ih (v :: rest)

theorem load_silent (proto : Prototype) (env : Value) : (load proto env).Silent :=
  .of_unaware fun _ => load_unaware env False.elim

theorem HostOp.perform_logs (op : HostOp) : (op.perform fuel).Logs (op.course fuel) := by
  have hreported : ∀ {α : Type} {x : Exec α} {c : Vm → Course} (report : α → Answer), x.Logs c →
      (x >>= fun a => pure (report a)).Logs c := fun report hx => hx.bind_silent fun _ => .pure _
  cases op with
  | push v => exact hreported _ (Silent.of_unaware fun _ => push_unaware v)
  | poke slot v => exact hreported _ (Silent.of_unaware fun _ => poke_unaware slot v)
  | raiseTop top => exact hreported _ (Silent.of_unaware fun _ => raiseTop_unaware top)
  | call func results => exact hreported _ (call_logs fuel func results)
  | callFunction function args => exact hreported _ (callFunction_logs fuel function args)
  | getIndex obj key =>
    exact hreported _ (Silent.bind (.of_unaware fun _ => index_unaware obj key) (fulfil_logs fuel))
  | setIndex obj key value => exact hreported _ (setIndex_logs fuel obj key value)
  | applyArith op lhs rhs =>
    exact hreported
      _ (Silent.bind (.of_unaware fun _ => arith_unaware op lhs rhs) (fulfil_logs fuel))
  | lengthOf v =>
    exact hreported _ (Silent.bind (.of_unaware fun _ => length_unaware v) (fulfil_logs fuel))
  | isEqual lhs rhs =>
    exact hreported _ (Silent.bind (.of_unaware fun _ => equal_unaware lhs rhs) (answer_logs fuel))
  | isLess lhs rhs =>
    exact hreported
      _ (Silent.bind (.of_unaware fun _ => lessThan_unaware lhs rhs) (answer_logs fuel))
  | isLessEqual lhs rhs =>
    exact hreported
      _ (Silent.bind (.of_unaware fun _ => lessEqual_unaware lhs rhs) (answer_logs fuel))
  | concatAll values =>
    have hconcat := concatReversed_logs fuel values.length values.reverse
    rw [← concatAll_eq] at hconcat
    exact hreported _ hconcat
  | load proto env => exact hreported _ (load_silent proto env)

end Vm

end LuaMachine
