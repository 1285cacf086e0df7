import LuaMachine.Proofs.Nesting

/-!
# Reachable states

The host creates a machine and then uses its operations in any order, with any values and any
bytecode. The states that come about this way, those inside a run included, all have a sound table
of open upvalues, and no operation of the host ends in an internal fault.
-/
namespace LuaMachine

open Relation (ReflTransGen)
open Exec (Keeps Post)

namespace Exec

/-- The operation maintains a condition on the state, whether it returns or fails, and meets no
internal fault. -/
def Maintains (P : Vm → Prop) {α : Type} (x : Exec α) : Prop :=
  ∀ vm, P vm → x.Post vm (fun _ => P) P

section Maintains
variable {P : Vm → Prop} {α β : Type} {x : Exec α} {f : α → Exec β}

theorem Maintains.bind (hx : x.Maintains P) (hf : ∀ a, (f a).Maintains P) : (x >>= f).Maintains P :=
  fun vm hp => Post.bind ((hx vm hp).mono (fun a mid _ hm => hf a mid hm) fun _ h => h)

theorem Maintains.pure (a : α) : (Pure.pure a : Exec α).Maintains P := fun _ hp => hp

theorem Maintains.look (g : Vm → α) : (Exec.look g).Maintains P := fun _ hp => hp

theorem Maintains.discard (h : x.Maintains P) : (discard x).Maintains P := by
  show (x >>= fun _ => Pure.pure ()).Maintains P
  exact h.bind fun _ => .pure _

end Maintains

end Exec

namespace Vm

/-! ## Operations of the host -/

/-- Calls the function that is in the slot `func` and takes its results from there. -/
def callPushed (fuel func : Nat) : Exec (List Value) := do
  let results ← callInPlace fuel func .all
  Exec.setTop func
  return results

theorem callFunction_eq (fuel : Nat) (function : Value) (args : List Value) (vm : Vm) :
    callFunction fuel function args vm =
      (pushAll (function :: args) >>= fun _ => callPushed fuel vm.top) vm := rfl

/-- Joins operands in reverse, calling handlers where needed. -/
def concatReversed (fuel : Nat) : Nat → List Value → Exec Value
  | 0, reversed => do
    match ← concatRound reversed with
    | .done v => return v
    | .call handler args _ => callOnce fuel handler args
  | rounds + 1, reversed => do
    match ← concatRound reversed with
    | .done v => return v
    | .call handler args rest =>
      let v ← callOnce fuel handler args
      concatReversed fuel rounds (v :: rest)

/-- A pair that needs a handler stands before the operands that remain. -/
theorem length_lt_of_joinRun {reversed rest : List Value} {lhs rhs : Value}
    (h : joinRun reversed = .ask lhs rhs rest) : rest.length + 1 < reversed.length := by
  unfold joinRun at h
  split at h
  · cases h
  · cases h
  · next rhs' lhs' operands =>
    split_ifs at h with hrun
    · rw [Bool.and_eq_true] at hrun
      dsimp only at h
      rw [List.dropWhile_cons_of_pos hrun.2, List.dropWhile_cons_of_pos hrun.1] at h
      split at h
      · cases h
      · next l left hleft =>
        cases h
        have hle := (List.dropWhile_suffix Value.isConcatenable (l := operands)).length_le
        rw [hleft, List.length_cons] at hle
        simp only [List.length_cons]
        omega
    · cases h
      simp

/-- Rounds of joining and handlers in turn are the concatenation with the hooks of the machine. -/
theorem concatAll_eq (fuel : Nat) (values : List Value) :
    concatAll fuel values = concatReversed fuel values.length values.reverse := by
  have hrounds : ∀ (rounds : Nat) (reversed : List Value), reversed.length ≤ rounds →
      joinWith (concatHook fuel) Exec.raise rounds reversed =
        concatReversed fuel rounds reversed := by
    intro rounds
    induction rounds with
    | zero =>
      intro reversed hlength
      rw [List.eq_nil_of_length_eq_zero (Nat.le_zero.mp hlength)]
      rfl
    | succ rounds ih =>
      intro reversed hlength
      unfold joinWith concatReversed concatRound
      cases hjoin : joinRun reversed with
      | done v => rfl
      | ask lhs rhs rest =>
        have hlt := length_lt_of_joinRun hjoin
        simp only [concatHook, bind_assoc]
        refine bind_congr fun handler => ?_
        cases handler with
        | none => simp only [pure_bind]; rfl
        | some handler =>
          simp only [bind_assoc, pure_bind]
          exact bind_congr fun v => ih _ (by simp only [List.length_cons]; omega)
  exact hrounds _ _ (by rw [List.length_reverse])

/-- A condition that every change in place, every call and every loading of a closure maintains. -/
structure Durable (P : Vm → Prop) : Prop where
  work : ∀ {vm after : Vm}, Work 0 vm after → P vm → P after
  call : ∀ fuel func results, (Vm.call fuel func results).Maintains P
  load : ∀ proto env, (Vm.load proto env).Maintains P

namespace Durable
variable {P : Vm → Prop} {α : Type} {x : Exec α} (h : Durable P) (fuel : Nat)

include h

theorem works {vm after : Vm} (hw : ReflTransGen (Work 0) vm after) (hp : P vm) : P after := by
  induction hw with
  | refl => exact hp
  | tail _ hs ih => exact h.work hs ih

theorem of_works (hx : x.Keeps (Work 0)) : x.Maintains P :=
  fun vm hp => (hx vm).mono (fun _ _ _ hw => h.works hw hp) fun _ hw => h.works hw hp

theorem of_shifts (hx : x.Keeps (Shift 0)) : x.Maintains P := h.of_works hx.work

theorem poke (slot : Nat) (v : Value) : (poke slot v).Maintains P := by
  refine h.of_shifts ((Keeps.check (Checked.add_yields _ _)).bind fun wanted => ?_)
  exact (Exec.ensure_keeps wanted).bind fun _ => Exec.setSlot_keeps v (Nat.zero_le _)

theorem pushAll (vs : List Value) : (pushAll vs).Maintains P :=
  h.of_shifts fun _ => pushAll_post vs (Nat.zero_le _)

theorem push (v : Value) : (push v).Maintains P :=
  h.of_shifts fun _ => (push_post v (Nat.zero_le _)).mono (fun _ _ _ h => h.2) fun _ h => h

theorem raiseTop (top : Nat) : (raiseTop top).Maintains P := by
  refine h.of_shifts ((Exec.ensure_keeps top).bind fun _ => ?_)
  refine (Keeps.look _).bind fun old => ?_
  have hset : (Exec.setTop top).Keeps (Shift 0) := Exec.setTop_keeps (Nat.zero_le _)
  refine Keeps.ite (fun _ => ?_) fun _ => hset
  exact (Exec.onStack_keeps fun s => s.fillNil_yields _ (Nat.zero_le _)).bind fun _ => hset

theorem callInPlace (func : Nat) (results : ResultCount) :
    (callInPlace fuel func results).Maintains P := by
  refine (h.call fuel func results).bind fun _ vm hp => ?_
  exact Post.bind (Post.look (Post.check ((vm.stack.slice_yields func vm.top).mono fun _ _ => hp)))

theorem callFunction (function : Value) (args : List Value) :
    (callFunction fuel function args).Maintains P := by
  refine (Exec.Maintains.look _).bind fun func => ?_
  refine (h.pushAll _).bind fun _ => ?_
  refine (h.callInPlace fuel func .all).bind fun results => ?_
  exact (h.of_shifts (Exec.setTop_keeps (Nat.zero_le _))).bind fun _ => .pure _

theorem callOnce (handler : Value) (args : List Value) : (callOnce fuel handler args).Maintains P :=
  (h.callFunction fuel handler args).bind fun _ => .pure _

theorem fulfil (reply : Reply Value) : (fulfil fuel reply).Maintains P := by
  cases reply with
  | done v => exact .pure v
  | call handler args => exact h.callOnce fuel handler args

theorem unmarkAfter (hx : x.Maintains P) : (unmarkAfter x).Maintains P := by
  have hunmark : (markSwapped false).Maintains P := h.of_works (markSwapped_keeps false)
  intro vm hp
  have hx := hx vm hp
  unfold Post Vm.unmarkAfter
  cases ho : x vm with
  | aborted why => exact hx.of_aborted ho
  | returned a mid => exact (hunmark.bind fun _ => .pure a) mid (hx.of_returned ho)
  | raised e mid =>
    have hm := hunmark mid (hx.of_raised ho)
    dsimp only
    cases hs : markSwapped false mid with
    | returned _ after => exact hm.of_returned hs
    | raised _ after => exact hm.of_raised hs
    | aborted why => exact hm.of_aborted hs

theorem answer (verdict : Verdict) : (answer fuel verdict).Maintains P := by
  unfold Vm.answer
  split
  · exact .pure _
  · exact (h.callOnce fuel _ _).bind fun _ => .pure _
  · exact (h.unmarkAfter (h.callOnce fuel _ _)).bind fun _ => .pure _

theorem setIndex (obj key value : Value) : (setIndex fuel obj key value).Maintains P := by
  refine (h.of_works (newIndex_keeps obj key value)).bind fun reply => ?_
  cases reply with
  | done _ => exact .pure _
  | call handler args => exact (h.callFunction fuel handler args).bind fun _ => .pure _

theorem concatReversed (rounds : Nat) (reversed : List Value) :
    (concatReversed fuel rounds reversed).Maintains P := by
  induction rounds generalizing reversed with
  | zero =>
    refine (h.of_works (concatRound_keeps reversed)).bind fun reply => ?_
    cases reply with
    | done v => exact .pure v
    | call handler args rest => exact h.callOnce fuel handler args
  | succ rounds ih =>
    refine (h.of_works (concatRound_keeps reversed)).bind fun reply => ?_
    cases reply with
    | done v => exact .pure v
    | call handler args rest => exact (h.callOnce fuel handler args).bind fun v => ih (v :: rest)

theorem concatAll (values : List Value) : (concatAll fuel values).Maintains P := by
  rw [concatAll_eq]
  exact h.concatReversed fuel _ _

end Durable

/-- The cells of a loaded closure are closed. -/
theorem load_sound (proto : Prototype) (env : Value) :
    (load proto env).Maintains fun vm => vm.upvalues.Sound := by
  intro vm hu
  unfold Post load
  rw [← Array.foldl_toList]
  have hcells : ∀ (sources : List UpvalueSource) (made : Array CellRef × Upvalues), made.2.Sound →
      (sources.foldl (fun made _ => loadCell env made) made).2.Sound := by
    intro sources
    induction sources with
    | nil => exact fun _ hm => hm
    | cons _ rest ih => exact fun made hm => ih _ (hm.allocateClosed _)
  exact hcells proto.upvalues.toList (#[], vm.upvalues) hu

theorem call_sound (fuel func : Nat) (results : ResultCount) :
    (call fuel func results).Maintains fun vm => vm.upvalues.Sound := by
  intro vm hu
  refine (call_post hu fuel).mono ?_ ?_
  · exact fun _ after _ ho => (spares_of_events ho.events hu).sound
  · rintro after (⟨-, rfl⟩ | ⟨-, hb⟩)
    · exact hu
    · exact (spares_of_events hb.events hu).sound

/-- The table of open upvalues stays sound. -/
theorem durable_sound : Durable fun vm => vm.upvalues.Sound :=
  ⟨fun hw hu => (hw.spares hu).sound, call_sound, load_sound⟩

/-- An operation of the host on a machine. -/
inductive HostOp where
  | push (v : Value)
  | poke (slot : Nat) (v : Value)
  | raiseTop (top : Nat)
  | call (func : Nat) (results : ResultCount)
  | callFunction (function : Value) (args : List Value)
  | getIndex (obj key : Value)
  | setIndex (obj key value : Value)
  | applyArith (op : ArithOp) (lhs rhs : Value)
  | lengthOf (v : Value)
  | isEqual (lhs rhs : Value)
  | isLess (lhs rhs : Value)
  | isLessEqual (lhs rhs : Value)
  | concatAll (values : List Value)
  | load (proto : Prototype) (env : Value)

/-- Does an operation and drops its result. -/
def HostOp.run (fuel : Nat) : HostOp → Exec Unit
  | .push v => Vm.push v
  | .poke slot v => Vm.poke slot v
  | .raiseTop top => Vm.raiseTop top
  | .call func results => Vm.call fuel func results
  | .callFunction function args => discard (Vm.callFunction fuel function args)
  | .getIndex obj key => discard (Vm.getIndex fuel obj key)
  | .setIndex obj key value => Vm.setIndex fuel obj key value
  | .applyArith op lhs rhs => discard (Vm.applyArith fuel op lhs rhs)
  | .lengthOf v => discard (Vm.lengthOf fuel v)
  | .isEqual lhs rhs => discard (Vm.isEqual fuel lhs rhs)
  | .isLess lhs rhs => discard (Vm.isLess fuel lhs rhs)
  | .isLessEqual lhs rhs => discard (Vm.isLessEqual fuel lhs rhs)
  | .concatAll values => discard (Vm.concatAll fuel values)
  | .load proto env => discard (Vm.load proto env)

theorem HostOp.run_maintains {P : Vm → Prop} (h : Durable P) (fuel : Nat) (op : HostOp) :
    (op.run fuel).Maintains P := by
  cases op with
  | push v => exact h.push v
  | poke slot v => exact h.poke slot v
  | raiseTop top => exact h.raiseTop top
  | call func results => exact h.call fuel func results
  | callFunction function args => exact (h.callFunction fuel function args).discard
  | getIndex obj key => exact ((h.of_works (index_keeps obj key)).bind (h.fulfil fuel)).discard
  | setIndex obj key value => exact h.setIndex fuel obj key value
  | applyArith op lhs rhs =>
    exact ((h.of_works (arith_keeps op lhs rhs)).bind (h.fulfil fuel)).discard
  | lengthOf v => exact ((h.of_works (length_keeps v)).bind (h.fulfil fuel)).discard
  | isEqual lhs rhs => exact ((h.of_works (equal_keeps lhs rhs)).bind (h.answer fuel)).discard
  | isLess lhs rhs => exact ((h.of_works (lessThan_keeps lhs rhs)).bind (h.answer fuel)).discard
  | isLessEqual lhs rhs =>
    exact ((h.of_works (lessEqual_keeps lhs rhs)).bind (h.answer fuel)).discard
  | concatAll values => exact (h.concatAll fuel values).discard
  | load proto env => exact (h.load proto env).discard

theorem HostOp.run_safe (fuel : Nat) (op : HostOp) :
    (op.run fuel).Maintains fun vm => vm.upvalues.Sound :=
  op.run_maintains durable_sound fuel

/-! ## Reachable states -/

/-- The states that a host can bring about, and those that its calls pass through. -/
inductive Reachable : Vm → Prop
  /-- A new machine. Closures that the host made before have closed upvalues. -/
  | created {config : Config} {hooks : Hooks} {heap : Heap} {upvalues : Upvalues} {vm : Vm}
      (h : Vm.create config hooks heap upvalues = .ok vm) (ho : upvalues.opened = [])
      (hc : ∀ r slot, upvalues.cell r ≠ .opened slot) : Reachable vm
  | operated {vm after : Vm} (h : Reachable vm) (op : HostOp) (fuel : Nat)
      (ho : (op.run fuel vm).state? = some after) : Reachable after
  /-- The host makes and changes objects, and metatables of types, as it likes. -/
  | built {vm : Vm} (h : Reachable vm) (heap : Heap) (types : TypeMetatables) :
      Reachable { vm with heap, types }
  | allocated {vm : Vm} (h : Reachable vm) (v : Value) :
      Reachable { vm with upvalues := (vm.upvalues.allocate (.closed v)).2 }
  | logged {vm : Vm} (h : Reachable vm) (trace : Option (Array TraceGroup))
      (consultations : Option (Array Consultation)) : Reachable { vm with trace, consultations }
  /-- A state of a run between two steps. -/
  | running {vm : Vm} {func : Nat} {results : ResultCount} {r : Run} (h : Reachable vm)
      (hr : During vm func results r) : Reachable r.vm
  /-- A state in which a step of a run calls a function. -/
  | calling {vm start : Vm} {func : Nat} {results : ResultCount} {r : Run} {slot : Nat}
      {wanted : ResultCount} {k : Resume} {rest : List Suspended} (h : Reachable vm)
      (hr : During vm func results r) (hc : r.Calls start slot wanted k rest) : Reachable start

/-- A step makes its calls in a state that is in order. -/
theorem sound_of_calls {r : Run} {outer own below : List Frame} {n : Nat} {f : Frame} {start : Vm}
    {slot : Nat} {wanted : ResultCount} {k : Resume} {rest : List Suspended}
    (h : Run.Executing r.root outer n r.suspended r.vm f own below)
    (hc : r.Calls start slot wanted k rest) : start.upvalues.Sound := by
  obtain ⟨next, vm, hp, hrequest⟩ := hc
  have hpending := Run.pending_sane h
  rw [hp] at hpending
  obtain ⟨-, f', own', below', hvm, -⟩ := hpending
  cases hrequest with
  | callAt => exact hvm.sound
  | invoke hpush => exact (durable_sound.pushAll _ vm hvm.sound).of_returned hpush

theorem create_eq_ok {config : Config} {hooks : Hooks} {heap : Heap} {upvalues : Upvalues} {vm : Vm}
    (h : Vm.create config hooks heap upvalues = .ok vm) : vm = .new config hooks heap upvalues := by
  unfold Vm.create at h
  cases hr : Checked.reserve config.initialStackSize Value.bytes with
  | error why => simp [hr, bind, Except.bind] at h
  | ok _ =>
    simp only [hr, bind, Except.bind, pure, Except.pure, Except.ok.injEq] at h
    exact h.symm

theorem Reachable.sound {vm : Vm} (h : Reachable vm) : vm.upvalues.Sound := by
  induction h with
  | @created config hooks heap upvalues vm h ho hc =>
    rw [create_eq_ok h]
    exact .of_closed ho hc
  | operated _ op fuel ho ih => exact (op.run_safe fuel _ ih).of_state? ho
  | built _ _ _ ih => exact ih
  | allocated _ v ih => exact ih.allocateClosed v
  | logged _ _ _ ih => exact ih
  | running _ hr ih =>
    obtain ⟨-, -, f, own, below, hf⟩ := executing_of_during ih hr
    exact hf.sound
  | calling _ hr hc ih =>
    obtain ⟨-, -, f, own, below, hf⟩ := executing_of_during ih hr
    exact sound_of_calls hf hc

theorem create_of_reserve {config : Config} (hooks : Hooks) (heap : Heap) (upvalues : Upvalues)
    (h : Checked.reserve config.initialStackSize Value.bytes = .ok ()) :
    Vm.create config hooks heap upvalues = .ok (.new config hooks heap upvalues) := by
  simp [Vm.create, h, bind, Except.bind, pure, Except.pure]

/-- A new machine without upvalues. -/
theorem Reachable.new (config : Config) (hooks : Hooks) (heap : Heap)
    (h : Checked.reserve config.initialStackSize Value.bytes = .ok ()) :
    Reachable (.new config hooks heap {}) :=
  .created (create_of_reserve hooks heap {} h) rfl Upvalues.cell_empty_ne_opened

/-- What holds of the state and is kept by pushing one value holds after pushing any number of
them. -/
theorem pushAll_induction {P : Vm → Prop}
    (hpush : ∀ {vm after : Vm} (v : Value), P vm →
      ((HostOp.push v).run 0 vm).state? = some after → P after)
    {vs : List Value} {vm after : Vm} (h : P vm) (hp : Vm.pushAll vs vm = .returned () after) :
    P after := by
  induction vs generalizing vm with
  | nil =>
    cases hp
    exact h
  | cons v vs ih =>
    obtain ⟨_, mid, hv, hvs⟩ := Exec.bind_eq_returned_iff.mp hp
    have hstate : ((HostOp.push v).run 0 vm).state? = some mid := by
      show (Vm.push v vm).state? = _
      rw [hv]
      rfl
    exact ih (hpush v h hstate) hvs

/-- What `callFunction` pushes, the host could push itself. -/
theorem Reachable.pushAll {vs : List Value} {vm after : Vm} (h : Reachable vm)
    (hp : Vm.pushAll vs vm = .returned () after) : Reachable after :=
  pushAll_induction (fun v h hv => h.operated (.push v) 0 hv) h hp

/-- The machine after pushing values, and the run of a call of the first one after its first
step. -/
def firstStep (host : Vm) (values : List Value) : Option (Vm × Run) :=
  match Vm.pushAll values host with
  | .returned _ vm =>
    match beginCall host.top .all vm with
    | .returned root start =>
      match Run.step { vm := start, root } with
      | .running r => some (vm, r)
      | .ended _ => none
    | _ => none
  | _ => none

theorem firstStep_eq_some {host vm : Vm} {values : List Value} {r : Run}
    (hs : firstStep host values = some (vm, r)) :
    Vm.pushAll values host = .returned () vm ∧ During vm host.top .all r := by
  unfold firstStep at hs
  split at hs
  · next mid hpush =>
    split at hs
    · next root start hbegin =>
      split at hs
      · next r' hstep =>
        cases hs
        exact ⟨hpush, root, start, hbegin, .single hstep⟩
      · cases hs
    · cases hs
  · cases hs

theorem during_of_firstStep {host vm : Vm} {values : List Value} {r : Run} (h : Reachable host)
    (hs : firstStep host values = some (vm, r)) : Reachable vm ∧ During vm host.top .all r := by
  obtain ⟨hpush, hduring⟩ := firstStep_eq_some hs
  exact ⟨h.pushAll hpush, hduring⟩

end Vm

end LuaMachine
