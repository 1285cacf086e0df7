import LuaMachine.Proofs.Reachable

/-!
# Instructions in direct style

A run interleaves the steps of an instruction with those of the functions it calls. Here an
instruction that calls a function is put back together: where the call comes to an end, the run does
what the instruction does with the results of that call, as if it were one operation. This covers
the instructions that end with the one behind them, a jump after a test or the end of a generic loop
after the call of its iterator.
-/
namespace LuaMachine

open Relation (ReflTransGen)

namespace Run
variable {r r' : Run} {root : Vm.CallSite} {s : Suspended} {rest : List Suspended} {p : Progress}
  {vm : Vm} {fuel : Nat}

/-- A step of the run leads to `p`, and until then the run is inside a call above `rest`. -/
inductive Completes (rest : List Suspended) : Run → Progress → Prop
  | done {r : Run} {p : Progress} (h : r.step = p) : Completes rest r p
  | inside {r r' : Run} {p : Progress} (inner : List Suspended) {s : Suspended} (h : Leads r r')
      (hs : r'.suspended = inner ++ s :: rest) (h' : Completes rest r' p) : Completes rest r p

/-- A run with a nested call comes to what the call comes to on its own. -/
theorem completes_of_steps {o : Outcome Unit} (hr : r.root = s.site) (ho : steps fuel r = o)
    (hfuel : o ≠ .aborted .outOfFuel) :
    Completes rest { vm := r.vm, root, suspended := r.suspended ++ s :: rest }
      ((Progress.ended o).within root s rest) := by
  induction fuel generalizing r with
  | zero => exact absurd ho.symm hfuel
  | succ fuel ih =>
    have hstep : step { vm := r.vm, root, suspended := r.suspended ++ s :: rest } =
      r.step.within root s rest := by
      obtain ⟨vm, _, suspended⟩ := r
      obtain rfl : _ = s.site := hr
      exact step_within vm
    unfold steps at ho
    cases hp : r.step with
    | running r' =>
      rw [hp] at ho hstep
      exact .inside _ hstep rfl (ih ((root_of_leads hp).trans hr) ho)
    | ended o' =>
      rw [hp] at ho hstep
      obtain rfl : o' = o := ho
      exact .done hstep

/-! ## The end of an instruction -/

/-- What a run makes of the end of an instruction. -/
def concluded (root : Vm.CallSite) (suspended : List Suspended) : Outcome Vm.Next → Progress
  | .returned next vm => follow root suspended vm next
  | .raised e vm => .ended (fail e root suspended vm)
  | .aborted why => .ended (.aborted why)

theorem step_eq_concluded {x : Vm.Activation} {op : Opcode} {mid : Vm} {y : Exec Vm.Next}
    (hx : Vm.beginStep r.vm = .returned x mid) (hop : x.instr.op? = some op)
    (hy : Vm.execute x op = y >>= fun next => pure (.next next)) :
    r.step = concluded r.root r.suspended (y mid) := by
  have hdispatch : Vm.dispatch r.vm = (y >>= fun next => pure (.next next)) mid := by
    rw [Vm.dispatch, Exec.bind_of_returned hx, hop, ← hy]
  unfold step
  rw [hdispatch]
  cases ho : y mid with
  | returned next after => rw [Exec.bind_of_returned ho]; rfl
  | raised e after => rw [Exec.bind_of_raised ho]; rfl
  | aborted why => rw [Exec.bind_of_aborted ho]; rfl

/-! ## The end of a call -/

/-- A call that an instruction makes ends like a call of the host, and the run goes on from
there. -/
theorem completes_of_nest {start : Vm} {func : Nat} {results : ResultCount} {k : Vm.Resume}
    {o : Outcome Unit} (h : r.step = nest r.root rest k (Vm.beginCall func results) start)
    (ho : Vm.call fuel func results start = o) (hfuel : o ≠ .aborted .outOfFuel) :
    Completes rest r ((Progress.ended o).within r.root ⟨⟨start.frames.depth, func⟩, k⟩ rest) := by
  unfold nest at h
  unfold Vm.call at ho
  cases hx : Vm.beginCall func results start with
  | raised e after =>
    rw [hx] at h ho
    subst ho
    exact .done h
  | aborted why =>
    rw [hx] at h ho
    subst ho
    exact .done h
  | returned site after =>
    rw [hx] at h ho
    obtain rfl := site_of_beginCall hx
    exact .inside [] h rfl (completes_of_steps (s := ⟨⟨start.frames.depth, func⟩, k⟩) rfl ho hfuel)

/-- What a run makes of the end of a call that an instruction asked for. -/
def resumed (root : Vm.CallSite) (suspended : List Suspended) (k : Vm.Resume) :
    Outcome (List Value) → Progress
  | .returned results vm => concluded root suspended (Vm.resume k results vm)
  | .raised e vm => .ended (failBefore k e root suspended vm)
  | .aborted why => .ended (.aborted why)

theorem within_returned (u : Unit) :
    (Progress.ended (.returned u vm)).within root s rest =
      concluded root rest ((collect s.site s.resume >>= Vm.resume s.resume) vm) := by
  cases h : (collect s.site s.resume >>= Vm.resume s.resume) vm <;>
    simp only [Progress.within, h, concluded]

/-- The host and an instruction take the results of a call in the same way. -/
theorem callPushed_eq {k : Vm.Resume} (hk : k ≠ .iterate) (site : Vm.CallSite) :
    Vm.callPushed fuel site.func = Vm.call fuel site.func .all >>= fun _ => collect site k := by
  cases k with
  | iterate => exact absurd rfl hk
  | _ => simp only [Vm.callPushed, Vm.callInPlace, bind_assoc]; rfl

theorem collect_ne_raised {site : Vm.CallSite} {k : Vm.Resume} {e : LuaError} {after : Vm} :
    collect site k vm ≠ .raised e after := by
  intro h
  unfold collect at h
  split at h
  · cases h
  · rcases Exec.bind_eq_raised_iff.mp h with h | ⟨slice, mid, -, h⟩
    · cases h
    · rcases Exec.bind_eq_raised_iff.mp h with h | ⟨results, mid', -, h⟩
      · cases slice <;> cases h
      · cases h

/-- An instruction that calls a handler goes on with its results, or fails with it. -/
theorem completes_of_invoke {handler : Value} {args : List Value} {k : Vm.Resume}
    {o : Outcome (List Value)} (hk : k ≠ .iterate)
    (h : r.step = follow r.root rest vm (.invoke handler args k))
    (ho : Vm.callFunction fuel handler args vm = o) (hfuel : o ≠ .aborted .outOfFuel) :
    Completes rest r (resumed r.root rest k o) := by
  rw [Vm.callFunction_eq] at ho
  have hbegin : beginInvoke handler args vm =
      (Vm.pushAll (handler :: args) >>= fun _ => Vm.beginCall vm.top .all) vm := rfl
  change r.step = nest r.root rest k (beginInvoke handler args) vm at h
  cases hpush : Vm.pushAll (handler :: args) vm with
  | raised e after =>
    rw [Exec.bind_of_raised hpush] at ho hbegin
    subst ho
    refine .done (h.trans ?_)
    rw [nest, hbegin]
    rfl
  | aborted why =>
    rw [Exec.bind_of_aborted hpush] at ho hbegin
    subst ho
    refine .done (h.trans ?_)
    rw [nest, hbegin]
    rfl
  | returned _ start =>
    rw [Exec.bind_of_returned hpush] at ho hbegin
    have hnest : r.step = nest r.root rest k (Vm.beginCall vm.top .all) start := by
      rw [h, nest, nest, hbegin]
    let site : Vm.CallSite := ⟨start.frames.depth, vm.top⟩
    change Vm.callPushed fuel site.func start = o at ho
    rw [callPushed_eq hk site] at ho
    cases hcall : Vm.call fuel vm.top .all start with
    | raised e after =>
      rw [Exec.bind_of_raised hcall] at ho
      subst ho
      exact completes_of_nest hnest hcall (by simp)
    | aborted why =>
      rw [Exec.bind_of_aborted hcall] at ho
      subst ho
      exact completes_of_nest hnest hcall (by simpa using hfuel)
    | returned u last =>
      rw [Exec.bind_of_returned hcall] at ho
      have hcompletes := completes_of_nest hnest hcall (by simp)
      rw [within_returned] at hcompletes
      cases o with
      | returned results after =>
        rw [Exec.bind_of_returned ho] at hcompletes
        exact hcompletes
      | raised e after => exact absurd ho collect_ne_raised
      | aborted why =>
        rw [Exec.bind_of_aborted ho] at hcompletes
        exact hcompletes

end Run

namespace Vm
variable {x : Activation} {vm mid after : Vm} {fuel : Nat}

/-! ## Calls leave the frames as they were -/

/-- The table of open upvalues is sound, and these are the frames. -/
structure Holding (frames : List Frame) (vm : Vm) : Prop where
  sound : vm.upvalues.Sound
  active : vm.frames.active = frames

section Holding
variable {frames : List Frame}

theorem holding_of_shifts {α : Type} {y : Exec α} (hy : y.Keeps (Shift 0)) :
    y.Maintains (Holding frames) := by
  have hshifted : ∀ {vm after : Vm}, ReflTransGen (Shift 0) vm after → Holding frames vm →
      Holding frames after := by
    intro vm after hs h
    have hsame := onlyRegisters_of_shifts hs
    exact ⟨hsame.upvalues ▸ h.sound, hsame.frames ▸ h.active⟩
  exact fun vm h => (hy vm).mono (fun _ _ _ hs => hshifted hs h) fun _ hs => hshifted hs h

theorem call_holding (fuel func : Nat) (results : ResultCount) :
    (call fuel func results).Maintains (Holding frames) := by
  rintro vm ⟨hu, rfl⟩
  refine (call_post hu fuel).mono ?_ ?_
  · exact fun _ after _ ho => ⟨(spares_of_events ho.events hu).sound, ho.active⟩
  · rintro after (⟨-, rfl⟩ | ⟨-, hb⟩)
    · exact ⟨hu, rfl⟩
    · exact ⟨(spares_of_events hb.events hu).sound, hb.active⟩

theorem callFunction_holding (fuel : Nat) (function : Value) (args : List Value) :
    (callFunction fuel function args).Maintains (Holding frames) := by
  refine (Exec.Maintains.look _).bind fun func => ?_
  refine (holding_of_shifts fun _ => pushAll_post _ (Nat.zero_le _)).bind fun _ => ?_
  refine Exec.Maintains.bind ?_ fun results => ?_
  · refine (call_holding fuel func .all).bind fun _ vm h => ?_
    exact Exec.Post.bind
      (Exec.Post.look (Exec.Post.check ((vm.stack.slice_yields func vm.top).mono fun _ _ => h)))
  · exact (holding_of_shifts (Exec.setTop_keeps (Nat.zero_le _))).bind fun _ => .pure _

end Holding

/-! ## Instructions in two halves -/

/-- The current frame of the machine is the one of the activation. -/
structure Activation.Current (x : Activation) (vm : Vm) : Prop where
  base : vm.frames.current.base = x.base
  closure : ∃ c, vm.frames.current.closure = some c ∧ vm.heap.closureAt c = x.closure

theorem current_of_beginStep (h : beginStep vm = .returned x mid) : x.Current mid := by
  obtain ⟨c, instr, hc, -, rfl, rfl⟩ := beginStep_eq_returned h
  exact ⟨by simp, c, by simpa using hc, rfl⟩

theorem Activation.Current.congr (h : x.Current vm) (hheap : after.heap = vm.heap)
    (hframes : after.frames = vm.frames) : x.Current after := by
  obtain ⟨hbase, c, hc, hclosure⟩ := h
  exact ⟨hframes ▸ hbase, c, hframes ▸ hc, hheap ▸ hclosure⟩

/-- Ends a test in the current frame. -/
def endTest (condition : Bool) : Exec Next := do
  let frame ← Exec.currentFrame
  let proto ← runningPrototype
  conditionalJump proto frame.base condition
  return .proceed

/-- Ends a round of a generic loop in the current frame. -/
def endRound : Exec Next := do
  let frame ← Exec.currentFrame
  let proto ← runningPrototype
  let next ← fetchExpected proto frame.pc .tforLoop
  Exec.modifyFrame fun f => { f with pc := frame.pc + 1 }
  genericLoop (frame.base + next.a) next.sbx
  return .proceed

theorem runningPrototype_eq (h : x.Current vm) : runningPrototype vm = .returned x.proto vm := by
  obtain ⟨-, c, hc, hclosure⟩ := h
  have hcurrent : Exec.currentFrame vm = .returned vm.frames.current vm := rfl
  rw [runningPrototype, Exec.bind_of_returned hcurrent, hc]
  show Outcome.returned (vm.heap.closureAt c).proto vm = _
  rw [hclosure]
  rfl

theorem endTest_eq (h : x.Current vm) (condition : Bool) :
    endTest condition vm =
      (conditionalJump x.proto x.base condition >>= fun _ => pure .proceed) vm := by
  have hcurrent : Exec.currentFrame vm = .returned vm.frames.current vm := rfl
  rw [endTest, Exec.bind_of_returned hcurrent,
    Exec.bind_of_returned (runningPrototype_eq h), h.base]

/-- The machine with the mark of the current frame set or cleared. -/
def marked (vm : Vm) (waiting : Bool) : Vm :=
  { vm with frames := vm.frames.modifyCurrent fun f =>
    { f with status := { f.status with leq := waiting } } }

/-- A swapped comparison that is over clears its mark. -/
def released (vm : Vm) (negated : Bool) : Vm := if negated then vm.marked false else vm

section Answers
variable {negated : Bool} {handler : Value} {args : List Value}

theorem answer_of_returned {results : List Value}
    (h : callFunction fuel handler args vm = .returned results after) :
    answer fuel (.ask negated handler args) vm =
      .returned ((results.headD .nil).isTruthy != negated) (after.released negated) := by
  have honce : callOnce fuel handler args vm = .returned (results.headD .nil) after :=
    Exec.bind_of_returned h
  cases negated with
  | false =>
    rw [answer, Exec.bind_of_returned honce, Bool.bne_false]
    rfl
  | true =>
    have hunmark : unmarkAfter (callOnce fuel handler args) vm =
        .returned (results.headD .nil) (after.marked false) := by
      rw [unmarkAfter, honce]
      rfl
    rw [answer, Exec.bind_of_returned hunmark, Bool.bne_true]
    rfl

theorem answer_of_raised {e : LuaError} (h : callFunction fuel handler args vm = .raised e after) :
    answer fuel (.ask negated handler args) vm = .raised e (after.released negated) := by
  have honce : callOnce fuel handler args vm = .raised e after := Exec.bind_of_raised h
  cases negated with
  | false =>
    rw [answer, Exec.bind_of_raised honce]
    rfl
  | true =>
    have hunmark : unmarkAfter (callOnce fuel handler args) vm =
        .raised e (after.marked false) := by
      rw [unmarkAfter, honce]
      rfl
    rw [answer, Exec.bind_of_raised hunmark]
    rfl

theorem answer_of_aborted {why : Abort} (h : callFunction fuel handler args vm = .aborted why) :
    answer fuel (.ask negated handler args) vm = .aborted why := by
  have honce : callOnce fuel handler args vm = .aborted why := Exec.bind_of_aborted h
  cases negated with
  | false => rw [answer, Exec.bind_of_aborted honce]
  | true =>
    have hunmark : unmarkAfter (callOnce fuel handler args) vm = .aborted why := by
      rw [unmarkAfter, honce]
    rw [answer, Exec.bind_of_aborted hunmark]

theorem resume_test (negated expected : Bool) (results : List Value) (vm : Vm) :
    resume (.test negated expected) results vm =
      endTest (((results.headD .nil).isTruthy != negated) == expected) (vm.released negated) := by
  cases negated <;> rfl

end Answers

/-- The part of an instruction before the one behind it, for the instructions that end with that. It
tells whether their condition holds. -/
def firstHalf? (fuel : Nat) (x : Activation) : Opcode → Option (Exec Bool)
  | .eq => some (compared (isEqual fuel))
  | .lt => some (compared (isLess fuel))
  | .le => some (compared (isLessEqual fuel))
  | .test => some do
    let v ← Exec.getSlot x.ra
    return v.isTruthy == (x.instr.c != 0)
  | .testSet => some do
    let v ← Exec.getSlot x.rb
    let condition := v.isTruthy == (x.instr.c != 0)
    if condition then Exec.setSlot x.ra v
    return condition
  | .tforCall => some do
    let callee := x.ra + 3
    Exec.onStack (·.copyDown x.ra callee 3)
    Exec.setTop (callee + 3)
    call fuel callee (.fixed x.instr.c)
    resetTop
    return true
  | _ => none
where
  compared (comparison : Value → Value → Exec Bool) : Exec Bool := do
    let lhs ← operandValue x x.instr.b
    let rhs ← operandValue x x.instr.c
    let answer ← comparison lhs rhs
    return answer == (x.instr.a != 0)

/-- A comparison that is decided without a call leaves the heap and the frames alone. -/
def DecidesAlone (comparison : Value → Value → Exec Verdict) : Prop :=
  ∀ {lhs rhs : Value} {vm after : Vm} {b : Bool},
    comparison lhs rhs vm = .returned (.decided b) after →
    after.heap = vm.heap ∧ after.frames = vm.frames

theorem operandValue_eq_returned {operand : Nat} {v : Value}
    (h : operandValue x operand vm = .returned v after) : after = vm := by
  have hkept : (operandValue x operand).Keeps fun _ _ => False := operandValue_keeps x operand
  cases (hkept vm).of_returned h with
  | refl => rfl
  | tail _ hnever => exact hnever.elim

theorem binaryHook_eq_returned {name event : String} {lhs rhs : Value} {handler : Option Value}
    (h : binaryHook name event lhs rhs vm = .returned handler after) : OnlyRegisters vm after := by
  have hkept : (binaryHook name event lhs rhs).Keeps (Shift 0) :=
    binaryHook_keeps name event lhs rhs
  exact onlyRegisters_of_shifts ((hkept vm).of_returned h)

theorem equal_decidesAlone : DecidesAlone equal := by
  intro lhs rhs vm after b h
  unfold equal at h
  split at h
  · cases h
    exact ⟨rfl, rfl⟩
  · obtain ⟨handler, mid, hhook, h⟩ := Exec.bind_eq_returned_iff.mp h
    have hsame := binaryHook_eq_returned hhook
    cases handler <;> cases h
    exact ⟨hsame.heap, hsame.frames⟩

theorem lessThan_decidesAlone : DecidesAlone lessThan := by
  intro lhs rhs vm after b h
  unfold lessThan at h
  cases hraw : rawLess? false lhs rhs with
  | some answer =>
    simp only [hraw] at h
    cases h
    exact ⟨rfl, rfl⟩
  | none =>
    simp only [hraw] at h
    obtain ⟨handler, mid, hhook, h⟩ := Exec.bind_eq_returned_iff.mp h
    cases handler <;> cases h

theorem lessEqual_decidesAlone : DecidesAlone lessEqual := by
  intro lhs rhs vm after b h
  unfold lessEqual at h
  cases hraw : rawLess? true lhs rhs with
  | some answer =>
    simp only [hraw] at h
    cases h
    exact ⟨rfl, rfl⟩
  | none =>
    simp only [hraw] at h
    obtain ⟨handler, mid, hhook, h⟩ := Exec.bind_eq_returned_iff.mp h
    cases handler with
    | some handler => cases h
    | none =>
      obtain ⟨_, marked, -, h⟩ := Exec.bind_eq_returned_iff.mp h
      obtain ⟨swapped, mid', -, h⟩ := Exec.bind_eq_returned_iff.mp h
      cases swapped <;> cases h

section Tests
variable {first : Exec Bool} {b : Bool}

theorem alone_of_test (hfirst : firstHalf? fuel x .test = some first)
    (h : first mid = .returned b after) : after.heap = mid.heap ∧ after.frames = mid.frames := by
  cases hfirst
  obtain ⟨v, mid', hget, hpure⟩ := Exec.bind_eq_returned_iff.mp h
  obtain ⟨-, rfl⟩ := Exec.getSlot_eq_returned_iff.mp hget
  cases hpure
  exact ⟨rfl, rfl⟩

theorem alone_of_testSet (hfirst : firstHalf? fuel x .testSet = some first)
    (h : first mid = .returned b after) : after.heap = mid.heap ∧ after.frames = mid.frames := by
  cases hfirst
  obtain ⟨v, mid', hget, hset⟩ := Exec.bind_eq_returned_iff.mp h
  obtain ⟨-, rfl⟩ := Exec.getSlot_eq_returned_iff.mp hget
  split at hset
  · obtain ⟨_, last, hslot, hpure⟩ := Exec.bind_eq_returned_iff.mp hset
    obtain ⟨s, -, rfl⟩ := Exec.onStack_eq_returned_iff.mp hslot
    cases hpure
    exact ⟨rfl, rfl⟩
  · cases hset
    exact ⟨rfl, rfl⟩

end Tests

/-- The rest of an instruction in two halves. -/
def lastHalf : Opcode → Bool → Exec Next
  | .tforCall, _ => endRound
  | _, condition => endTest condition

end Vm

namespace Run
variable {r : Run} {rest : List Suspended} {x : Vm.Activation} {vm mid : Vm} {fuel : Nat}

theorem failBefore_test (negated expected : Bool) (e : LuaError) (root : Vm.CallSite)
    (suspended : List Suspended) (vm : Vm) :
    failBefore (.test negated expected) e root suspended vm =
      fail e root suspended (vm.released negated) := by
  cases negated <;> rfl

/-- A test that asks for a call is answered by it. -/
theorem completes_of_verdict {v : Vm.Verdict}
    (h : r.step = concluded r.root rest (Vm.testVerdict x v vm))
    (hcurrent : ∀ b, v = .decided b → x.Current vm)
    (hfuel : Vm.answer fuel v vm ≠ .aborted .outOfFuel) :
    Completes rest r (concluded r.root rest
      ((Vm.answer fuel v >>= fun b => Vm.endTest (b == (x.instr.a != 0))) vm)) := by
  cases v with
  | decided b =>
    have hend := Vm.endTest_eq (hcurrent b rfl) (b == (x.instr.a != 0))
    exact .done (h.trans (congrArg _ hend.symm))
  | ask negated handler args =>
    cases hcall : Vm.callFunction fuel handler args vm with
    | returned results after =>
      rw [Exec.bind_of_returned (Vm.answer_of_returned hcall), ← Vm.resume_test]
      exact completes_of_invoke (by simp) h hcall (by simp)
    | raised e after =>
      rw [Exec.bind_of_raised (Vm.answer_of_raised hcall), concluded, ← failBefore_test]
      exact completes_of_invoke (by simp) h hcall (by simp)
    | aborted why =>
      rw [Vm.answer_of_aborted hcall] at hfuel
      rw [Exec.bind_of_aborted (Vm.answer_of_aborted hcall)]
      exact completes_of_invoke (by simp) h hcall (by simpa using hfuel)

/-- A comparison of two operands is answered by a call if it asks for one. -/
theorem completes_of_compare {op : Opcode} {comparison : Value → Value → Exec Vm.Verdict}
    (hx : Vm.beginStep r.vm = .returned x mid) (hop : x.instr.op? = some op)
    (hcomparison : Vm.execute x op = Vm.hooked (Vm.opCompare x comparison))
    (hc : Vm.DecidesAlone comparison)
    (hfuel : Vm.firstHalf?.compared x (fun lhs rhs => comparison lhs rhs >>= Vm.answer fuel) mid ≠
      .aborted .outOfFuel) :
    Completes r.suspended r (concluded r.root r.suspended
      ((Vm.firstHalf?.compared x (fun lhs rhs => comparison lhs rhs >>= Vm.answer fuel) >>=
        Vm.endTest) mid)) := by
  let verdict : Exec Vm.Verdict := do
    let lhs ← Vm.operandValue x x.instr.b
    let rhs ← Vm.operandValue x x.instr.c
    comparison lhs rhs
  have hwhole : Vm.opCompare x comparison = verdict >>= Vm.testVerdict x := by
    simp only [Vm.opCompare, verdict, bind_assoc]
  have hhalf : Vm.firstHalf?.compared x (fun lhs rhs => comparison lhs rhs >>= Vm.answer fuel) =
      verdict >>= fun v => Vm.answer fuel v >>= fun b => pure (b == (x.instr.a != 0)) := by
    simp only [Vm.firstHalf?.compared, verdict, bind_assoc]
  have hstep := step_eq_concluded hx hop hcomparison
  rw [hwhole] at hstep
  rw [hhalf] at hfuel ⊢
  rw [bind_assoc]
  cases hv : verdict mid with
  | raised e after =>
    rw [Exec.bind_of_raised hv] at hstep ⊢
    exact .done hstep
  | aborted why =>
    rw [Exec.bind_of_aborted hv] at hstep ⊢
    exact .done hstep
  | returned v after =>
    rw [Exec.bind_of_returned hv] at hstep hfuel ⊢
    simp only [bind_assoc, pure_bind]
    refine completes_of_verdict hstep ?_ ?_
    · rintro b rfl
      obtain ⟨lhs, left, hl, hrest⟩ := Exec.bind_eq_returned_iff.mp hv
      obtain ⟨rhs, right, hr, hcompared⟩ := Exec.bind_eq_returned_iff.mp hrest
      obtain rfl := Vm.operandValue_eq_returned hl
      obtain rfl := Vm.operandValue_eq_returned hr
      obtain ⟨hheap, hframes⟩ := hc hcompared
      exact (Vm.current_of_beginStep hx).congr hheap hframes
    · intro haborted
      exact hfuel (Exec.bind_of_aborted haborted)

/-- A test that calls nothing is decided within its step. -/
theorem completes_of_test {op : Opcode} {condition : Exec Bool}
    (hx : Vm.beginStep r.vm = .returned x mid) (hop : x.instr.op? = some op)
    (htest : Vm.execute x op = Vm.plain (condition >>= Vm.conditionalJump x.proto x.base))
    (hc : ∀ {b after}, condition mid = .returned b after →
      after.heap = mid.heap ∧ after.frames = mid.frames) :
    Completes r.suspended r (concluded r.root r.suspended ((condition >>= Vm.endTest) mid)) := by
  have hwhole : Vm.execute x op = (condition >>= fun b =>
      Vm.conditionalJump x.proto x.base b >>= fun _ => pure Vm.Next.proceed) >>= fun next =>
        pure (.next next) := by
    rw [htest, Vm.plain]
    simp only [bind_assoc, pure_bind]
  have hstep := step_eq_concluded hx hop hwhole
  cases ho : condition mid with
  | raised e after =>
    rw [Exec.bind_of_raised ho] at hstep ⊢
    exact .done hstep
  | aborted why =>
    rw [Exec.bind_of_aborted ho] at hstep ⊢
    exact .done hstep
  | returned b after =>
    obtain ⟨hheap, hframes⟩ := hc ho
    rw [Exec.bind_of_returned ho] at hstep ⊢
    rw [Vm.endTest_eq ((Vm.current_of_beginStep hx).congr hheap hframes)]
    exact .done hstep

/-- A round of a generic loop ends where the call of its iterator does. -/
theorem completes_of_iterator {first : Exec Bool} (hx : Vm.beginStep r.vm = .returned x mid)
    (hop : x.instr.op? = some .tforCall) (hfirst : Vm.firstHalf? fuel x .tforCall = some first)
    (hfuel : first mid ≠ .aborted .outOfFuel) :
    Completes r.suspended r
      (concluded r.root r.suspended ((first >>= fun _ => Vm.endRound) mid)) := by
  let place : Exec Unit := do
    Exec.onStack (·.copyDown x.ra (x.ra + 3) 3)
    Exec.setTop (x.ra + 3 + 3)
  have hwhole : Vm.opTForCall x = place >>= fun _ =>
      pure (.callAt (x.ra + 3) (.fixed x.instr.c) .iterate) := by
    simp only [Vm.opTForCall, place, bind_assoc]
  obtain rfl : (do
      place
      Vm.call fuel (x.ra + 3) (.fixed x.instr.c)
      Vm.resetTop
      return true : Exec Bool) = first := by
    cases hfirst
    simp only [place, bind_assoc]
  have hstep := step_eq_concluded (y := Vm.opTForCall x) hx hop rfl
  rw [hwhole] at hstep
  cases hplace : place mid with
  | raised e after =>
    rw [Exec.bind_of_raised hplace] at hstep
    rw [bind_assoc, Exec.bind_of_raised hplace]
    exact .done hstep
  | aborted why =>
    rw [Exec.bind_of_aborted hplace] at hstep
    rw [bind_assoc, Exec.bind_of_aborted hplace]
    exact .done hstep
  | returned _ start =>
    rw [Exec.bind_of_returned hplace] at hstep hfuel
    rw [bind_assoc, Exec.bind_of_returned hplace, bind_assoc]
    change r.step = nest r.root r.suspended .iterate (Vm.beginCall (x.ra + 3) (.fixed x.instr.c))
      start at hstep
    cases hcall : Vm.call fuel (x.ra + 3) (.fixed x.instr.c) start with
    | raised e after =>
      rw [Exec.bind_of_raised hcall]
      exact completes_of_nest hstep hcall (by simp)
    | aborted why =>
      rw [Exec.bind_of_aborted hcall] at hfuel ⊢
      exact completes_of_nest hstep hcall (by simpa using hfuel)
    | returned u last =>
      have hcompletes := completes_of_nest hstep hcall (by simp)
      rw [within_returned] at hcompletes
      rw [Exec.bind_of_returned hcall]
      exact hcompletes

/-- An instruction in two halves does the one and then the other. -/
theorem completes_of_halves {op : Opcode} {first : Exec Bool}
    (hx : Vm.beginStep r.vm = .returned x mid) (hop : x.instr.op? = some op)
    (hfirst : Vm.firstHalf? fuel x op = some first) (hfuel : first mid ≠ .aborted .outOfFuel) :
    Completes r.suspended r (concluded r.root r.suspended ((first >>= Vm.lastHalf op) mid)) := by
  cases op with
  | eq =>
    cases hfirst
    exact completes_of_compare hx hop rfl Vm.equal_decidesAlone hfuel
  | lt =>
    cases hfirst
    exact completes_of_compare hx hop rfl Vm.lessThan_decidesAlone hfuel
  | le =>
    cases hfirst
    exact completes_of_compare hx hop rfl Vm.lessEqual_decidesAlone hfuel
  | test =>
    refine completes_of_test hx hop ?_ fun h => Vm.alone_of_test hfirst h
    cases hfirst
    simp only [Vm.execute, Vm.opTest, bind_assoc, pure_bind]
  | testSet =>
    refine completes_of_test hx hop ?_ fun h => Vm.alone_of_testSet hfirst h
    cases hfirst
    simp only [Vm.execute, Vm.opTestSet, bind_assoc]
    refine congrArg Vm.plain (bind_congr fun v => ?_)
    split <;> simp only [bind_assoc, pure_bind]
  | tforCall => exact completes_of_iterator hx hop hfirst hfuel
  | _ => cases hfirst

end Run

end LuaMachine
