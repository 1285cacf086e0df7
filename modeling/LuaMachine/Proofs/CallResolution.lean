import LuaMachine.Proofs.ArgumentPassing
import LuaMachine.Proofs.IndexChains

/-!
# Resolving calls

A call goes in rounds. Each of them enters the function in the slot that is called, or puts a
handler in that slot and so moves everything above it up. Nothing bounds the number of rounds but
the limit of the stack, which every handler comes one slot nearer to. The rounds follow the chain of
handlers from the value that was called: the first function of the chain ends them, or the first
value that is no function and has no handler. A chain without either one fills the stack.
-/
namespace LuaMachine

namespace Exec
variable {round : Exec Bool} {vm : Vm} {o o' : Outcome Unit}

/-- The outcome of repeating a round until it says that it was the last one. An error ends the
rounds as well. -/
inductive Repeats (round : Exec Bool) : Vm → Outcome Unit → Prop
  | last {vm after : Vm} (h : round vm = .returned true after) :
      Repeats round vm (.returned () after)
  | raised {vm after : Vm} {e : LuaError} (h : round vm = .raised e after) :
      Repeats round vm (.raised e after)
  | aborted {vm : Vm} {why : Abort} (h : round vm = .aborted why) : Repeats round vm (.aborted why)
  | again {vm mid : Vm} {o : Outcome Unit} (h : round vm = .returned false mid)
      (ho : Repeats round mid o) :
    Repeats round vm o

theorem Repeats.unique (h : Repeats round vm o) (h' : Repeats round vm o') : o = o' := by
  induction h generalizing o' with
  | last h | raised h | aborted h => cases h' with
    | last h' | raised h' | aborted h' | again h' => cases h.symm.trans h' <;> rfl
  | again h _ ih => cases h' with
    | last h' | raised h' | aborted h' => cases h.symm.trans h'
    | again h' ho' =>
      cases h.symm.trans h'
      exact ih ho'

theorem Repeats.unroll {next : Exec Unit}
    (h : ∀ mid, round vm = .returned false mid → Repeats round mid (next mid)) :
    Repeats round vm ((round >>= fun last => if last then pure () else next) vm) := by
  show Repeats round vm (Exec.bind round _ vm)
  unfold Exec.bind
  cases hround : round vm with
  | raised e after => exact .raised hround
  | aborted why => exact .aborted hround
  | returned last mid =>
    cases last with
    | true => exact .last hround
    | false => exact .again hround (h mid hround)

/-- Up to the limit of the stack, slots can be made to exist as long as there is storage for
them. -/
theorem ensure_of_le_limit {wanted : Nat} (h : wanted ≤ vm.stack.limit) :
    (∃ s, ensure wanted vm = .returned () { vm with stack := s } ∧ vm.stack.Grown s ∧
      wanted ≤ s.size) ∨
      (storageLimit ≤ vm.stack.limit * Value.bytes ∧
        ensure wanted vm = .aborted (.fault .storage)) := by
  unfold ensure
  dsimp only
  split_ifs with hsize
  · exact .inl ⟨vm.stack, rfl, .refl _, hsize⟩
  · unfold RegisterStack.ensure? Checked.reserve
    rw [if_neg hsize, if_neg (Nat.not_lt.mpr h)]
    by_cases hstorage : vm.stack.grownSize wanted * Value.bytes < storageLimit
    · rw [if_pos hstorage]
      exact .inl ⟨vm.stack.grow wanted, rfl, vm.stack.grown_grow wanted, vm.stack.le_size_grow h⟩
    · rw [if_neg hstorage]
      have hgrown : vm.stack.grownSize wanted ≤ vm.stack.limit := Nat.min_le_right _ _
      exact .inr ⟨(Nat.not_lt.mp hstorage).trans (Nat.mul_le_mul_right _ hgrown), rfl⟩

end Exec

namespace Vm
variable {vm mid after : Vm} {func k : Nat} {results : ResultCount} {tailCall : Bool} {v h : Value}
  {args values : List Value}

/-! ## Rounds -/

/-- One round of a call. It is the last one if it enters a function. -/
def callRound (func : Nat) (results : ResultCount) (tailCall : Bool) : Exec Bool := do
  match ← tryEnter func results tailCall with
  | none => return true
  | some handler =>
    insertHandler func handler
    return false

/-- To find the handler, nothing is moved. -/
theorem tryEnter_eq_some (htry : tryEnter func results tailCall vm = .returned (some h) mid) :
    mid.stack = vm.stack ∧ mid.top = vm.top := by
  obtain ⟨v, start, hget, hv⟩ := Exec.bind_eq_returned_iff.mp htry
  obtain ⟨-, rfl⟩ := Exec.getSlot_eq_returned_iff.mp hget
  split at hv
  · obtain ⟨_, _, -, hnone⟩ := Exec.bind_eq_returned_iff.mp hv
    cases hnone
  · cases hv
  · obtain ⟨handler, after, hcall, hsome⟩ := Exec.bind_eq_returned_iff.mp hv
    obtain ⟨log, hlog⟩ := callHandler?_eq v start
    cases hlog.symm.trans hcall
    generalize start.handlerOf v = handler at hsome
    cases handler with
    | none => cases hsome
    | some handler =>
      cases hsome
      exact ⟨rfl, rfl⟩

theorem tryEnter_of_no_handler (results : ResultCount) (tailCall : Bool)
    (hslot : vm.stack.slots[func]? = some v) (hv : v.isFunction = false)
    (hnone : vm.handlerOf v = none) :
    ∃ log, tryEnter func results tailCall vm =
      .raised { cause := .notCallable v.type } { vm with consultations := log } := by
  obtain ⟨log, hcall⟩ := callHandler?_eq v vm
  rw [hnone] at hcall
  have hget : Exec.getSlot func vm = .returned v vm := Exec.getSlot_eq_returned_iff.mpr ⟨hslot, rfl⟩
  refine ⟨log, ?_⟩
  rw [tryEnter, Exec.bind_of_returned hget]
  cases v with
  | closure _ | host _ => cases hv
  | _ => exact Exec.bind_of_returned hcall

/-- A stack that is full has no room for a handler. -/
theorem insertHandler_of_full (hfull : vm.stack.limit ≤ vm.top) (h : Value) :
    insertHandler func h vm = .raised { cause := .overflow .stack } vm := by
  have hsize : vm.stack.size ≤ vm.stack.limit := vm.stack.size_le_limit
  have hensure : Exec.ensure (vm.top + 1) vm = .raised { cause := .overflow .stack } vm := by
    unfold Exec.ensure RegisterStack.ensure?
    dsimp only
    rw [if_neg (by omega), if_neg (by omega), if_pos (by omega)]
  show (Exec.ensure (vm.top + 1) >>= _) vm = _
  exact Exec.bind_of_raised hensure

theorem insertHandler_eq_returned {u : Unit}
    (hinsert : insertHandler func h vm = .returned u after) :
    after.top = vm.top + 1 ∧ after.stack.limit = vm.stack.limit := by
  have hshifts := (insertHandler_keeps func h vm).of_returned hinsert
  refine ⟨?_, RegisterStack.limit_of_changes (retains_of_shifts hshifts).stack⟩
  obtain ⟨_, _, hlook, hinsert⟩ := Exec.bind_eq_returned_iff.mp hinsert
  cases hlook
  obtain ⟨_, _, -, hinsert⟩ := Exec.bind_eq_returned_iff.mp hinsert
  obtain ⟨_, _, -, hset⟩ := Exec.bind_eq_returned_iff.mp hinsert
  cases hset
  rfl

/-- A round that is not the last one makes the stack one slot higher, and finds room for it. -/
theorem callRound_eq_false (hround : callRound func results tailCall vm = .returned false after) :
    after.top = vm.top + 1 ∧ after.stack.limit = vm.stack.limit ∧ vm.top < vm.stack.limit := by
  obtain ⟨found, mid, htry, hround⟩ := Exec.bind_eq_returned_iff.mp hround
  cases found with
  | none => cases hround
  | some h =>
    obtain ⟨hstack, htop⟩ := tryEnter_eq_some htry
    obtain ⟨_, _, hinsert, hround⟩ := Exec.bind_eq_returned_iff.mp hround
    cases hround
    rw [← hstack, ← htop]
    obtain ⟨htop', hlimit⟩ := insertHandler_eq_returned hinsert
    refine ⟨htop', hlimit, Nat.lt_of_not_le fun hfull => ?_⟩
    cases (insertHandler_of_full hfull h).symm.trans hinsert

theorem enterFunction_succ (func : Nat) (results : ResultCount) (tailCall : Bool) (room : Nat) :
    enterFunction func results tailCall (room + 1) =
      callRound func results tailCall >>= fun last =>
        if last then pure () else enterFunction func results tailCall room := by
  unfold callRound
  rw [enterFunction, bind_assoc]
  refine bind_congr fun found => ?_
  cases found with
  | none => rfl
  | some h => rw [bind_assoc]; rfl

/-- Without room for a handler there is no need to count rounds. -/
theorem enterFunction_zero (hfull : vm.stack.limit ≤ vm.top) (next : Exec Unit) :
    enterFunction func results tailCall 0 vm =
      (callRound func results tailCall >>= fun last => if last then pure () else next) vm := by
  unfold callRound
  rw [enterFunction, bind_assoc]
  show Exec.bind (tryEnter func results tailCall) _ vm =
    Exec.bind (tryEnter func results tailCall) _ vm
  cases htry : tryEnter func results tailCall vm with
  | raised e after | aborted why => simp only [Exec.bind, htry]
  | returned found mid =>
    simp only [Exec.bind, htry]
    cases found with
    | none => rfl
    | some h =>
      obtain ⟨hstack, htop⟩ := tryEnter_eq_some htry
      rw [← hstack, ← htop] at hfull
      rw [bind_assoc]
      exact (Exec.bind_of_raised (insertHandler_of_full hfull h)).symm

/-- With as many rounds as there are free slots below the limit, a call has the outcome of repeating
them without a bound. -/
theorem repeats_enterFunction {room : Nat} (hroom : vm.stack.limit ≤ vm.top + room) :
    (callRound func results tailCall).Repeats vm (enterFunction func results tailCall room vm) := by
  induction room generalizing vm with
  | zero =>
    rw [enterFunction_zero hroom (pure ())]
    refine .unroll fun mid hround => ?_
    obtain ⟨-, -, hfree⟩ := callRound_eq_false hround
    omega
  | succ room ih =>
    rw [enterFunction_succ]
    refine .unroll fun mid hround => ih ?_
    obtain ⟨htop, hlimit, -⟩ := callRound_eq_false hround
    omega

theorem repeats_iff {o : Outcome Unit} :
    (callRound func results tailCall).Repeats vm o ↔ o = precall func results tailCall vm := by
  have hprecall : (callRound func results tailCall).Repeats vm (precall func results tailCall vm) :=
    repeats_enterFunction (show vm.stack.limit ≤ vm.top + (vm.stack.limit - vm.top) by omega)
  constructor
  · exact fun h => h.unique hprecall
  · rintro rfl
    exact hprecall

/-! ## The chain of handlers -/

/-- The arguments for the value that `k` handlers lead to: the values before it in the chain, the
nearest one first, and then the arguments of the call. -/
def callArgs (vm : Vm) (v : Value) (args : List Value) (k : Nat) : List Value :=
  ((List.range k).map (vm.link "__call" v)).reverse ++ args

/-- None of the first `k` values in the chain of handlers is a function, and each of them has a
handler. -/
def Unresolved (vm : Vm) (v : Value) (k : Nat) : Prop :=
  ∀ i, i < k → (vm.link "__call" v i).isFunction = false ∧ vm.link "__call" v (i + 1) ≠ .nil

/-- A chain is resolved by the first function in it, or by the first value without a handler, or
else goes on for ever. -/
theorem exists_resolving (vm : Vm) (v : Value) :
    (∃ k, vm.Unresolved v k ∧
      ((vm.link "__call" v k).isFunction = true ∨ vm.link "__call" v (k + 1) = .nil)) ∨
      ∀ k, vm.Unresolved v k := by
  by_cases hex : ∃ k, (vm.link "__call" v k).isFunction = true ∨ vm.link "__call" v (k + 1) = .nil
  · refine .inl ⟨Nat.find hex, fun i hi => ?_, Nat.find_spec hex⟩
    simpa using Nat.find_min hex hi
  · refine .inr fun k i _ => ?_
    simpa using not_exists.mp hex i

/-- The run was ended because there is no storage for a stack as large as its limit allows. -/
def OutOfStorage {α : Type} (vm : Vm) (o : Outcome α) : Prop :=
  storageLimit ≤ vm.stack.limit * Value.bytes ∧ o = .aborted (.fault .storage)

theorem not_outOfStorage {α : Type} (h : vm.stack.limit * Value.bytes < storageLimit)
    (o : Outcome α) : ¬ vm.OutOfStorage o :=
  fun ho => absurd ho.1 (Nat.not_le.mpr h)

/-- The state `mid` is the state `vm` after `k` rounds, each of which has put a handler in the slot
`func`. -/
structure Handled (vm : Vm) (func : Nat) (v : Value) (args : List Value) (k : Nat) (mid : Vm) :
    Prop where
  same : ∃ s log, s.limit = vm.stack.limit ∧
    mid = { vm with stack := s, top := vm.top + k, consultations := log }
  slots : mid.stack.slice func mid.top = .ok (vm.link "__call" v k :: vm.callArgs v args k)

theorem callArgs_succ (v : Value) (args : List Value) (k : Nat) :
    vm.callArgs v args (k + 1) = vm.link "__call" v k :: vm.callArgs v args k := by
  simp [callArgs, List.range_succ]

theorem metafield_link (v : Value) (k : Nat) :
    vm.metafield (vm.link "__call" v k) "__call" = vm.link "__call" v (k + 1) := by
  rw [Nat.add_comm, link_add]
  rfl

/-- A chain that comes back to one of its values is never resolved. -/
theorem unresolved_of_cycle {i j : Nat} (hij : i < j)
    (hcycle : vm.link "__call" v i = vm.link "__call" v j) (hun : vm.Unresolved v j) (k : Nat) :
    vm.Unresolved v k := by
  intro l _
  obtain ⟨n, hn, hlink⟩ := link_of_cycle hij hcycle l
  rw [← metafield_link, hlink, metafield_link]
  exact hun n hn

namespace Handled

theorem start (hargs : vm.stack.slice func vm.top = .ok (v :: args)) :
    vm.Handled func v args 0 vm :=
  ⟨⟨vm.stack, vm.consultations, rfl, rfl⟩, hargs⟩

variable (hm : vm.Handled func v args k mid)
include hm

theorem top : mid.top = vm.top + k := by
  obtain ⟨s, log, -, rfl⟩ := hm.same
  rfl

theorem limit : mid.stack.limit = vm.stack.limit := by
  obtain ⟨s, log, hlimit, rfl⟩ := hm.same
  exact hlimit

theorem slot : mid.stack.slots[func]? = some (vm.link "__call" v k) := by
  obtain ⟨-, -, hheld⟩ := RegisterStack.slice_eq_ok_iff.mp hm.slots
  exact (RegisterStack.holds_cons.mp hheld).1

theorem handlerOf (hh : vm.hooks = .standard) :
    mid.handlerOf (vm.link "__call" v k) = (vm.link "__call" v (k + 1)).notNil? := by
  obtain ⟨s, log, -, rfl⟩ := hm.same
  rw [← metafield_link]
  simp only [Vm.handlerOf, hh]
  rfl

/-- The handler of a value that is no function is found. -/
theorem tryEnter_eq (results : ResultCount) (tailCall : Bool) (hh : vm.hooks = .standard)
    (hv : (vm.link "__call" v k).isFunction = false) (hnext : vm.link "__call" v (k + 1) ≠ .nil) :
    ∃ log, tryEnter func results tailCall mid =
      .returned (some (vm.link "__call" v (k + 1))) { mid with consultations := log } := by
  refine tryEnter_of_handler hm.slot hv ?_
  rw [hm.handlerOf hh]
  cases hlink : vm.link "__call" v (k + 1) with
  | nil => exact absurd hlink hnext
  | _ => rfl

/-- One more round puts the next handler of the chain before what it was found for, if there is
storage. -/
theorem next (hh : vm.hooks = .standard) (hroom : vm.top + (k + 1) ≤ vm.stack.limit)
    (hv : (vm.link "__call" v k).isFunction = false) (hnext : vm.link "__call" v (k + 1) ≠ .nil) :
    (∃ after, callRound func results tailCall mid = .returned false after ∧
      vm.Handled func v args (k + 1) after) ∨
      vm.OutOfStorage (callRound func results tailCall mid) := by
  obtain ⟨log, htry⟩ := hm.tryEnter_eq results tailCall hh hv hnext
  let consulted : Vm := { mid with consultations := log }
  have htop := hm.top
  have hlimit := hm.limit
  rw [callRound, Exec.bind_of_returned htry]
  have hfits : consulted.top + 1 ≤ consulted.stack.limit := by
    show mid.top + 1 ≤ mid.stack.limit
    omega
  rcases Exec.ensure_of_le_limit hfits with ⟨grown, hensure, hgrown, hsize⟩ | ⟨hstorage, hensure⟩
  · obtain ⟨s, hs, hslots, hplace⟩ :=
      placeHandler_eq hgrown hsize hm.slots (vm.link "__call" v (k + 1))
    have hinsert : insertHandler func (vm.link "__call" v (k + 1)) consulted = _ :=
      (Exec.bind_of_returned hensure).trans hplace
    refine .inl ⟨_, Exec.bind_of_returned hinsert, ⟨?_, ?_⟩⟩
    · obtain ⟨_, _, -, rfl⟩ := hm.same
      exact ⟨s, log, hs.trans hlimit, rfl⟩
    · rw [callArgs_succ]
      exact hslots
  · have hinsert : insertHandler func (vm.link "__call" v (k + 1)) consulted =
        .aborted (.fault .storage) := by
      show (Exec.ensure (consulted.top + 1) >>= _) consulted = _
      exact Exec.bind_of_aborted hensure
    exact .inr ⟨hlimit ▸ hstorage, Exec.bind_of_aborted hinsert⟩

/-- In a stack that is full, no further handler finds room. -/
theorem overflows (hh : vm.hooks = .standard) (hfull : vm.stack.limit ≤ vm.top + k)
    (hv : (vm.link "__call" v k).isFunction = false) (hnext : vm.link "__call" v (k + 1) ≠ .nil) :
    ∃ after, callRound func results tailCall mid = .raised { cause := .overflow .stack } after := by
  obtain ⟨log, htry⟩ := hm.tryEnter_eq results tailCall hh hv hnext
  let consulted : Vm := { mid with consultations := log }
  have hfull' : consulted.stack.limit ≤ consulted.top := by
    show mid.stack.limit ≤ mid.top
    rw [hm.limit, hm.top]
    exact hfull
  refine ⟨consulted, ?_⟩
  rw [callRound, Exec.bind_of_returned htry]
  exact Exec.bind_of_raised (insertHandler_of_full hfull' _)

theorem host {f : HostFunction} (hf : vm.link "__call" v k = .host f) :
    callRound func results tailCall mid = .raised { cause := .hostFunction f } mid := by
  have hget : Exec.getSlot func mid = .returned (.host f) mid :=
    Exec.getSlot_eq_returned_iff.mpr ⟨hf ▸ hm.slot, rfl⟩
  have htry : tryEnter func results tailCall mid = .raised { cause := .hostFunction f } mid := by
    rw [tryEnter, Exec.bind_of_returned hget]
    rfl
  exact Exec.bind_of_raised htry

/-- A value that is no function and has no handler cannot be called. -/
theorem refused (hh : vm.hooks = .standard) (hv : (vm.link "__call" v k).isFunction = false)
    (hnext : vm.link "__call" v (k + 1) = .nil) :
    ∃ after, callRound func results tailCall mid =
      .raised { cause := .notCallable (vm.link "__call" v k).type } after := by
  have hnone : mid.handlerOf (vm.link "__call" v k) = none := by
    rw [hm.handlerOf hh, hnext]
    rfl
  obtain ⟨log, htry⟩ := tryEnter_of_no_handler results tailCall hm.slot hv hnone
  exact ⟨_, Exec.bind_of_raised htry⟩

end Handled

/-- As long as there is room for them, the handlers of a chain are put in place round by round. -/
theorem handled_of_unresolved (hh : vm.hooks = .standard)
    (hargs : vm.stack.slice func vm.top = .ok (v :: args))
    (hstorage : ¬ vm.OutOfStorage (precall func results tailCall vm)) (hun : vm.Unresolved v k)
    (hroom : vm.top + k ≤ vm.stack.limit) :
    ∃ mid, vm.Handled func v args k mid ∧
      ∀ o, (callRound func results tailCall).Repeats mid o →
        o = precall func results tailCall vm := by
  induction k with
  | zero => exact ⟨vm, .start hargs, fun _ => repeats_iff.mp⟩
  | succ k ih =>
    obtain ⟨mid, hm, hrepeats⟩ := ih (fun i hi => hun i (by omega)) (by omega)
    obtain ⟨hv, hnext⟩ := hun k (Nat.lt_succ_self k)
    rcases hm.next hh hroom hv hnext with ⟨after, hround, hafter⟩ | ⟨hlimit, hround⟩
    · exact ⟨after, hafter, fun o ho => hrepeats o (.again hround ho)⟩
    · exact absurd ⟨hlimit, (hrepeats _ (.aborted hround)).symm⟩ hstorage

/-! ## The end of a chain -/

theorem Handled.admitsCall (hm : vm.Handled func v args k mid) {c : ClosureRef}
    (hadmits : vm.AdmitsCall func tailCall c values) : mid.AdmitsCall func tailCall c values := by
  obtain ⟨⟨s, log, hlimit, rfl⟩, -⟩ := hm
  exact ⟨hadmits.depth, hlimit ▸ hadmits.room, hlimit ▸ hadmits.storage⟩

/-- The frame of a closure at the end of a chain is entered, unless something is in its way. -/
theorem Handled.closure (hm : vm.Handled func v args k mid) {c : ClosureRef}
    (hc : vm.link "__call" v k = .closure c)
    (hadmits : vm.AdmitsCall func tailCall c (vm.callArgs v args k))
    (hparams : (vm.heap.closureAt c).proto.paramCount ≤ (vm.heap.closureAt c).proto.maxStackSize) :
    ∃ after, callRound func results tailCall mid = .returned true after ∧
      Passed c (vm.heap.closureAt c).proto (vm.callArgs v args k) after ∧
      after.frames.current.func = func ∧ after.peek func = .closure c := by
  have hslot : mid.stack.slots[func]? = some (.closure c) := hc ▸ hm.slot
  have hheap : mid.heap = vm.heap := by
    obtain ⟨s, log, -, rfl⟩ := hm.same
    rfl
  rw [← hheap] at hparams ⊢
  have henters : (enterFrame c func results tailCall).Succeeds mid _ _ :=
    enterFrame_succeeds hm.slots hparams
  obtain ⟨_, after, henter⟩ := henters.total (hm.admitsCall hadmits)
  have hget : Exec.getSlot func mid = .returned (.closure c) mid :=
    Exec.getSlot_eq_returned_iff.mpr ⟨hslot, rfl⟩
  have htry : tryEnter func results tailCall mid = .returned none after := by
    rw [tryEnter, Exec.bind_of_returned hget]
    exact Exec.bind_of_returned henter
  refine ⟨after, Exec.bind_of_returned htry, henters.sound _ after henter, ?_⟩
  obtain ⟨base, laid, hlaid, rfl⟩ :=
    (enterFrame_spec c func results tailCall mid).of_returned henter
  refine ⟨?_, ?_⟩
  · rw [CallStack.current_push]
    rfl
  · have hkept : laid.peek func = mid.peek func :=
      peek_of_shifts hlaid.shifts (Nat.lt_succ_self func)
    refine hkept.trans ?_
    rw [peek, hslot, Option.getD_some]

/-- The chain of handlers from `v` ends with its value `k`, and the outcome of the call is
accordingly: a closure is entered with the values before it in the chain as its first arguments, a
function of the host is an error that names it, and any other value an error that names its type. -/
structure ResolvedAt (vm : Vm) (func : Nat) (tailCall : Bool) (v : Value) (args : List Value)
    (k : Nat) (outcome : Outcome Unit) : Prop where
  closure : ∀ c, vm.link "__call" v k = .closure c →
    vm.AdmitsCall func tailCall c (vm.callArgs v args k) →
    (vm.heap.closureAt c).proto.paramCount ≤ (vm.heap.closureAt c).proto.maxStackSize →
    ∃ after, outcome = .returned () after ∧
      Passed c (vm.heap.closureAt c).proto (vm.callArgs v args k) after ∧
      after.frames.current.func = func ∧ after.peek func = .closure c
  host : ∀ f, vm.link "__call" v k = .host f →
    ∃ after, outcome = .raised { cause := .hostFunction f } after
  refused : (vm.link "__call" v k).isFunction = false → vm.link "__call" v (k + 1) = .nil →
    ∃ after, outcome = .raised { cause := .notCallable (vm.link "__call" v k).type } after

theorem resolvedAt_precall (hh : vm.hooks = .standard)
    (hargs : vm.stack.slice func vm.top = .ok (v :: args))
    (hstorage : ¬ vm.OutOfStorage (precall func results tailCall vm)) (hun : vm.Unresolved v k)
    (hroom : vm.top + k ≤ vm.stack.limit) :
    vm.ResolvedAt func tailCall v args k (precall func results tailCall vm) := by
  obtain ⟨mid, hm, hrepeats⟩ := handled_of_unresolved hh hargs hstorage hun hroom
  refine ⟨fun c hc hadmits hparams => ?_, fun f hf => ?_, fun hv hnone => ?_⟩
  · obtain ⟨after, hround, hafter⟩ := hm.closure hc hadmits hparams
    exact ⟨after, (hrepeats _ (.last hround)).symm, hafter⟩
  · exact ⟨mid, (hrepeats _ (.raised (hm.host hf))).symm⟩
  · obtain ⟨after, hround⟩ := hm.refused hh hv hnone
    exact ⟨after, (hrepeats _ (.raised hround)).symm⟩

/-- A chain with more handlers than there are free slots overflows the stack, whatever comes after
them. -/
theorem precall_overflows (hh : vm.hooks = .standard)
    (hargs : vm.stack.slice func vm.top = .ok (v :: args))
    (hstorage : ¬ vm.OutOfStorage (precall func results tailCall vm)) (hun : vm.Unresolved v k)
    (hroom : vm.stack.limit < vm.top + k) :
    ∃ after, precall func results tailCall vm = .raised { cause := .overflow .stack } after := by
  obtain ⟨-, htop, -⟩ := RegisterStack.slice_eq_ok_iff.mp hargs
  have hsize : vm.stack.size ≤ vm.stack.limit := vm.stack.size_le_limit
  -- As many handlers as there are free slots find room, and the next one does not.
  have hfilled : vm.Unresolved v (vm.stack.limit - vm.top) := fun i hi => hun i (by omega)
  obtain ⟨mid, hm, hrepeats⟩ := handled_of_unresolved hh hargs hstorage hfilled (by omega)
  obtain ⟨hv, hnext⟩ := hun (vm.stack.limit - vm.top) (by omega)
  obtain ⟨after, hround⟩ := hm.overflows hh (by omega) hv hnext
  exact ⟨after, (hrepeats _ (.raised hround)).symm⟩

/-- A call ends after finitely many rounds, whatever the handlers are. With the standard hooks the
first value in the chain of handlers that is a function or has no handler determines the outcome, if
there is room for the handlers before it. Any other chain, as one that goes round, overflows the
stack. A stack whose limit is beyond all storage may end the run before. -/
theorem precall_follows_chain (vm : Vm) (func : Nat) (results : ResultCount) (tailCall : Bool) :
    (∀ o, (callRound func results tailCall).Repeats vm o ↔ o = precall func results tailCall vm) ∧
    ∀ v args, vm.hooks = .standard → vm.stack.slice func vm.top = .ok (v :: args) →
      ((∃ k, vm.Unresolved v k ∧
        ((vm.link "__call" v k).isFunction = true ∨ vm.link "__call" v (k + 1) = .nil)) ∨
        ∀ k, vm.Unresolved v k) ∧
      (vm.OutOfStorage (precall func results tailCall vm) ∨
        (∀ k, vm.Unresolved v k → vm.top + k ≤ vm.stack.limit →
          vm.ResolvedAt func tailCall v args k (precall func results tailCall vm)) ∧
        (∀ k, vm.Unresolved v k → vm.stack.limit < vm.top + k →
          ∃ after, precall func results tailCall vm = .raised { cause := .overflow .stack } after) ∧
        ((∀ k, vm.Unresolved v k) →
          ∃ after, precall func results tailCall vm = .raised { cause := .overflow .stack } after) ∧
        ∀ i j, i < j → vm.link "__call" v i = vm.link "__call" v j → vm.Unresolved v j →
          ∃ after, precall func results tailCall vm =
            .raised { cause := .overflow .stack } after) := by
  refine ⟨fun o => repeats_iff, fun v args hh hargs =>
    ⟨vm.exists_resolving v, or_iff_not_imp_left.mpr fun hstorage => ?_⟩⟩
  have hendless : (∀ k, vm.Unresolved v k) →
      ∃ after, precall func results tailCall vm = .raised { cause := .overflow .stack } after :=
    fun hun => precall_overflows hh hargs hstorage (hun (vm.stack.limit + 1)) (by omega)
  refine ⟨fun k hun hroom => ?_, fun k hun hroom => ?_, hendless, fun i j hij hcycle hun => ?_⟩
  · exact resolvedAt_precall hh hargs hstorage hun hroom
  · exact precall_overflows hh hargs hstorage hun hroom
  · exact hendless fun k => unresolved_of_cycle hij hcycle hun k

/-! ## A table with a handler -/

/-- A function of two parameters. -/
def binary : Prototype where
  paramCount := 2
  maxStackSize := 3

/-- A machine that is about to call a table with one argument. The table has a handler, and above
the argument there are `free` slots up to the limit. -/
def handlerHost (free : Nat) (handler : Value) : Vm :=
  { Vm.new { initialStackSize := 2, maxStackSize := 2 + free } .standard {
      tables := #[{ metatable := some ⟨1⟩ },
        { content := Table.empty.set (.ofText "__call") handler }]
      closures := #[{ proto := binary, upvalues := #[] }] } {} with
    stack := {
      slots := #[.table ⟨0⟩, .int 5]
      limit := 2 + free
      size_le_limit := Nat.le_add_right 2 free }
    top := 2 }

theorem link_handlerHost (free : Nat) (handler : Value) :
    (handlerHost free handler).link "__call" (.table ⟨0⟩) 1 = handler := by
  show (Table.empty.set (.ofText "__call") handler).get (.ofText "__call") = handler
  rw [Table.get_set, if_pos rfl]

theorem unresolved_handlerHost (free : Nat) {handler : Value} (h : handler ≠ .nil) :
    (handlerHost free handler).Unresolved (.table ⟨0⟩) 1 := by
  intro i hi
  obtain rfl : i = 0 := by omega
  exact ⟨rfl, (link_handlerHost free handler).symm ▸ h⟩

theorem slice_handlerHost (free : Nat) (handler : Value) :
    (handlerHost free handler).stack.slice 0 2 = .ok [.table ⟨0⟩, .int 5] := rfl

/-- With room for the handler, a closure gets the table as its first argument and a function of the
host is refused by its name. A table without a handler is refused itself, and one that is its own
handler fills the stack. -/
theorem precall_follows_chain_handler :
    (∃ after, precall 0 .all false (handlerHost 4 (.closure ⟨0⟩)) = .returned () after ∧
      Passed ⟨0⟩ binary [.table ⟨0⟩, .int 5] after ∧ after.peek 0 = .closure ⟨0⟩) ∧
    (∃ after, precall 0 .all false (handlerHost 1 (.host ⟨64, "f"⟩)) =
      .raised { cause := .hostFunction ⟨64, "f"⟩ } after) ∧
    (∃ after, precall 0 .all false (handlerHost 0 .nil) =
      .raised { cause := .notCallable .table } after) ∧
    ∃ after, precall 0 .all false (handlerHost 9 (.table ⟨0⟩)) =
      .raised { cause := .overflow .stack } after := by
  refine ⟨?_, ?_, ?_, ?_⟩
  · obtain ⟨-, hends⟩ :=
      (precall_follows_chain (handlerHost 4 (.closure ⟨0⟩)) 0 .all false).2 _ _ rfl
        (slice_handlerHost _ _)
    obtain ⟨hresolved, -⟩ := hends.resolve_left (not_outOfStorage (by decide) _)
    obtain ⟨after, hreturned, hpassed, -, hslot⟩ :=
      (hresolved 1 (unresolved_handlerHost 4 Value.noConfusion) (by decide)).closure ⟨0⟩
        (link_handlerHost _ _) ⟨⟨200000, rfl, by decide⟩, by decide, by decide⟩ (by decide)
    exact ⟨after, hreturned, hpassed, hslot⟩
  · obtain ⟨-, hends⟩ := (precall_follows_chain (handlerHost 1 (.host ⟨64, "f"⟩)) 0 .all false).2
      _ _ rfl (slice_handlerHost _ _)
    obtain ⟨hresolved, -⟩ := hends.resolve_left (not_outOfStorage (by decide) _)
    exact (hresolved 1 (unresolved_handlerHost 1 Value.noConfusion) (by decide)).host ⟨64, "f"⟩
      (link_handlerHost _ _)
  · obtain ⟨-, hends⟩ :=
      (precall_follows_chain (handlerHost 0 .nil) 0 .all false).2 _ _ rfl (slice_handlerHost _ _)
    obtain ⟨hresolved, -⟩ := hends.resolve_left (not_outOfStorage (by decide) _)
    exact (hresolved 0 (fun i hi => absurd hi (Nat.not_lt_zero i)) (by decide)).refused rfl
      (link_handlerHost _ _)
  · obtain ⟨-, hends⟩ := (precall_follows_chain (handlerHost 9 (.table ⟨0⟩)) 0 .all false).2 _ _ rfl
      (slice_handlerHost _ _)
    obtain ⟨-, -, -, hcycle⟩ := hends.resolve_left (not_outOfStorage (by decide) _)
    exact hcycle 0 1 (by decide) (link_handlerHost _ _).symm
      (unresolved_handlerHost 9 Value.noConfusion)

/-- Without room for the handler, it does not matter that it is a function of the host. -/
theorem precall_overflows_before_host :
    (handlerHost 0 (.host ⟨64, "f"⟩)).Unresolved (.table ⟨0⟩) 1 ∧
    (handlerHost 0 (.host ⟨64, "f"⟩)).link "__call" (.table ⟨0⟩) 1 = .host ⟨64, "f"⟩ ∧
    ∃ after, precall 0 .all false (handlerHost 0 (.host ⟨64, "f"⟩)) =
      .raised { cause := .overflow .stack } after := by
  have hun : (handlerHost 0 (.host ⟨64, "f"⟩)).Unresolved (.table ⟨0⟩) 1 :=
    unresolved_handlerHost 0 Value.noConfusion
  exact ⟨hun, link_handlerHost _ _, precall_overflows rfl (slice_handlerHost _ _)
    (not_outOfStorage (by decide) _) hun (by decide)⟩

/-- A machine with a full stack that is about to call a function of two parameters and no register
for them. -/
def registerlessHost : Vm :=
  { Vm.new { initialStackSize := 1, maxStackSize := 1 } .standard {
      closures := #[{ proto := { paramCount := 2 }, upvalues := #[] }] } {} with
    stack := { slots := #[.closure ⟨0⟩], limit := 1, size_le_limit := Nat.le_refl 1 }
    top := 1 }

/-- Parameters beyond the registers of a closure need slots that nobody makes, so that a call may
fail that the limits allow. -/
theorem precall_outside_registers :
    registerlessHost.AdmitsCall 0 false ⟨0⟩ [] ∧
      precall 0 .all false registerlessHost = .aborted (.malformed (.register 1 1)) :=
  ⟨⟨⟨200000, rfl, by decide⟩, by decide, by decide⟩, rfl⟩

end Vm

end LuaMachine
