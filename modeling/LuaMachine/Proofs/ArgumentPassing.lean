import LuaMachine.Proofs.RegisterBlocks

/-!
# Passing arguments

A call finds the function in a slot and its arguments above it, up to the top. The parameters become
the first registers of the frame, with nil for those that have no argument. A vararg function keeps
its further arguments right below its registers, so that their number can be told from where the
registers begin. A value that is no function is called through its handler and becomes the first
argument, and the handler may need a handler itself.
-/
namespace LuaMachine

/-- The arguments that a function can still ask for besides its parameters. -/
def Prototype.surplus (p : Prototype) (args : List Value) : List Value :=
  if p.isVararg then args.drop p.paramCount else []

/-- The frame has received the arguments: its parameters are in its first registers and the surplus
ends right below them. -/
structure Frame.Received (f : Frame) (p : Prototype) (args : List Value) (s : RegisterStack) :
    Prop where
  params : s.Holds f.base (Value.adjusted p.paramCount args)
  distance : f.base - f.func - (p.paramCount + 1) = (p.surplus args).length
  surplus : s.Holds (f.base - (p.surplus args).length) (p.surplus args)

/-- A frame that is moved together with its arguments still has them. -/
theorem Frame.Received.moved {f g : Frame} {p : Prototype} {args : List Value} {s t : RegisterStack}
    (h : g.Received p args s) (hle : g.func ≤ g.base) (hbase : f.base = f.func + (g.base - g.func))
    (hmoved : ∀ i, i < g.base + p.paramCount - g.func →
      t.slots[f.func + i]? = s.slots[g.func + i]?) :
    f.Received p args t := by
  have hdistance := h.distance
  refine ⟨fun i hi => ?_, by omega, fun i hi => ?_⟩
  · rw [← h.params i hi]
    rw [Value.length_adjusted] at hi
    have hslot := hmoved (g.base - g.func + i) (by omega)
    rwa [show f.func + (g.base - g.func + i) = f.base + i by omega,
      show g.func + (g.base - g.func + i) = g.base + i by omega] at hslot
  · rw [← h.surplus i hi]
    have hslot := hmoved (g.base - g.func - (p.surplus args).length + i) (by omega)
    rwa [show f.func + (g.base - g.func - (p.surplus args).length + i) =
      f.base - (p.surplus args).length + i by omega,
      show g.func + (g.base - g.func - (p.surplus args).length + i) =
        g.base - (p.surplus args).length + i by omega] at hslot

namespace Exec
variable {α β : Type} {x : Exec α} {f : α → Exec β} {vm after : Vm} {ok : Prop} {R : α → Vm → Prop}

/-- The operation returns if nothing is in its way, and whenever it returns, `R` holds. -/
structure Succeeds (x : Exec α) (vm : Vm) (ok : Prop) (R : α → Vm → Prop) : Prop where
  total : ok → ∃ a after, x vm = .returned a after
  sound : ∀ a after, x vm = .returned a after → R a after

theorem Succeeds.of_returned {a : α} (h : x vm = .returned a after) (hr : R a after) :
    x.Succeeds vm ok R where
  total := fun _ => ⟨a, after, h⟩
  sound := by
    intro b other hb
    cases h.symm.trans hb
    exact hr

theorem Succeeds.of_eq {y : Exec α} {mid : Vm} (h : x vm = y mid) (hy : y.Succeeds mid ok R) :
    x.Succeeds vm ok R where
  total := fun hok => h ▸ hy.total hok
  sound := fun a after hx => hy.sound a after (h ▸ hx)

theorem Succeeds.mono {ok' : Prop} {R' : α → Vm → Prop} (h : x.Succeeds vm ok R) (hok : ok' → ok)
    (hr : ∀ a after, R a after → R' a after) : x.Succeeds vm ok' R' where
  total := fun hok' => h.total (hok hok')
  sound := fun a after hx => hr a after (h.sound a after hx)

/-- The second part starts where the first one returns. -/
theorem Succeeds.bind {R : β → Vm → Prop}
    (h : x.Succeeds vm ok fun a mid => (f a).Succeeds mid ok R) : (x >>= f).Succeeds vm ok R where
  total := by
    intro hok
    obtain ⟨a, mid, hx⟩ := h.total hok
    rw [bind_of_returned hx]
    exact (h.sound a mid hx).total hok
  sound := by
    intro b after hb
    obtain ⟨a, mid, hx, hf⟩ := bind_eq_returned_iff.mp hb
    exact (h.sound a mid hx).sound b after hf

theorem Succeeds.look {g : Vm → α} (h : R (g vm) vm) : (look g).Succeeds vm ok R :=
  .of_returned rfl h

theorem Succeeds.raise {c : Cause} (h : ¬ ok) : (Exec.raise c).Succeeds vm ok R :=
  ⟨fun hok => absurd hok h, fun _ _ hx => by cases hx⟩

theorem Succeeds.check {c : Checked α} (hc : ok → ∃ a, c = .ok a) (hr : ∀ a, c = .ok a → R a vm) :
    (check c).Succeeds vm ok R := by
  cases c with
  | ok a => exact .of_returned rfl (hr a rfl)
  | error why =>
    refine ⟨fun hok => ?_, fun _ _ hx => by cases hx⟩
    obtain ⟨a, ha⟩ := hc hok
    cases ha

theorem Succeeds.ite {c : Prop} [Decidable c] {y : Exec α} (hx : c → x.Succeeds vm ok R)
    (hy : ¬ c → y.Succeeds vm ok R) : (if c then x else y).Succeeds vm ok R := by
  split
  next h => exact hx h
  next h => exact hy h

theorem Succeeds.ensure {wanted : Nat} {R : Unit → Vm → Prop} (hg : ok → vm.stack.Grants wanted)
    (hr : ∀ s, vm.stack.Grown s → wanted ≤ s.size → R () { vm with stack := s }) :
    (Exec.ensure wanted).Succeeds vm ok R where
  total := by
    intro hok
    obtain ⟨s, hensure, -, -⟩ := ensure_of_grants (hg hok)
    exact ⟨_, _, hensure⟩
  sound := by
    intro _ after hx
    obtain ⟨s, hgrown, hsize, rfl⟩ := (ensure_spec wanted vm).of_returned hx
    exact hr s hgrown hsize

end Exec

namespace RegisterStack

/-- If there is storage for the whole stack, only its limit is in the way of growth. -/
theorem grants_of_le_limit {s : RegisterStack} {wanted : Nat} (h : wanted ≤ s.limit)
    (hs : s.limit * Value.bytes < storageLimit) : s.Grants wanted where
  word := by
    have hword : storageLimit < wordLimit := by decide
    simp only [Value.bytes] at hs
    omega
  limit := h
  storage := fun _ => Nat.lt_of_le_of_lt (Nat.mul_le_mul_right _ (Nat.min_le_right _ _)) hs

end RegisterStack

namespace Vm
variable {vm mid : Vm} {s : RegisterStack} {func source target : Nat} {results : ResultCount}
  {tailCall : Bool} {v : Value} {values args : List Value} {r : ClosureRef}

/-! ## Laying out a frame -/

/-- A block that is moved up arrives whole, and only its old and its new place change. -/
theorem takeUp_spec (h : s.Holds source values) (hle : source + values.length ≤ target)
    (hroom : target + values.length ≤ s.size) :
    ∃ t, takeUp s source target values.length = .ok t ∧ t.size = s.size ∧ t.Holds target values ∧
      ∀ slot, slot < source ∨ source + values.length ≤ slot →
        slot < target ∨ target + values.length ≤ slot → t.slots[slot]? = s.slots[slot]? := by
  induction values generalizing s source target with
  | nil => exact ⟨s, rfl, rfl, RegisterStack.holds_nil, fun _ _ _ => rfl⟩
  | cons v values ih =>
    rw [List.length_cons] at hle hroom
    obtain ⟨hv, hrest⟩ := RegisterStack.holds_cons.mp h
    obtain ⟨taken, moved, htake, hset, -, hsize, hmoved, hkept⟩ :=
      RegisterStack.take_set_eq_ok hv (show target < s.size by omega)
    have hnext : moved.Holds (source + 1) values := hrest.congr fun other _ _ =>
      hkept other (by omega) (by omega)
    obtain ⟨t, htakeUp, ht, hholds, hrestKept⟩ :=
      ih hnext (show source + 1 + values.length ≤ target + 1 by omega) (by omega)
    refine ⟨t, ?_, ht.trans hsize, RegisterStack.holds_cons.mpr ⟨?_, hholds⟩,
      fun slot hslot hslot' => ?_⟩
    · rw [List.length_cons]
      unfold takeUp
      simp only [htake, hset]
      exact htakeUp
    · rw [hrestKept target (by omega) (by omega)]
      exact hmoved
    · rw [List.length_cons] at hslot hslot'
      rw [hrestKept slot (by omega) (by omega), hkept slot (by omega) (by omega)]

/-- The registers of a vararg call begin at the old top. The parameters are moved there, and the
other arguments stay. -/
theorem adjustVarargs_eq {paramCount : Nat} (hargs : vm.stack.Holds (vm.top - args.length) args)
    (hle : args.length ≤ vm.top) (hroom : vm.top + paramCount ≤ vm.stack.size) :
    ∃ s, s.Holds vm.top (Value.adjusted paramCount args) ∧
      s.Holds (vm.top - (args.drop paramCount).length) (args.drop paramCount) ∧
      adjustVarargs paramCount args.length vm =
        .returned vm.top { vm with stack := s, top := vm.top + paramCount } := by
  have hmoved : (args.take paramCount).length = min paramCount args.length := List.length_take
  have hdropped : (args.drop paramCount).length = args.length - paramCount := List.length_drop
  obtain ⟨hparams, hsurplus⟩ : vm.stack.Holds (vm.top - args.length) (args.take paramCount) ∧
      vm.stack.Holds (vm.top - args.length + (args.take paramCount).length)
        (args.drop paramCount) := by
    rw [← RegisterStack.holds_append, List.take_append_drop]
    exact hargs
  obtain ⟨t, htake, htsize, htholds, htkept⟩ := takeUp_spec hparams
    (show vm.top - args.length + (args.take paramCount).length ≤ vm.top by omega) (by omega)
  obtain ⟨u, hfill, hu⟩ := RegisterStack.fillNil_puts
    (show vm.top + min paramCount args.length + (paramCount - min paramCount args.length) ≤
      t.size by omega)
  -- The surplus begins where the arguments that are moved away end. Without a surplus that place
  -- means nothing.
  have hlater : t.Holds (vm.top - (args.drop paramCount).length) (args.drop paramCount) := by
    by_cases hlt : paramCount < args.length
    · rw [show vm.top - (args.drop paramCount).length =
        vm.top - args.length + (args.take paramCount).length by omega]
      exact hsurplus.congr fun slot _ _ => htkept slot (by omega) (by omega)
    · rw [List.drop_eq_nil_of_le (Nat.le_of_not_lt hlt)]
      exact RegisterStack.holds_nil
  refine ⟨u, RegisterStack.holds_append.mpr ⟨?_, ?_⟩, ?_, ?_⟩
  · exact hu.holds_of_disjoint htholds (.inl (by omega))
  · have hholds := hu.holds
    rwa [show paramCount - min paramCount args.length =
      paramCount - args.length by omega, ← hmoved] at hholds
  · exact hu.holds_of_disjoint hlater (.inl (by omega))
  · rw [hmoved] at htake
    have hsub : Checked.sub vm.top args.length = .ok (vm.top - args.length) := if_pos hle
    simp only [adjustVarargs, bind, Exec.bind, Exec.look, hsub, Exec.check, Exec.onStack, htake,
      hfill, Exec.setTop, Exec.modify, pure, Exec.pure]

/-- With room for them, the parameters of a frame are laid out above the function and the surplus
below its registers. -/
theorem layParams_eq {p : Prototype} (hargs : vm.stack.Holds (func + 1) args)
    (htop : func + 1 + args.length = vm.top) (hroom : vm.top + p.paramCount ≤ vm.stack.size) :
    ∃ base s top, (∀ f : Frame, f.func = func → f.base = base → f.Received p args s) ∧
      ∀ enter : Nat → Exec Unit,
        (if p.isVararg then adjustVarargs p.paramCount args.length >>= enter
          else do
            Exec.onStack (·.fillNil vm.top (p.paramCount - args.length))
            enter (func + 1) : Exec Unit) vm = enter base { vm with stack := s, top } := by
  by_cases hvararg : p.isVararg = true
  · have hstart : vm.top - args.length = func + 1 := by omega
    obtain ⟨s, hparams, hsurplus, hadjust⟩ := adjustVarargs_eq (hstart ▸ hargs) (by omega) hroom
    refine ⟨vm.top, s, vm.top + p.paramCount, fun f hfunc hbase => ⟨hbase ▸ hparams, ?_, ?_⟩,
      fun enter => ?_⟩
    · rw [Prototype.surplus, if_pos hvararg, List.length_drop]
      omega
    · rw [Prototype.surplus, if_pos hvararg, hbase]
      exact hsurplus
    · rw [if_pos hvararg]
      exact Exec.bind_of_returned hadjust
  · obtain ⟨s, hfill, hs⟩ := RegisterStack.fillNil_puts
      (show vm.top + (p.paramCount - args.length) ≤ vm.stack.size by omega)
    refine ⟨func + 1, s, vm.top, fun f hfunc hbase => ⟨?_, ?_, ?_⟩, fun enter => ?_⟩
    · have hkept := hs.holds_of_disjoint (hargs.take p.paramCount)
        (.inl (by rw [List.length_take]; omega))
      rw [hbase]
      refine RegisterStack.holds_append.mpr ⟨hkept, ?_⟩
      by_cases hlt : args.length < p.paramCount
      · rw [List.take_of_length_le (Nat.le_of_lt hlt), htop]
        exact hs.holds
      · rw [Nat.sub_eq_zero_of_le (Nat.le_of_not_lt hlt)]
        exact RegisterStack.holds_nil
    · rw [Prototype.surplus, if_neg hvararg, List.length_nil]
      omega
    · rw [Prototype.surplus, if_neg hvararg]
      exact RegisterStack.holds_nil
    · rw [if_neg hvararg]
      have hstored : Exec.onStack (·.fillNil vm.top (p.paramCount - args.length)) vm =
          .returned () { vm with stack := s } :=
        Exec.onStack_eq_returned_iff.mpr ⟨s, hfill, rfl⟩
      exact Exec.bind_of_returned hstored

/-- Nothing is in the way of a call of the closure `c` from the slot `func`: neither the depth of
calls nor the limit of the stack nor storage. -/
structure AdmitsCall (vm : Vm) (func : Nat) (tailCall : Bool) (c : ClosureRef) (args : List Value) :
    Prop where
  depth : ∃ limit, depthLimit tailCall vm.config.maxCallDepth = .ok limit ∧ vm.frames.depth < limit
  room : func + 1 + args.length + (vm.heap.closureAt c).proto.maxStackSize ≤ vm.stack.limit
  storage : vm.stack.limit * Value.bytes < storageLimit

/-- The current frame runs the closure `c`, whose prototype is `p`, and has received the
arguments. -/
structure Passed (c : ClosureRef) (p : Prototype) (args : List Value) (vm : Vm) : Prop where
  closure : vm.frames.current.closure = some c
  proto : (vm.heap.closureAt c).proto = p
  received : vm.frames.current.Received p args vm.stack

theorem enterFrame_succeeds (hargs : vm.stack.slice func vm.top = .ok (v :: args))
    (hparams : (vm.heap.closureAt r).proto.paramCount ≤ (vm.heap.closureAt r).proto.maxStackSize) :
    (enterFrame r func results tailCall).Succeeds vm (vm.AdmitsCall func tailCall r args)
      fun _ after =>
      Passed r (vm.heap.closureAt r).proto args after := by
  obtain ⟨htop, -, hheld⟩ := RegisterStack.slice_eq_ok_iff.mp hargs
  rw [List.length_cons] at htop
  refine .bind (.look (.bind (.look (.bind (.check (fun hok => ?_) fun limit hlimit => ?_)))))
  · obtain ⟨limit, hlimit, -⟩ := hok.depth
    exact ⟨limit, hlimit⟩
  refine .bind (.look (.ite (fun hdepth => .bind (.raise fun hok => ?_)) fun _ => ?_))
  · obtain ⟨limit', hlimit', hlt⟩ := hok.depth
    cases hlimit.symm.trans hlimit'
    omega
  refine .bind (.look (.bind (.ensure (fun hok => ?_) fun grown hgrown hroom => ?_)))
  · have := hok.room
    exact RegisterStack.grants_of_le_limit (by omega) hok.storage
  let ensured : Vm := { vm with stack := grown }
  have hsub : Checked.sub vm.top (func + 1) = .ok args.length := by
    rw [Checked.sub, if_pos (by omega), show vm.top - (func + 1) = args.length by omega]
  rw [hsub]
  refine .bind (.of_returned rfl ?_)
  have hargs' : ensured.stack.Holds (func + 1) args :=
    hgrown.holds (RegisterStack.holds_cons.mp hheld).2
  obtain ⟨base, s, top, hreceived, hlaid⟩ :=
    layParams_eq hargs' (show func + 1 + args.length = vm.top by omega)
      (show vm.top + (vm.heap.closureAt r).proto.paramCount ≤ grown.size by omega)
  refine .of_returned (hlaid fun base => Exec.modify fun vm' => { vm' with
    frames := vm'.frames.push (newFrame vm.heap r func base results)
    top := (newFrame vm.heap r func base results).top }) ⟨?_, rfl, ?_⟩
  · rw [CallStack.current_push]
    rfl
  · rw [CallStack.current_push]
    exact hreceived _ rfl rfl

/-! ## Calls through handlers -/

/-- What a call of a value with arguments comes to: a closure is called itself, and any other value
but a function of the host becomes the first argument of its handler. -/
inductive Resolves (handler : Value → Option Value) :
    Value → List Value → ClosureRef → List Value → Prop
  | closure (c : ClosureRef) (args : List Value) : Resolves handler (.closure c) args c args
  | handler {v h : Value} {args args' : List Value} {c : ClosureRef} (hv : v.isFunction = false)
      (hh : handler v = some h) (hr : Resolves handler h (v :: args) c args') :
      Resolves handler v args c args'

/-- The value that is called in place of one that is no function. -/
def handlerOf (vm : Vm) (v : Value) : Option Value :=
  match vm.hooks with
  | .raw => none
  | .standard => (vm.heap.metafield vm.types v "__call").notNil?

/-- Every handler on the way adds an argument. -/
theorem Resolves.length_le {handler : Value → Option Value} {args' : List Value} {c : ClosureRef}
    (h : Resolves handler v args c args') : args.length ≤ args'.length := by
  induction h with
  | closure c args => exact Nat.le_refl _
  | handler _ _ _ ih =>
    rw [List.length_cons] at ih
    omega

theorem callHandler?_eq (v : Value) (vm : Vm) :
    ∃ log, callHandler? v vm = .returned (vm.handlerOf v) { vm with consultations := log } := by
  rw [callHandler?, consult_eq]
  exact ⟨_, rfl⟩

theorem tryEnter_of_handler {h : Value} (hslot : vm.stack.slots[func]? = some v)
    (hv : v.isFunction = false) (hh : vm.handlerOf v = some h) :
    ∃ log, tryEnter func results tailCall vm =
      .returned (some h) { vm with consultations := log } := by
  obtain ⟨log, hcall⟩ := callHandler?_eq v vm
  rw [hh] at hcall
  refine ⟨log, ?_⟩
  have hget : Exec.getSlot func vm = .returned v vm := Exec.getSlot_eq_returned_iff.mpr ⟨hslot, rfl⟩
  rw [tryEnter, Exec.bind_of_returned hget]
  cases v with
  | closure _ | host _ => cases hv
  | _ => exact Exec.bind_of_returned hcall

theorem enterFunction_of_closure (hslot : vm.stack.slots[func]? = some (.closure r)) (room : Nat) :
    enterFunction func results tailCall room vm = enterFrame r func results tailCall vm := by
  have hget : Exec.getSlot func vm = .returned (.closure r) vm :=
    Exec.getSlot_eq_returned_iff.mpr ⟨hslot, rfl⟩
  have htry : tryEnter func results tailCall vm =
      (enterFrame r func results tailCall >>= fun _ => pure none) vm := by
    rw [tryEnter, Exec.bind_of_returned hget]
  cases room <;> simp only [enterFunction, bind, Exec.bind] at htry ⊢ <;> rw [htry] <;>
    cases enterFrame r func results tailCall vm <;> rfl

/-- In a stack that has grown for it, a handler is put before the value it is called for. -/
theorem placeHandler_eq {grown : RegisterStack} (hgrown : vm.stack.Grown grown)
    (hroom : vm.top + 1 ≤ grown.size) (hargs : vm.stack.slice func vm.top = .ok values)
    (h : Value) :
    ∃ s, s.limit = vm.stack.limit ∧ s.slice func (vm.top + 1) = .ok (h :: values) ∧
      (Exec.onStack (·.insert func vm.top h) >>= fun _ => Exec.setTop (vm.top + 1))
      { vm with stack := grown } = .returned () { vm with stack := s, top := vm.top + 1 } := by
  obtain ⟨htop, -, hheld⟩ := RegisterStack.slice_eq_ok_iff.mp hargs
  obtain ⟨s, hinsert, hs⟩ := RegisterStack.insert_puts (hgrown.holds hheld) htop hroom h
  refine ⟨s, hs.limit.trans hgrown.limit, RegisterStack.slice_eq_ok_iff.mpr ⟨?_, ?_, hs.holds⟩, ?_⟩
  · rw [List.length_cons]
    omega
  · rw [hs.size]
    exact hroom
  · have hstored : Exec.onStack (·.insert func vm.top h) { vm with stack := grown } =
      .returned () { vm with stack := s } :=
      Exec.onStack_eq_returned_iff.mpr ⟨s, hinsert, rfl⟩
    exact Exec.bind_of_returned hstored

theorem insertHandler_succeeds {ok : Prop} (h : Value) (hg : ok → vm.stack.Grants (vm.top + 1))
    (hargs : vm.stack.slice func vm.top = .ok values) :
    (insertHandler func h).Succeeds vm ok fun _ after => ∃ s, s.limit = vm.stack.limit ∧
      s.slice func (vm.top + 1) = .ok (h :: values) ∧
        after = { vm with stack := s, top := vm.top + 1 } := by
  refine .bind (.look (.bind (.ensure hg fun grown hgrown hroom => ?_)))
  obtain ⟨s, hlimit, hslice, hplace⟩ := placeHandler_eq hgrown hroom hargs h
  exact .of_returned hplace ⟨s, hlimit, hslice, rfl⟩

/-- A call through any number of handlers ends in the closure that it comes to, with the value
called first among its arguments for each of them. -/
theorem enterFunction_succeeds {handler : Value → Option Value} {room : Nat} {args' : List Value}
    {c : ClosureRef}
    (hr : Resolves handler v args c args') (hh : vm.handlerOf = handler)
    (hroom : vm.stack.limit ≤ vm.top + room)
    (hargs : vm.stack.slice func vm.top = .ok (v :: args))
    (hparams : (vm.heap.closureAt c).proto.paramCount ≤ (vm.heap.closureAt c).proto.maxStackSize) :
    (enterFunction func results tailCall room).Succeeds vm (vm.AdmitsCall func tailCall c args')
      fun _ after =>
      Passed c (vm.heap.closureAt c).proto args' after := by
  induction hr generalizing vm room with
  | closure c args =>
    obtain ⟨-, -, hheld⟩ := RegisterStack.slice_eq_ok_iff.mp hargs
    exact .of_eq (enterFunction_of_closure (RegisterStack.holds_cons.mp hheld).1 room)
      (enterFrame_succeeds hargs hparams)
  | @handler v h args args' c hv hhandler hrest ih =>
    obtain ⟨htop, -, hheld⟩ := RegisterStack.slice_eq_ok_iff.mp hargs
    have hlength := hrest.length_le
    rw [List.length_cons] at htop hlength
    obtain ⟨log, htry⟩ : ∃ log, tryEnter func results tailCall vm =
      .returned (some h) { vm with consultations := log } :=
      tryEnter_of_handler (RegisterStack.holds_cons.mp hheld).1 hv (hh ▸ hhandler)
    cases room with
    | zero =>
      -- Every handler on the way needs a slot of its own, and a call that is admitted has room for
      -- all of its arguments.
      refine .of_eq (Exec.bind_of_returned htry) (.raise fun hok => ?_)
      have := hok.room
      omega
    | succ room =>
      refine .of_eq (Exec.bind_of_returned htry) (.bind ?_)
      let consulted : Vm := { vm with consultations := log }
      have hheld' : consulted.stack.slice func consulted.top = .ok (v :: args) := hargs
      have hgrants : vm.AdmitsCall func tailCall c args' →
          consulted.stack.Grants (consulted.top + 1) := by
        intro hok
        have := hok.room
        exact RegisterStack.grants_of_le_limit
          (show vm.top + 1 ≤ vm.stack.limit by omega) hok.storage
      refine (insertHandler_succeeds h hgrants hheld').mono id ?_
      rintro _ _ ⟨s, hlimit, hslice, rfl⟩
      let inserted : Vm := { consulted with stack := s, top := vm.top + 1 }
      have hlimit' : inserted.stack.limit = vm.stack.limit := hlimit
      have hnext := ih (show inserted.handlerOf = handler from hh)
        (show inserted.stack.limit ≤ vm.top + 1 + room by omega) hslice hparams
      refine hnext.mono (fun hok => ⟨hok.depth, ?_, ?_⟩) fun _ _ hpassed => hpassed
      · rw [hlimit']
        exact hok.room
      · rw [hlimit']
        exact hok.storage

/-- A call enters the closure that it comes to with all of the arguments, if nothing is in its
way. -/
theorem precall_succeeds {args' : List Value} {c : ClosureRef}
    (hr : Resolves vm.handlerOf v args c args')
    (hargs : vm.stack.slice func vm.top = .ok (v :: args))
    (hparams : (vm.heap.closureAt c).proto.paramCount ≤ (vm.heap.closureAt c).proto.maxStackSize) :
    (precall func results tailCall).Succeeds vm (vm.AdmitsCall func tailCall c args') fun _ after =>
      Passed c (vm.heap.closureAt c).proto args' after :=
  .bind (.look (enterFunction_succeeds hr rfl (by omega) hargs hparams))

/-- So does a call from the host, or one that an instruction asks for. -/
theorem beginCall_passes {after : Vm} {args' : List Value} {c : ClosureRef} {site : CallSite}
    (hr : Resolves vm.handlerOf v args c args')
    (hargs : vm.stack.slice func vm.top = .ok (v :: args))
    (hparams : (vm.heap.closureAt c).proto.paramCount ≤ (vm.heap.closureAt c).proto.maxStackSize)
    (hb : beginCall func results vm = .returned site after) :
    Passed c (vm.heap.closureAt c).proto args' after := by
  obtain ⟨-, entered, hprecall, rfl⟩ := beginCall_eq_returned hb
  let counted : Vm := { vm with hostCalls := vm.hostCalls + 1 }
  have hr' : Resolves counted.handlerOf v args c args' := hr
  have hargs' : counted.stack.slice func counted.top = .ok (v :: args) := hargs
  have hpassed := (precall_succeeds hr' hargs' hparams).sound _ _ hprecall
  refine ⟨?_, hpassed.proto, ?_⟩
  · rw [CallStack.current_modifyCurrent]
    exact hpassed.closure
  · rw [CallStack.current_modifyCurrent]
    exact ⟨hpassed.received.params, hpassed.received.distance, hpassed.received.surplus⟩

end Vm

end LuaMachine
