import LuaMachine.Proofs.Instructions

/-!
# Entering, leaving and replacing frames

Calls and returns are the operations that change which frames are active. Entering puts one frame in
front, whose registers begin above the called function. Leaving takes the frame off and moves the
results to its function. A tail call does both at once: the frame that it has just entered takes the
place of its caller.
-/
namespace LuaMachine.Vm

open Relation (ReflTransGen)
open Exec (Keeps Post)

/-! ## Entering -/

/-- A frame as a call of the function in `slot` enters it. -/
structure Entering (heap : Heap) (slot : Nat) (wanted : ResultCount) (g : Frame) : Prop where
  closure : ∃ r, g.closure = some r ∧ g.top = g.base + (heap.closureAt r).proto.maxStackSize
  func : g.func = slot
  above : slot < g.base
  results : g.results = wanted
  fresh : g.status.fresh = false

theorem Entering.base_le_top {heap : Heap} {slot : Nat} {wanted : ResultCount} {g : Frame}
    (h : Entering heap slot wanted g) : g.base ≤ g.top := by
  obtain ⟨r, -, ht⟩ := h.closure
  omega

/-- The frame `g` was entered after the arguments had been put in order. -/
def Entered (func : Nat) (results : ResultCount) (g : Frame) (vm after : Vm) : Prop :=
  Entering vm.heap func results g ∧
    ∃ mid, ReflTransGen (Shift func) vm mid ∧
      after = { mid with frames := mid.frames.push g, top := g.top }

section Entered
variable {func : Nat} {results : ResultCount} {g : Frame} {vm mid after : Vm}

theorem Entered.head (h : ReflTransGen (Shift func) vm mid)
    (h' : Entered func results g mid after) : Entered func results g vm after := by
  obtain ⟨hg, mid', hs, rfl⟩ := h'
  rw [(onlyRegisters_of_shifts h).heap] at hg
  exact ⟨hg, mid', h.trans hs, rfl⟩

theorem Entered.active (h : Entered func results g vm after) :
    after.frames.active = g :: vm.frames.active := by
  obtain ⟨-, mid, hs, rfl⟩ := h
  rw [CallStack.active_push, (onlyRegisters_of_shifts hs).frames]

theorem Entered.top (h : Entered func results g vm after) : after.top = g.top := by
  obtain ⟨-, mid, hs, rfl⟩ := h
  rfl

theorem Entered.heap (h : Entered func results g vm after) : after.heap = vm.heap := by
  obtain ⟨-, mid, hs, rfl⟩ := h
  exact (onlyRegisters_of_shifts hs).heap

theorem Entered.upvalues (h : Entered func results g vm after) : after.upvalues = vm.upvalues := by
  obtain ⟨-, mid, hs, rfl⟩ := h
  exact (onlyRegisters_of_shifts hs).upvalues

theorem Entered.hostCalls (h : Entered func results g vm after) :
    after.hostCalls = vm.hostCalls := by
  obtain ⟨-, mid, hs, rfl⟩ := h
  exact (onlyRegisters_of_shifts hs).hostCalls

end Entered

theorem takeUp_yields {level : Nat} (s : RegisterStack) {source target : Nat} (count : Nat)
    (hs : level ≤ source) (ht : level ≤ target) :
    (takeUp s source target count).Yields (ReflTransGen (RegisterStack.Write level) s) := by
  induction count generalizing s source target with
  | zero => exact .refl
  | succ count ih =>
    have htake := s.take_yields hs
    unfold takeUp
    cases hv : s.take source with
    | error e => exact htake.of_error hv
    | ok p =>
      obtain ⟨v, s'⟩ := p
      have hset := s'.set_yields v ht
      dsimp only
      cases hw : s'.set target v with
      | error e => exact hset.of_error hw
      | ok t =>
        have htaken := htake.of_ok hv
        have hstored := hset.of_ok hw
        exact (ih t (by omega) (by omega)).mono fun _ h => .head htaken (.head hstored h)

/-- Slots that values were moved to exist. -/
theorem takeUp_room {s t : RegisterStack} {source target count : Nat}
    (h : takeUp s source target count = .ok t) : count = 0 ∨ target + count ≤ s.size := by
  induction count generalizing s source target with
  | zero => exact .inl rfl
  | succ count ih =>
    have htake := s.take_yields (Nat.zero_le source)
    unfold takeUp at h
    cases hv : s.take source with
    | error e => simp [hv] at h
    | ok p =>
      obtain ⟨v, s'⟩ := p
      have hsize : s'.size = s.size := RegisterStack.size_of_writes (.single (htake.of_ok hv))
      cases hw : s'.set target v with
      | error e => simp [hv, hw] at h
      | ok s'' =>
        simp only [hv, hw] at h
        obtain ⟨hlt, rfl⟩ := RegisterStack.set_eq_ok_iff.mp hw
        have hrest := ih h
        rw [RegisterStack.size_setIfInBounds] at hrest
        omega

/-- The registers of a vararg call begin at the old top, above all arguments. -/
theorem adjustVarargs_post {level argCount : Nat} (paramCount : Nat) {vm : Vm}
    (hl : level + argCount ≤ vm.top) :
    (adjustVarargs paramCount argCount).Post vm
      (fun base after => base = vm.top ∧ (paramCount = 0 ∨ base + paramCount ≤ after.stack.size) ∧
        ReflTransGen (Shift level) vm after) (ReflTransGen (Shift level) vm) := by
  refine Post.bind (Post.look (Post.bind (Post.check ?_)))
  apply (Checked.sub_yields _ _).mono
  rintro fixed ⟨-, rfl⟩
  have htake : ∀ s, (takeUp s (vm.top - argCount) vm.top (min paramCount argCount)).Yields
      (ReflTransGen (RegisterStack.Write level) s) :=
        fun s => takeUp_yields s _ (by omega) (by omega)
  refine Post.bind ((Exec.onStack_keeps htake vm).mono ?_ fun _ h => h)
  intro _ mid hx hm
  obtain ⟨s, hs, rfl⟩ := Exec.onStack_eq_returned_iff.mp hx
  have hsize := RegisterStack.size_of_writes ((htake vm.stack).of_ok hs)
  have hmoved := takeUp_room hs
  have hfill : ∀ s : RegisterStack,
      (s.fillNil (vm.top + min paramCount argCount) (paramCount - min paramCount argCount)).Yields
      (ReflTransGen (RegisterStack.Write level) s) := fun s => s.fillNil_yields _ (by omega)
  refine Post.bind ((Exec.onStack_keeps hfill _).mono ?_ fun _ => hm.trans)
  intro _ mid hx hm'
  obtain ⟨t, ht, rfl⟩ := Exec.onStack_eq_returned_iff.mp hx
  have hsize' : t.size = s.size := RegisterStack.size_of_writes ((hfill s).of_ok ht)
  have hfilled := RegisterStack.fillNil_room ht
  refine Post.bind
    (Post.modify (Post.pure ⟨rfl, ?_, (hm.trans hm').tail (.moveTop (.inl (by omega)))⟩))
  dsimp only at hfilled ⊢
  omega

/-- The frame that a call of the closure `r` in the slot `func` enters, with its registers from
`base` on. -/
def newFrame (heap : Heap) (r : ClosureRef) (func base : Nat) (results : ResultCount) : Frame where
  closure := some r
  func := func
  base := base
  top := base + (heap.closureAt r).proto.maxStackSize
  results := results
  status := { lua := true }

/-- In the state `mid` everything is in order for the frame of the closure `r`: its parameters are
laid out from `base` on, and there is room for its registers. -/
structure LaidOut (r : ClosureRef) (func : Nat) (tailCall : Bool) (vm : Vm) (base : Nat)
    (mid : Vm) : Prop where
  shifts : ReflTransGen (Shift (func + 1)) vm mid
  above : func < base
  base_le : base ≤ vm.top
  room : vm.top + (vm.heap.closureAt r).proto.maxStackSize ≤ mid.stack.size
  params : base + (vm.heap.closureAt r).proto.paramCount ≤ mid.stack.size
  depth : tailCall = false → vm.frames.depth < vm.config.maxCallDepth

/-- Entering the frame of a closure lays it out above the function and then makes it current. -/
theorem enterFrame_spec (r : ClosureRef) (func : Nat) (results : ResultCount) (tailCall : Bool)
    (vm : Vm) :
    (enterFrame r func results tailCall).Post vm
      (fun _ after => ∃ base mid, LaidOut r func tailCall vm base mid ∧
        after = { mid with
          frames := mid.frames.push (newFrame vm.heap r func base results)
          top := (newFrame vm.heap r func base results).top })
      (ReflTransGen (Shift (func + 1)) vm) := by
  have hlimit : (depthLimit tailCall vm.config.maxCallDepth).Yields
      fun limit => tailCall = false → limit = vm.config.maxCallDepth := by
    cases tailCall with
    | false => exact fun _ => rfl
    | true => exact (Checked.add_yields _ 1).mono fun _ _ h => by cases h
  refine Post.bind (Post.look (Post.bind (Post.look (Post.bind (Post.check (hlimit.mono ?_))))))
  intro limit hlimit
  refine Post.bind (Post.look ?_)
  refine Post.ite (fun _ => Post.bind (Post.raise .refl)) fun hbelow => ?_
  have hdepth : tailCall = false → vm.frames.depth < vm.config.maxCallDepth := fun h => by
    have := hlimit h
    omega
  refine Post.bind
    (Post.look (Post.bind ((Exec.ensure_post (func + 1) _ vm).mono ?_ fun _ h => h ▸ .refl)))
  rintro _ mid - ⟨htop, hroom, hm⟩
  refine Post.bind (Post.check ((Checked.sub_yields _ _).mono ?_))
  rintro argCount ⟨hle, rfl⟩
  refine Post.ite (fun _ => ?_) fun _ => ?_
  · refine Post.bind ((adjustVarargs_post _ (by omega)).mono ?_ fun _ => hm.trans)
    rintro base mid' - ⟨rfl, hparams, hm'⟩
    have hsize := size_of_shifts hm'
    exact Post.modify ⟨_, mid', ⟨hm.trans hm', by omega, by omega, by omega, by omega, hdepth⟩, rfl⟩
  · have hfill : ∀ s : RegisterStack,
        (s.fillNil vm.top ((vm.heap.closureAt r).proto.paramCount - (vm.top - (func + 1)))).Yields
        (ReflTransGen (RegisterStack.Write (func + 1)) s) := fun s => s.fillNil_yields _ (by omega)
    refine Post.bind ((Exec.onStack_keeps hfill mid).mono ?_ fun _ => hm.trans)
    intro _ mid' hx hm'
    obtain ⟨s, hs, rfl⟩ := Exec.onStack_eq_returned_iff.mp hx
    have hsize : s.size = mid.stack.size :=
      RegisterStack.size_of_writes ((hfill mid.stack).of_ok hs)
    have hparams := RegisterStack.fillNil_room hs
    refine Post.bind
      (Post.pure
        (Post.modify ⟨_, _, ⟨hm.trans hm', Nat.lt_succ_self func, by omega, ?_, ?_, hdepth⟩, rfl⟩))
    · dsimp only
      omega
    · dsimp only
      omega

/-- The frame of a closure has room for its registers above the function. -/
theorem enterFrame_post (r : ClosureRef) (func : Nat) (results : ResultCount) (tailCall : Bool)
    (vm : Vm) :
    (enterFrame r func results tailCall).Post vm
      (fun _ after => ∃ g, Entered func results g vm after) (ReflTransGen (Shift func) vm) := by
  refine (enterFrame_spec r func results tailCall vm).mono ?_ fun _ h =>
    shifts_mono h (Nat.le_succ func)
  rintro _ _ - ⟨base, mid, hlaid, rfl⟩
  exact ⟨newFrame vm.heap r func base results, ⟨⟨r, rfl, rfl⟩, rfl, hlaid.above, rfl, rfl⟩, mid,
    shifts_mono hlaid.shifts (Nat.le_succ func), rfl⟩

/-- A value that is no function is not entered, but its handler may be. -/
theorem tryEnter_post (func : Nat) (results : ResultCount) (tailCall : Bool) (vm : Vm) :
    (tryEnter func results tailCall).Post vm
      (fun handler after => match handler with
        | none => ∃ g, Entered func results g vm after
        | some _ => ReflTransGen (Shift func) vm after) (ReflTransGen (Shift func) vm) := by
  refine (Exec.getSlot_keeps func).bind_post (fun v mid hm => ?_) fun _ h => h
  split
  · refine Post.bind ((enterFrame_post _ func results tailCall mid).mono ?_ fun _ => hm.trans)
    rintro _ after - ⟨g, he⟩
    exact Post.pure ⟨g, he.head hm⟩
  · exact Post.raise hm
  · refine (callHandler?_keeps v).bind_post (fun handler mid' hm' => ?_) fun _ => hm.trans
    cases handler with
    | some handler => exact Post.pure (hm.trans hm')
    | none => exact Post.raise (hm.trans hm')

theorem insertHandler_keeps (func : Nat) (handler : Value) :
    (insertHandler func handler).Keeps (Shift func) := by
  intro vm
  refine Post.bind
    (Post.look (Post.bind ((Exec.ensure_post func _ vm).mono ?_ fun _ h => h ▸ .refl)))
  rintro _ mid - ⟨htop, -, hm⟩
  refine Post.bind (Post.onStack ((mid.stack.insert_yields func _ handler).mono fun s hw => ?_))
  refine Post.modify ((hm.trans (Exec.shifts_of_writes hw)).tail (.moveTop (.inr (.inl ?_))))
  show mid.top ≤ vm.top + 1
  omega

/-- Each handler on the way is put in order below the top, and the last one is entered. -/
theorem enterFunction_post (func : Nat) (results : ResultCount) (tailCall : Bool) (room : Nat)
    (vm : Vm) :
    (enterFunction func results tailCall room).Post vm
      (fun _ after => ∃ g, Entered func results g vm after) (ReflTransGen (Shift func) vm) := by
  induction room generalizing vm with
  | zero =>
    refine Post.bind ((tryEnter_post func results tailCall vm).mono ?_ fun _ h => h)
    intro handler mid _ hm
    cases handler with
    | none => exact Post.pure hm
    | some handler => exact Post.raise hm
  | succ room ih =>
    refine Post.bind ((tryEnter_post func results tailCall vm).mono ?_ fun _ h => h)
    intro handler mid _ hm
    cases handler with
    | none => exact Post.pure hm
    | some handler =>
      refine (insertHandler_keeps func handler).bind_post (fun _ mid' hm' => ?_) fun _ => hm.trans
      refine (ih mid').mono ?_ fun _ h => (hm.trans hm').trans h
      rintro _ after - ⟨g, he⟩
      exact ⟨g, he.head (hm.trans hm')⟩

theorem precall_post (func : Nat) (results : ResultCount) (tailCall : Bool) (vm : Vm) :
    (precall func results tailCall).Post vm (fun _ after => ∃ g, Entered func results g vm after)
      (ReflTransGen (Shift func) vm) :=
  Post.bind (Post.look (enterFunction_post func results tailCall _ vm))

/-- A call that enters a frame does so in a state in which the closure of that frame is in the slot
of the function. -/
theorem tryEnter_eq_none {func : Nat} {results : ResultCount} {tailCall : Bool} {vm after : Vm}
    (h : tryEnter func results tailCall vm = .returned none after) :
    ∃ r, vm.stack.slots[func]? = some (.closure r) ∧ enterFrame r func results tailCall vm =
      .returned () after := by
  obtain ⟨v, mid, hget, hv⟩ := Exec.bind_eq_returned_iff.mp h
  obtain ⟨hslot, rfl⟩ := Exec.getSlot_eq_returned_iff.mp hget
  split at hv
  · next r =>
    obtain ⟨_, _, henter, hnone⟩ := Exec.bind_eq_returned_iff.mp hv
    cases hnone
    exact ⟨r, hslot, henter⟩
  · cases hv
  · obtain ⟨handler, _, -, hnone⟩ := Exec.bind_eq_returned_iff.mp hv
    cases handler <;> cases hnone

theorem enterFunction_eq_returned {func : Nat} {results : ResultCount} {tailCall : Bool}
    {room : Nat} {vm after : Vm} {u : Unit}
    (h : enterFunction func results tailCall room vm = .returned u after) :
    ∃ r mid, ReflTransGen (Shift func) vm mid ∧ mid.stack.slots[func]? = some (.closure r) ∧
      enterFrame r func results tailCall mid = .returned () after := by
  induction room generalizing vm with
  | zero =>
    obtain ⟨handler, mid, htry, h⟩ := Exec.bind_eq_returned_iff.mp h
    cases handler with
    | some handler => cases h
    | none =>
      cases h
      obtain ⟨r, hslot, henter⟩ := tryEnter_eq_none htry
      exact ⟨r, vm, .refl, hslot, henter⟩
  | succ room ih =>
    obtain ⟨handler, mid, htry, h⟩ := Exec.bind_eq_returned_iff.mp h
    cases handler with
    | none =>
      cases h
      obtain ⟨r, hslot, henter⟩ := tryEnter_eq_none htry
      exact ⟨r, vm, .refl, hslot, henter⟩
    | some handler =>
      obtain ⟨_, mid', hinsert, h⟩ := Exec.bind_eq_returned_iff.mp h
      have hm : ReflTransGen (Shift func) vm mid :=
        (tryEnter_post func results tailCall vm).of_returned htry
      have hm' := (insertHandler_keeps func handler mid).of_returned hinsert
      obtain ⟨r, last, hlast, hslot, henter⟩ := ih h
      exact ⟨r, last, (hm.trans hm').trans hlast, hslot, henter⟩

/-- However many handlers are on the way, a call ends by entering the closure that is then in the
slot of the function. -/
theorem precall_eq_returned {func : Nat} {results : ResultCount} {tailCall : Bool} {vm after : Vm}
    {u : Unit} (h : precall func results tailCall vm = .returned u after) :
    ∃ r mid, ReflTransGen (Shift func) vm mid ∧ mid.stack.slots[func]? = some (.closure r) ∧
      enterFrame r func results tailCall mid = .returned () after := by
  obtain ⟨room, mid, hlook, h⟩ := Exec.bind_eq_returned_iff.mp h
  cases hlook
  exact enterFunction_eq_returned h

/-! ## Leaving -/

theorem moveResults_keeps {level target : Nat} (first count : Nat) (results : ResultCount)
    (hl : level ≤ target) : (moveResults first target count results).Keeps (Shift level) := by
  unfold moveResults
  split
  · exact (Exec.setTop_keeps hl).bind fun _ => Keeps.pure _
  · have hstore : ∀ v, (do
        Exec.setSlot target v
        Exec.setTop (target + 1)
        return true : Exec Bool).Keeps (Shift level) := by
      intro v
      refine (Exec.setSlot_keeps v hl).bind fun _ => ?_
      exact (Exec.setTop_keeps (by omega)).bind fun _ => Keeps.pure _
    exact Keeps.ite (fun _ => (Keeps.pure _).bind hstore) fun _ =>
      (Exec.getSlot_keeps _).bind hstore
  · next wanted _ _ =>
    intro vm
    refine Post.bind (Post.check ((Checked.add_yields target wanted).mono ?_))
    rintro bound rfl
    refine (?_ : Exec.Keeps (Shift level) _) vm
    refine (Exec.ensure_keeps _).bind fun _ => ?_
    refine (Exec.onStack_keeps fun s => s.copyDown_yields _ _ hl).bind fun _ => ?_
    refine (Exec.onStack_keeps fun s => s.fillNil_yields _ (by omega)).bind fun _ => ?_
    exact (Exec.setTop_keeps (by omega)).bind fun _ => Keeps.pure _
  · refine (Exec.onStack_keeps fun s => s.copyDown_yields _ _ hl).bind fun _ => ?_
    exact (Exec.setTop_keeps (by omega)).bind fun _ => Keeps.pure _

/-- The frame `f` was left, so that only the frames `below` are active, and its results were moved
to its function. -/
def Left (f : Frame) (below : List Frame) (vm after : Vm) : Prop :=
  ∃ frames : CallStack, frames.active = below ∧ ReflTransGen (Shift f.func) { vm with frames } after

theorem postcall_post {f g : Frame} {rest : List Frame} (vm : Vm) (first count : Nat)
    (hf : vm.frames.active = f :: g :: rest) :
    (postcall first count).Post vm (fun _ after => Left f (g :: rest) vm after)
    (Left f (g :: rest) vm) := by
  obtain ⟨frames, hpop, hactive⟩ := CallStack.pop_of_active hf
  refine Post.bind (Post.look ?_)
  rw [hpop]
  refine Post.bind (Post.pure (Post.bind (Post.modify ?_)))
  exact (moveResults_keeps first count f.results (Nat.le_refl _) _).mono
    (fun _ _ _ h => ⟨frames, hactive, h⟩) fun _ h => ⟨frames, hactive, h⟩

/-- The frame `f` was left after its upvalues had been closed. -/
def Returned (f : Frame) (below : List Frame) (vm after : Vm) : Prop :=
  Left f below (vm.closeFrom f.base) after

/-- A return ends the run of a frame that the host entered, and else continues in the caller. -/
theorem opReturn_post {f g : Frame} {rest : List Frame} {vm : Vm} (x : Activation)
    (hf : vm.frames.active = f :: g :: rest) (hb : x.base = f.base) :
    (opReturn x).Post vm
      (fun action after => action = (if f.status.fresh then .leave else .next .proceed) ∧
        Returned f (g :: rest) vm after) (Returned f (g :: rest) vm) := by
  have hcurrent : vm.frames.current = f := (List.cons.inj hf).1
  have hend : ∀ count, (do
      let fresh := (← Exec.currentFrame).status.fresh
      let fixedResults ← postcall x.ra count
      if fresh then return .leave
      if fixedResults then resetTop
      return .next .proceed : Exec Action).Post (vm.closeFrom f.base)
        (fun action after => action = (if f.status.fresh then .leave else .next .proceed) ∧
          Returned f (g :: rest) vm after) (Returned f (g :: rest) vm) := by
    intro count
    refine Post.bind (Post.look (Post.bind ?_))
    rw [hcurrent]
    refine (postcall_post (vm.closeFrom f.base) x.ra count hf).mono ?_ fun _ h => h
    rintro fixed mid - ⟨frames, hactive, hm⟩
    cases f.status.fresh with
    | true => exact Post.pure ⟨rfl, frames, hactive, hm⟩
    | false =>
      cases fixed with
      | false => exact Post.pure ⟨rfl, frames, hactive, hm⟩
      | true =>
        refine Post.bind
          (Post.bind (Post.look (Post.modify (Post.pure ⟨rfl, frames, hactive, ?_⟩))))
        exact hm.tail (.moveTop (.inr (.inr rfl)))
  refine Post.bind (Post.modify ?_)
  rw [hb]
  refine Post.ite (fun _ => ?_) fun _ => Post.bind (Post.pure (hend _))
  exact Post.bind
    (Post.look (Post.bind (Post.check ((Checked.sub_yields _ _).mono fun count _ => hend count))))

/-! ## Replacing -/

/-- The frame `g` in the place of its caller `f`. -/
def replacement (g f : Frame) : Frame where
  closure := g.closure
  func := f.func
  base := f.func + (g.base - g.func)
  top := f.func + (g.top - g.func)
  pc := g.pc
  results := f.results
  status := { f.status with tail := true }

/-- A tail call moved its frame `g` and the arguments into the place of its caller `f`, after
closing the upvalues of that one. -/
def Spliced (g f : Frame) (below : List Frame) (vm after : Vm) : Prop :=
  ∃ mid frames, ReflTransGen (Shift f.func) (vm.closeFrom f.base) mid ∧
    mid.top = (replacement g f).top ∧ frames.active = replacement g f :: below ∧
      after = { mid with frames }

/-- With a frame just entered, and a caller that has a caller itself, a tail call meets none of its
assertions. -/
theorem spliceTailCall_post {slot : Nat} {wanted : ResultCount} {g f h : Frame} {rest : List Frame}
    {vm : Vm} (hf : vm.frames.active = g :: f :: h :: rest) (hg : Entering vm.heap slot wanted g)
    (ht : vm.top = g.top) :
    spliceTailCall.Post vm (fun _ after => Spliced g f (h :: rest) vm after) fun _ => False := by
  obtain ⟨r, hr, htop⟩ := hg.closure
  have habove := hg.above
  have hfunc := hg.func
  have hcurrent : vm.frames.current = g := (List.cons.inj hf).1
  refine Post.bind (Post.look ?_)
  rw [hcurrent]
  refine Post.bind (Post.look ?_)
  rw [CallStack.previous?_of_active hf]
  simp only [hr]
  refine Post.bind (Post.look (Post.bind (Post.modify (Post.bind (Post.check ?_)))))
  refine (Checked.sub_yields _ _).mono fun moved _ => ?_
  refine Post.bind
    (Post.onStack ((RegisterStack.copyDown_yields _ _ _ (Nat.le_refl f.func)).mono fun s hw => ?_))
  refine Post.bind (Post.check ((Checked.sub_yields _ _).mono ?_))
  rintro offset ⟨-, rfl⟩
  refine Post.bind (Post.look (Post.bind (Post.check ((Checked.sub_yields _ _).mono ?_))))
  rintro height ⟨-, rfl⟩
  refine Post.bind (Post.modify (Post.bind (Post.onFrames ?_)))
  obtain ⟨frames, hcollapse, hactive⟩ := CallStack.collapse_of_active hf (replacement g f)
  simp only [replacement, hr] at hcollapse
  rw [ht, hcollapse]
  refine Post.ite (fun hne => absurd ?_ hne) fun _ => ?_
  · omega
  · refine Post.pure ⟨_, frames, ?_, rfl, hactive, rfl⟩
    exact (Exec.shifts_of_writes hw).tail (.moveTop (.inl (Nat.le_add_right _ _)))

/-! ## Failing -/

/-- What an error leaves of a call that began at `site`: no frame, no open upvalue and no value of
it. -/
def unwound (vm : Vm) (site : CallSite) : Vm :=
  { vm.closeFrom site.func with
    hostCalls := vm.hostCalls - 1, frames := vm.frames.truncate site.depth, top := site.func }

theorem failCall_post {above below : List Frame} {site : CallSite} {vm : Vm} (e : LuaError)
    (hv : vm.frames.active = above ++ below) (hd : below.length = site.depth + 1) :
    (failCall e site).Post vm (fun _ after => after = vm.unwound site) fun _ => False := by
  refine Post.bind (Post.modify (Post.bind (Post.look ?_)))
  rw [CallStack.activeAbove_eq hv hd]
  refine Post.bind (Post.pure (Post.bind (Post.look ?_)))
  exact Post.bind (Post.modify (Post.bind (Post.modify (Post.pure rfl))))

end LuaMachine.Vm
