import LuaMachine.Proofs.Change
import LuaMachine.Proofs.MaskedRuns

/-!
# The growth of the stack

How many slots are allocated, and when, depends on the size that a stack begins with. The host
cannot tell: as long as no access is out of bounds, two machines that begin with different sizes
give the same results and errors, and the same value in every slot. A slot that one of them has not
allocated is nil in the other one. Both are compared with the machine that has all slots from the
start.
-/
namespace LuaMachine

/-! ## All slots -/

namespace RegisterStack
variable {s t : RegisterStack}

theorem ext_slots (h : s.slots = t.slots) (hl : s.limit = t.limit) : s = t := by
  cases s
  cases t
  cases h
  cases hl
  rfl

/-- The stack with all slots that the limit allows. -/
def full (s : RegisterStack) : RegisterStack := s.grow s.limit

theorem slots_full (s : RegisterStack) :
    s.full.slots = s.slots ++ Array.replicate (s.limit - s.size) .nil := by
  have hsize : s.grownSize s.limit = s.limit := by
    unfold grownSize
    omega
  show s.slots ++ Array.replicate (s.grownSize s.limit - s.size) .nil = _
  rw [hsize]

@[simp] theorem size_full (s : RegisterStack) : s.full.size = s.limit := by
  have := s.size_le_limit
  rw [size, slots_full, Array.size_append, Array.size_replicate, size]
  omega

theorem size_le_full (s : RegisterStack) : s.size ≤ s.full.size := by
  rw [size_full]
  exact s.size_le_limit

theorem get_full {slot : Nat} {v : Value} (h : s.get slot = .ok v) : s.full.get slot = .ok v := by
  rw [get_eq_ok_iff] at h ⊢
  have hlt := (Array.getElem?_eq_some_iff.mp h).1
  rw [slots_full, Array.getElem?_append_left hlt, h]

theorem full_setIfInBounds {slot : Nat} (v : Value) (h : slot < s.size) :
    s.full.setIfInBounds slot v = (s.setIfInBounds slot v).full := by
  have hlt : slot < s.slots.size := h
  refine ext_slots ?_ rfl
  rw [slots_full, size_setIfInBounds]
  show s.full.slots.setIfInBounds slot v = s.slots.setIfInBounds slot v ++ _
  rw [slots_full, Array.setIfInBounds_append, if_pos hlt]
  rfl

/-- A stack with all slots never grows, and any other one grows towards it. -/
theorem full_grow (s : RegisterStack) (wanted : Nat) : (s.grow wanted).full = s.full := by
  have hgrown := (s.grow wanted).size_le_limit
  have hsize : (s.grow wanted).slots.size = s.size + (s.grownSize wanted - s.size) := by
    simp [grow, size]
  refine ext_slots ?_ rfl
  rw [slots_full, slots_full, size, hsize]
  rw [hsize] at hgrown
  show s.slots ++ Array.replicate (s.grownSize wanted - s.size) Value.nil ++
    Array.replicate _ Value.nil = _
  rw [Array.append_assoc, Array.replicate_append_replicate]
  congr 2
  show _ + (s.limit - _) = _
  have hlimit : (s.grow wanted).limit = s.limit := rfl
  omega

theorem slice_full {start stop : Nat} {vs : List Value} (h : s.slice start stop = .ok vs) :
    s.full.slice start stop = .ok vs := by
  unfold slice at h ⊢
  split_ifs at h with hin
  have hstop : stop ≤ s.slots.size := hin.2
  rw [if_pos ⟨hin.1, Nat.le_trans hin.2 s.size_le_full⟩, slots_full, Array.extract_append,
    Nat.sub_eq_zero_of_le hstop]
  simpa using h

theorem ensure?_full {wanted : Nat} (h : wanted ≤ s.limit) :
    s.full.ensure? wanted = .ok (some s.full) := by
  rw [ensure?, if_pos]
  rwa [size_full]

theorem ensure?_full_of_limit_lt {wanted : Nat} (h : s.limit < wanted) :
    s.full.ensure? wanted = .ok none := by
  rw [ensure?, if_neg, if_pos]
  · exact h
  · rw [size_full]
    omega

end RegisterStack

/-! ## The machine with all slots -/

/-- The ends of a run that come from a fault and not from a lack of fuel. -/
def Abort.IsPanic (why : Abort) : Prop := why ≠ .outOfFuel

namespace RegisterStack
variable (s : RegisterStack)

theorem mirrored_get (slot : Nat) :
    Checked.Mirrored Abort.IsPanic id (s.get slot) (s.full.get slot) := by
  cases h : s.get slot with
  | ok v =>
    rw [get_full h]
    exact .ok v
  | error why =>
    refine .error (.inl ?_)
    unfold get at h
    split at h
    · cases h
    · cases h
      rintro ⟨⟩

theorem mirrored_set (slot : Nat) (v : Value) :
    Checked.Mirrored Abort.IsPanic full (s.set slot v) (s.full.set slot v) := by
  cases h : s.set slot v with
  | ok t =>
    obtain ⟨hslot, rfl⟩ := set_eq_ok_iff.mp h
    rw [set_eq_ok_iff.mpr ⟨Nat.lt_of_lt_of_le hslot s.size_le_full,
      (full_setIfInBounds v hslot).symm⟩]
    exact .ok _
  | error why =>
    refine .error (.inl ?_)
    unfold set at h
    split_ifs at h
    cases h
    rintro ⟨⟩

theorem mirrored_slice (start stop : Nat) :
    Checked.Mirrored Abort.IsPanic id (s.slice start stop) (s.full.slice start stop) := by
  cases h : s.slice start stop with
  | ok vs =>
    rw [slice_full h]
    exact .ok vs
  | error why =>
    refine .error (.inl ?_)
    unfold slice at h
    split_ifs at h
    cases h
    rintro ⟨⟩

theorem mirrored_ensure? (wanted : Nat) :
    Checked.Mirrored Abort.IsPanic (Option.map full) (s.ensure? wanted)
      (s.full.ensure? wanted) := by
  by_cases hlimit : s.limit < wanted
  · have hsize := s.size_le_limit
    have hnone : s.ensure? wanted = .ok none := by
      rw [ensure?, if_neg (by unfold size; omega), if_pos hlimit]
    rw [hnone, ensure?_full_of_limit_lt hlimit]
    exact .ok none
  · rw [ensure?_full (Nat.le_of_not_lt hlimit)]
    unfold ensure?
    split_ifs with hallocated
    · exact .ok (some s)
    · unfold Checked.reserve
      split_ifs
      · rw [← full_grow s wanted]
        exact .ok (some (s.grow wanted))
      · refine .error (.inl ?_)
        rintro ⟨⟩

end RegisterStack

/-- The machine with all slots from the start. A new closure captures only slots that are
allocated. -/
def Mask.allSlots : Mask where
  stack := RegisterStack.full
  config c := { c with initialStackSize := 0 }
  trace t := t
  consultations _ := none
  excused := Abort.IsPanic
  rooted := True
  limit _ := rfl
  peek s slot := s.getD_grow s.limit slot
  get := RegisterStack.mirrored_get
  set := RegisterStack.mirrored_set
  assign _ _ v h := RegisterStack.full_setIfInBounds v (h trivial)
  slice := RegisterStack.mirrored_slice
  ensure? := RegisterStack.mirrored_ensure?
  maxCallDepth _ := rfl
  maxHostCalls _ := rfl
  consult := .inl fun _ => rfl

instance Mask.recording_allSlots : Mask.allSlots.Recording := ⟨fun _ _ => rfl⟩

theorem RegisterStack.full_new (initial limit : Nat) :
    (new initial limit).full = new limit limit := by
  refine ext_slots ?_ rfl
  rw [slots_full]
  show Array.replicate (min initial limit) Value.nil ++
    Array.replicate (limit - (new initial limit).slots.size) _ =
    Array.replicate (min limit limit) Value.nil
  rw [Array.replicate_append_replicate]
  simp only [new, Array.size_replicate]
  congr 1
  omega

/-! ## What the host can tell -/

/-- Machines that are equal but for the number of slots and the size they began with. A slot that
one of them has not allocated is nil in the other one. -/
structure Vm.Alike (vm vm' : Vm) : Prop where
  heap : vm.heap = vm'.heap
  upvalues : vm.upvalues = vm'.upvalues
  types : vm.types = vm'.types
  top : vm.top = vm'.top
  frames : vm.frames = vm'.frames
  hooks : vm.hooks = vm'.hooks
  hostCalls : vm.hostCalls = vm'.hostCalls
  trace : vm.trace = vm'.trace
  limit : vm.stack.limit = vm'.stack.limit
  slot : ∀ slot, vm.peek slot = vm'.peek slot

theorem Mask.peek_hide (m : Mask) (vm : Vm) (slot : Nat) : (m.hide vm).peek slot = vm.peek slot :=
  m.peek vm.stack slot

theorem Vm.Alike.of_hide {vm vm' : Vm} (h : Mask.allSlots.hide vm = Mask.allSlots.hide vm') :
    vm.Alike vm' where
  heap := congrArg (·.heap) h
  upvalues := congrArg (·.upvalues) h
  types := congrArg (·.types) h
  top := congrArg (·.top) h
  frames := congrArg (·.frames) h
  hooks := congrArg (·.hooks) h
  hostCalls := congrArg (·.hostCalls) h
  trace := congrArg (·.trace) h
  limit := congrArg (·.stack.limit) h
  slot slot := by rw [← Mask.allSlots.peek_hide vm, h, Mask.peek_hide]

namespace Outcome
variable {α : Type} {o o' : Outcome α}

/-- Ends with the same answer or error, in machines that are alike. -/
inductive Alike : Outcome α → Outcome α → Prop
  | returned {a : α} {vm vm' : Vm} (h : vm.Alike vm') : Alike (.returned a vm) (.returned a vm')
  | raised {e : LuaError} {vm vm' : Vm} (h : vm.Alike vm') : Alike (.raised e vm) (.raised e vm')
  | aborted {why : Abort} : Alike (.aborted why) (.aborted why)

/-- The operation ends by a fault. -/
def Panics (o : Outcome α) : Prop := ∃ why, o = .aborted why ∧ why.IsPanic

theorem not_panics_of_state? (h : o.state?.isSome) : ¬ o.Panics := by
  rintro ⟨why, rfl, -⟩
  cases h

/-- The operation raises a stack overflow. -/
def Overflows (o : Outcome α) : Prop := o.error?.map LuaError.cause = some (.overflow .stack)

instance decidableOverflows : Decidable o.Overflows := inferInstanceAs (Decidable (_ = _))

theorem Alike.of_hide (h : o.hide Mask.allSlots = o'.hide Mask.allSlots) : o.Alike o' := by
  cases o with
  | returned a vm =>
    cases o' with
    | returned a' vm' =>
      obtain ⟨rfl, hvm⟩ := Outcome.returned.inj h
      exact .returned (.of_hide hvm)
    | raised e' vm' => cases h
    | aborted why' => cases h
  | raised e vm =>
    cases o' with
    | returned a' vm' => cases h
    | raised e' vm' =>
      obtain ⟨rfl, hvm⟩ := Outcome.raised.inj h
      exact .raised (.of_hide hvm)
    | aborted why' => cases h
  | aborted why =>
    cases o' with
    | returned a' vm' => cases h
    | raised e' vm' => cases h
    | aborted why' =>
      cases h
      exact .aborted

theorem Alike.overflows (h : o.Alike o') : o.Overflows ↔ o'.Overflows := by
  cases h <;> rfl

end Outcome

namespace Vm
variable {config : Config} {hooks : Hooks} {heap : Heap} {upvalues : Upvalues} {vm vm' : Vm}

/-- With all slots, new machines do not differ by the size they began with. -/
theorem hide_new (initial : Nat) (types : TypeMetatables) :
    Mask.allSlots.hide
      { Vm.new { config with initialStackSize := initial } hooks heap upvalues with types } =
      Mask.allSlots.hide { Vm.new config hooks heap upvalues with types } := by
  have hstack : (RegisterStack.new initial config.maxStackSize).full =
      (RegisterStack.new config.initialStackSize config.maxStackSize).full := by
    rw [RegisterStack.full_new, RegisterStack.full_new]
  simp only [Mask.hide, Mask.allSlots, Vm.new, hstack]

/-- A new machine and the one with all slots have the same history, unless an operation ends by a
fault. -/
theorem history_allSlots (types : TypeMetatables) (fuel : Nat) {ops : List HostOp}
    (h : Vm.create config hooks heap upvalues = .ok vm) (ho : upvalues.opened = [])
    (hc : ∀ r slot, upvalues.cell r ≠ .opened slot) (hheap : heap.Scoped)
    (hops : ∀ op ∈ ops, op.Scoped) (hp : ∀ o ∈ history fuel ops { vm with types }, ¬ o.Panics) :
    history fuel ops (Mask.allSlots.hide { vm with types }) =
      (history fuel ops { vm with types }).map (Outcome.hide Mask.allSlots) := by
  have hrest := ((Hosted.created h ho hc).built vm.heap types).atRest
  obtain rfl := create_eq_ok h
  have hsettled : Mask.allSlots.Settled { Vm.new config hooks heap upvalues with types } :=
    fun _ => ⟨fun r slot hr => absurd hr (hc r slot), hheap⟩
  refine history_hide fuel hrest hsettled (fun op hop _ => hops op hop) ?_
  intro o ho why hwhy hpanic
  exact hp o ho ⟨why, hwhy, hpanic⟩

/-- The host cannot tell how large the stack was at first. As long as no operation ends by a fault,
each operation ends alike whatever that size is, and overflows the stack in both machines or in
none. -/
theorem stack_growth_unobservable {initial : Nat} (types : TypeMetatables) (fuel : Nat)
    {ops : List HostOp} (h : Vm.create config hooks heap upvalues = .ok vm)
    (h' : Vm.create { config with initialStackSize := initial } hooks heap upvalues = .ok vm')
    (ho : upvalues.opened = []) (hc : ∀ r slot, upvalues.cell r ≠ .opened slot)
    (hheap : heap.Scoped) (hops : ∀ op ∈ ops, op.Scoped)
    (hp : ∀ o ∈ history fuel ops { vm with types }, ¬ o.Panics)
    (hp' : ∀ o ∈ history fuel ops { vm' with types }, ¬ o.Panics) :
    List.Forall₂ Outcome.Alike (history fuel ops { vm with types })
      (history fuel ops { vm' with types }) ∧
      List.Forall₂ (fun o o' => o.Overflows ↔ o'.Overflows) (history fuel ops { vm with types })
        (history fuel ops { vm' with types }) := by
  have hfull := history_allSlots types fuel h ho hc hheap hops hp
  have hfull' := history_allSlots types fuel h' ho hc hheap hops hp'
  have hsame : Mask.allSlots.hide { vm' with types } = Mask.allSlots.hide { vm with types } := by
    rw [create_eq_ok h, create_eq_ok h']
    exact hide_new initial types
  rw [hsame, hfull] at hfull'
  have halike : List.Forall₂ Outcome.Alike (history fuel ops { vm with types })
      (history fuel ops { vm' with types }) := by
    rw [← List.forall₂_eq_eq_eq, List.forall₂_map_left_iff, List.forall₂_map_right_iff] at hfull'
    exact hfull'.imp fun _ _ => .of_hide
  exact ⟨halike, halike.imp fun _ _ h => h.overflows⟩

/-- Sets the variable of the function that made it, and has more registers than that. -/
def setOuter : Prototype where
  maxStackSize := 6
  upvalues := #[{ inStack := true, index := 0 }]
  code := #[⟨0x800003⟩, ⟨0x09⟩, ⟨0x00800026⟩]

/-- Lets a new closure set its parameter, and returns it. -/
def lendParameter : Prototype where
  paramCount := 1
  maxStackSize := 3
  functions := #[setOuter]
  code := #[⟨0x6c⟩, ⟨0x804064⟩, ⟨0x01000026⟩]

/-- Has more registers than there are slots. -/
def sprawl : Prototype where
  maxStackSize := 20
  code := #[⟨0x00800026⟩]

def lendHeap : Heap where
  closures := #[{ proto := lendParameter, upvalues := #[] }, { proto := sprawl, upvalues := #[] }]

def lendHost (initial : Nat) : Vm :=
  .new { initialStackSize := initial, maxStackSize := 12 } .standard lendHeap {}

def lendOps : List HostOp := [.callFunction (.closure ⟨0⟩) [.nil], .callFunction (.closure ⟨1⟩) []]

theorem lendHeap_scoped : lendHeap.Scoped := by
  have hset : setOuter.Scoped := .of_functions_empty rfl
  have hlend : lendParameter.Scoped := by
    refine .intro fun child hchild => ?_
    obtain rfl : child = setOuter := by simpa [lendParameter] using hchild
    exact ⟨by decide, hset⟩
  intro c hc
  have hcases : c.proto = lendParameter ∨ c.proto = sprawl := by
    simp only [lendHeap, List.mem_toArray, List.mem_cons, List.not_mem_nil, or_false] at hc
    rcases hc with rfl | rfl
    · exact .inl rfl
    · exact .inr rfl
  rcases hcases with h | h <;> rw [h]
  · exact hlend
  · exact .of_functions_empty rfl

/-- One machine begins with one slot and has to grow for the first call, while a variable is open.
The other one begins with all slots. The second call overflows both. -/
theorem stack_growth_unobservable_lending :
    (lendHost 1).stack.size = 1 ∧ (lendHost 12).stack.size = 12 ∧ lendHeap.Scoped ∧
      (history 30 lendOps (lendHost 1)).map (fun o => decide o.Overflows) = [false, true] ∧
      List.Forall₂ Outcome.Alike (history 30 lendOps (lendHost 1))
        (history 30 lendOps (lendHost 12)) ∧
      List.Forall₂ (fun o o' => o.Overflows ↔ o'.Overflows) (history 30 lendOps (lendHost 1))
        (history 30 lendOps (lendHost 12)) := by
  have hends : ((history 30 lendOps (lendHost 1)).all fun o => o.state?.isSome) = true := by
    decide +kernel
  have hends' : ((history 30 lendOps (lendHost 12)).all fun o => o.state?.isSome) = true := by
    decide +kernel
  rw [List.all_eq_true] at hends hends'
  have hops : ∀ op ∈ lendOps, op.Scoped := by
    intro op hop
    simp only [lendOps, List.mem_cons, List.not_mem_nil, or_false] at hop
    rcases hop with rfl | rfl <;> trivial
  have hcreate (initial : Nat) (hr : Checked.reserve initial Value.bytes = .ok ()) :
      Vm.create { initialStackSize := initial, maxStackSize := 12 } .standard lendHeap {} =
        .ok (lendHost initial) :=
    create_of_reserve .standard lendHeap {} hr
  have htypes (initial : Nat) : { lendHost initial with types := {} } = lendHost initial := rfl
  have h :=
    stack_growth_unobservable {} 30 (hcreate 1 rfl) (hcreate 12 rfl) rfl
      Upvalues.cell_empty_ne_opened
      lendHeap_scoped hops
  rw [htypes, htypes] at h
  exact ⟨by decide +kernel, by decide +kernel, lendHeap_scoped, by decide +kernel,
    h (fun o ho => Outcome.not_panics_of_state? (hends o ho)) fun o ho =>
      Outcome.not_panics_of_state? (hends' o ho)⟩

end Vm

end LuaMachine
