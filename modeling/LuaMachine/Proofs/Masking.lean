import Mathlib.Tactic
import LuaMachine.Machine.Call
import LuaMachine.Proofs.OpenUpvalues
import LuaMachine.Proofs.Outcome

/-!
# Parts of a machine that no operation sees

A mask changes parts of a machine that should make no difference: how many slots are allocated, the
parts of the configuration that are used up when the machine is made, and the logs. An operation is
unaware of what the mask hides if it does the same to the masked machine as to the machine itself.
This is proved for the parts of an operation and follows for the whole. A mask may excuse some
aborts: what the masked machine does instead of them is left open. Only the step that records an
instruction asks something of the trace under the mask.
-/
namespace LuaMachine

/-! ## Scopes -/

/-- A prototype that is part of another one. -/
inductive Prototype.Contains (p : Prototype) : Prototype → Prop
  | self : Contains p p
  | nested {q child : Prototype} (h : Contains p q) (hc : child ∈ q.functions) : Contains p child

/-- A new closure only ever captures registers that the enclosing function has. -/
def Prototype.Scoped (p : Prototype) : Prop :=
  ∀ q, p.Contains q → ∀ child ∈ q.functions, ∀ s ∈ child.upvalues, s.inStack = true →
    s.index < q.maxStackSize

/-- The prototypes of all closures are scoped. -/
def Heap.Scoped (h : Heap) : Prop := ∀ c ∈ h.closures, c.proto.Scoped

/-- Every open cell has its slot below a size. -/
def Upvalues.Within (u : Upvalues) (size : Nat) : Prop :=
  ∀ r slot, u.cell r = .opened slot → slot < size

section Scopes
variable {p : Prototype} {h : Heap} {u : Upvalues} {size : Nat}

theorem Prototype.Scoped.child {child : Prototype} (hp : p.Scoped) (hc : child ∈ p.functions) :
    child.Scoped := by
  intro q hq
  have hcontains : p.Contains q := by
    induction hq with
    | self => exact .nested .self hc
    | nested _ hc' ih => exact .nested ih hc'
  exact hp q hcontains

/-- It is enough to look at the functions of a prototype one by one. -/
theorem Prototype.Scoped.intro
    (hp : ∀ child ∈ p.functions,
      (∀ s ∈ child.upvalues, s.inStack = true → s.index < p.maxStackSize) ∧ child.Scoped) :
        p.Scoped := by
  intro q hq
  have hwhere : q = p ∨ ∃ child ∈ p.functions, child.Contains q := by
    induction hq with
    | self => exact .inl rfl
    | @nested q child hq hc ih =>
      rcases ih with rfl | ⟨top, htop, hq'⟩
      · exact .inr ⟨child, hc, .self⟩
      · exact .inr ⟨top, htop, .nested hq' hc⟩
  rcases hwhere with rfl | ⟨child, hchild, hq'⟩
  · exact fun child hc => (hp child hc).1
  · exact (hp child hchild).2 q hq'

theorem Prototype.Scoped.of_functions_empty (hp : p.functions = #[]) : p.Scoped := by
  refine .intro fun child hchild => ?_
  simp [hp] at hchild

theorem Heap.Scoped.closureAt (hh : h.Scoped) (r : ClosureRef) : (h.closureAt r).proto.Scoped := by
  unfold Heap.closureAt
  cases hc : h.closures[r.index]? with
  | some c => exact hh c (Array.mem_of_getElem? hc)
  | none => exact .of_functions_empty rfl

theorem Heap.Scoped.newClosure {c : Closure} (hh : h.Scoped) (hc : c.proto.Scoped) :
    (h.newClosure c).2.Scoped := by
  intro c' hc'
  rcases Array.mem_push.mp hc' with hc' | rfl
  · exact hh c' hc'
  · exact hc

theorem Upvalues.Within.mono {larger : Nat} (hu : u.Within size) (hl : size ≤ larger) :
    u.Within larger :=
  fun r slot hr => Nat.lt_of_lt_of_le (hu r slot hr) hl

theorem Upvalues.Within.allocate {c : Cell} (hu : u.Within size)
    (hc : ∀ slot, c = .opened slot → slot < size) : (u.allocate c).2.Within size := by
  intro r slot hr
  rw [Upvalues.cell_eq_opened] at hr
  simp only [Upvalues.allocate, Array.getElem?_push] at hr
  split at hr
  · exact hc slot (Option.some.inj hr)
  · exact hu r slot (Upvalues.cell_eq_opened.mpr hr)

theorem Upvalues.Within.capture {slot : Nat} (hu : u.Within size) (hs : slot < size) :
    (u.capture slot).2.Within size := by
  unfold Upvalues.capture
  split
  · exact hu
  · exact hu.allocate fun s hc => Cell.opened.inj hc ▸ hs

theorem Upvalues.Within.setClosed (hu : u.Within size) (r : CellRef) (v : Value) :
    (u.setClosed r v).Within size := by
  intro r' slot hr
  rw [Upvalues.cell_eq_opened] at hr
  simp only [Upvalues.setClosed, Array.getElem?_setIfInBounds] at hr
  split at hr
  · split at hr <;> cases hr
  · exact hu r' slot (Upvalues.cell_eq_opened.mpr hr)

theorem Upvalues.Within.close (hu : u.Within size) (level : Nat) (stack : Array Value) :
    (u.close level stack).Within size := by
  have hclose : ∀ (opened : List (Nat × CellRef)) (u : Upvalues), u.Within size →
      (Upvalues.closeFrom level stack u.cells opened).Within size := by
    intro opened
    induction opened with
    | nil => exact fun u hu => hu
    | cons p rest ih =>
      intro u hu
      unfold Upvalues.closeFrom
      split
      · exact ih _ (hu.setClosed p.2 _)
      · exact hu
  exact hclose u.opened u hu

/-- Closing looks at the values of slots, and not at how many there are. -/
theorem Upvalues.close_congr (u : Upvalues) (level : Nat) {s t : Array Value}
    (h : ∀ slot : Nat, s[slot]?.getD .nil = t[slot]?.getD .nil) :
    u.close level s = u.close level t := by
  have hclose : ∀ (opened : List (Nat × CellRef)) (cells : Array Cell),
      closeFrom level s cells opened = closeFrom level t cells opened := by
    intro opened
    induction opened with
    | nil => exact fun _ => rfl
    | cons p rest ih =>
      intro cells
      simp only [closeFrom, h, ih]
  exact hclose u.opened u.cells

theorem Upvalues.read_congr (u : Upvalues) (r : CellRef) {s t : Array Value}
    (h : ∀ slot : Nat, s[slot]?.getD .nil = t[slot]?.getD .nil) : u.read s r = u.read t r := by
  simp only [read, h]

end Scopes

/-! ## Steps on the registers in sequence -/

namespace RegisterStack

theorem copyDown_succ (s : RegisterStack) (source target count : Nat) :
    s.copyDown source target (count + 1) =
      s.get source >>= fun v => s.set target v >>= fun t =>
        t.copyDown (source + 1) (target + 1) count := by
  rw [copyDown]
  cases s.get source with
  | error e => rfl
  | ok v =>
    dsimp only [bind, Except.bind]
    cases s.set target v <;> rfl

theorem fillNil_succ (s : RegisterStack) (start count : Nat) :
    s.fillNil start (count + 1) = s.set start .nil >>= fun t => t.fillNil (start + 1) count := by
  rw [fillNil]
  cases s.set start .nil <;> rfl

theorem take_eq (s : RegisterStack) (slot : Nat) :
    s.take slot = s.get slot >>= fun v => s.set slot .nil >>= fun t => pure (v, t) := by
  rw [take]
  cases s.get slot with
  | error e => rfl
  | ok v =>
    dsimp only [bind, Except.bind]
    cases s.set slot .nil <;> rfl

theorem shiftUp_succ (s : RegisterStack) (top count : Nat) :
    s.shiftUp top (count + 1) =
      s.take (top - 1) >>= fun p => p.2.set top p.1 >>= fun t => t.shiftUp (top - 1) count := by
  rw [shiftUp]
  cases s.take (top - 1) with
  | error e => rfl
  | ok p =>
    dsimp only [bind, Except.bind]
    cases p.2.set top p.1 <;> rfl

theorem insert_eq (s : RegisterStack) (slot top : Nat) (v : Value) :
    s.insert slot top v = s.shiftUp top (top - slot) >>= fun t => t.set slot v := by
  rw [insert]
  cases s.shiftUp top (top - slot) <;> rfl

end RegisterStack

theorem Vm.takeUp_succ (s : RegisterStack) (source target count : Nat) :
    takeUp s source target (count + 1) =
      s.take source >>= fun p => p.2.set target p.1 >>= fun t =>
        takeUp t (source + 1) (target + 1) count := by
  rw [takeUp]
  cases s.take source with
  | error e => rfl
  | ok p =>
    dsimp only [bind, Except.bind]
    cases p.2.set target p.1 <;> rfl

/-! ## Masks -/

/-- The second step has the image of the first one's result. If the first one ends the run, so does
the second one, for the same reason, unless that is excused. -/
inductive Checked.Mirrored (excused : Abort → Prop) {α : Type} (g : α → α) :
    Checked α → Checked α → Prop
  | ok (a : α) : Mirrored excused g (.ok a) (.ok (g a))
  | error {why : Abort} {c : Checked α} (h : excused why ∨ c = .error why) :
      Mirrored excused g (.error why) c

theorem Checked.Mirrored.refl {excused : Abort → Prop} {α : Type} (c : Checked α) :
    Mirrored excused id c c := by
  cases c with
  | ok a => exact .ok a
  | error why => exact .error (.inr rfl)

/-- Parts of a machine that are replaced by others. Whatever operations do with these parts, they do
the same with what takes their place. -/
structure Mask where
  stack : RegisterStack → RegisterStack
  config : Config → Config
  trace : Option (Array TraceGroup) → Option (Array TraceGroup)
  consultations : Option (Array Consultation) → Option (Array Consultation)
  /-- Aborts that the masked machine need not share. -/
  excused : Abort → Prop
  /-- Whether the slots of open upvalues have to exist. -/
  rooted : Prop
  limit : ∀ s, (stack s).limit = s.limit
  peek : ∀ s (slot : Nat), (stack s).slots[slot]?.getD .nil = s.slots[slot]?.getD .nil
  get : ∀ s slot, Checked.Mirrored excused id (s.get slot) ((stack s).get slot)
  set : ∀ s slot v, Checked.Mirrored excused stack (s.set slot v) ((stack s).set slot v)
  assign : ∀ s slot v, (rooted → slot < s.size) →
    (stack s).setIfInBounds slot v = stack (s.setIfInBounds slot v)
  slice : ∀ s start stop,
    Checked.Mirrored excused id (s.slice start stop) ((stack s).slice start stop)
  ensure? : ∀ s wanted, Checked.Mirrored excused (Option.map stack) (s.ensure? wanted)
    ((stack s).ensure? wanted)
  maxCallDepth : ∀ c, (config c).maxCallDepth = c.maxCallDepth
  maxHostCalls : ∀ c, (config c).maxHostCalls = c.maxHostCalls
  consult : (∀ c, consultations c = none) ∨ (∀ c, consultations c = c) ∧ ∀ s,
    (stack s).size = s.size

namespace Mask
variable {m : Mask} {vm : Vm}

/-- What takes the place of the trace of executed instructions is recorded to like that one. -/
class Recording (m : Mask) : Prop where
  record : ∀ f t, (m.trace t).map f = m.trace (t.map f)

/-- The machine under a mask. -/
def hide (m : Mask) (vm : Vm) : Vm :=
  { vm with
    stack := m.stack vm.stack, config := m.config vm.config, trace := m.trace vm.trace
    consultations := m.consultations vm.consultations }

/-- If need be, the slots of open upvalues exist, and closures capture only slots that do. -/
def Settled (m : Mask) (vm : Vm) : Prop :=
  m.rooted → vm.upvalues.Within vm.stack.size ∧ vm.heap.Scoped

theorem Settled.closeFrom (h : m.Settled vm) (level : Nat) :
    m.Settled { vm with upvalues := vm.upvalues.close level vm.stack.slots } :=
  fun hr => ⟨(h hr).1.close _ _, (h hr).2⟩

/-- A step on the registers does the same to the masked ones, and keeps their number. -/
inductive Follows (m : Mask) (s : RegisterStack) :
    Checked RegisterStack → Checked RegisterStack → Prop
  | ok {t : RegisterStack} (h : t.size = s.size) : Follows m s (.ok t) (.ok (m.stack t))
  | error {why : Abort} {c : Checked RegisterStack} (h : m.excused why ∨ c = .error why) :
      Follows m s (.error why) c

section Follows
variable {s t : RegisterStack} {c c' : Checked RegisterStack}

theorem Follows.trans (h : m.Follows t c c') (hs : t.size = s.size) : m.Follows s c c' := by
  cases h with
  | ok h => exact .ok (h.trans hs)
  | error h => exact .error h

theorem set_follows (m : Mask) (s : RegisterStack) (slot : Nat) (v : Value) :
    m.Follows s (s.set slot v) ((m.stack s).set slot v) := by
  have hset := m.set s slot v
  generalize hc : s.set slot v = c, (m.stack s).set slot v = c' at hset
  cases hset with
  | ok t =>
    obtain ⟨-, rfl⟩ := RegisterStack.set_eq_ok_iff.mp hc
    exact .ok (by simp)
  | error h => exact .error h

theorem Follows.bind {α : Type} {g : α → α} {c c' : Checked α} {k k' : α → Checked RegisterStack}
    (h : Checked.Mirrored m.excused g c c') (hk : ∀ a, m.Follows s (k a) (k' (g a))) :
    m.Follows s (c >>= k) (c' >>= k') := by
  cases h with
  | ok a => exact hk a
  | error h =>
    refine .error (h.imp_right ?_)
    rintro rfl
    rfl

theorem Follows.andThen {k : RegisterStack → Checked RegisterStack} (h : m.Follows s c c')
    (hk : ∀ t, m.Follows t (k t) (k (m.stack t))) : m.Follows s (c >>= k) (c' >>= k) := by
  cases h with
  | ok hs => exact (hk _).trans hs
  | error h =>
    refine .error (h.imp_right ?_)
    rintro rfl
    rfl

theorem copyDown_follows (m : Mask) (s : RegisterStack) (source target count : Nat) :
    m.Follows s (s.copyDown source target count) ((m.stack s).copyDown source target count) := by
  induction count generalizing s source target with
  | zero => exact .ok rfl
  | succ count ih =>
    simp only [RegisterStack.copyDown_succ]
    refine Follows.bind (m.get s source) fun v => ?_
    exact (set_follows m s target v).andThen fun t => ih t (source + 1) (target + 1)

theorem fillNil_follows (m : Mask) (s : RegisterStack) (start count : Nat) :
    m.Follows s (s.fillNil start count) ((m.stack s).fillNil start count) := by
  induction count generalizing s start with
  | zero => exact .ok rfl
  | succ count ih =>
    simp only [RegisterStack.fillNil_succ]
    exact (set_follows m s start .nil).andThen fun t => ih t (start + 1)

/-- What comes after a value has been taken out of its slot. -/
theorem take_follows (m : Mask) (s : RegisterStack) (slot : Nat)
    {k : Value × RegisterStack → Checked RegisterStack}
    (hk : ∀ v t, m.Follows t (k (v, t)) (k (v, m.stack t))) :
    m.Follows s (s.take slot >>= k) ((m.stack s).take slot >>= k) := by
  simp only [RegisterStack.take_eq, bind_assoc, pure_bind]
  exact Follows.bind (m.get s slot) fun v => (set_follows m s slot .nil).andThen fun t => hk v t

theorem shiftUp_follows (m : Mask) (s : RegisterStack) (top count : Nat) :
    m.Follows s (s.shiftUp top count) ((m.stack s).shiftUp top count) := by
  induction count generalizing s top with
  | zero => exact .ok rfl
  | succ count ih =>
    simp only [RegisterStack.shiftUp_succ]
    refine take_follows m s (top - 1) fun v t => ?_
    exact (set_follows m t top v).andThen fun t => ih t (top - 1)

theorem insert_follows (m : Mask) (s : RegisterStack) (slot top : Nat) (v : Value) :
    m.Follows s (s.insert slot top v) ((m.stack s).insert slot top v) := by
  simp only [RegisterStack.insert_eq]
  exact (shiftUp_follows m s top (top - slot)).andThen fun t => set_follows m t slot v

theorem takeUp_follows (m : Mask) (s : RegisterStack) (source target count : Nat) :
    m.Follows s (Vm.takeUp s source target count) (Vm.takeUp (m.stack s) source target count) := by
  induction count generalizing s source target with
  | zero => exact .ok rfl
  | succ count ih =>
    simp only [Vm.takeUp_succ]
    refine take_follows m s source fun v t => ?_
    exact (set_follows m t target v).andThen fun t => ih t (source + 1) (target + 1)

end Follows

end Mask

/-! ## Operations that are unaware of a mask -/

/-- The second end is the first one under a mask, unless the first one is excused. -/
inductive Outcome.Hidden (m : Mask) {α : Type} : Outcome α → Outcome α → Prop
  | returned {a : α} {vm : Vm} (h : m.Settled vm) :
      Hidden m (.returned a vm) (.returned a (m.hide vm))
  | raised {e : LuaError} {vm : Vm} (h : m.Settled vm) :
      Hidden m (.raised e vm) (.raised e (m.hide vm))
  | aborted {why : Abort} {o : Outcome α} (h : m.excused why ∨ o = .aborted why) :
      Hidden m (.aborted why) o

namespace RegisterStack

theorem size_le_of_ensure? {s t : RegisterStack} {wanted : Nat}
    (h : s.ensure? wanted = .ok (some t)) : s.size ≤ t.size := by
  unfold ensure? at h
  split_ifs at h with hsize hlimit
  · cases h
    exact Nat.le_refl _
  · cases h
  · split at h
    · cases h
      simp only [grow, size, Array.size_append]
      omega
    · cases h

end RegisterStack

namespace Exec

/-- From the states in `P` the operation does the same to the masked machine. -/
def UnawareOn (m : Mask) (P : Vm → Prop) {α : Type} (x : Exec α) : Prop :=
  ∀ vm, P vm → m.Settled vm → (x vm).Hidden m (x (m.hide vm))

/-- The operation does the same to the masked machine. -/
def Unaware (m : Mask) {α : Type} (x : Exec α) : Prop :=
  ∀ vm, m.Settled vm → (x vm).Hidden m (x (m.hide vm))

/-- The end of an operation that asks for slots, by what the stack makes of it. -/
def grown (vm : Vm) : Checked (Option RegisterStack) → Outcome Unit
  | .ok (some stack) => .returned () { vm with stack }
  | .ok none => .raised { cause := .overflow .stack } vm
  | .error why => .aborted why

theorem ensure_eq (wanted : Nat) (vm : Vm) :
    ensure wanted vm = grown vm (vm.stack.ensure? wanted) := by
  unfold ensure
  dsimp only
  split_ifs with hsize
  · simp [RegisterStack.ensure?, hsize, grown]
  · cases vm.stack.ensure? wanted with
    | error why => rfl
    | ok s => cases s <;> rfl

variable {m : Mask} {α β : Type} {x : Exec α} {f : α → Exec β}

theorem Hidden.bind {vm : Vm} (hx : (x vm).Hidden m (x (m.hide vm)))
    (hf : ∀ a mid, x vm = .returned a mid → m.Settled mid → (f a mid).Hidden m (f a (m.hide mid))) :
    ((x >>= f) vm).Hidden m ((x >>= f) (m.hide vm)) := by
  show (Exec.bind x f vm).Hidden m (Exec.bind x f (m.hide vm))
  unfold Exec.bind
  generalize ho : x vm = o, x (m.hide vm) = o' at hx
  cases hx with
  | returned hs => exact hf _ _ ho hs
  | raised hs => exact .raised hs
  | aborted h =>
    refine .aborted (h.imp_right ?_)
    rintro rfl
    rfl

namespace Unaware

theorem on {P : Vm → Prop} (h : x.Unaware m) : x.UnawareOn m P := fun vm _ hs => h vm hs

theorem bind (hx : x.Unaware m) (hf : ∀ a, (f a).Unaware m) : (x >>= f).Unaware m :=
  fun vm hs => Hidden.bind (hx vm hs) fun a mid _ hmid => hf a mid hmid

theorem pure (a : α) : (Pure.pure a : Exec α).Unaware m := fun _ hs => .returned hs

theorem raise (c : Cause) : (Exec.raise c : Exec α).Unaware m := fun _ hs => .raised hs

theorem abort (why : Abort) : (Exec.abort why : Exec α).Unaware m := fun _ _ => .aborted (.inr rfl)

theorem malformed (d : Malformed) : (Exec.malformed d : Exec α).Unaware m := abort _

theorem check (c : Checked α) : (Exec.check c).Unaware m := by
  cases c with
  | ok a => exact pure a
  | error why => exact abort why

theorem ite {p : Prop} [Decidable p] {y : Exec α} (hx : x.Unaware m) (hy : y.Unaware m) :
    (if p then x else y).Unaware m := by
  split
  · exact hx
  · exact hy

/-- A look at what the mask leaves alone. -/
theorem look {g : Vm → α} (hg : ∀ vm, g (m.hide vm) = g vm) : (Exec.look g).Unaware m := by
  intro vm hs
  show Outcome.Hidden m (.returned (g vm) vm) (.returned (g (m.hide vm)) (m.hide vm))
  rw [hg]
  exact .returned hs

theorem modify {g : Vm → Vm} (hg : ∀ vm, g (m.hide vm) = m.hide (g vm))
    (hs : ∀ vm, m.Settled vm → m.Settled (g vm)) : (Exec.modify g).Unaware m := by
  intro vm hvm
  show Outcome.Hidden m (.returned () (g vm)) (.returned () (g (m.hide vm)))
  rw [hg]
  exact .returned (hs vm hvm)

/-! ## Registers -/

theorem onStack {g : RegisterStack → Checked RegisterStack}
    (hg : ∀ s, m.Follows s (g s) (g (m.stack s))) : (Exec.onStack g).Unaware m := by
  intro vm hs
  have hfollows := hg vm.stack
  unfold Exec.onStack
  dsimp only [Mask.hide]
  generalize g vm.stack = c, g (m.stack vm.stack) = c' at hfollows
  cases hfollows with
  | ok hsize => exact .returned fun hr => ⟨hsize ▸ (hs hr).1, (hs hr).2⟩
  | error h =>
    refine .aborted (h.imp_right ?_)
    rintro rfl
    rfl

theorem getSlot (slot : Nat) : (Exec.getSlot slot).Unaware m := by
  intro vm hs
  have hget := m.get vm.stack slot
  unfold Exec.getSlot
  dsimp only [Mask.hide]
  generalize vm.stack.get slot = c, (m.stack vm.stack).get slot = c' at hget
  cases hget with
  | ok v => exact .returned hs
  | error h =>
    refine .aborted (h.imp_right ?_)
    rintro rfl
    rfl

theorem setSlot (slot : Nat) (v : Value) : (Exec.setSlot slot v).Unaware m :=
  onStack fun s => m.set_follows s slot v

theorem setTop (top : Nat) : (Exec.setTop top).Unaware m :=
  modify (fun _ => rfl) fun _ hs => hs

theorem ensure (wanted : Nat) : (Exec.ensure wanted).Unaware m := by
  intro vm hs
  have hensure := m.ensure? vm.stack wanted
  rw [ensure_eq, ensure_eq]
  show Outcome.Hidden m (grown vm _) (grown (m.hide vm) ((m.stack vm.stack).ensure? wanted))
  generalize hc : vm.stack.ensure? wanted = c, (m.stack vm.stack).ensure? wanted = c' at hensure
  cases hensure with
  | ok grown =>
    cases grown with
    | some t =>
      exact .returned fun hr => ⟨(hs hr).1.mono (RegisterStack.size_le_of_ensure? hc), (hs hr).2⟩
    | none => exact .raised hs
  | error h =>
    refine .aborted (h.imp_right ?_)
    rintro rfl
    rfl

/-- What is done with the values of a range of registers. -/
theorem slice (start : Nat) {stop : Vm → Nat} (hstop : ∀ vm, stop (m.hide vm) = stop vm)
    {f : List Value → Exec β} (hf : ∀ vs, (f vs).Unaware m) :
    (Exec.look (fun vm => vm.stack.slice start (stop vm)) >>= fun found => Exec.check found >>=
      f).Unaware m := by
  intro vm hs
  have hslice := m.slice vm.stack start (stop vm)
  show ((Exec.check (vm.stack.slice start (stop vm)) >>= f) vm).Hidden m
    ((Exec.check ((m.stack vm.stack).slice start (stop (m.hide vm))) >>= f) (m.hide vm))
  rw [hstop]
  generalize vm.stack.slice start (stop vm) = c, (m.stack vm.stack).slice start (stop vm) =
    c' at hslice
  cases hslice with
  | ok vs => exact hf vs vm hs
  | error h =>
    refine .aborted (h.imp_right ?_)
    rintro rfl
    rfl

/-! ## Frames, upvalues and objects -/

theorem currentFrame : Exec.currentFrame.Unaware m := look fun _ => rfl

theorem modifyFrame (g : Frame → Frame) : (Exec.modifyFrame g).Unaware m :=
  modify (fun _ => rfl) fun _ hs => hs

theorem onFrames (g : CallStack → Checked CallStack) : (Exec.onFrames g).Unaware m := by
  intro vm hs
  unfold Exec.onFrames
  dsimp only [Mask.hide]
  cases g vm.frames with
  | ok frames => exact .returned hs
  | error why => exact .aborted (.inr rfl)

theorem closeUpvalues (level : Nat) : (Exec.closeUpvalues level).Unaware m := by
  refine modify (fun vm => ?_) fun vm hs => hs.closeFrom level
  have hclose := vm.upvalues.close_congr level (m.peek vm.stack)
  simp only [Mask.hide, hclose]

theorem newTable : Exec.newTable.Unaware m := fun _ hs => .returned hs

theorem newClosure {c : Closure} (hc : m.rooted → c.proto.Scoped) : (Exec.newClosure c).Unaware m :=
  fun _ hs => .returned fun hr => ⟨(hs hr).1, (hs hr).2.newClosure (hc hr)⟩

/-- An operation that returns an error may raise it. -/
theorem thrown {x : Exec LuaError} (h : x.Unaware m) :
    Exec.Unaware m (fun vm => (x vm).thrown : Exec α) := by
  intro vm hs
  have hx := h vm hs
  dsimp only
  generalize x vm = o, x (m.hide vm) = o' at hx
  cases hx with
  | returned hs => exact .raised hs
  | raised hs => exact .raised hs
  | aborted h =>
    refine .aborted (h.imp_right ?_)
    rintro rfl
    rfl

end Unaware

end Exec

end LuaMachine
