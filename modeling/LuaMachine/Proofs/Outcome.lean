import Mathlib.Logic.Relation
import LuaMachine.Machine.State

/-!
# What an operation leaves behind

An operation returns, raises an error or aborts. `Exec.Post` states what holds in the first two
cases, and that an abort is never one of the internal faults, which report that the machine has
broken its own promises. `Exec.Keeps` is the relational form: every state left behind is reached
from the one found by changes of one kind, so that proofs about an operation are put together from
proofs about its parts.
-/
namespace LuaMachine

open Relation (ReflTransGen)

/-- Faults that no program and no host can be blamed for: the frames or the top are not as the
machine left them. -/
def Fault.isInternal : Fault → Bool
  | .hostFramePopped | .collapseWithoutCaller | .noClosure | .tailCallWithoutCaller
  | .topMismatch => true
  | .underflow | .wordOverflow | .range | .storage => false

/-- Whether a run ended by an internal fault. -/
def Abort.isInternal : Abort → Bool
  | .fault f => f.isInternal
  | .malformed _ | .outOfFuel => false

/-- The state an operation leaves behind. An aborted one leaves none. -/
def Outcome.state? {α : Type} : Outcome α → Option Vm
  | .returned _ vm => some vm
  | .raised _ vm => some vm
  | .aborted _ => none

/-- What an operation returns, with the state it leaves behind. -/
def Outcome.result? {α : Type} : Outcome α → Option (α × Vm)
  | .returned a vm => some (a, vm)
  | .raised _ _ | .aborted _ => none

theorem Outcome.result?_eq_some {α : Type} {o : Outcome α} {p : α × Vm} (h : o.result? = some p) :
    o = .returned p.1 p.2 := by
  cases o with
  | returned a vm =>
    cases h
    rfl
  | raised e vm => cases h
  | aborted why => cases h

/-- The error that an operation raises. -/
def Outcome.error? {α : Type} : Outcome α → Option LuaError
  | .raised e _ => some e
  | .returned _ _ | .aborted _ => none

theorem Outcome.error?_eq_some {α : Type} {o : Outcome α} {e : LuaError} (h : o.error? = some e) :
    ∃ after, o = .raised e after := by
  cases o with
  | returned a vm => cases h
  | raised e' vm =>
    cases h
    exact ⟨vm, rfl⟩
  | aborted why => cases h

/-- The error that an operation returns, raised. -/
def Outcome.thrown {α : Type} : Outcome LuaError → Outcome α
  | .returned e vm => .raised e vm
  | .raised e vm => .raised e vm
  | .aborted why => .aborted why

namespace Checked
variable {α : Type} {c : Checked α} {P Q : α → Prop}

/-- The step has a result with `P`, or aborts without an internal fault. -/
def Yields (c : Checked α) (P : α → Prop) : Prop :=
  match c with
  | .ok a => P a
  | .error why => why.isInternal = false

theorem Yields.of_ok {a : α} (h : c.Yields P) (hc : c = .ok a) : P a := by
  subst hc
  exact h

theorem Yields.of_error {why : Abort} (h : c.Yields P) (hc : c = .error why) :
    why.isInternal = false := by
  subst hc
  exact h

theorem Yields.mono (h : c.Yields P) (hp : ∀ a, P a → Q a) : c.Yields Q := by
  cases c with
  | ok a => exact hp a h
  | error why => exact h

theorem add_yields (a b : Nat) : (add a b).Yields fun n => n = a + b := by
  unfold add
  split <;> rfl

theorem sub_yields (a b : Nat) : (sub a b).Yields fun n => b ≤ a ∧ n = a - b := by
  unfold sub
  split
  next h => exact ⟨h, rfl⟩
  next h => rfl

theorem reserve_yields (count bytes : Nat) : (reserve count bytes).Yields fun _ => True := by
  unfold reserve
  split
  next h => trivial
  next h => rfl

end Checked

namespace Exec

section Bind
variable {α β : Type} {x : Exec α} {f : α → Exec β} {vm mid : Vm}

theorem bind_of_returned {a : α} (h : x vm = .returned a mid) : (x >>= f) vm = f a mid := by
  show Exec.bind x f vm = _
  rw [Exec.bind, h]

theorem bind_of_raised {e : LuaError} (h : x vm = .raised e mid) :
    (x >>= f) vm = .raised e mid := by
  show Exec.bind x f vm = _
  rw [Exec.bind, h]

theorem bind_of_aborted {why : Abort} (h : x vm = .aborted why) : (x >>= f) vm = .aborted why := by
  show Exec.bind x f vm = _
  rw [Exec.bind, h]

end Bind

theorem onStack_eq_returned_iff {g : RegisterStack → Checked RegisterStack} {vm after : Vm}
    {u : Unit} :
    onStack g vm = .returned u after ↔
      ∃ s, g vm.stack = .ok s ∧ after = { vm with stack := s } := by
  cases hs : g vm.stack <;> simp [onStack, hs, eq_comm]

theorem onStack_ne_raised {g : RegisterStack → Checked RegisterStack} {vm : Vm} (e : LuaError)
    (after : Vm) : onStack g vm ≠ .raised e after := by
  cases hs : g vm.stack <;> simp [onStack, hs]

theorem getSlot_eq_returned_iff {slot : Nat} {vm after : Vm} {v : Value} :
    getSlot slot vm = .returned v after ↔ vm.stack.slots[slot]? = some v ∧ after = vm := by
  rw [← RegisterStack.get_eq_ok_iff]
  cases hs : vm.stack.get slot <;> simp [getSlot, hs, eq_comm]

/-- From `vm` the operation returns with `R`, raises an error with `E`, or aborts without an
internal fault. -/
def Post {α : Type} (x : Exec α) (vm : Vm) (R : α → Vm → Prop) (E : Vm → Prop) : Prop :=
  match x vm with
  | .returned a after => R a after
  | .raised _ after => E after
  | .aborted why => why.isInternal = false

section Post
variable {α β : Type} {x : Exec α} {f : α → Exec β} {vm after : Vm} {R : α → Vm → Prop}
  {E : Vm → Prop}

theorem Post.of_returned {a : α} (h : x.Post vm R E) (hx : x vm = .returned a after) :
    R a after := by
  unfold Post at h
  rwa [hx] at h

theorem Post.of_raised {e : LuaError} (h : x.Post vm R E) (hx : x vm = .raised e after) :
    E after := by
  unfold Post at h
  rwa [hx] at h

theorem Post.of_aborted {why : Abort} (h : x.Post vm R E) (hx : x vm = .aborted why) :
    why.isInternal = false := by
  unfold Post at h
  rwa [hx] at h

theorem Post.of_state? {P : Vm → Prop} (h : x.Post vm (fun _ => P) P)
    (hx : (x vm).state? = some after) : P after := by
  cases ho : x vm with
  | returned a mid =>
    rw [ho] at hx
    cases hx
    exact h.of_returned ho
  | raised e mid =>
    rw [ho] at hx
    cases hx
    exact h.of_raised ho
  | aborted why =>
    rw [ho] at hx
    cases hx

theorem Post.intro (hr : ∀ a after, x vm = .returned a after → R a after)
    (he : ∀ e after, x vm = .raised e after → E after)
    (ha : ∀ why, x vm = .aborted why → why.isInternal = false) : x.Post vm R E := by
  unfold Post
  cases h : x vm with
  | returned a after => exact hr a after h
  | raised e after => exact he e after h
  | aborted why => exact ha why h

theorem Post.mono {R' : α → Vm → Prop} {E' : Vm → Prop} (h : x.Post vm R E)
    (hr : ∀ a after, x vm = .returned a after → R a after → R' a after)
    (he : ∀ after, E after → E' after) : x.Post vm R' E' := by
  apply Post.intro
  · intro a after hx
    exact hr a after hx (h.of_returned hx)
  · intro e after hx
    exact he after (h.of_raised hx)
  · intro why hx
    exact h.of_aborted hx

/-- The second part starts where the first one returns. -/
theorem Post.bind {R : β → Vm → Prop} (h : x.Post vm (fun a mid => (f a).Post mid R E) E) :
    (x >>= f).Post vm R E := by
  unfold Post at h ⊢
  show match Exec.bind x f vm with
    | .returned a after => R a after
    | .raised _ after => E after
    | .aborted why => why.isInternal = false
  unfold Exec.bind
  cases hx : x vm with
  | returned a mid =>
    rw [hx] at h
    exact h
  | raised e mid =>
    rw [hx] at h
    exact h
  | aborted why =>
    rw [hx] at h
    exact h

theorem Post.pure {a : α} (h : R a vm) : (Pure.pure a : Exec α).Post vm R E := h

theorem Post.look {g : Vm → α} (h : R (g vm) vm) : (look g).Post vm R E := h

theorem Post.modify {g : Vm → Vm} {R : Unit → Vm → Prop} (h : R () (g vm)) :
    (modify g).Post vm R E :=
  h

theorem Post.raise {c : Cause} (h : E vm) : (raise c : Exec α).Post vm R E := h

theorem Post.abort {why : Abort} (h : why.isInternal = false) : (abort why : Exec α).Post vm R E :=
  h

theorem Post.check {c : Checked α} (h : c.Yields fun a => R a vm) : (check c).Post vm R E := by
  cases c with
  | ok a => exact h
  | error why => exact h

theorem Post.onStack {g : RegisterStack → Checked RegisterStack} {R : Unit → Vm → Prop}
    (h : (g vm.stack).Yields fun s => R () { vm with stack := s }) : (onStack g).Post vm R E := by
  unfold Post Exec.onStack
  dsimp only
  cases hs : g vm.stack with
  | ok s => exact h.of_ok hs
  | error why => exact h.of_error hs

theorem Post.onFrames {g : CallStack → Checked CallStack} {R : Unit → Vm → Prop}
    (h : (g vm.frames).Yields fun s => R () { vm with frames := s }) :
    (onFrames g).Post vm R E := by
  unfold Post Exec.onFrames
  dsimp only
  cases hs : g vm.frames with
  | ok s => exact h.of_ok hs
  | error why => exact h.of_error hs

/-- An operation whose result becomes an error. -/
theorem Post.raising {x : Exec LuaError} (h : x.Post vm (fun _ => E) fun _ => False) :
    Exec.Post (fun vm => match x vm with
      | .returned e vm => .raised e vm
      | .raised e vm => .raised e vm
      | .aborted why => .aborted why : Exec α) vm (fun _ _ => False) E := by
  unfold Post at h ⊢
  dsimp only
  cases hx : x vm with
  | returned e after =>
    rw [hx] at h
    exact h
  | raised e after =>
    rw [hx] at h
    exact h.elim
  | aborted why =>
    rw [hx] at h
    exact h

theorem Post.ite {c : Prop} [Decidable c] {y : Exec α} (hx : c → x.Post vm R E)
    (hy : ¬ c → y.Post vm R E) : (if c then x else y).Post vm R E := by
  split
  next h => exact hx h
  next h => exact hy h

end Post

/-- Every state that the operation leaves behind is reached by changes of the kind `r`. -/
def Keeps (r : Vm → Vm → Prop) {α : Type} (x : Exec α) : Prop :=
  ∀ vm, x.Post vm (fun _ after => ReflTransGen r vm after) (ReflTransGen r vm)

section Keeps
variable {r : Vm → Vm → Prop} {α β : Type} {x : Exec α} {f : α → Exec β} {vm after : Vm}

theorem Keeps.mono {r' : Vm → Vm → Prop} (h : x.Keeps r) (hr : ∀ a b, r a b → r' a b) :
    x.Keeps r' := by
  intro vm
  exact (h vm).mono (fun _ _ _ hp => ReflTransGen.mono hr _ _ hp)
    (fun _ hp => ReflTransGen.mono hr _ _ hp)

theorem Keeps.bind (hx : x.Keeps r) (hf : ∀ a, (f a).Keeps r) : (x >>= f).Keeps r := by
  intro vm
  apply Post.bind
  apply (hx vm).mono
  · intro a mid _ hm
    exact (hf a mid).mono (fun _ _ _ hp => hm.trans hp) (fun _ hp => hm.trans hp)
  · intro mid hm
    exact hm

/-- What comes after an operation starts where its changes lead. -/
theorem Keeps.bind_post {R : β → Vm → Prop} {E : Vm → Prop} (hx : x.Keeps r)
    (hf : ∀ a mid, ReflTransGen r vm mid → (f a).Post mid R E)
    (he : ∀ mid, ReflTransGen r vm mid → E mid) : (x >>= f).Post vm R E :=
  Post.bind ((hx vm).mono (fun a mid _ hm => hf a mid hm) he)

theorem Keeps.pure (a : α) : (Pure.pure a : Exec α).Keeps r := fun _ => .refl

theorem Keeps.look (g : Vm → α) : (look g).Keeps r := fun _ => .refl

theorem Keeps.raise (c : Cause) : (raise c : Exec α).Keeps r := fun _ => .refl

theorem Keeps.malformed (m : Malformed) : (malformed m : Exec α).Keeps r := fun _ => rfl

theorem Keeps.check {P : α → Prop} {c : Checked α} (hc : c.Yields P) : (check c).Keeps r :=
  fun _ => Post.check (hc.mono fun _ _ => .refl)

/-- One change at once. -/
theorem Keeps.modify {g : Vm → Vm} (h : ∀ vm, r vm (g vm)) : (Exec.modify g).Keeps r :=
  fun vm => .single (h vm)

theorem Keeps.ite {c : Prop} [Decidable c] {y : Exec α} (hx : c → x.Keeps r)
    (hy : ¬ c → y.Keeps r) : (if c then x else y).Keeps r := by
  split
  next h => exact hx h
  next h => exact hy h

end Keeps

end Exec

end LuaMachine
