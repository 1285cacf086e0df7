import LuaMachine.Proofs.IndexChains
import LuaMachine.Proofs.Territory

/-!
# Operations in a territory

What an operation finds in a territory belongs to it, handlers included, so the operation stays
there. Where nothing has a metatable no handler is ever found, and the operation does the same
whether metatables are consulted or not. `Exec.Inside` says both. It is proved for the parts of an
operation and follows for the whole. What makes tables adds them to the territory: this is
`Exec.Widens`.
-/
namespace LuaMachine

theorem Value.eq_of_notNil? {v w : Value} (h : v.notNil? = some w) : v = w := by
  unfold Value.notNil? at h
  split at h <;> cases h
  rfl

/-- The machine with other hooks. -/
abbrev Vm.withHooks (vm : Vm) (hooks : Hooks) : Vm := { vm with hooks }

/-- The same end, of a machine with other hooks. -/
def Outcome.withHooks {α : Type} (hooks : Hooks) : Outcome α → Outcome α
  | .returned a vm => .returned a (vm.withHooks hooks)
  | .raised e vm => .raised e (vm.withHooks hooks)
  | .aborted why => .aborted why

namespace Territory.Closed
variable {D : Territory} {vm : Vm} {v : Value}

theorem withHooks (h : D.Closed vm) (hooks : Hooks) : D.Closed (vm.withHooks hooks) := { h with }

theorem binaryHandler? {lhs rhs w : Value} {event : String} (h : D.Closed vm) (hl : D.Holds lhs)
    (hr : D.Holds rhs) (hw : vm.heap.binaryHandler? vm.types event lhs rhs = some w) :
    D.Holds w := by
  rcases Option.or_eq_some_iff.mp hw with hw | ⟨-, hw⟩
  · exact Value.eq_of_notNil? hw ▸ h.metafield hl event
  · exact Value.eq_of_notNil? hw ▸ h.metafield hr event

theorem binaryHandler?_eq_none {lhs rhs : Value} (h : D.Closed vm) (hd : ¬ D.hooked)
    (hl : D.Holds lhs) (hr : D.Holds rhs) (event : String) :
    vm.heap.binaryHandler? vm.types event lhs rhs = none := by
  simp [Heap.binaryHandler?, h.metafield_eq_nil hd hl, h.metafield_eq_nil hd hr, Value.notNil?]

/-- A chain without a handler at its first link decides nothing. -/
theorem followIndex_eq_none (h : D.Closed vm) (hd : ¬ D.hooked) (hv : D.Holds v) (key : Value) :
    vm.heap.followIndex vm.types key maxChain true v = .ok none := by
  -- The chain is followed for one link at least.
  show vm.heap.followIndex vm.types key (1999 + 1) true v = _
  unfold Heap.followIndex
  cases v <;> simp [h.metafield_eq_nil hd hv, Value.isNil]

theorem followNewIndex_eq_none (h : D.Closed vm) (hd : ¬ D.hooked) (hv : D.Holds v)
    (key value : Value) :
    vm.heap.followNewIndex vm.types key value maxChain true v = .ok none := by
  show vm.heap.followNewIndex vm.types key value (1999 + 1) true v = _
  unfold Heap.followNewIndex
  cases v <;> simp [h.metafield_eq_nil hd hv, Value.isNil]

end Territory.Closed

namespace Exec

/-- The operation stays in the territory, and its result has `Q`. Where nothing has a metatable it
does the same with all hooks, but for the hooks themselves. -/
structure Inside (D : Territory) {α : Type} (x : Exec α) (Q : α → Prop) : Prop where
  agrees : ¬ D.hooked → ∀ {vm : Vm}, D.Closed vm → ∀ hooks,
    x (vm.withHooks hooks) = (x vm).withHooks hooks
  returned : ∀ {vm after : Vm} {a : α}, D.Closed vm → x vm = .returned a after →
    Q a ∧ D.Closed after
  raised : ∀ {vm after : Vm} {e : LuaError}, D.Closed vm → x vm = .raised e after → D.Closed after

namespace Inside
variable {D : Territory} {α β : Type} {x : Exec α} {f : α → Exec β} {Q : α → Prop}
  {R : β → Prop} {v : Value}

theorem mono {P : α → Prop} (h : x.Inside D Q) (hqp : ∀ a, Q a → P a) : x.Inside D P where
  agrees := h.agrees
  returned := fun hc hx => (h.returned hc hx).imp_left (hqp _)
  raised := h.raised

/-- Whatever state the operation leaves behind is in the territory. -/
theorem closed {vm after : Vm} (h : x.Inside D Q) (hc : D.Closed vm)
    (ha : (x vm).state? = some after) : D.Closed after := by
  cases hx : x vm with
  | returned a mid =>
    rw [hx] at ha
    cases ha
    exact (h.returned hc hx).2
  | raised e mid =>
    rw [hx] at ha
    cases ha
    exact h.raised hc hx
  | aborted why =>
    rw [hx] at ha
    cases ha

theorem of_closed
    (ha : ¬ D.hooked → ∀ {vm : Vm}, D.Closed vm → ∀ hooks,
      x (vm.withHooks hooks) = (x vm).withHooks hooks)
    (hs : ∀ {vm after : Vm}, D.Closed vm → (x vm).state? = some after → D.Closed after) :
    x.Inside D fun _ => True where
  agrees := ha
  returned := fun hc hx => ⟨trivial, hs hc (by rw [hx]; rfl)⟩
  raised := fun hc hx => hs hc (by rw [hx]; rfl)

theorem bind (hx : x.Inside D Q) (hf : ∀ a, Q a → (f a).Inside D R) : (x >>= f).Inside D R where
  agrees := by
    intro hd vm hc hooks
    show Exec.bind x f _ = (Exec.bind x f vm).withHooks hooks
    unfold Exec.bind
    rw [hx.agrees hd hc hooks]
    cases ho : x vm with
    | returned a mid =>
      obtain ⟨hq, hmid⟩ := hx.returned hc ho
      exact (hf a hq).agrees hd hmid hooks
    | raised e mid => rfl
    | aborted why => rfl
  returned := by
    intro vm after b hc hb
    obtain ⟨a, mid, ha, hb⟩ := Exec.bind_eq_returned_iff.mp hb
    obtain ⟨hq, hmid⟩ := hx.returned hc ha
    exact (hf a hq).returned hmid hb
  raised := by
    intro vm after e hc he
    rcases Exec.bind_eq_raised_iff.mp he with he | ⟨a, mid, ha, he⟩
    · exact hx.raised hc he
    · obtain ⟨hq, hmid⟩ := hx.returned hc ha
      exact (hf a hq).raised hmid he

theorem pure {a : α} (hq : Q a) : (Pure.pure a : Exec α).Inside D Q where
  agrees := fun _ _ _ _ => rfl
  returned := by
    intro vm after b hc hb
    cases hb
    exact ⟨hq, hc⟩
  raised := fun _ he => by cases he

theorem raise (c : Cause) : (Exec.raise c : Exec α).Inside D Q where
  agrees := fun _ _ _ _ => rfl
  returned := fun _ hb => by cases hb
  raised := by
    intro vm after e hc he
    cases he
    exact hc

theorem raising (c : Cause) : (Exec.raise c >>= f).Inside D R := raise c

theorem abort (why : Abort) : (Exec.abort why : Exec α).Inside D Q where
  agrees := fun _ _ _ _ => rfl
  returned := fun _ hb => by cases hb
  raised := fun _ he => by cases he

theorem malformed (m : Malformed) : (Exec.malformed m : Exec α).Inside D Q := abort _

theorem check {c : Checked α} (hq : ∀ a, c = .ok a → Q a) : (Exec.check c).Inside D Q := by
  cases c with
  | ok a => exact pure (hq a rfl)
  | error why => exact abort why

theorem ite {p : Prop} [Decidable p] {y : Exec α} (hx : p → x.Inside D Q) (hy : ¬p → y.Inside D Q) :
    (if p then x else y).Inside D Q := by
  split
  · next h => exact hx h
  · next h => exact hy h

theorem look {g : Vm → α}
    (hg : ¬ D.hooked → ∀ {vm : Vm}, D.Closed vm → ∀ hooks, g (vm.withHooks hooks) = g vm)
    (hq : ∀ {vm : Vm}, D.Closed vm → Q (g vm)) : (Exec.look g).Inside D Q where
  agrees := by
    intro hd vm hc hooks
    show Outcome.returned (g (vm.withHooks hooks)) (vm.withHooks hooks) =
      .returned (g vm) (vm.withHooks hooks)
    rw [hg hd hc]
  returned := by
    intro vm after b hc hb
    cases hb
    exact ⟨hq hc, hc⟩
  raised := fun _ he => by cases he

/-- A look at anything but the hooks, whatever it shows. -/
theorem lookAt {g : Vm → α} (hg : ∀ vm hooks, g (Vm.withHooks vm hooks) = g vm) :
    (Exec.look g).Inside D fun _ => True :=
  look (fun _ {_} _ => hg _) fun _ => trivial

/-- A look at what the hooks say. Where nothing has a metatable the standard ones say nothing
either. -/
theorem lookHooks {f : Vm → α} {a : α} (hf : ¬ D.hooked → ∀ {vm : Vm}, D.Closed vm → f vm = a)
    (ha : Q a) (hq : ∀ {vm : Vm}, D.Closed vm → Q (f vm)) :
    (Exec.look fun vm => match vm.hooks with
      | .raw => a
      | .standard => f vm).Inside D Q := by
  have hsilent : ¬ D.hooked → ∀ {vm : Vm}, D.Closed vm →
      (match vm.hooks with
        | .raw => a
        | .standard => f vm) = a := by
    intro hd vm hc
    split
    · rfl
    · exact hf hd hc
  refine .look (fun hd {vm} hc hooks => ?_) fun {vm} hc => ?_
  · exact (hsilent hd (hc.withHooks hooks)).trans (hsilent hd hc).symm
  · split
    · exact ha
    · exact hq hc

theorem modify {g : Vm → Vm} (hg : ∀ vm hooks, g (Vm.withHooks vm hooks) = (g vm).withHooks hooks)
    (hc : ∀ {vm : Vm}, D.Closed vm → D.Closed (g vm)) : (Exec.modify g).Inside D fun _ => True where
  agrees := by
    intro _ vm _ hooks
    show Outcome.returned () (g (vm.withHooks hooks)) = .returned () ((g vm).withHooks hooks)
    rw [hg]
  returned := by
    intro vm after b hclosed hb
    cases hb
    exact ⟨trivial, hc hclosed⟩
  raised := fun _ he => by cases he

/-- An operation that returns an error may raise it. -/
theorem thrown {x : Exec LuaError} {Q : LuaError → Prop} (h : x.Inside D Q) :
    Exec.Inside D (fun vm => (x vm).thrown : Exec α) fun _ => True := by
  refine of_closed (fun hd {vm} hc hooks => ?_) fun {vm after} hc ha => h.closed hc ?_
  · rw [h.agrees hd hc hooks]
    cases x vm <;> rfl
  · have hthrown : ((x vm).thrown : Outcome α).state? = some after := ha
    cases hx : x vm <;> rw [hx] at hthrown <;> exact hthrown

/-! ## Registers -/

theorem onStack {g : RegisterStack → Checked RegisterStack}
    (hg : ∀ {s t : RegisterStack}, D.HoldsStack s → g s = .ok t → D.HoldsStack t) :
    (Exec.onStack g).Inside D fun _ => True := by
  refine of_closed (fun _ {vm} _ hooks => ?_) fun {vm after} hc ha => ?_
  · unfold Exec.onStack
    dsimp only
    cases g vm.stack <;> rfl
  · unfold Exec.onStack at ha
    dsimp only at ha
    split at ha <;> cases ha
    next ht => exact { hc with stack := hg hc.stack ht }

theorem getSlot (slot : Nat) : (Exec.getSlot slot).Inside D D.Holds where
  agrees := by
    intro _ vm _ hooks
    unfold Exec.getSlot
    dsimp only
    cases vm.stack.get slot <;> rfl
  returned := by
    intro vm after v hc hb
    unfold Exec.getSlot at hb
    split at hb
    · next w hw =>
      cases hb
      exact ⟨hc.stack.get hw, hc⟩
    · cases hb
  raised := by
    intro vm after e hc he
    unfold Exec.getSlot at he
    split at he <;> cases he

theorem setSlot (slot : Nat) (hv : D.Holds v) : (Exec.setSlot slot v).Inside D fun _ => True :=
  onStack fun hs ht => hs.set hv ht

theorem setTop (top : Nat) : (Exec.setTop top).Inside D fun _ => True :=
  modify (fun _ _ => rfl) fun hc => { hc with }

theorem ensure (wanted : Nat) : (Exec.ensure wanted).Inside D fun _ => True := by
  refine of_closed (fun _ {vm} _ hooks => ?_) fun {vm after} hc ha => ?_
  · unfold Exec.ensure
    dsimp only
    split
    · rfl
    · cases vm.stack.ensure? wanted with
      | error why => rfl
      | ok s => cases s <;> rfl
  · unfold Exec.ensure RegisterStack.ensure? at ha
    dsimp only at ha
    split_ifs at ha with hsize hlimit
    · cases ha
      exact hc
    · cases ha
      exact { hc with }
    · cases hr : Checked.reserve (vm.stack.grownSize wanted) Value.bytes with
      | error why => simp [hr, Outcome.state?] at ha
      | ok _ =>
        simp only [hr, Outcome.state?, Option.some.injEq] at ha
        subst ha
        exact { hc with stack := hc.stack.grow wanted }

/-! ## Frames, upvalues and objects -/

theorem currentFrame : Exec.currentFrame.Inside D fun f => ∀ r, f.closure = some r → D.closures r :=
  look (fun _ {_} _ _ => rfl) fun hc _ hr => hc.frames.current hr

theorem modifyFrame {g : Frame → Frame} (hg : ∀ f, (g f).closure = f.closure) :
    (Exec.modifyFrame g).Inside D fun _ => True :=
  modify (fun _ _ => rfl) fun hc => { hc with frames := hc.frames.modifyCurrent hg }

theorem onFrames {g : CallStack → Checked CallStack}
    (hg : ∀ {s t : CallStack}, D.HoldsFrames s → g s = .ok t → D.HoldsFrames t) :
    (Exec.onFrames g).Inside D fun _ => True := by
  refine of_closed (fun _ {vm} _ hooks => ?_) fun {vm after} hc ha => ?_
  · unfold Exec.onFrames
    dsimp only
    cases g vm.frames <;> rfl
  · unfold Exec.onFrames at ha
    dsimp only at ha
    split at ha <;> cases ha
    next ht => exact { hc with frames := hg hc.frames ht }

theorem closeUpvalues (level : Nat) : (Exec.closeUpvalues level).Inside D fun _ => True :=
  modify (fun _ _ => rfl) fun hc => { hc with cells := hc.cells.close level hc.stack }

theorem captureSlot (slot : Nat) : (Exec.captureSlot slot).Inside D D.cells where
  agrees := fun _ _ _ _ => rfl
  returned := by
    intro vm after r hc hb
    cases hb
    obtain ⟨hcell, hcells⟩ := hc.cells.capture slot
    exact ⟨hcell, { hc with cells := hcells }⟩
  raised := fun _ he => by cases he

theorem newClosure {c : Closure} (hd : D.HoldsClosure c) :
    (Exec.newClosure c).Inside D D.closures where
  agrees := fun _ _ _ _ => rfl
  returned := by
    intro vm after r hc hb
    cases hb
    obtain ⟨hclosure, hheap⟩ := hc.heap.newClosure hd
    exact ⟨hclosure, { hc with heap := hheap }⟩
  raised := fun _ he => by cases he

end Inside

/-! ## New tables -/

/-- The operation adds at most tables to the territory, and its result has `Q` in the wider one. -/
structure Widens (D : Territory) {α : Type} (x : Exec α) (Q : Territory → α → Prop) : Prop where
  agrees : ¬ D.hooked → ∀ {vm : Vm}, D.Closed vm → ∀ hooks,
    x (vm.withHooks hooks) = (x vm).withHooks hooks
  returned : ∀ {vm after : Vm} {a : α}, D.Closed vm → x vm = .returned a after →
    ∃ D', D ≤ D' ∧ Q D' a ∧ D'.Closed after
  raised : ∀ {vm after : Vm} {e : LuaError}, D.Closed vm → x vm = .raised e after →
    ∃ D', D ≤ D' ∧ D'.Closed after

theorem Inside.widens {D : Territory} {α : Type} {x : Exec α} {Q : Territory → α → Prop}
    (h : x.Inside D (Q D)) : x.Widens D Q where
  agrees := h.agrees
  returned := fun hc hx => ⟨D, le_refl D, h.returned hc hx⟩
  raised := fun hc hx => ⟨D, le_refl D, h.raised hc hx⟩

namespace Widens
variable {D : Territory} {α β : Type} {x : Exec α} {f : α → Exec β} {Q : Territory → α → Prop}
  {R : Territory → β → Prop}

theorem closed {vm after : Vm} (h : x.Widens D Q) (hc : D.Closed vm)
    (ha : (x vm).state? = some after) : ∃ D', D ≤ D' ∧ D'.Closed after := by
  cases hx : x vm with
  | returned a mid =>
    rw [hx] at ha
    cases ha
    obtain ⟨D', hle, -, hafter⟩ := h.returned hc hx
    exact ⟨D', hle, hafter⟩
  | raised e mid =>
    rw [hx] at ha
    cases ha
    exact h.raised hc hx
  | aborted why =>
    rw [hx] at ha
    cases ha

theorem of_closed
    (ha : ¬ D.hooked → ∀ {vm : Vm}, D.Closed vm → ∀ hooks,
      x (vm.withHooks hooks) = (x vm).withHooks hooks)
    (hs : ∀ {vm after : Vm}, D.Closed vm → (x vm).state? = some after →
      ∃ D', D ≤ D' ∧ D'.Closed after) : x.Widens D fun _ _ => True where
  agrees := ha
  returned := by
    intro vm after a hc hx
    obtain ⟨D', hle, hafter⟩ := hs hc (by rw [hx]; rfl)
    exact ⟨D', hle, trivial, hafter⟩
  raised := fun hc hx => hs hc (by rw [hx]; rfl)

theorem bind (hx : x.Widens D Q) (hf : ∀ D' a, D ≤ D' → Q D' a → (f a).Widens D' R) :
    (x >>= f).Widens D R where
  agrees := by
    intro hd vm hc hooks
    show Exec.bind x f _ = (Exec.bind x f vm).withHooks hooks
    unfold Exec.bind
    rw [hx.agrees hd hc hooks]
    cases ho : x vm with
    | returned a mid =>
      obtain ⟨D', hle, hq, hmid⟩ := hx.returned hc ho
      rw [← Territory.hooked_eq_of_le hle] at hd
      exact (hf D' a hle hq).agrees hd hmid hooks
    | raised e mid => rfl
    | aborted why => rfl
  returned := by
    intro vm after b hc hb
    obtain ⟨a, mid, ha, hb⟩ := Exec.bind_eq_returned_iff.mp hb
    obtain ⟨D', hle, hq, hmid⟩ := hx.returned hc ha
    obtain ⟨D'', hle', hafter⟩ := (hf D' a hle hq).returned hmid hb
    exact ⟨D'', hle.trans hle', hafter⟩
  raised := by
    intro vm after e hc he
    rcases Exec.bind_eq_raised_iff.mp he with he | ⟨a, mid, ha, he⟩
    · exact hx.raised hc he
    · obtain ⟨D', hle, hq, hmid⟩ := hx.returned hc ha
      obtain ⟨D'', hle', hafter⟩ := (hf D' a hle hq).raised hmid he
      exact ⟨D'', hle.trans hle', hafter⟩

/-- What follows an operation that makes no table. -/
theorem after {P : α → Prop} (hx : x.Inside D P) (hf : ∀ a, P a → (f a).Widens D R) :
    (x >>= f).Widens D R := by
  have hwide : x.Widens D fun D' a => D' = D ∧ P a := (hx.mono fun _ ha => ⟨rfl, ha⟩).widens
  refine hwide.bind ?_
  rintro _ a - ⟨rfl, ha⟩
  exact hf a ha

theorem newTable : Exec.newTable.Widens D fun D' r => D'.tables r where
  agrees := fun _ _ _ _ => rfl
  returned := by
    intro vm after r hc hb
    cases hb
    exact hc.newTable
  raised := fun _ he => by cases he

end Widens

end Exec

/-! ## Operations with metamethods -/

namespace Vm

open Exec (Inside)

variable {D : Territory} {obj key value lhs rhs v : Value}

theorem consult_inside (event : String) (args : List Value) :
    (consult event args).Inside D fun _ => True := by
  refine .of_closed (fun _ {vm} _ hooks => ?_) fun {vm after} hc ha => ?_
  · unfold consult
    dsimp only
    cases vm.consultations <;> rfl
  · unfold consult at ha
    split at ha <;> cases ha
    · exact hc
    · exact { hc with }

theorem settle_inside {α : Type} {Q : α → Prop} {e : Except Cause α} (hq : ∀ a, e = .ok a → Q a) :
    (settle e).Inside D Q := by
  cases e with
  | ok a => exact .pure (hq a rfl)
  | error c => exact .raise c

/-- The handler belongs to the territory, if one is found, and so does what it is called with. -/
theorem binaryHook_inside (name event : String) (hl : D.Holds lhs) (hr : D.Holds rhs) :
    (binaryHook name event lhs rhs).Inside D
      fun found => ∀ w ∈ found, ∀ v ∈ [w, lhs, rhs], D.Holds v := by
  refine (consult_inside name [lhs, rhs]).bind fun _ _ => ?_
  refine .lookHooks (fun hd {_} hc => hc.binaryHandler?_eq_none hd hl hr event) nofun
    fun hc w hw => ?_
  simpa using ⟨hc.binaryHandler? hl hr hw, hl, hr⟩

theorem callHandler?_inside (hv : D.Holds v) :
    (callHandler? v).Inside D fun found => ∀ w ∈ found, D.Holds w := by
  refine (consult_inside "call" [v]).bind fun _ _ => ?_
  refine .lookHooks (fun hd {vm} hc => ?_) nofun fun {vm} hc w hw => ?_
  · rw [hc.metafield_eq_nil hd hv]
    rfl
  · exact Value.eq_of_notNil? hw ▸ hc.metafield hv "__call"

theorem entry_holds {vm : Vm} (hc : D.Closed vm) (hobj : D.Holds obj) (key : Value) :
    D.Holds (vm.entry key obj) := by
  unfold Vm.entry
  split
  · next r => exact (hc.heap.content r hobj).getValue D.holds_nil key
  · exact D.holds_nil

theorem rawEntry_inside (hobj : D.Holds obj) (key : Value) :
    (rawEntry obj key).Inside D D.Holds :=
  .look (fun _ {_} _ _ => rfl) fun hc => entry_holds hc hobj key

/-- An operation is settled with a value that has `P`, or calls a handler of the territory. -/
def Answered (D : Territory) {α : Type} (P : α → Prop) : Reply α → Prop
  | .done a => P a
  | .call handler args => ∀ v ∈ handler :: args, D.Holds v

/-- Every link of a chain belongs to the territory. -/
theorem followIndex_answered {vm : Vm} (hc : D.Closed vm) (hkey : D.Holds key) {links : Nat}
    {first : Bool} (hobj : D.Holds obj) {reply : Reply Value}
    (h : vm.heap.followIndex vm.types key links first obj = .ok (some reply)) :
    Answered D D.Holds reply := by
  induction links generalizing first obj with
  | zero => cases h
  | succ links ih =>
    have hhandler : D.Holds (vm.metafield obj "__index") := hc.metafield hobj _
    rw [Vm.followIndex_eq] at h
    by_cases hown : !(if first then Value.nil else vm.entry key obj).isNil
    · rw [if_pos hown] at h
      cases h
      exact entry_holds hc hobj key
    rw [if_neg hown] at h
    split_ifs at h
    · cases h
    · cases h
      exact D.holds_nil
    · cases h
      simpa [Answered] using ⟨hhandler, hobj, hkey⟩
    · exact ih hhandler h

theorem index_inside (hobj : D.Holds obj) (hkey : D.Holds key) :
    (index obj key).Inside D (Answered D D.Holds) := by
  refine (rawEntry_inside hobj key).bind fun own hown => ?_
  refine .ite (fun _ => .pure hown) fun _ => ?_
  refine (consult_inside "index" [obj, key]).bind fun _ _ => ?_
  have hlook : (Exec.look fun vm => match vm.hooks with
      | .raw => Except.ok none
      | .standard => vm.heap.followIndex vm.types key maxChain true obj).Inside D
      fun found => ∀ reply, found = .ok (some reply) → Answered D D.Holds reply :=
    .lookHooks (fun hd {_} hc => hc.followIndex_eq_none hd hobj key) nofun
      fun hc _ hreply => followIndex_answered hc hkey hobj hreply
  refine hlook.bind fun found hfound => ?_
  refine (settle_inside fun reply hreply => hreply).bind fun reply hreply => ?_
  cases reply with
  | some reply => exact .pure (hfound reply hreply)
  | none => exact .ite (fun _ => .pure D.holds_nil) fun _ => .raise _

theorem rawAssign_inside (r : TableRef) (key : Value) (hv : D.Holds value) :
    (rawAssign r key value).Inside D fun _ => True := by
  unfold rawAssign
  split
  · next k _ => exact .modify (fun _ _ => rfl) fun hc => { hc with heap := hc.heap.rawSet k hv }
  · exact .raise _

theorem followNewIndex_answered {vm : Vm} (hc : D.Closed vm) (hkey : D.Holds key)
    (hvalue : D.Holds value) {links : Nat} {first : Bool} {current handler : Value}
    {args : List Value} (hcurrent : D.Holds current)
    (h : vm.heap.followNewIndex vm.types key value links first current =
      .ok (some (.call handler args))) : ∀ v ∈ handler :: args, D.Holds v := by
  induction links generalizing first current with
  | zero => cases h
  | succ links ih =>
    have hhandler := hc.metafield hcurrent "__newindex"
    unfold Heap.followNewIndex at h
    dsimp only at h
    split at h
    · cases h
    · split_ifs at h
      · cases h
      · split at h <;> cases h
      · cases h
        simpa using ⟨hhandler, hcurrent, hkey, hvalue⟩
      · exact ih hhandler h

theorem newIndex_inside (hobj : D.Holds obj) (hkey : D.Holds key) (hv : D.Holds value) :
    (newIndex obj key value).Inside D (Answered D fun _ => True) := by
  have hstore : ∀ r,
      (rawAssign r key value >>= fun _ => pure (.done ()) : Exec (Reply Unit)).Inside D
        (Answered D fun _ => True) :=
    fun r => (rawAssign_inside r key hv).bind fun _ _ => .pure trivial
  have hlook : (Exec.look fun vm => match vm.hooks with
      | .raw => Except.ok none
      | .standard => vm.heap.followNewIndex vm.types key value maxChain true obj).Inside D
      fun found => ∀ handler args, found = .ok (some (.call handler args)) →
        ∀ v ∈ handler :: args, D.Holds v :=
    .lookHooks (fun hd {_} hc => hc.followNewIndex_eq_none hd hobj key value) nofun
      fun hc _ _ hreply => followNewIndex_answered hc hkey hv hobj hreply
  refine (rawEntry_inside hobj key).bind fun own hown => ?_
  split
  · exact hstore _
  · refine (consult_inside _ _).bind fun _ _ => ?_
    refine hlook.bind fun found hfound => ?_
    refine (settle_inside fun reply hreply => hreply).bind fun reply hreply => ?_
    split
    · exact hstore _
    · next handler args => exact .pure (hfound handler args hreply)
    · split
      · exact hstore _
      · exact .raise _

/-- What an operator makes of its operands is a number. -/
theorem applyRaw_holds (D : Territory) {op : ArithOp} {w : Value}
    (h : op.applyRaw lhs rhs = .ok (some w)) : D.Holds w := by
  unfold ArithOp.applyRaw at h
  split at h
  · split at h <;> cases h
    exact trivial
  · split at h
    · next l r _ =>
      cases hn : op.onNumbers l r with
      | error c => simp [hn, Except.map] at h
      | ok n =>
        simp only [hn, Except.map, Except.ok.injEq, Option.some.injEq] at h
        subst h
        exact trivial
    · cases h

theorem arith_inside (op : ArithOp) (hl : D.Holds lhs) (hr : D.Holds rhs) :
    (arith op lhs rhs).Inside D (Answered D D.Holds) := by
  have hraw : (settle (op.applyRaw lhs rhs)).Inside D
      fun found => ∀ w, found = some w → D.Holds w :=
    settle_inside fun found hfound w hw => applyRaw_holds D (hw ▸ hfound)
  refine hraw.bind fun found hfound => ?_
  cases found with
  | some w => exact .pure (hfound w rfl)
  | none =>
    refine (binaryHook_inside _ _ hl hr).bind fun found hfound => ?_
    cases found with
    | some handler => exact .pure (hfound handler rfl)
    | none => exact .raise _

theorem length_inside (hv : D.Holds v) : (length v).Inside D (Answered D D.Holds) := by
  unfold length
  split
  · exact .pure trivial
  · refine (consult_inside _ _).bind fun _ _ => ?_
    have hlook : (Exec.look fun vm => match vm.hooks with
        | .raw => Value.nil
        | .standard => vm.heap.metafield vm.types v "__len").Inside D D.Holds :=
      .lookHooks (fun hd {_} hc => hc.metafield_eq_nil hd hv _) D.holds_nil
        fun hc => hc.metafield hv _
    refine hlook.bind fun handler hhandler => ?_
    refine .ite (fun _ => .pure ?_) fun _ => ?_
    · simpa [Answered] using ⟨hhandler, hv⟩
    refine (Inside.lookAt fun _ _ => rfl).bind fun count _ => ?_
    cases count with
    | some n => exact .pure trivial
    | none => exact .raise _

/-- A comparison is decided, or calls a handler of the territory. -/
def Decided (D : Territory) : Verdict → Prop
  | .decided _ => True
  | .ask _ handler args => ∀ v ∈ handler :: args, D.Holds v

theorem equal_inside (hl : D.Holds lhs) (hr : D.Holds rhs) :
    (equal lhs rhs).Inside D (Decided D) := by
  refine .ite (fun _ => .pure trivial) fun _ => ?_
  refine (binaryHook_inside _ _ hl hr).bind fun found hfound => ?_
  cases found with
  | some handler => exact .pure (hfound handler rfl)
  | none => exact .pure trivial

theorem lessThan_inside (hl : D.Holds lhs) (hr : D.Holds rhs) :
    (lessThan lhs rhs).Inside D (Decided D) := by
  unfold lessThan
  split
  · exact .pure trivial
  · refine (binaryHook_inside _ _ hl hr).bind fun found hfound => ?_
    cases found with
    | some handler => exact .pure (hfound handler rfl)
    | none => exact .raise _

theorem markSwapped_inside (waiting : Bool) : (markSwapped waiting).Inside D fun _ => True :=
  .modifyFrame fun _ => rfl

theorem lessEqual_inside (hl : D.Holds lhs) (hr : D.Holds rhs) :
    (lessEqual lhs rhs).Inside D (Decided D) := by
  unfold lessEqual
  split
  · exact .pure trivial
  · refine (binaryHook_inside _ _ hl hr).bind fun found hfound => ?_
    cases found with
    | some handler => exact .pure (hfound handler rfl)
    | none =>
      refine (markSwapped_inside true).bind fun _ _ => ?_
      refine (binaryHook_inside _ _ hr hl).bind fun found hfound => ?_
      cases found with
      | some handler => exact .pure (hfound handler rfl)
      | none => exact (markSwapped_inside false).bind fun _ _ => .raise _

/-- A concatenation is done, or calls a handler of the territory with operands left. -/
def Joined (D : Territory) : ConcatReply → Prop
  | .done v => D.Holds v
  | .call handler args rest => (∀ v ∈ handler :: args, D.Holds v) ∧ ∀ v ∈ rest, D.Holds v

/-- The operands of a handler are among those of the concatenation, or a joined string. -/
theorem joinRun_holds {reversed : List Value} (h : ∀ v ∈ reversed, D.Holds v) :
    (∃ v, joinRun reversed = .done v ∧ D.Holds v) ∨
      ∃ lhs rhs rest, joinRun reversed = .ask lhs rhs rest ∧ D.Holds lhs ∧ D.Holds rhs ∧
        ∀ v ∈ rest, D.Holds v := by
  cases reversed with
  | nil => exact .inl ⟨.nil, rfl, trivial⟩
  | cons rhs tail =>
    cases tail with
    | nil => exact .inl ⟨rhs, rfl, h rhs (by simp)⟩
    | cons lhs rest =>
      rw [joinRun]
      split_ifs
      · dsimp only
        split
        · exact .inl ⟨_, rfl, trivial⟩
        · next l rest' hdrop =>
          have hleft : ∀ v ∈ l :: rest', D.Holds v := by
            intro v hv
            refine h v ((List.dropWhile_sublist Value.isConcatenable).subset ?_)
            rwa [hdrop]
          exact .inr ⟨_, _, _, rfl, hleft l (by simp), trivial, fun v hv => hleft v (by simp [hv])⟩
      · exact .inr ⟨_, _, _, rfl, h lhs (by simp), h rhs (by simp), fun v hv => h v (by simp [hv])⟩

theorem concatRound_inside {reversed : List Value} (h : ∀ v ∈ reversed, D.Holds v) :
    (concatRound reversed).Inside D (Joined D) := by
  unfold concatRound
  rcases joinRun_holds h with ⟨v, hjoin, hv⟩ | ⟨lhs, rhs, rest, hjoin, hl, hr, hrest⟩
  · rw [hjoin]
    exact .pure hv
  · rw [hjoin]
    refine (binaryHook_inside _ _ hl hr).bind fun found hfound => ?_
    cases found with
    | some handler => exact .pure ⟨hfound handler rfl, hrest⟩
    | none => exact .raise _

/-! ## Calls -/

theorem takeUp_holds {s t : RegisterStack} {source target count : Nat} (h : D.HoldsStack s)
    (ht : takeUp s source target count = .ok t) : D.HoldsStack t := by
  induction count generalizing s source target with
  | zero =>
    cases ht
    exact h
  | succ count ih =>
    unfold takeUp at ht
    split at ht
    · cases ht
    · next v s' hv =>
      obtain ⟨hvalue, hs'⟩ := h.take hv
      split at ht
      · cases ht
      · next s'' hw => exact ih (hs'.set hvalue hw) ht

theorem adjustVarargs_inside (paramCount argCount : Nat) :
    (adjustVarargs paramCount argCount).Inside D fun _ => True := by
  refine (Inside.lookAt fun _ _ => rfl).bind fun base _ => ?_
  refine (Inside.check fun _ _ => trivial).bind fun fixed _ => ?_
  refine (Inside.onStack fun hs ht => takeUp_holds hs ht).bind fun _ _ => ?_
  refine (Inside.onStack fun hs ht => hs.fillNil ht).bind fun _ _ => ?_
  exact (Inside.setTop _).bind fun _ _ => .pure trivial

theorem enterFrame_inside {r : ClosureRef} (hr : D.closures r) (func : Nat) (results : ResultCount)
    (tailCall : Bool) : (enterFrame r func results tailCall).Inside D fun _ => True := by
  have hpush : ∀ base top, (Exec.modify fun vm => { vm with
      frames := vm.frames.push {
        closure := some r, func, base, top, pc := 0, results, status := { lua := true } }
      top := top }).Inside D fun _ => True := by
    intro base top
    refine .modify (fun _ _ => rfl) fun hc => { hc with frames := hc.frames.push fun r' hr' => ?_ }
    exact Option.some.inj hr' ▸ hr
  refine (Inside.lookAt fun _ _ => rfl).bind fun proto _ => ?_
  refine (Inside.lookAt fun _ _ => rfl).bind fun depth _ => ?_
  refine (Inside.check fun _ _ => trivial).bind fun limit _ => ?_
  refine (Inside.lookAt fun _ _ => rfl).bind fun depth _ => ?_
  refine .ite (fun _ => .raising _) fun _ => ?_
  refine (Inside.lookAt fun _ _ => rfl).bind fun top _ => ?_
  refine (Inside.ensure _).bind fun _ _ => ?_
  refine (Inside.check fun _ _ => trivial).bind fun argCount _ => ?_
  refine .ite (fun _ => ?_) fun _ => ?_
  · exact (adjustVarargs_inside _ _).bind fun base _ => hpush base _
  · refine (Inside.onStack fun hs ht => hs.fillNil ht).bind fun _ _ => ?_
    exact hpush (func + 1) _

theorem tryEnter_inside (func : Nat) (results : ResultCount) (tailCall : Bool) :
    (tryEnter func results tailCall).Inside D fun found => ∀ w ∈ found, D.Holds w := by
  refine (Inside.getSlot func).bind fun v hv => ?_
  split
  · exact (enterFrame_inside hv func results tailCall).bind fun _ _ => .pure nofun
  · exact .raise _
  · refine (callHandler?_inside hv).bind fun found hfound => ?_
    cases found with
    | some handler => exact .pure hfound
    | none => exact .raise _

theorem insertHandler_inside (func : Nat) {handler : Value} (hv : D.Holds handler) :
    (insertHandler func handler).Inside D fun _ => True := by
  refine (Inside.lookAt fun _ _ => rfl).bind fun top _ => ?_
  refine (Inside.ensure _).bind fun _ _ => ?_
  refine (Inside.onStack fun hs ht => hs.insert hv ht).bind fun _ _ => ?_
  exact Inside.setTop _

theorem enterFunction_inside (func : Nat) (results : ResultCount) (tailCall : Bool) (room : Nat) :
    (enterFunction func results tailCall room).Inside D fun _ => True := by
  induction room with
  | zero =>
    refine (tryEnter_inside func results tailCall).bind fun found _ => ?_
    cases found with
    | some handler => exact .raise _
    | none => exact .pure trivial
  | succ room ih =>
    refine (tryEnter_inside func results tailCall).bind fun found hfound => ?_
    cases found with
    | some handler => exact (insertHandler_inside func (hfound handler rfl)).bind fun _ _ => ih
    | none => exact .pure trivial

theorem precall_inside (func : Nat) (results : ResultCount) (tailCall : Bool) :
    (precall func results tailCall).Inside D fun _ => True :=
  (Inside.lookAt fun _ _ => rfl).bind fun _ _ => enterFunction_inside func results tailCall _

theorem moveResults_inside (first target count : Nat) (results : ResultCount) :
    (moveResults first target count results).Inside D fun _ => True := by
  unfold moveResults
  split
  · exact (Inside.setTop _).bind fun _ _ => .pure trivial
  · have hstore : ∀ v, D.Holds v → (do
        Exec.setSlot target v
        Exec.setTop (target + 1)
        return true : Exec Bool).Inside D fun _ => True := by
      intro v hv
      refine (Inside.setSlot target hv).bind fun _ _ => ?_
      exact (Inside.setTop _).bind fun _ _ => .pure trivial
    refine .ite (fun _ => hstore .nil D.holds_nil) fun _ => ?_
    exact (Inside.getSlot first).bind hstore
  · refine (Inside.check fun _ _ => trivial).bind fun bound _ => ?_
    refine (Inside.ensure bound).bind fun _ _ => ?_
    refine (Inside.onStack fun hs ht => hs.copyDown ht).bind fun _ _ => ?_
    refine (Inside.onStack fun hs ht => hs.fillNil ht).bind fun _ _ => ?_
    exact (Inside.setTop _).bind fun _ _ => .pure trivial
  · refine (Inside.onStack fun hs ht => hs.copyDown ht).bind fun _ _ => ?_
    exact (Inside.setTop _).bind fun _ _ => .pure trivial

theorem postcall_inside (first count : Nat) : (postcall first count).Inside D fun _ => True := by
  have hpop : (Exec.look fun vm => vm.frames.pop).Inside D
      fun popped => ∀ p, popped = .ok p → D.HoldsFrames p.2 :=
    .look (fun _ {_} _ _ => rfl) fun hc p hp => hc.frames.pop hp
  refine hpop.bind fun popped hpopped => ?_
  refine (Inside.check hpopped).bind fun p hp => ?_
  obtain ⟨frame, frames⟩ := p
  refine Inside.bind (.modify (fun _ _ => rfl) fun hc => { hc with frames := hp }) fun _ _ => ?_
  exact moveResults_inside first frame.func count frame.results

theorem spliceTailCall_inside : spliceTailCall.Inside D fun _ => True := by
  refine Inside.currentFrame.bind fun callee hcallee => ?_
  refine (Inside.lookAt fun _ _ => rfl).bind fun caller _ => ?_
  cases caller with
  | none => exact .abort _
  | some caller =>
    dsimp only
    split
    · next r hr =>
      refine (Inside.lookAt fun _ _ => rfl).bind fun proto _ => ?_
      refine (Inside.closeUpvalues caller.base).bind fun _ _ => ?_
      refine (Inside.check fun _ _ => trivial).bind fun moved _ => ?_
      refine (Inside.onStack fun hs ht => hs.copyDown ht).bind fun _ _ => ?_
      refine (Inside.check fun _ _ => trivial).bind fun offset _ => ?_
      refine (Inside.lookAt fun _ _ => rfl).bind fun top _ => ?_
      refine (Inside.check fun _ _ => trivial).bind fun height _ => ?_
      refine (Inside.setTop _).bind fun _ _ => ?_
      refine (Inside.onFrames fun hs ht => hs.collapse ?_ ht).bind fun _ _ => ?_
      · exact fun r' hr' => hcallee r' (hr.trans hr')
      · exact .ite (fun _ => .abort _) fun _ => .pure trivial
    · exact .abort _

theorem unwind_inside (e : LuaError) (site : CallSite) :
    (unwind e site).Inside D fun _ => True := by
  refine (Inside.lookAt fun _ _ => rfl).bind fun above _ => ?_
  refine (Inside.check fun _ _ => trivial).bind fun frames _ => ?_
  refine (Inside.lookAt fun _ _ => rfl).bind fun e _ => ?_
  refine (Inside.closeUpvalues site.func).bind fun _ _ => ?_
  refine Inside.bind (.modify (fun _ _ => rfl) fun hc => ?_) fun _ _ => .pure trivial
  exact { hc with frames := hc.frames.truncate site.depth }

theorem failCall_inside (e : LuaError) (site : CallSite) :
    (failCall e site).Inside D fun _ => True :=
  Inside.bind (.modify (fun _ _ => rfl) fun hc => { hc with }) fun _ _ => unwind_inside e site

/-- Enters the function of a call from the host. -/
theorem enterFresh_inside (func : Nat) (results : ResultCount) : (do
    precall func results false
    Exec.modifyFrame fun f => { f with status := { f.status with fresh := true } } :
      Exec Unit).Inside D fun _ => True :=
  (precall_inside func results false).bind fun _ _ => .modifyFrame fun _ => rfl

theorem beginCall_inside (func : Nat) (results : ResultCount) :
    (beginCall func results).Inside D fun _ => True := by
  have hcounted : ∀ {vm : Vm}, D.Closed vm → D.Closed { vm with hostCalls := vm.hostCalls + 1 } :=
    fun hc => { hc with }
  -- The call counts before its function is entered, and a failure to enter it is that of a counted
  -- call.
  refine .of_closed (fun hd {vm} hc hooks => ?_) fun {vm after} hc ha => ?_
  · have hagrees := (enterFresh_inside func results).agrees hd (hcounted hc) hooks
    unfold beginCall
    dsimp only
    split
    · rfl
    · simp only [hagrees]
      cases hx : (do
          precall func results false
          Exec.modifyFrame fun f =>
            { f with status := { f.status with fresh := true } } : Exec Unit)
          { vm with hostCalls := vm.hostCalls + 1 } with
      | returned _ mid => rfl
      | aborted why => rfl
      | raised e mid =>
        have hmid := (enterFresh_inside func results).raised (hcounted hc) hx
        simp only [Outcome.withHooks, (failCall_inside e _).agrees hd hmid hooks]
        cases failCall e { depth := vm.frames.depth, func } mid <;> rfl
  · unfold beginCall at ha
    dsimp only at ha
    split_ifs at ha
    · cases ha
      exact hc
    · split at ha
      · next mid hm =>
        cases ha
        exact ((enterFresh_inside func results).returned (hcounted hc) hm).2
      · next e mid hm =>
        have hmid := (enterFresh_inside func results).raised (hcounted hc) hm
        refine (failCall_inside e ⟨vm.frames.depth, func⟩).closed hmid ?_
        split at ha <;> cases ha
        · next hf => rw [hf]; rfl
        · next hf => rw [hf]; rfl
      · cases ha

end Vm

end LuaMachine
