import LuaMachine.Machine.Run
import LuaMachine.Proofs.ActiveFrames
import LuaMachine.Proofs.Outcome

/-!
# Where an instruction fails

The position of a frame is moved past an instruction when it is fetched, and some instructions move
it further: jumps, and those that take up the word behind them. None of them can fail after that. So
an error finds the current frame just past the instruction that it executes, and so does a call that
an instruction asks for.
-/
namespace LuaMachine

/-- The position of the current frame. -/
def Vm.position (vm : Vm) : Nat := vm.frames.current.pc

namespace Exec
variable {α β : Type} {x : Exec α} {f : α → Exec β}

/-- An error has no trace yet. It leaves the position alone, and so does a result in `A`. -/
structure Stands (A : α → Prop) (x : Exec α) : Prop where
  returned : ∀ {vm after : Vm} {a : α}, x vm = .returned a after → A a →
    after.position = vm.position
  raised : ∀ {vm after : Vm} {e : LuaError}, x vm = .raised e after →
    e.trace = #[] ∧ after.position = vm.position

/-- There is no error, and every result is in `P`. -/
structure Only (P : α → Prop) (x : Exec α) : Prop where
  returned : ∀ {vm after : Vm} {a : α}, x vm = .returned a after → P a
  raised : ∀ {vm after : Vm} {e : LuaError}, x vm ≠ .raised e after

/-- There is no error, and the position is left alone. -/
structure Quiet (x : Exec α) : Prop where
  returned : ∀ {vm after : Vm} {a : α}, x vm = .returned a after → after.position = vm.position
  raised : ∀ {vm after : Vm} {e : LuaError}, x vm ≠ .raised e after

theorem Quiet.stands {A : α → Prop} (h : x.Quiet) : x.Stands A :=
  ⟨fun hx _ => h.returned hx, fun hx => absurd hx h.raised⟩

theorem Quiet.only (h : x.Quiet) : x.Only fun _ => True :=
  ⟨fun _ => trivial, h.raised⟩

section Stands
variable {A : β → Prop}

/-- The first part leaves the position alone where the second part may still fail. -/
theorem Stands.bind {B : α → Prop} (hx : x.Stands B) (hf : ∀ a, B a → (f a).Stands A)
    (hg : ∀ a, ¬ B a → (f a).Only fun b => ¬ A b) : (x >>= f).Stands A := by
  constructor
  · intro vm after b h hb
    obtain ⟨a, mid, ha, hfa⟩ := bind_eq_returned_iff.mp h
    by_cases hB : B a
    · exact ((hf a hB).returned hfa hb).trans (hx.returned ha hB)
    · exact absurd hb ((hg a hB).returned hfa)
  · intro vm after e h
    rcases bind_eq_raised_iff.mp h with he | ⟨a, mid, ha, hfa⟩
    · exact hx.raised he
    · by_cases hB : B a
      · obtain ⟨htrace, hpos⟩ := (hf a hB).raised hfa
        exact ⟨htrace, hpos.trans (hx.returned ha hB)⟩
      · exact absurd hfa (hg a hB).raised

theorem Stands.andThen (hx : x.Stands fun _ => True) (hf : ∀ a, (f a).Stands A) :
    (x >>= f).Stands A :=
  hx.bind (fun a _ => hf a) fun _ h => absurd trivial h

theorem Quiet.andThen (hx : x.Quiet) (hf : ∀ a, (f a).Stands A) : (x >>= f).Stands A :=
  hx.stands.andThen hf

/-- What comes last may move the position. -/
theorem Only.stands {P : α → Prop} {A : α → Prop} (h : x.Only P) (hp : ∀ a, P a → ¬ A a) :
    x.Stands A :=
  ⟨fun hx ha => absurd ha (hp _ (h.returned hx)), fun hx => absurd hx h.raised⟩

theorem Stands.mono {A B : α → Prop} (h : x.Stands A) (hab : ∀ a, B a → A a) : x.Stands B :=
  ⟨fun hx hb => h.returned hx (hab _ hb), h.raised⟩

theorem Stands.raise {A : α → Prop} (c : Cause) : (raise c : Exec α).Stands A :=
  ⟨nofun, fun h => by cases h; exact ⟨rfl, rfl⟩⟩

theorem Stands.ite {A : α → Prop} {c : Prop} [Decidable c] {y : Exec α} (hx : x.Stands A)
    (hy : y.Stands A) : (if c then x else y).Stands A := by
  split <;> assumption

end Stands

section Unrecorded

/-- An error has no trace yet. -/
def Unrecorded (x : Exec α) : Prop :=
  ∀ vm after e, x vm = .raised e after → e.trace = #[]

theorem Stands.unrecorded {A : α → Prop} (h : x.Stands A) : x.Unrecorded :=
  fun _ _ _ hx => (h.raised hx).1

theorem Only.unrecorded {P : α → Prop} (h : x.Only P) : x.Unrecorded :=
  fun _ _ _ hx => absurd hx h.raised

theorem Quiet.unrecorded (h : x.Quiet) : x.Unrecorded := fun _ _ _ hx => absurd hx h.raised

theorem Unrecorded.bind (hx : x.Unrecorded) (hf : ∀ a, (f a).Unrecorded) :
    (x >>= f).Unrecorded := by
  intro vm after e h
  rcases bind_eq_raised_iff.mp h with he | ⟨a, mid, ha, hfa⟩
  · exact hx vm after e he
  · exact hf a mid after e hfa

theorem Unrecorded.ite {c : Prop} [Decidable c] {y : Exec α} (hx : x.Unrecorded)
    (hy : y.Unrecorded) : (if c then x else y).Unrecorded := by
  split
  · exact hx
  · exact hy

end Unrecorded

section Only

theorem Only.bind {P : α → Prop} {Q : β → Prop} (hx : x.Only P) (hf : ∀ a, P a → (f a).Only Q) :
    (x >>= f).Only Q := by
  constructor
  · intro vm after b h
    obtain ⟨a, mid, ha, hfa⟩ := bind_eq_returned_iff.mp h
    exact (hf a (hx.returned ha)).returned hfa
  · intro vm after e h
    rcases bind_eq_raised_iff.mp h with he | ⟨a, mid, ha, hfa⟩
    · exact hx.raised he
    · exact (hf a (hx.returned ha)).raised hfa

theorem Only.andThen {Q : β → Prop} (hx : x.Only fun _ => True) (hf : ∀ a, (f a).Only Q) :
    (x >>= f).Only Q :=
  hx.bind fun a _ => hf a

theorem Quiet.thenOnly {Q : β → Prop} (hx : x.Quiet) (hf : ∀ a, (f a).Only Q) : (x >>= f).Only Q :=
  hx.only.andThen hf

theorem Only.pure {P : α → Prop} {a : α} (h : P a) : (Pure.pure a : Exec α).Only P :=
  ⟨fun hx => by cases hx; exact h, nofun⟩

theorem Only.modify (g : Vm → Vm) : (modify g).Only fun _ => True :=
  ⟨fun _ => trivial, nofun⟩

theorem Only.ite {P : α → Prop} {c : Prop} [Decidable c] {y : Exec α} (hx : x.Only P)
    (hy : y.Only P) : (if c then x else y).Only P := by
  split <;> assumption

end Only

section Quiet

theorem Quiet.bind (hx : x.Quiet) (hf : ∀ a, (f a).Quiet) : (x >>= f).Quiet := by
  constructor
  · intro vm after b h
    obtain ⟨a, mid, ha, hfa⟩ := bind_eq_returned_iff.mp h
    exact ((hf a).returned hfa).trans (hx.returned ha)
  · intro vm after e h
    rcases bind_eq_raised_iff.mp h with he | ⟨a, mid, ha, hfa⟩
    · exact hx.raised he
    · exact (hf a).raised hfa

theorem Quiet.pure (a : α) : (Pure.pure a : Exec α).Quiet :=
  ⟨fun h => by cases h; rfl, nofun⟩

theorem Quiet.look (g : Vm → α) : (look g).Quiet :=
  ⟨fun h => by cases h; rfl, nofun⟩

theorem Quiet.modify {g : Vm → Vm} (hg : ∀ vm, (g vm).position = vm.position) : (modify g).Quiet :=
  ⟨fun h => by cases h; exact hg _, nofun⟩

theorem Quiet.abort (why : Abort) : (abort why : Exec α).Quiet :=
  ⟨nofun, nofun⟩

theorem Quiet.malformed (m : Malformed) : (malformed m : Exec α).Quiet := Quiet.abort _

theorem Quiet.check (c : Checked α) : (check c).Quiet := by
  cases c with
  | ok a => exact Quiet.pure a
  | error why => exact Quiet.abort why

theorem Quiet.ite {c : Prop} [Decidable c] {y : Exec α} (hx : x.Quiet) (hy : y.Quiet) :
    (if c then x else y).Quiet := by
  split <;> assumption

theorem onStack_quiet (g : RegisterStack → Checked RegisterStack) : (onStack g).Quiet := by
  constructor
  · intro vm after a h
    unfold onStack at h
    dsimp only at h
    split at h <;> cases h
    rfl
  · intro vm after e h
    unfold onStack at h
    dsimp only at h
    split at h <;> cases h

theorem getSlot_quiet (slot : Nat) : (getSlot slot).Quiet := by
  constructor
  · intro vm after a h
    unfold getSlot at h
    split at h <;> cases h
    rfl
  · intro vm after e h
    unfold getSlot at h
    split at h <;> cases h

theorem setSlot_quiet (slot : Nat) (v : Value) : (setSlot slot v).Quiet := onStack_quiet _

theorem setTop_quiet (top : Nat) : (setTop top).Quiet := Quiet.modify fun _ => rfl

theorem closeUpvalues_quiet (level : Nat) : (closeUpvalues level).Quiet := Quiet.modify fun _ => rfl

theorem newTable_quiet : newTable.Quiet :=
  ⟨fun h => by cases h; rfl, nofun⟩

theorem newClosure_quiet (c : Closure) : (newClosure c).Quiet :=
  ⟨fun h => by cases h; rfl, nofun⟩

theorem captureSlot_quiet (slot : Nat) : (captureSlot slot).Quiet :=
  ⟨fun h => by cases h; rfl, nofun⟩

/-- A stack that cannot grow is an error without consequences. -/
theorem ensure_stands (wanted : Nat) : (ensure wanted).Stands fun _ => True := by
  constructor
  · intro vm after a h _
    unfold ensure at h
    dsimp only at h
    split at h
    · cases h
      rfl
    · split at h <;> cases h
      rfl
  · intro vm after e h
    unfold ensure at h
    dsimp only at h
    split at h
    · cases h
    · split at h <;> cases h
      exact ⟨rfl, rfl⟩

theorem onFrames_only (g : CallStack → Checked CallStack) : (onFrames g).Only fun _ => True := by
  refine ⟨fun _ => trivial, ?_⟩
  intro vm after e h
  unfold onFrames at h
  dsimp only at h
  split at h <;> cases h

end Quiet

end Exec

namespace Vm

open Exec (Stands Only Quiet Unrecorded)

/-! ## Operands and operations -/

section Operands

theorem fetch_quiet (p : Prototype) (pc : Nat) : (fetch p pc).Quiet := by
  unfold fetch
  split
  · exact Quiet.pure _
  · exact Quiet.malformed _

theorem fetchExpected_quiet (p : Prototype) (pc : Nat) (op : Opcode) :
    (fetchExpected p pc op).Quiet :=
  (fetch_quiet p pc).bind fun _ => Quiet.ite (Quiet.pure _) (Quiet.malformed _)

theorem constantAt_quiet (p : Prototype) (index : Nat) : (constantAt p index).Quiet := by
  unfold constantAt
  split
  · exact Quiet.pure _
  · exact Quiet.malformed _

theorem operandValue_quiet (x : Activation) (operand : Nat) : (operandValue x operand).Quiet :=
  Quiet.ite (constantAt_quiet _ _) (Exec.getSlot_quiet _)

theorem upvalueAt_quiet (c : Closure) (index : Nat) : (upvalueAt c index).Quiet := by
  unfold upvalueAt
  split
  · exact Quiet.pure _
  · exact Quiet.malformed _

theorem readUpvalue_quiet (c : Closure) (index : Nat) : (readUpvalue c index).Quiet :=
  (upvalueAt_quiet c index).bind fun _ => Quiet.look _

theorem writeUpvalue_quiet (r : CellRef) (v : Value) : (writeUpvalue r v).Quiet := by
  constructor
  · intro vm after a h
    unfold writeUpvalue at h
    split at h <;> cases h <;> rfl
  · intro vm after e h
    unfold writeUpvalue at h
    split at h <;> cases h

theorem loopControl_quiet (ra : Nat) : (loopControl ra).Quiet :=
  (Exec.getSlot_quiet _).bind fun _ => (Exec.getSlot_quiet _).bind fun _ =>
    (Exec.getSlot_quiet _).bind fun _ => Quiet.pure _

theorem settle_stands {α : Type} (c : Except Cause α) : (settle c).Stands fun _ => True := by
  cases c with
  | ok a => exact (Quiet.pure a).stands
  | error e => exact Stands.raise e

theorem consult_quiet (event : String) (args : List Value) : (consult event args).Quiet := by
  constructor
  · intro vm after a h
    unfold consult at h
    split at h <;> cases h <;> rfl
  · intro vm after e h
    unfold consult at h
    split at h <;> cases h

theorem binaryHook_quiet (name event : String) (lhs rhs : Value) :
    (binaryHook name event lhs rhs).Quiet :=
  (consult_quiet _ _).bind fun _ => Quiet.look _

theorem callHandler?_quiet (v : Value) : (callHandler? v).Quiet :=
  (consult_quiet _ _).bind fun _ => Quiet.look _

theorem markSwapped_quiet (waiting : Bool) : (markSwapped waiting).Quiet :=
  Quiet.modify fun vm => by simp [position]

end Operands

section Operations

theorem index_stands (obj key : Value) : (index obj key).Stands fun _ => True := by
  refine (Quiet.look _).andThen fun own => ?_
  refine Stands.ite (Quiet.pure _).stands ?_
  refine (consult_quiet _ _).andThen fun _ => (Quiet.look _).andThen fun found => ?_
  refine (settle_stands found).andThen fun reply => ?_
  split
  · exact (Quiet.pure _).stands
  · exact Stands.ite (Quiet.pure _).stands (Stands.raise _)

theorem rawAssign_stands (r : TableRef) (key value : Value) :
    (rawAssign r key value).Stands fun _ => True := by
  unfold rawAssign
  split
  · exact Quiet.stands (Quiet.modify fun _ => rfl)
  · exact Stands.raise _

theorem newIndex_stands (obj key value : Value) :
    (newIndex obj key value).Stands fun _ => True := by
  have hassign : ∀ r,
      (rawAssign r key value >>= fun _ => pure (.done ()) : Exec (Reply Unit)).Stands
        fun _ => True :=
    fun r => (rawAssign_stands r key value).andThen fun _ => (Quiet.pure _).stands
  refine (Quiet.look _).andThen fun own => ?_
  split
  · exact hassign _
  · refine (consult_quiet _ _).andThen fun _ => (Quiet.look _).andThen fun found => ?_
    refine (settle_stands found).andThen fun assignment => ?_
    split
    · exact hassign _
    · exact (Quiet.pure _).stands
    · split
      · exact hassign _
      · exact Stands.raise _

theorem arith_stands (op : ArithOp) (lhs rhs : Value) :
    (arith op lhs rhs).Stands fun _ => True := by
  refine (settle_stands _).andThen fun result => ?_
  split
  · exact (Quiet.pure _).stands
  · refine (binaryHook_quiet _ _ _ _).andThen fun handler => ?_
    split
    · exact (Quiet.pure _).stands
    · exact Stands.raise _

theorem length_stands (v : Value) : (length v).Stands fun _ => True := by
  unfold length
  split
  · exact (Quiet.pure _).stands
  · refine (consult_quiet _ _).andThen fun _ => (Quiet.look _).andThen fun handler => ?_
    refine Stands.ite (Quiet.pure _).stands ?_
    refine (Quiet.look _).andThen fun length => ?_
    split
    · exact (Quiet.pure _).stands
    · exact Stands.raise _

theorem equal_stands (lhs rhs : Value) : (equal lhs rhs).Stands fun _ => True := by
  refine Stands.ite (Quiet.pure _).stands ?_
  refine (binaryHook_quiet _ _ _ _).andThen fun handler => ?_
  split <;> exact (Quiet.pure _).stands

theorem lessThan_stands (lhs rhs : Value) : (lessThan lhs rhs).Stands fun _ => True := by
  unfold lessThan
  split
  · exact (Quiet.pure _).stands
  · refine (binaryHook_quiet _ _ _ _).andThen fun handler => ?_
    split
    · exact (Quiet.pure _).stands
    · exact Stands.raise _

theorem lessEqual_stands (lhs rhs : Value) : (lessEqual lhs rhs).Stands fun _ => True := by
  unfold lessEqual
  split
  · exact (Quiet.pure _).stands
  · refine (binaryHook_quiet _ _ _ _).andThen fun handler => ?_
    split
    · exact (Quiet.pure _).stands
    · refine (markSwapped_quiet true).andThen fun _ => ?_
      refine (binaryHook_quiet _ _ _ _).andThen fun swapped => ?_
      split
      · exact (Quiet.pure _).stands
      · exact (markSwapped_quiet false).andThen fun _ => Stands.raise _

theorem concatRound_stands (reversed : List Value) :
    (concatRound reversed).Stands fun _ => True := by
  unfold concatRound
  split
  · exact (Quiet.pure _).stands
  · refine (binaryHook_quiet _ _ _ _).andThen fun handler => ?_
    split
    · exact (Quiet.pure _).stands
    · exact Stands.raise _

end Operations

/-! ## Ends of instructions -/

section Ends

theorem jump_only (offset : Int) : (jump offset).Only fun _ => True := Only.modify _

theorem conditionalJump_only (p : Prototype) (base : Nat) (condition : Bool) :
    (conditionalJump p base condition).Only fun _ => True := by
  refine Only.ite ?_ (jump_only 1)
  refine (Quiet.look _).thenOnly fun frame =>
    (fetchExpected_quiet p frame.pc .jmp).thenOnly fun next => ?_
  refine Only.andThen ?_ fun _ => jump_only _
  exact Only.ite (Only.pure trivial) (Only.modify _)

/-- The instruction asks for a call. -/
def Next.Asks (next : Next) : Prop := next ≠ .proceed

theorem Next.asks_invoke (handler : Value) (args : List Value) (k : Resume) :
    (invoke handler args k).Asks := by
  rintro ⟨⟩

theorem Next.asks_callAt (func : Nat) (results : ResultCount) (k : Resume) :
    (callAt func results k).Asks := by
  rintro ⟨⟩

theorem proceed_only : (pure .proceed : Exec Next).Only fun next => ¬ next.Asks :=
  Only.pure fun h => h rfl

theorem storeReply_stands (slot : Nat) (reply : Reply Value) :
    (storeReply slot reply).Stands Next.Asks := by
  cases reply with
  | done v => exact (Exec.setSlot_quiet slot v).andThen fun _ => (Quiet.pure _).stands
  | call handler args => exact (Quiet.pure _).stands

theorem testVerdict_stands (x : Activation) (verdict : Verdict) :
    (testVerdict x verdict).Stands Next.Asks := by
  cases verdict with
  | decided answer =>
    exact ((conditionalJump_only _ _ _).andThen fun _ => proceed_only).stands fun _ h => h
  | ask negated handler args => exact (Quiet.pure _).stands

theorem storeConcat_stands (slot : Nat) (reversed : List Value) :
    (storeConcat slot reversed).Stands Next.Asks := by
  refine (concatRound_stands reversed).andThen fun reply => ?_
  cases reply with
  | done v => exact (Exec.setSlot_quiet slot v).andThen fun _ => (Quiet.pure _).stands
  | call handler args rest => exact (Quiet.pure _).stands

theorem genericLoop_only (ra : Nat) (offset : Int) :
    (genericLoop ra offset).Only fun _ => True := by
  refine (Exec.getSlot_quiet _).thenOnly fun control => ?_
  exact Only.ite ((Exec.setSlot_quiet _ _).thenOnly fun _ => jump_only offset) (Only.pure trivial)

theorem resetTop_quiet : resetTop.Quiet := (Quiet.look _).bind fun _ => Exec.setTop_quiet _

end Ends

/-! ## Calls -/

section Calls

theorem adjustVarargs_quiet (paramCount argCount : Nat) :
    (adjustVarargs paramCount argCount).Quiet := by
  refine (Quiet.look _).bind fun base => (Quiet.check _).bind fun fixed => ?_
  refine (Exec.onStack_quiet _).bind fun _ => (Exec.onStack_quiet _).bind fun _ => ?_
  exact (Exec.setTop_quiet _).bind fun _ => Quiet.pure _

/-- The frame of a call is entered last. -/
theorem enterFrame_stands (r : ClosureRef) (func : Nat) (results : ResultCount) (tailCall : Bool) :
    (enterFrame r func results tailCall).Stands fun _ => False := by
  have hpush : ∀ g : Vm → Vm, (Exec.modify g).Stands fun _ => False :=
    fun g => (Only.modify g).stands fun _ _ h => h
  refine (Quiet.look _).andThen fun proto => (Quiet.look _).andThen fun maxDepth => ?_
  refine (Quiet.check _).andThen fun limit => (Quiet.look _).andThen fun depth => ?_
  have henter : (do
      let top ← Exec.look (·.top)
      Exec.ensure (top + proto.maxStackSize)
      let argCount ← Exec.check (Checked.sub top (func + 1))
      let base ←
        if proto.isVararg then adjustVarargs proto.paramCount argCount
        else do
          Exec.onStack (·.fillNil top (proto.paramCount - argCount))
          pure (func + 1)
      let frameTop := base + proto.maxStackSize
      let frame : Frame := {
        closure := some r, func, base, top := frameTop, pc := 0, results,
        status := { lua := true } }
      Exec.modify fun vm => { vm with frames := vm.frames.push frame, top := frameTop } :
        Exec Unit).Stands fun _ => False := by
    refine (Quiet.look _).andThen fun top => (Exec.ensure_stands _).andThen fun _ => ?_
    refine (Quiet.check _).andThen fun argCount => ?_
    refine Stands.ite ?_ ?_
    · exact (adjustVarargs_quiet _ _).andThen fun base => hpush _
    · exact (Exec.onStack_quiet _).andThen fun _ => (Quiet.pure _).andThen fun base => hpush _
  refine Stands.ite ((Stands.raise _).andThen fun _ => ?_) henter
  exact henter

theorem tryEnter_stands (func : Nat) (results : ResultCount) (tailCall : Bool) :
    (tryEnter func results tailCall).Stands fun handler => handler.isSome := by
  refine (Exec.getSlot_quiet func).andThen fun v => ?_
  split
  · exact (enterFrame_stands _ func results tailCall).bind (fun _ h => h.elim) fun _ _ =>
      Only.pure (by simp)
  · exact Stands.raise _
  · refine (callHandler?_quiet v).andThen fun handler => ?_
    cases handler with
    | some handler => exact (Quiet.pure _).stands
    | none => exact Stands.raise _

theorem insertHandler_stands (func : Nat) (handler : Value) :
    (insertHandler func handler).Stands fun _ => True := by
  refine (Quiet.look _).andThen fun top => (Exec.ensure_stands _).andThen fun _ => ?_
  exact (Exec.onStack_quiet _).andThen fun _ => (Exec.setTop_quiet _).stands

theorem enterFunction_stands (func : Nat) (results : ResultCount) (tailCall : Bool) (room : Nat) :
    (enterFunction func results tailCall room).Stands fun _ => False := by
  have hentered : ∀ handler : Option Value, ¬ handler.isSome → handler = none := by simp
  induction room with
  | zero =>
    refine (tryEnter_stands func results tailCall).bind (fun handler hs => ?_) fun handler hn => ?_
    · obtain ⟨handler, rfl⟩ := Option.isSome_iff_exists.mp hs
      exact Stands.raise _
    · rw [hentered handler hn]
      exact Only.pure id
  | succ room ih =>
    refine (tryEnter_stands func results tailCall).bind (fun handler hs => ?_) fun handler hn => ?_
    · obtain ⟨handler, rfl⟩ := Option.isSome_iff_exists.mp hs
      exact (insertHandler_stands func handler).andThen fun _ => ih
    · rw [hentered handler hn]
      exact Only.pure id

theorem precall_stands (func : Nat) (results : ResultCount) (tailCall : Bool) :
    (precall func results tailCall).Stands fun _ => False :=
  (Quiet.look _).andThen fun room => enterFunction_stands func results tailCall room

theorem moveResults_stands (first target count : Nat) (results : ResultCount) :
    (moveResults first target count results).Stands fun _ => True := by
  unfold moveResults
  split
  · exact ((Exec.setTop_quiet _).bind fun _ => Quiet.pure _).stands
  · have hstore : ∀ v, (do
        Exec.setSlot target v
        Exec.setTop (target + 1)
        return true : Exec Bool).Quiet :=
      fun v => (Exec.setSlot_quiet _ v).bind fun _ => (Exec.setTop_quiet _).bind fun _ =>
        Quiet.pure _
    exact (Quiet.ite ((Quiet.pure _).bind hstore) ((Exec.getSlot_quiet _).bind hstore)).stands
  · refine (Quiet.check _).andThen fun bound => (Exec.ensure_stands _).andThen fun _ => ?_
    refine (Exec.onStack_quiet _).andThen fun _ => (Exec.onStack_quiet _).andThen fun _ => ?_
    exact ((Exec.setTop_quiet _).bind fun _ => Quiet.pure _).stands
  · exact ((Exec.onStack_quiet _).bind fun _ => (Exec.setTop_quiet _).bind fun _ =>
      Quiet.pure _).stands

theorem push_stands (v : Value) : (push v).Stands fun _ => True := by
  refine (Quiet.look _).andThen fun top => (Exec.ensure_stands _).andThen fun _ => ?_
  exact ((Exec.setSlot_quiet _ _).bind fun _ => Exec.setTop_quiet _).stands

theorem pushAll_stands (vs : List Value) : (pushAll vs).Stands fun _ => True := by
  induction vs with
  | nil => exact (Quiet.pure _).stands
  | cons v vs ih => exact (push_stands v).andThen fun _ => ih

end Calls

/-! ## The instructions -/

section Instructions
variable (x : Activation)

theorem opMove_quiet : (opMove x).Quiet :=
  (Exec.getSlot_quiet _).bind fun _ => Exec.setSlot_quiet _ _

theorem opLoadK_quiet : (opLoadK x).Quiet :=
  (constantAt_quiet _ _).bind fun _ => Exec.setSlot_quiet _ _

theorem opLoadKX_only : (opLoadKX x).Only fun _ => True := by
  refine (fetchExpected_quiet _ _ _).thenOnly fun extra => (Only.modify _).andThen fun _ => ?_
  exact ((constantAt_quiet _ _).bind fun _ => Exec.setSlot_quiet _ _).only

theorem opLoadBool_only : (opLoadBool x).Only fun _ => True :=
  (Exec.setSlot_quiet _ _).thenOnly fun _ => Only.ite (jump_only 1) (Only.pure trivial)

theorem opGetUpval_quiet : (opGetUpval x).Quiet :=
  (readUpvalue_quiet _ _).bind fun _ => Exec.setSlot_quiet _ _

theorem opGetTabUp_stands : (opGetTabUp x).Stands Next.Asks := by
  refine (readUpvalue_quiet _ _).andThen fun obj => (operandValue_quiet _ _).andThen fun key => ?_
  exact (index_stands obj key).andThen fun reply => storeReply_stands _ reply

theorem opGetTable_stands : (opGetTable x).Stands Next.Asks := by
  refine (Exec.getSlot_quiet _).andThen fun obj => (operandValue_quiet _ _).andThen fun key => ?_
  exact (index_stands obj key).andThen fun reply => storeReply_stands _ reply

theorem assignOperands_stands (obj : Value) : (assignOperands x obj).Stands Next.Asks := by
  refine (operandValue_quiet _ _).andThen fun key =>
    (operandValue_quiet _ _).andThen fun value => ?_
  refine (newIndex_stands obj key value).andThen fun reply => ?_
  cases reply <;> exact (Quiet.pure _).stands

theorem opSetTabUp_stands : (opSetTabUp x).Stands Next.Asks :=
  (readUpvalue_quiet _ _).andThen fun obj => assignOperands_stands x obj

theorem opSetTable_stands : (opSetTable x).Stands Next.Asks :=
  (Exec.getSlot_quiet _).andThen fun obj => assignOperands_stands x obj

theorem opSetUpval_quiet : (opSetUpval x).Quiet :=
  (Exec.getSlot_quiet _).bind fun v => (upvalueAt_quiet _ _).bind fun r => writeUpvalue_quiet r v

theorem opNewTable_quiet : (opNewTable x).Quiet :=
  Exec.newTable_quiet.bind fun _ => Exec.setSlot_quiet _ _

theorem opSelf_stands : (opSelf x).Stands Next.Asks := by
  refine (Exec.getSlot_quiet _).andThen fun obj => (Exec.setSlot_quiet _ _).andThen fun _ => ?_
  refine (operandValue_quiet _ _).andThen fun key => ?_
  exact (index_stands obj key).andThen fun reply => storeReply_stands _ reply

theorem opArith_stands (op : ArithOp) : (opArith x op).Stands Next.Asks := by
  refine (operandValue_quiet _ _).andThen fun lhs => (operandValue_quiet _ _).andThen fun rhs => ?_
  exact (arith_stands op lhs rhs).andThen fun reply => storeReply_stands _ reply

theorem opUnary_stands (op : ArithOp) : (opUnary x op).Stands Next.Asks := by
  refine (Exec.getSlot_quiet _).andThen fun operand => ?_
  exact (arith_stands op operand operand).andThen fun reply => storeReply_stands _ reply

theorem opNot_quiet : (opNot x).Quiet :=
  (Exec.getSlot_quiet _).bind fun _ => Exec.setSlot_quiet _ _

theorem opLen_stands : (opLen x).Stands Next.Asks := by
  refine (Exec.getSlot_quiet _).andThen fun v => ?_
  exact (length_stands v).andThen fun reply => storeReply_stands _ reply

theorem opConcat_stands : (opConcat x).Stands Next.Asks := by
  refine (Quiet.look _).andThen fun slice => (Quiet.check _).andThen fun operands => ?_
  exact storeConcat_stands _ _

theorem opJmp_only : (opJmp x).Only fun _ => True :=
  Only.andThen (Only.ite (Only.pure trivial) (Only.modify _)) fun _ => jump_only _

theorem opCompare_stands {comparison : Value → Value → Exec Verdict}
    (h : ∀ lhs rhs, (comparison lhs rhs).Stands fun _ => True) :
    (opCompare x comparison).Stands Next.Asks := by
  refine (operandValue_quiet _ _).andThen fun lhs => (operandValue_quiet _ _).andThen fun rhs => ?_
  exact (h lhs rhs).andThen fun verdict => testVerdict_stands x verdict

theorem opTest_only : (opTest x).Only fun _ => True :=
  (Exec.getSlot_quiet _).thenOnly fun _ => conditionalJump_only _ _ _

theorem opTestSet_only : (opTestSet x).Only fun _ => True := by
  refine (Exec.getSlot_quiet _).thenOnly fun v => Only.ite ?_ (conditionalJump_only _ _ _)
  exact (Exec.setSlot_quiet _ _).thenOnly fun _ => conditionalJump_only _ _ _

theorem placeArguments_quiet : (placeArguments x).Quiet :=
  Quiet.ite (Quiet.pure _) (Exec.setTop_quiet _)

theorem opCall_stands : (opCall x).Stands fun _ => False :=
  (placeArguments_quiet x).andThen fun _ => precall_stands _ _ _

/-- A tail call that has entered its frame cannot fail. -/
theorem spliceTailCall_only : spliceTailCall.Only fun _ => True := by
  refine (Quiet.look _).thenOnly fun callee => (Quiet.look _).thenOnly fun caller? => ?_
  split
  · split
    · refine (Quiet.look _).thenOnly fun proto => (Exec.closeUpvalues_quiet _).thenOnly fun _ => ?_
      refine (Quiet.check _).thenOnly fun moved => (Exec.onStack_quiet _).thenOnly fun _ => ?_
      refine (Quiet.check _).thenOnly fun offset => (Quiet.look _).thenOnly fun top => ?_
      refine (Quiet.check _).thenOnly fun height => (Exec.setTop_quiet _).thenOnly fun _ => ?_
      exact (Exec.onFrames_only _).andThen fun _ =>
        Only.ite (Quiet.abort _).only (Only.pure trivial)
    · exact (Quiet.abort _).only
  · exact (Quiet.abort _).only

theorem opTailCall_stands : (opTailCall x).Stands fun _ => False := by
  refine (placeArguments_quiet x).andThen fun _ =>
    (precall_stands _ _ _).bind (fun _ h => h.elim) fun _ _ => ?_
  exact ⟨fun _ => id, spliceTailCall_only.raised⟩

/-- A return may fail when it has left its frame, but nothing has been recorded then. -/
theorem opReturn_unrecorded : (opReturn x).Unrecorded := by
  have hpostcall : ∀ count, (postcall x.ra count).Unrecorded := by
    intro count
    refine (Quiet.look _).unrecorded.bind fun popped =>
      (Quiet.check _).unrecorded.bind fun pair => ?_
    exact (Only.modify _).unrecorded.bind fun _ => (moveResults_stands _ _ _ _).unrecorded
  have hleave : ∀ count, (do
      let fresh := (← Exec.currentFrame).status.fresh
      let fixedResults ← postcall x.ra count
      if fresh then return .leave
      if fixedResults then resetTop
      return .next .proceed : Exec Action).Unrecorded := by
    intro count
    refine (Quiet.look _).unrecorded.bind fun frame => (hpostcall count).bind fun fixed => ?_
    have hproceed : (pure (.next .proceed) : Exec Action).Quiet := Quiet.pure _
    exact (Quiet.ite (Quiet.pure _)
      (Quiet.ite (resetTop_quiet.bind fun _ => hproceed) hproceed)).unrecorded
  refine (Exec.closeUpvalues_quiet _).unrecorded.bind fun _ => Unrecorded.ite ?_ ?_
  · exact (Quiet.look _).unrecorded.bind fun top => (Quiet.check _).unrecorded.bind hleave
  · exact (Quiet.pure _).unrecorded.bind hleave

theorem opForLoop_only : (opForLoop x).Only fun _ => True := by
  refine (loopControl_quiet _).thenOnly fun control => ?_
  split
  · exact Only.pure trivial
  · refine (jump_only _).andThen fun _ => ?_
    exact ((Exec.setSlot_quiet _ _).bind fun _ => Exec.setSlot_quiet _ _).only

theorem opForPrep_stands : (opForPrep x).Stands fun _ => False := by
  refine (loopControl_quiet _).andThen fun found => (settle_stands _).andThen fun control => ?_
  refine (Exec.setSlot_quiet _ _).andThen fun _ => (Exec.setSlot_quiet _ _).andThen fun _ => ?_
  exact (Exec.setSlot_quiet _ _).andThen fun _ => (jump_only _).stands fun _ _ h => h

theorem opTForCall_quiet : (opTForCall x).Quiet :=
  (Exec.onStack_quiet _).bind fun _ => (Exec.setTop_quiet _).bind fun _ => Quiet.pure _

theorem storeList_quiet (r : TableRef) (key slot count : Nat) :
    (storeList r key slot count).Quiet := by
  induction count generalizing key slot with
  | zero => exact Quiet.pure _
  | succ count ih =>
    refine (Exec.getSlot_quiet slot).bind fun v => ?_
    exact Quiet.bind (Quiet.modify fun _ => rfl) fun _ => ih (key + 1) (slot + 1)

theorem storeBlock_quiet (count block : Nat) : (storeBlock x count block).Quiet := by
  refine (Exec.getSlot_quiet _).bind fun v => ?_
  split
  · have hstore : ∀ r,
        (storeList r ((block - 1) * fieldsPerFlush + 1) (x.ra + 1) count >>= fun _ =>
          resetTop).Quiet :=
      fun r => (storeList_quiet r _ _ _).bind fun _ => resetTop_quiet
    exact Quiet.ite ((Quiet.malformed _).bind fun _ => hstore _) (hstore _)
  · exact Quiet.malformed _

theorem opSetList_only : (opSetList x).Only fun _ => True := by
  have hblock : ∀ count, (do
      let block ←
        if x.instr.c = 0 then do
          let extra ← fetchExpected x.proto (x.pc + 1) .extraArg
          Exec.modifyFrame fun f => { f with pc := f.pc + 1 }
          pure extra.ax
        else pure x.instr.c
      storeBlock x count block : Exec Unit).Only fun _ => True := by
    intro count
    refine Only.ite ?_ ((Quiet.pure _).bind (storeBlock_quiet x count)).only
    refine (fetchExpected_quiet _ _ _).thenOnly fun extra => (Only.modify _).andThen fun _ => ?_
    exact ((Quiet.pure _).bind (storeBlock_quiet x count)).only
  refine Only.ite ?_ ((Quiet.pure _).thenOnly hblock)
  refine (Quiet.look _).thenOnly fun top => ?_
  exact Only.ite ((Quiet.pure _).thenOnly hblock) ((Quiet.malformed _).thenOnly hblock)

theorem captureAll_quiet (sources : List UpvalueSource) : (captureAll x sources).Quiet := by
  induction sources with
  | nil => exact Quiet.pure _
  | cons source rest ih =>
    have hrest : ∀ r : CellRef, (captureAll x rest >>= fun refs => pure (r :: refs)).Quiet :=
      fun r => ih.bind fun _ => Quiet.pure _
    exact Quiet.ite ((Exec.captureSlot_quiet _).bind hrest) ((upvalueAt_quiet _ _).bind hrest)

theorem opClosure_quiet : (opClosure x).Quiet := by
  unfold opClosure
  split
  · exact Quiet.malformed _
  · refine (captureAll_quiet x _).bind fun refs => (Exec.newClosure_quiet _).bind fun r => ?_
    exact Exec.setSlot_quiet _ _

theorem opVararg_stands : (opVararg x).Stands fun _ => True := by
  refine (Quiet.look _).andThen fun frame => (Quiet.check _).andThen fun below => ?_
  have hcopy : ∀ wanted, (do
      let available := below - (x.proto.paramCount + 1)
      let copied := min wanted available
      Exec.onStack (·.copyDown (x.base - available) x.ra copied)
      Exec.onStack (·.fillNil (x.ra + copied) (wanted - copied)) : Exec Unit).Stands
        fun _ => True :=
    fun wanted => ((Exec.onStack_quiet _).bind fun _ => Exec.onStack_quiet _).stands
  refine Stands.ite ?_ ((Quiet.pure _).andThen hcopy)
  refine (Exec.ensure_stands _).andThen fun _ => (Exec.setTop_quiet _).andThen fun _ => ?_
  exact (Quiet.pure _).andThen hcopy

end Instructions

/-! ## Steps -/

section Steps
variable {x : Activation}

/-- The step asks for a call. -/
def Action.Asks : Action → Prop
  | .next n => n.Asks
  | .leave => False

theorem plain_stands {y : Exec Unit} (h : y.Stands fun _ => False) : (plain y).Stands Action.Asks :=
  h.bind (fun _ h => h.elim) fun _ _ => Only.pure fun h => h rfl

theorem plain_stands_of_only {y : Exec Unit} (h : y.Only fun _ => True) :
    (plain y).Stands Action.Asks :=
  (h.andThen fun _ => Only.pure fun h => h rfl).stands fun _ h => h

theorem hooked_stands {y : Exec Next} (h : y.Stands Next.Asks) : (hooked y).Stands Action.Asks :=
  h.bind (fun _ _ => (Quiet.pure _).stands) fun _ hn => Only.pure hn

/-- An instruction other than a return fails, or asks for a call, before it moves the position. -/
theorem execute_stands {op : Opcode} (hret : op ≠ .ret) : (execute x op).Stands Action.Asks := by
  cases op with
  | ret => exact absurd rfl hret
  | move => exact plain_stands (opMove_quiet x).stands
  | loadK => exact plain_stands (opLoadK_quiet x).stands
  | loadKX => exact plain_stands_of_only (opLoadKX_only x)
  | loadBool => exact plain_stands_of_only (opLoadBool_only x)
  | loadNil => exact plain_stands (Exec.onStack_quiet _).stands
  | getUpval => exact plain_stands (opGetUpval_quiet x).stands
  | getTabUp => exact hooked_stands (opGetTabUp_stands x)
  | getTable => exact hooked_stands (opGetTable_stands x)
  | setTabUp => exact hooked_stands (opSetTabUp_stands x)
  | setUpval => exact plain_stands (opSetUpval_quiet x).stands
  | setTable => exact hooked_stands (opSetTable_stands x)
  | newTable => exact plain_stands (opNewTable_quiet x).stands
  | self => exact hooked_stands (opSelf_stands x)
  | add | sub | mul | mod | pow | div | idiv | band | bor | bxor | shl | shr =>
    exact hooked_stands (opArith_stands x _)
  | unm | bnot => exact hooked_stands (opUnary_stands x _)
  | not => exact plain_stands (opNot_quiet x).stands
  | len => exact hooked_stands (opLen_stands x)
  | concat => exact hooked_stands (opConcat_stands x)
  | jmp => exact plain_stands_of_only (opJmp_only x)
  | eq => exact hooked_stands (opCompare_stands x equal_stands)
  | lt => exact hooked_stands (opCompare_stands x lessThan_stands)
  | le => exact hooked_stands (opCompare_stands x lessEqual_stands)
  | test => exact plain_stands_of_only (opTest_only x)
  | testSet => exact plain_stands_of_only (opTestSet_only x)
  | call => exact plain_stands (opCall_stands x)
  | tailCall => exact plain_stands (opTailCall_stands x)
  | forLoop => exact plain_stands_of_only (opForLoop_only x)
  | forPrep => exact plain_stands (opForPrep_stands x)
  | tforCall => exact hooked_stands (opTForCall_quiet x).stands
  | tforLoop => exact plain_stands_of_only (genericLoop_only _ _)
  | setList => exact plain_stands_of_only (opSetList_only x)
  | closure => exact plain_stands (opClosure_quiet x).stands
  | vararg => exact plain_stands ((opVararg_stands x).mono fun _ _ => trivial)
  | extraArg => exact (Quiet.malformed _).stands

/-- Fetching an instruction moves the position past it. -/
theorem position_of_beginStep {vm mid : Vm} (h : beginStep vm = .returned x mid) :
    mid.position = vm.position + 1 := by
  obtain ⟨r, instr, -, -, -, rfl⟩ := beginStep_eq_returned h
  simp [position]

theorem runningPrototype_quiet : runningPrototype.Quiet := by
  refine (Quiet.look _).bind fun frame => ?_
  cases frame.closure with
  | some r => exact Quiet.look _
  | none => exact Quiet.abort _

theorem resume_stands (k : Resume) (results : List Value) :
    (resume k results).Stands Next.Asks := by
  unfold resume
  cases k with
  | store slot => exact (Exec.setSlot_quiet _ _).andThen fun _ => (Quiet.pure _).stands
  | drop => exact (Quiet.pure _).stands
  | concat rest slot => exact storeConcat_stands _ _
  | test negated expected =>
    have hjump : (do
        let frame ← Exec.currentFrame
        let proto ← runningPrototype
        let answer := (results.headD .nil).isTruthy != negated
        conditionalJump proto frame.base (answer == expected)
        return .proceed : Exec Next).Stands Next.Asks := by
      refine (Quiet.look _).andThen fun frame => runningPrototype_quiet.andThen fun proto => ?_
      exact ((conditionalJump_only _ _ _).andThen fun _ => proceed_only).stands fun _ h => h
    exact Stands.ite ((markSwapped_quiet false).andThen fun _ => hjump) hjump
  | iterate =>
    refine resetTop_quiet.andThen fun _ => (Quiet.look _).andThen fun frame => ?_
    refine runningPrototype_quiet.andThen fun proto =>
      (fetchExpected_quiet _ _ _).andThen fun next => ?_
    refine ((Only.modify _).andThen fun _ => ?_).stands fun _ h => h
    exact (genericLoop_only _ _).andThen fun _ => proceed_only

end Steps

end Vm

/-- The continuation of an instruction fails, or asks for another call, before it moves the
position. -/
theorem Run.continueWith_stands (s : Suspended) : (continueWith s).Stands Vm.Next.Asks := by
  refine Exec.Quiet.andThen (Exec.Quiet.modify fun _ => rfl) fun _ => ?_
  refine Exec.Quiet.andThen ?_ fun results => Vm.resume_stands s.resume results
  unfold collect
  split
  · exact Exec.Quiet.pure _
  · refine (Exec.Quiet.look _).bind fun slice => (Exec.Quiet.check _).bind fun results => ?_
    exact (Exec.setTop_quiet _).bind fun _ => Exec.Quiet.pure _

end LuaMachine
