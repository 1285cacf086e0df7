import LuaMachine.Machine.Dispatch
import LuaMachine.Proofs.FloatValues
import LuaMachine.Proofs.Outcome

/-!
# Loops over integers

The reference loop compares its variable with the limit by exact value and lets it wrap around. A
prepared loop keeps an integer in place of the limit: the limit rounded, or one end of the range of
the integers, together with a start at zero if the loop must not run. `Stands` says that such an
integer leaves every test as it was. From this a round follows the reference loop if the one before
did, and the two instructions of a loop carry the rounds to the registers.
-/
namespace LuaMachine

namespace NumericLoop

/-! ## The reference loop -/

/-- The variable has gone past the limit in the direction of the step. -/
def Beyond (step : ℤ) (limit : WithBotTop ℚ) (var : ℤ) : Prop :=
  0 < step ∧ limit < ((var : ℚ) : WithBotTop ℚ) ∨ step < 0 ∧ ((var : ℚ) : WithBotTop ℚ) < limit

instance decidableBeyond (step : ℤ) (limit : WithBotTop ℚ) (var : ℤ) :
    Decidable (Beyond step limit var) :=
  inferInstanceAs (Decidable (_ ∨ _))

/-- The value that the variable has in a round, if the loop gets that far: it starts at `init`,
grows by `step` modulo `2 ^ 64` and leaves the loop as soon as it is beyond the limit. -/
def reference (init step : ℤ) (limit : WithBotTop ℚ) : ℕ → Option ℤ
  | 0 => if Beyond step limit init then none else some init
  | k + 1 => (reference init step limit k).bind fun var =>
    if Beyond step limit ((var + step).bmod (2 ^ 64)) then none
    else some ((var + step).bmod (2 ^ 64))

section Limits
variable {limit : Value} {step : Int64} {bound : WithBotTop ℚ}

theorem not_beyond_of_reference {init step var : ℤ} {k : ℕ}
    (h : reference init step bound k = some var) : ¬ Beyond step bound var := by
  cases k with
  | zero =>
    unfold reference at h
    split_ifs at h with hbeyond
    cases h
    exact hbeyond
  | succ k =>
    obtain ⟨last, -, h⟩ := Option.bind_eq_some_iff.mp h
    split_ifs at h with hbeyond
    cases h
    exact hbeyond

/-- The test of a round, against the limit as an integer. -/
def Passes (step limit var : Int64) : Prop := if 0 < step then var ≤ limit else limit ≤ var

instance decidablePasses (step limit var : Int64) : Decidable (Passes step limit var) :=
  inferInstanceAs (Decidable (ite _ _ _))

/-- An integer that stands for the limit. Unless the loop never runs, tests against it are tests
against the limit. If it never runs then everything is beyond the limit, and zero, from where it
starts, fails the test. -/
structure Stands (step last : Int64) (never : Bool) (bound : WithBotTop ℚ) : Prop where
  passes : never = false → ∀ var : Int64, Passes step last var ↔ ¬ Beyond step.toInt bound var.toInt
  beyond : never = true → ∀ var : Int64, Beyond step.toInt bound var.toInt
  stops : never = true → ¬ Passes step last 0

theorem toInt_step_cases (hstep : step ≠ 0) : step.toInt < 0 ∨ 0 < step.toInt := by
  have hzero : step.toInt ≠ 0 := fun h => hstep (Int64.toInt_inj.mp h)
  omega

theorem beyond_iff_of_pos {step var : ℤ} (h : 0 < step) :
    Beyond step bound var ↔ bound < ((var : ℚ) : WithBotTop ℚ) := by
  simp [Beyond, h, h.not_gt]

theorem beyond_iff_of_neg {step var : ℤ} (h : step < 0) :
    Beyond step bound var ↔ ((var : ℚ) : WithBotTop ℚ) < bound := by
  simp [Beyond, h, h.not_gt]

theorem passes_iff_of_pos {last var : Int64} (h : 0 < step.toInt) :
    Passes step last var ↔ var.toInt ≤ last.toInt := by
  have hpos : 0 < step := Int64.lt_iff_toInt_lt.mpr h
  rw [Passes, if_pos hpos, Int64.le_iff_toInt_le]

theorem passes_iff_of_neg {last var : Int64} (h : step.toInt < 0) :
    Passes step last var ↔ last.toInt ≤ var.toInt := by
  have hpos : ¬ 0 < step := fun hpos => h.not_gt (Int64.lt_iff_toInt_lt.mp hpos)
  rw [Passes, if_neg hpos, Int64.le_iff_toInt_le]

/-- Rounding the limit in the direction the loop comes from changes no test. -/
theorem stands_of_round {last : Int64} {r : ℚ} (hstep : step ≠ 0)
    (h : last.toInt = (if step < 0 then IntRounding.ceil else .floor).round r) :
    Stands step last false r := by
  refine ⟨fun _ var => ?_, by simp, by simp⟩
  have hsign : step < 0 ↔ step.toInt < 0 := Int64.lt_iff_toInt_lt
  rcases toInt_step_cases hstep with hneg | hpos
  · rw [if_pos (hsign.mpr hneg)] at h
    rw [passes_iff_of_neg hneg, beyond_iff_of_neg hneg, h, WithBotTop.coe_lt_coe, not_lt]
    exact Int.ceil_le
  · rw [if_neg (mt hsign.mp hpos.not_gt)] at h
    rw [passes_iff_of_pos hpos, beyond_iff_of_pos hpos, h, WithBotTop.coe_lt_coe, not_lt]
    exact Int.le_floor

/-- A limit above all integers ends no loop that counts up and starts none that counts down. -/
theorem stands_of_above (hstep : step ≠ 0) (h : ∀ n, intValue n < bound) :
    Stands step Int64.maxValue (step < 0) bound := by
  have hsign : step < 0 ↔ step.toInt < 0 := Int64.lt_iff_toInt_lt
  have hmax : Int64.maxValue.toInt = 2 ^ 63 - 1 := by decide
  simp only [hsign]
  rcases toInt_step_cases hstep with hneg | hpos
  · refine ⟨by simp [hneg], fun _ var => (beyond_iff_of_neg hneg).mpr (h var), fun _ => ?_⟩
    rw [passes_iff_of_neg hneg, hmax]
    decide
  · refine ⟨fun _ var => ?_, by simp [hpos.not_gt], by simp [hpos.not_gt]⟩
    have hlt := var.toInt_lt
    rw [passes_iff_of_pos hpos, beyond_iff_of_pos hpos, hmax]
    exact iff_of_true (by omega) (h var).not_gt

/-- A limit below all integers ends no loop that counts down and starts none that counts up. -/
theorem stands_of_below (hstep : step ≠ 0) (h : ∀ n, bound < intValue n) :
    Stands step Int64.minValue (0 ≤ step) bound := by
  have hsign : 0 ≤ step ↔ 0 ≤ step.toInt := Int64.le_iff_toInt_le
  have hmin : Int64.minValue.toInt = -2 ^ 63 := by decide
  simp only [hsign]
  rcases toInt_step_cases hstep with hneg | hpos
  · refine ⟨fun _ var => ?_, by simp [hneg.not_ge], by simp [hneg.not_ge]⟩
    rw [passes_iff_of_neg hneg, beyond_iff_of_neg hneg, hmin]
    exact iff_of_true var.le_toInt (h var).not_gt
  · refine ⟨by simp [hpos.le], fun _ var => (beyond_iff_of_pos hpos).mpr (h var), fun _ => ?_⟩
    rw [passes_iff_of_pos hpos, hmin]
    decide

/-- Every limit that is a number other than NaN has an integer that stands for it. -/
theorem intLimit?_stands (hstep : step ≠ 0)
    (hbound : limit.toNumber?.bind Number.value? = some bound) :
    ∃ last never, intLimit? limit step = some (last, never) ∧ Stands step last never bound := by
  obtain ⟨n, hn, hvalue⟩ := Option.bind_eq_some_iff.mp hbound
  have hmode : (if step < 0 then IntRounding.ceil else .floor) ≠ .exact := by split_ifs <;> simp
  simp only [intLimit?, hn, Option.map_some, Option.some.injEq]
  obtain ⟨c, r, hc, rfl, hround⟩ | ⟨hnone, hside, hsign⟩ := Number.toInt?_cases hmode hvalue
  · exact ⟨c, false, by rw [hc], stands_of_round hstep hround⟩
  · simp only [hnone, hsign]
    rcases hside with hside | hside
    · exact ⟨_, _, if_pos (hside 0), stands_of_above hstep hside⟩
    · exact ⟨_, _, if_neg (hside 0).not_gt, stands_of_below hstep hside⟩

end Limits

/-! ## Rounds of a prepared loop -/

/-- The control registers after a round. A loop that ends leaves them alone. -/
def Control.advance (c : Control) : Control := { c with index := (advance? c).getD c.index }

/-- The next round does what a reference loop does: it ends, or it goes on with the same
variable. -/
def Control.Follows (c : Control) (var : Option ℤ) : Prop :=
  var = none ∧ advance? c = none ∨ ∃ d : Int64, var = some d.toInt ∧ advance? c = some (.int d)

section Rounds
variable {init step last : Int64} {never : Bool} {bound : WithBotTop ℚ}

theorem advance?_int (index last step : Int64) : advance? ⟨.int index, .int last, .int step⟩ =
    if Passes step last (index + step) then some (.int (index + step)) else none := rfl

theorem follows_of_passes {index : Int64}
    (h : Passes step last (index + step) ↔ ¬ Beyond step.toInt bound (index + step).toInt) :
    Control.Follows ⟨.int index, .int last, .int step⟩
      (if Beyond step.toInt bound (index + step).toInt then none
        else some (index + step).toInt) := by
  rw [Control.Follows, advance?_int]
  split_ifs with hbeyond hpasses hpasses
  · exact absurd hbeyond (h.mp hpasses)
  · exact .inl ⟨rfl, rfl⟩
  · exact .inr ⟨_, rfl, rfl⟩
  · exact absurd (h.mpr hbeyond) hpasses

/-- The first round of a prepared loop is the first round of the reference loop. -/
theorem follows_prepared (h : Stands step last never bound) :
    Control.Follows ⟨.int ((if never then 0 else init) - step), .int last, .int step⟩
      (reference init.toInt step.toInt bound 0) := by
  have hcancel : ∀ n : Int64, n - step + step = n := fun n => Int64.sub_add_cancel n step
  cases never with
  | false =>
    have hfirst :=
      @follows_of_passes step last bound (init - step) (by rw [hcancel]; exact h.passes rfl init)
    rwa [hcancel] at hfirst
  | true =>
    refine .inl ⟨if_pos (h.beyond rfl init), ?_⟩
    rw [advance?_int, if_pos rfl, hcancel, if_neg (h.stops rfl)]

/-- If a round follows the reference loop then so does the next one. A reference loop that goes on
shows that the limit was not one of those that no loop can reach. -/
theorem follows_advance {index : Int64} {k : ℕ} (h : Stands step last never bound)
    (hk : Control.Follows ⟨.int index, .int last, .int step⟩
      (reference init.toInt step.toInt bound k)) :
    ∃ next : Int64, Control.advance ⟨.int index, .int last, .int step⟩ =
      ⟨.int next, .int last, .int step⟩ ∧
      Control.Follows ⟨.int next, .int last, .int step⟩
        (reference init.toInt step.toInt bound (k + 1)) := by
  rcases hk with ⟨hvar, hadvance⟩ | ⟨d, hvar, hadvance⟩
  · refine ⟨index, by rw [Control.advance, hadvance]; rfl, .inl ⟨?_, hadvance⟩⟩
    rw [reference, hvar]
    rfl
  · refine ⟨d, by rw [Control.advance, hadvance]; rfl, ?_⟩
    have hruns : never = false := by
      rw [← Bool.not_eq_true]
      exact fun hnever => not_beyond_of_reference hvar (h.beyond hnever d)
    have hnext := @follows_of_passes step last bound d (h.passes hruns (d + step))
    rw [Int64.toInt_add] at hnext
    rw [reference, hvar]
    exact hnext

/-- Every round of a prepared loop follows the reference loop. -/
theorem follows_iterate (h : Stands step last never bound) (k : ℕ) :
    ∃ index : Int64,
      Control.advance^[k] ⟨.int ((if never then 0 else init) - step), .int last, .int step⟩ =
        ⟨.int index, .int last, .int step⟩ ∧
      Control.Follows ⟨.int index, .int last, .int step⟩
        (reference init.toInt step.toInt bound k) := by
  induction k with
  | zero => exact ⟨_, rfl, follows_prepared h⟩
  | succ k ih =>
    obtain ⟨index, hcontrol, hfollows⟩ := ih
    rw [Function.iterate_succ_apply', hcontrol]
    exact follows_advance h hfollows

theorem prepare_eq {limit : Value} (hstep : step ≠ 0)
    (h : intLimit? limit step = some (last, never)) :
    prepare ⟨.int init, limit, .int step⟩ =
      .ok ⟨.int ((if never then 0 else init) - step), .int last, .int step⟩ := by
  simp [prepare, hstep, h]

end Rounds

end NumericLoop

/-! ## The instructions of a loop -/

namespace Vm

/-- The control registers from `slot` on hold a loop, and there is a register for its variable. -/
structure Controls (slot : ℕ) (c : NumericLoop.Control) (vm : Vm) : Prop where
  index : vm.stack.get slot = .ok c.index
  limit : vm.stack.get (slot + 1) = .ok c.limit
  step : vm.stack.get (slot + 2) = .ok c.step
  size : slot + 3 < vm.stack.size

/-- The state with a register changed. -/
def store (vm : Vm) (slot : ℕ) (v : Value) : Vm :=
  { vm with stack := vm.stack.setIfInBounds slot v }

/-- The state with the position of the current frame moved. -/
def jumped (vm : Vm) (offset : ℤ) : Vm :=
  { vm with frames := vm.frames.modifyCurrent fun f => { f with pc := jumpTarget f.pc offset } }

section Instructions
variable {x : Activation} {vm : Vm} {c : NumericLoop.Control} {slot : ℕ}

theorem setSlot_of_lt (v : Value) (h : slot < vm.stack.size) :
    Exec.setSlot slot v vm = .returned () (vm.store slot v) :=
  Exec.onStack_eq_returned_iff.mpr ⟨_, RegisterStack.set_eq_ok_iff.mpr ⟨h, rfl⟩, rfl⟩

@[simp] theorem size_store (v : Value) : (vm.store slot v).stack.size = vm.stack.size :=
  RegisterStack.size_setIfInBounds vm.stack slot v

theorem stack_jumped (offset : ℤ) : (vm.jumped offset).stack = vm.stack := rfl

theorem get_store (v : Value) (other : ℕ) (h : slot < vm.stack.size) :
    (vm.store slot v).stack.get other = if slot = other then .ok v else vm.stack.get other :=
  RegisterStack.get_setIfInBounds vm.stack slot other v h

theorem loopControl_of_controls (h : vm.Controls slot c) :
    loopControl slot vm = .returned c vm := by
  have hget : ∀ {i : ℕ} {v : Value}, vm.stack.get i = .ok v →
      Exec.getSlot i vm = .returned v vm := by
    intro i v hv
    exact Exec.getSlot_eq_returned_iff.mpr ⟨RegisterStack.get_eq_ok_iff.mp hv, rfl⟩
  rw [loopControl, Exec.bind_of_returned (hget h.index), Exec.bind_of_returned (hget h.limit),
    Exec.bind_of_returned (hget h.step)]
  rfl

/-- A prepared loop stands in the control registers. -/
theorem opForPrep_of_ok {prepared : NumericLoop.Control} (h : vm.Controls x.ra c)
    (hc : NumericLoop.prepare c = .ok prepared) :
    ∃ after, opForPrep x vm = .returned () after ∧ after.Controls x.ra prepared := by
  have hsize := h.size
  have hlimit : x.ra + 1 < vm.stack.size := by omega
  have hstep : x.ra + 2 < (vm.store (x.ra + 1) prepared.limit).stack.size := by
    rw [size_store]
    omega
  have hindex :
      x.ra < ((vm.store (x.ra + 1) prepared.limit).store (x.ra + 2) prepared.step).stack.size := by
    rw [size_store, size_store]
    omega
  refine ⟨(((vm.store (x.ra + 1) prepared.limit).store (x.ra + 2) prepared.step).store x.ra
    prepared.index).jumped x.instr.sbx, ?_, ?_, ?_, ?_, ?_⟩
  · rw [opForPrep, Exec.bind_of_returned (loopControl_of_controls h), hc, settle, pure_bind,
      Exec.bind_of_returned (setSlot_of_lt _ hlimit), Exec.bind_of_returned (setSlot_of_lt _ hstep),
      Exec.bind_of_returned (setSlot_of_lt _ hindex)]
    rfl
  · simp [stack_jumped, get_store _ _ hindex]
  · simp [stack_jumped, get_store _ _ hindex, get_store _ _ hstep, get_store _ _ hlimit]
  · simp [stack_jumped, get_store _ _ hindex, get_store _ _ hstep]
  · simpa [stack_jumped] using hsize

/-- A loop that ends changes nothing. -/
theorem opForLoop_of_none (h : vm.Controls x.ra c) (hc : NumericLoop.advance? c = none) :
    opForLoop x vm = .returned () vm := by
  rw [opForLoop, Exec.bind_of_returned (loopControl_of_controls h), hc]
  rfl

/-- A round stores the index as the variable as well, and jumps back. -/
theorem opForLoop_of_some {v : Value} (h : vm.Controls x.ra c)
    (hc : NumericLoop.advance? c = some v) :
    ∃ after, opForLoop x vm = .returned () after ∧ after.Controls x.ra { c with index := v } ∧
      after.stack.get (x.ra + 3) = .ok v ∧ after.frames = (vm.jumped x.instr.sbx).frames := by
  have hsize := h.size
  have hvariable : x.ra + 3 < (vm.jumped x.instr.sbx).stack.size := hsize
  have hindex : x.ra < ((vm.jumped x.instr.sbx).store (x.ra + 3) v).stack.size := by
    rw [size_store]
    omega
  refine ⟨((vm.jumped x.instr.sbx).store (x.ra + 3) v).store x.ra v, ?_, ⟨?_, ?_, ?_, ?_⟩, ?_, rfl⟩
  · rw [opForLoop, Exec.bind_of_returned (loopControl_of_controls h), hc]
    have hjump : jump x.instr.sbx vm = .returned () (vm.jumped x.instr.sbx) := rfl
    simp only [Exec.bind_of_returned hjump, Exec.bind_of_returned (setSlot_of_lt _ hvariable),
      setSlot_of_lt _ hindex]
  · simp [get_store _ _ hindex]
  · simp [stack_jumped, get_store _ _ hindex, get_store _ _ hvariable, h.limit]
  · simp [stack_jumped, get_store _ _ hindex, get_store _ _ hvariable, h.step]
  · simpa [stack_jumped] using hsize
  · simp [get_store _ _ hindex, get_store _ _ hvariable]

theorem plain_of_returned {op : Exec Unit} {after : Vm} (h : op vm = .returned () after) :
    plain op vm = .returned (.next .proceed) after := by
  rw [plain, Exec.bind_of_returned h]
  rfl

end Instructions

/-- The control registers are the same in both states. -/
def KeepsControl (slot : ℕ) (before after : Vm) : Prop :=
  ∀ c, before.Controls slot c → after.Controls slot c

/-- The states in which a prepared loop is tested in turn, with its control registers untouched in
between. -/
structure Rounds (x : Activation) (prepared : Vm) (loop : ℕ → Activation) (state : ℕ → Vm) :
    Prop where
  register : ∀ k, (loop k).ra = x.ra
  first : KeepsControl x.ra prepared (state 0)
  next : ∀ k after, execute (loop k) .forLoop (state k) = .returned (.next .proceed) after →
    KeepsControl x.ra after (state (k + 1))

/-- What a test does in a round: it delivers the variable and jumps back, or it leaves the state as
it is. -/
def Delivers (x : Activation) (vm : Vm) : Option ℤ → Prop
  | none => execute x .forLoop vm = .returned (.next .proceed) vm
  | some var => ∃ after, execute x .forLoop vm = .returned (.next .proceed) after ∧
    (∃ d : Int64, d.toInt = var ∧ after.stack.get (x.ra + 3) = .ok (.int d)) ∧
    after.frames = (vm.jumped x.instr.sbx).frames

section Run
variable {x : Activation} {vm prepared : Vm} {c : NumericLoop.Control} {loop : ℕ → Activation}
  {state : ℕ → Vm}

/-- One test advances the control registers. -/
theorem forLoop_advances (h : vm.Controls x.ra c) :
    ∃ after, execute x .forLoop vm = .returned (.next .proceed) after ∧
      after.Controls x.ra c.advance := by
  cases hc : NumericLoop.advance? c with
  | none =>
    refine ⟨vm, plain_of_returned (opForLoop_of_none h hc), ?_⟩
    rw [NumericLoop.Control.advance, hc]
    exact h
  | some v =>
    obtain ⟨after, hafter, hcontrols, -⟩ := opForLoop_of_some h hc
    refine ⟨after, plain_of_returned hafter, ?_⟩
    rw [NumericLoop.Control.advance, hc]
    exact hcontrols

/-- Before the test of round `k` the control registers have been advanced `k` times. -/
theorem Rounds.controls (h : Rounds x prepared loop state) (hprepared : prepared.Controls x.ra c)
    (k : ℕ) : (state k).Controls x.ra (NumericLoop.Control.advance^[k] c) := by
  induction k with
  | zero => exact h.first c hprepared
  | succ k ih =>
    rw [← h.register k] at ih
    obtain ⟨after, hafter, hcontrols⟩ := forLoop_advances ih
    rw [h.register k] at hcontrols
    rw [Function.iterate_succ_apply']
    exact h.next k after hafter _ hcontrols

theorem delivers_of_follows {var : Option ℤ} (h : vm.Controls x.ra c) (hc : c.Follows var) :
    vm.Delivers x var := by
  rcases hc with ⟨rfl, hadvance⟩ | ⟨d, rfl, hadvance⟩
  · exact plain_of_returned (opForLoop_of_none h hadvance)
  · obtain ⟨after, hafter, -, hget, hframes⟩ := opForLoop_of_some h hadvance
    exact ⟨after, plain_of_returned hafter, ⟨d, rfl, hget⟩, hframes⟩

end Run

/-- A loop over integers delivers what the reference loop delivers and ends in the same round,
whatever number the limit is or spells. -/
theorem forLoop_follows_reference {x : Activation} {vm : Vm} {init step : Int64} {limit : Value}
    {bound : WithBotTop ℚ} (hcontrols : vm.Controls x.ra ⟨.int init, limit, .int step⟩)
    (hstep : step ≠ 0) (hbound : limit.toNumber?.bind Number.value? = some bound) :
    ∃ prepared, execute x .forPrep vm = .returned (.next .proceed) prepared ∧
      ∀ loop state, Rounds x prepared loop state →
        ∀ k, (state k).Delivers (loop k) (NumericLoop.reference init.toInt step.toInt bound k) := by
  obtain ⟨last, never, hlimit, hstands⟩ := NumericLoop.intLimit?_stands hstep hbound
  obtain ⟨prepared, hprep, hprepared⟩ :=
    opForPrep_of_ok hcontrols (NumericLoop.prepare_eq hstep hlimit)
  refine ⟨prepared, plain_of_returned hprep, fun loop state hrounds k => ?_⟩
  obtain ⟨index, hiterate, hfollows⟩ := NumericLoop.follows_iterate hstands k
  have hstate := hrounds.controls hprepared k
  rw [hiterate, ← hrounds.register k] at hstate
  exact delivers_of_follows hstate hfollows

/-- Nothing between the tests touches the control registers if nothing is executed between them. -/
theorem rounds_iterate (x : Activation) (prepared : Vm) :
    Rounds x prepared (fun _ => x) fun k =>
      (fun vm => ((execute x .forLoop vm).state?).getD vm)^[k] prepared where
  register _ := rfl
  first _ h := h
  next k after hafter c hc := by
    rw [Function.iterate_succ_apply', hafter]
    exact hc

/-- A loop in the first registers. -/
def loopAtBase : Activation := ⟨default, 0, 0, ⟨0⟩⟩

/-- A machine before a loop from `2 ^ 63 - 2` up to the float `2 ^ 63`, which is above all
integers. -/
def beforeWrapping : Vm :=
  (((Vm.new {} .standard default default).store 0 (.int 9223372036854775806)).store 1
    (.float 9223372036854775808)).store 2 (.int 1)

/-- Such a loop does not end: in its third round the variable has wrapped around to the least
integer. -/
theorem forLoop_follows_reference_wrapping :
    (beforeWrapping.Controls loopAtBase.ra
      ⟨.int 9223372036854775806, .float 9223372036854775808, .int 1⟩ ∧
        (1 : Int64) ≠ 0 ∧ (Value.float 9223372036854775808).toNumber?.bind Number.value? =
          some ((9223372036854775808 : ℚ) : WithBotTop ℚ)) ∧
      ∃ prepared state, execute loopAtBase .forPrep beforeWrapping =
        .returned (.next .proceed) prepared ∧
        Rounds loopAtBase prepared (fun _ => loopAtBase) state ∧
        (state 2).Delivers loopAtBase (some (-9223372036854775808)) := by
  have hcontrols : beforeWrapping.Controls loopAtBase.ra
      ⟨.int 9223372036854775806, .float 9223372036854775808, .int 1⟩ := ⟨rfl, rfl, rfl, by decide⟩
  have hbound : (Value.float 9223372036854775808).toNumber?.bind Number.value? =
      some ((9223372036854775808 : ℚ) : WithBotTop ℚ) := by
    have hparts : Binary64.parts 9223372036854775808 = .finite false 4503599627370496 11 := by
      decide +kernel
    change (Binary64.parts 9223372036854775808).value? = _
    rw [hparts, Binary64.Parts.value?]
    norm_num [Binary64.signed]
  have hwrapped : NumericLoop.reference (9223372036854775806 : Int64).toInt (1 : Int64).toInt
      ((9223372036854775808 : ℚ) : WithBotTop ℚ) 2 = some (-9223372036854775808) := by
        decide +kernel
  obtain ⟨prepared, hprep, hdelivers⟩ := forLoop_follows_reference hcontrols (by decide) hbound
  have hrounds := rounds_iterate loopAtBase prepared
  exact ⟨⟨hcontrols, by decide, hbound⟩, prepared, _, hprep, hrounds,
    hwrapped ▸ hdelivers _ _ hrounds 2⟩

end Vm

end LuaMachine
