import LuaMachine.Proofs.IntegerLoops

/-!
# Limits without order

A limit that is NaN is neither above nor below any number. A loop over floats compares its index
with such a limit, which fails, and ends at once. A loop over integers has no place for such a limit
and keeps the least integer instead, as for a limit below all integers: one that counts up is told
not to run, and one that counts down has no end.
-/
namespace LuaMachine

namespace NumericLoop

/-- The limit is a number or spells one, but is ordered against none. -/
def Unordered (limit : Value) : Prop := ∃ n, limit.toNumber? = some n ∧ n.value? = none

/-- The loop runs over integers and its step is negative. -/
def CountsDown (init step : Value) : Prop := ∃ i s : Int64, init = .int i ∧ step = .int s ∧ s < 0

section Limits
variable {limit : Value} {step : Int64}

theorem Unordered.exists_float (h : Unordered limit) :
    ∃ x, limit.toNumber? = some (.float x) ∧ Binary64.value? x = none := by
  obtain ⟨n, hn, hvalue⟩ := h
  cases n with
  | int n => simp [Number.value?] at hvalue
  | float x => exact ⟨x, hn, hvalue⟩

/-- Over integers a limit without order is kept as one below all of them is. -/
theorem Unordered.intLimit?_eq (h : Unordered limit) :
    intLimit? limit step = some (Int64.minValue, decide (0 ≤ step)) := by
  obtain ⟨x, hx, hvalue⟩ := h.exists_float
  have hint : ∀ mode, floatToInt? mode x = none := fun mode =>
    floatToInt?_nonfinite (by simp [hvalue])
  have hpos : ¬ x > 0 := by simp [pos_iff, hvalue]
  simp only [intLimit?, hx, Option.map_some, Number.toInt?, hint]
  exact congrArg some (if_neg hpos)

theorem stands_bot (hstep : step ≠ 0) : Stands step Int64.minValue (0 ≤ step) ⊥ :=
  stands_of_below hstep fun _ => Binary64.bot_lt_coe _

end Limits

/-! ## Preparing the loop -/

section Preparing
variable {init limit step : Value} {c p : Control}

theorem prepareFloats_eq_ok (h : prepareFloats c = .ok p) :
    ∃ index limit step, c.limit.toFloat? = some limit ∧
      p = ⟨.float index, .float limit, .float step⟩ := by
  unfold prepareFloats parameter at h
  cases hlimit : c.limit.toFloat? with
  | none => simp [hlimit, bind, Except.bind] at h
  | some limit =>
    cases hstep : c.step.toFloat? with
    | none => simp [hlimit, hstep, bind, Except.bind] at h
    | some step =>
      cases hindex : c.index.toFloat? with
      | none => simp [hlimit, hstep, hindex, bind, Except.bind] at h
      | some index =>
        refine ⟨index - step, limit, step, rfl, ?_⟩
        simp only [hlimit, hstep, hindex, bind, Except.bind] at h
        split_ifs at h
        exact (Except.ok.inj h).symm

/-- A prepared loop keeps a limit without order if it runs over floats, and only then. -/
theorem Unordered.prepare_cases (h : Unordered limit) (hp : prepare ⟨init, limit, step⟩ = .ok p) :
    (∃ i s : Int64, init = .int i ∧ step = .int s ∧ s ≠ 0 ∧
        p = ⟨.int ((if decide (0 ≤ s) then 0 else i) - s), .int Int64.minValue, .int s⟩) ∨
      (¬ ∃ i s : Int64, init = .int i ∧ step = .int s) ∧
        ∃ index bound pace, Binary64.value? bound = none ∧
          p = ⟨.float index, .float bound, .float pace⟩ := by
  by_cases hints : ∃ i s : Int64, init = .int i ∧ step = .int s
  · obtain ⟨i, s, rfl, rfl⟩ := hints
    have hzero : s ≠ 0 := by
      rintro rfl
      simp [prepare] at hp
    rw [prepare_eq hzero h.intLimit?_eq] at hp
    exact .inl ⟨i, s, rfl, rfl, hzero, (Except.ok.inj hp).symm⟩
  · have hfloats : prepare ⟨init, limit, step⟩ = prepareFloats ⟨init, limit, step⟩ := by
      unfold prepare
      split
      · next i s hinit hstep => exact absurd ⟨i, s, hinit, hstep⟩ hints
      · rfl
    obtain ⟨index, bound, pace, hbound, rfl⟩ := prepareFloats_eq_ok (hfloats ▸ hp)
    obtain ⟨x, hx, hvalue⟩ := h.exists_float
    have hlimit : limit.toFloat? = some x := by rw [Value.toFloat?, hx]; rfl
    obtain rfl : x = bound := Option.some.inj (hlimit.symm.trans hbound)
    exact .inr ⟨hints, index, x, pace, hvalue, rfl⟩

end Preparing

/-! ## Testing the loop -/

/-- No comparison with NaN holds, in whichever direction a loop over floats goes. -/
theorem advance?_of_nan {limit : Float} (h : Binary64.value? limit = none) (index step : Float) :
    advance? ⟨.float index, .float limit, .float step⟩ = none := by
  have hfails : ∀ x : Float, ¬ x ≤ limit ∧ ¬ limit ≤ x := fun x => by simp [Binary64.le_iff, h]
  change (if (if step > 0 then index + step ≤ limit else limit ≤ index + step) then some
    (Value.float (index + step)) else none) = none
  rw [if_neg]
  split_ifs
  · exact (hfails _).1
  · exact (hfails _).2

/-- Nothing is beyond a limit below all integers if the loop counts down, so that it goes on
forever. -/
theorem reference_bot {init step : ℤ} (hinit : init.bmod (2 ^ 64) = init) (hstep : step < 0)
    (k : ℕ) : reference init step ⊥ k = some ((init + k * step).bmod (2 ^ 64)) := by
  have hbeyond : ∀ var : ℤ, ¬ Beyond step ⊥ var := fun var => by simp [beyond_iff_of_neg hstep]
  induction k with
  | zero => rw [reference, if_neg (hbeyond init), Nat.cast_zero, zero_mul, add_zero, hinit]
  | succ k ih =>
    have hsum : init + k * step + step = init + (k + 1 : ℕ) * step := by push_cast; ring
    simp [reference, ih, hbeyond, Int.bmod_add_bmod, hsum]

section Integers
variable {i s : Int64}

/-- The first test of a loop over integers fails exactly if the loop counts up. -/
theorem advance?_bot_eq_none_iff (hs : s ≠ 0) :
    advance? ⟨.int ((if decide (0 ≤ s) then 0 else i) - s), .int Int64.minValue, .int s⟩ = none ↔
      ¬ s < 0 := by
  have hbeyond : Beyond s.toInt ⊥ i.toInt ↔ ¬ s < 0 := by
    rw [Int64.lt_iff_toInt_lt, Int64.toInt_zero, not_lt]
    rcases toInt_step_cases hs with hneg | hpos
    · simp [beyond_iff_of_neg hneg, hneg]
    · simp [beyond_iff_of_pos hpos, hpos.le, Binary64.bot_lt_coe]
  have hfirst := @follows_prepared i s _ _ _ (stands_bot hs)
  rw [reference] at hfirst
  rw [← hbeyond]
  rcases hfirst with ⟨hvar, hadvance⟩ | ⟨d, hvar, hadvance⟩
  · split_ifs at hvar with hout
    exact iff_of_true hadvance hout
  · split_ifs at hvar with hout
    exact iff_of_false (by rw [hadvance]; exact Option.some_ne_none _) hout

/-- A round moves the index. -/
theorem advance?_ne_index (hs : s ≠ 0) (index last : Int64) :
    advance? ⟨.int index, .int last, .int s⟩ ≠ some (.int index) := by
  rw [advance?_int]
  split_ifs
  · intro h
    have hindex : index + s = index := by simpa using h
    exact hs (by simpa using hindex)
  · simp

end Integers

end NumericLoop

namespace Vm

section Instructions
variable {x : Activation} {vm prepared : Vm} {c : NumericLoop.Control} {action : Action}

theorem prepared_of_forPrep (h : vm.Controls x.ra c)
    (hprep : execute x .forPrep vm = .returned action prepared) :
    ∃ p, NumericLoop.prepare c = .ok p ∧ prepared.Controls x.ra p := by
  cases hc : NumericLoop.prepare c with
  | ok p =>
    obtain ⟨after, hafter, hcontrols⟩ := opForPrep_of_ok h hc
    cases (plain_of_returned hafter).symm.trans hprep
    exact ⟨p, rfl, hcontrols⟩
  | error cause =>
    have hraised : execute x .forPrep vm = .raised { cause := cause } vm := by
      change plain (opForPrep x) vm = _
      rw [plain, opForPrep, bind_assoc, Exec.bind_of_returned (loopControl_of_controls h), hc]
      rfl
    cases hraised.symm.trans hprep

/-- The test of a loop leaves the state as it is exactly if the loop ends there, provided that a
round moves the index. -/
theorem forLoop_leaves_iff (h : vm.Controls x.ra c)
    (hmoves : NumericLoop.advance? c ≠ some c.index) :
    execute x .forLoop vm = .returned (.next .proceed) vm ↔ NumericLoop.advance? c = none := by
  refine ⟨fun hleaves => ?_, fun hc => plain_of_returned (opForLoop_of_none h hc)⟩
  cases hc : NumericLoop.advance? c with
  | none => rfl
  | some v =>
    obtain ⟨after, hafter, hcontrols, -⟩ := opForLoop_of_some h hc
    cases (plain_of_returned hafter).symm.trans hleaves
    have hindex : v = c.index := Except.ok.inj (hcontrols.index.symm.trans h.index)
    exact absurd (hindex ▸ hc) hmoves

end Instructions

/-- A limit without order ends the loop in its first test, unless the loop counts down over
integers: such a loop goes on forever, with a variable that wraps around. -/
theorem unordered_leaves_iff {x : Activation} {vm prepared : Vm} {init limit step : Value}
    {action : Action} (hcontrols : vm.Controls x.ra ⟨init, limit, step⟩)
    (hlimit : NumericLoop.Unordered limit)
    (hprep : execute x .forPrep vm = .returned action prepared) :
    (∀ loop state, loop.ra = x.ra → KeepsControl x.ra prepared state →
      (execute loop .forLoop state = .returned (.next .proceed) state ↔
        ¬ NumericLoop.CountsDown init step)) ∧
    ∀ i s : Int64, init = .int i → step = .int s → s < 0 →
      ∀ loop state, Rounds x prepared loop state →
      ∀ k, (state k).Delivers (loop k) (some ((i.toInt + k * s.toInt).bmod (2 ^ 64))) := by
  obtain ⟨p, hp, hprepared⟩ := prepared_of_forPrep hcontrols hprep
  obtain ⟨i, s, rfl, rfl, hs, rfl⟩ | ⟨hfloats, index, bound, pace, hbound, rfl⟩ :=
    hlimit.prepare_cases hp
  · -- The loop runs over integers, and from here on it is one whose limit is below all of them.
    refine ⟨fun loop state hra hkeeps => ?_, fun i' s' hi hs' hneg loop state hrounds k => ?_⟩
    · have hstate := hkeeps _ hprepared
      rw [← hra] at hstate
      rw [forLoop_leaves_iff hstate (NumericLoop.advance?_ne_index hs _ _),
        NumericLoop.advance?_bot_eq_none_iff hs]
      simp [NumericLoop.CountsDown]
    · cases hi
      cases hs'
      obtain ⟨index, hiterate, hfollows⟩ :=
        NumericLoop.follows_iterate (NumericLoop.stands_bot hs) k
      have hstate := hrounds.controls hprepared k
      rw [hiterate, ← hrounds.register k] at hstate
      rw [← NumericLoop.reference_bot i.toInt_bmod (Int64.lt_iff_toInt_lt.mp hneg)]
      exact delivers_of_follows hstate hfollows
  · -- The loop runs over floats and has kept the limit.
    refine ⟨fun loop state hra hkeeps => ?_, fun i s hi hs _ => absurd ⟨i, s, hi, hs⟩ hfloats⟩
    have hstate := hkeeps _ hprepared
    rw [← hra] at hstate
    have hnone := NumericLoop.advance?_of_nan hbound index pace
    have hdown : ¬ NumericLoop.CountsDown init step := by
      rintro ⟨i, s, hi, hs, -⟩
      exact hfloats ⟨i, s, hi, hs⟩
    exact iff_of_true (plain_of_returned (opForLoop_of_none hstate hnone)) hdown

/-- A machine before a loop from 1 downwards whose limit is NaN. -/
def beforeUnordered : Vm :=
  (((Vm.new {} .standard default default).store 0 (.int 1)).store 1 (.float Binary64.nan)).store
    2 (.int (-1))

/-- Such a loop is not left in its first test, and its variable passes zero. -/
theorem unordered_leaves_iff_downwards :
    (beforeUnordered.Controls loopAtBase.ra ⟨.int 1, .float Binary64.nan, .int (-1)⟩ ∧
        NumericLoop.Unordered (.float Binary64.nan)) ∧
      ∃ prepared state, execute loopAtBase .forPrep beforeUnordered =
        .returned (.next .proceed) prepared ∧
        execute loopAtBase .forLoop prepared ≠ .returned (.next .proceed) prepared ∧
        Rounds loopAtBase prepared (fun _ => loopAtBase) state ∧
        (state 2).Delivers loopAtBase (some (-1)) := by
  have hcontrols :
      beforeUnordered.Controls loopAtBase.ra ⟨.int 1, .float Binary64.nan, .int (-1)⟩ :=
    ⟨rfl, rfl, rfl, by decide⟩
  have hnan : NumericLoop.Unordered (.float Binary64.nan) :=
    ⟨.float Binary64.nan, rfl, Binary64.value?_eq_none_iff.mpr (by decide +kernel)⟩
  obtain ⟨prepared, hprep, -⟩ :=
    opForPrep_of_ok hcontrols (NumericLoop.prepare_eq (by decide) hnan.intLimit?_eq)
  obtain ⟨hleaves, hdelivers⟩ := unordered_leaves_iff hcontrols hnan (plain_of_returned hprep)
  have hrounds := rounds_iterate loopAtBase prepared
  refine ⟨⟨hcontrols, hnan⟩, prepared, _, plain_of_returned hprep, fun hleft => ?_, hrounds, ?_⟩
  · exact (hleaves loopAtBase prepared rfl fun _ h => h).mp hleft ⟨1, -1, rfl, rfl, by decide⟩
  · exact hdelivers 1 (-1) rfl rfl (by decide) _ _ hrounds 2

end Vm

end LuaMachine
