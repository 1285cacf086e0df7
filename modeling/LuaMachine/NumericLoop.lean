import LuaMachine.Error.Cause
import LuaMachine.Value.Coerce

/-!
# The numeric loop

A numeric loop keeps an index, a limit and a step. Preparing it subtracts the step once, so that
every round, the first one included, adds the step and compares with the limit. A loop over integers
rounds its limit to the last integer the loop may reach; a limit beyond the integers is cut off at
their end, and one that the loop could never reach makes it start at zero.
-/
namespace LuaMachine.NumericLoop

/-- The limit as an integer, and whether the loop must not run at all. There is none if the limit is
not numeric. -/
def intLimit? (limit : Value) (step : Int64) : Option (Int64 × Bool) :=
  limit.toNumber?.map fun n =>
    match n.toInt? (if step < 0 then .ceil else .floor) with
    | some limit => (limit, false)
    | none =>
      if n.toFloat > 0 then (Int64.maxValue, step < 0)
      else (Int64.minValue, 0 ≤ step)

/-- The control registers of a loop. -/
structure Control where
  index : Value
  limit : Value
  step : Value
  deriving DecidableEq

/-- A numeric parameter as a float. -/
def parameter (which : LoopParameter) (v : Value) : Except Cause Float :=
  match v.toFloat? with
  | some x => .ok x
  | none => .error (.loopParameter which)

/-- Prepares a loop over floats. -/
def prepareFloats (c : Control) : Except Cause Control := do
  let limit ← parameter .limit c.limit
  let step ← parameter .step c.step
  let index ← parameter .initial c.index
  if step == 0 then .error .loopStepZero
  return { index := .float (index - step), limit := .float limit, step := .float step }

/-- Prepares a loop. It runs over integers if both its start and its step are integers. -/
def prepare (c : Control) : Except Cause Control :=
  match c.index, c.step with
  | .number (.int index), .number (.int step) =>
    if step = 0 then .error .loopStepZero
    else match intLimit? c.limit step with
      | some (limit, never) =>
        .ok { c with index := .int ((if never then 0 else index) - step), limit := .int limit }
      | none => prepareFloats c
  | _, _ => prepareFloats c

/-- A control register as a float, NaN if it is not numeric. -/
def floatOrNaN (v : Value) : Float :=
  v.toFloat?.getD Binary64.nan

/-- The index of the next round, if the loop goes on. -/
def advance? (c : Control) : Option Value :=
  match c.index, c.limit, c.step with
  | .number (.int index), .number (.int limit), .number (.int step) =>
    let index := index + step
    if (if 0 < step then index ≤ limit else limit ≤ index) then some (.int index) else none
  | index, limit, step =>
    let limit := floatOrNaN limit
    let step := floatOrNaN step
    let index := floatOrNaN index + step
    if (if step > 0 then index ≤ limit else limit ≤ index) then some (.float index) else none

end LuaMachine.NumericLoop
