import LuaMachine.Error.Abort
import LuaMachine.Value.Basic

/-!
# The register stack

All activations share one array of slots. It grows on demand up to a limit and never shrinks, and
new slots hold nil. Access to a slot that does not exist is a defect of the bytecode.
-/
namespace LuaMachine

/-- The allocated slots, never more than `limit`. -/
structure RegisterStack where
  slots : Array Value
  limit : Nat
  size_le_limit : slots.size ≤ limit

namespace RegisterStack

/-- `initial` slots of nil, or as many as the limit allows. -/
def new (initial limit : Nat) : RegisterStack where
  slots := Array.replicate (min initial limit) .nil
  limit := limit
  size_le_limit := by
    simp only [Array.size_replicate]
    omega

instance : Inhabited RegisterStack := ⟨new 0 0⟩

/-- A stack like `new`, with storage for all `initial` slots even if the limit allows fewer. -/
def create (initial limit : Nat) : Checked RegisterStack := do
  Checked.reserve initial Value.bytes
  return new initial limit

/-- The number of allocated slots. -/
def size (s : RegisterStack) : Nat := s.slots.size

/-- The size after growing to hold `wanted` slots: at least double, within the limit. -/
def grownSize (s : RegisterStack) (wanted : Nat) : Nat :=
  min (max wanted (s.size * 2)) s.limit

/-- Fills the stack up with nil to the size it takes for `wanted` slots. -/
def grow (s : RegisterStack) (wanted : Nat) : RegisterStack where
  slots := s.slots ++ Array.replicate (s.grownSize wanted - s.slots.size) .nil
  limit := s.limit
  size_le_limit := by
    have hs := s.size_le_limit
    have hg : s.grownSize wanted ≤ s.limit := Nat.min_le_right _ _
    simp only [Array.size_append, Array.size_replicate]
    omega

/-- Makes all slots below `wanted` exist. There is none beyond the limit. -/
def ensure? (s : RegisterStack) (wanted : Nat) : Checked (Option RegisterStack) :=
  if wanted ≤ s.size then .ok (some s)
  else if s.limit < wanted then .ok none
  else
    match Checked.reserve (s.grownSize wanted) Value.bytes with
    | .ok _ => .ok (some (s.grow wanted))
    | .error why => .error why

/-- The defect of an access beyond the allocated slots. -/
def outside (s : RegisterStack) (slot : Nat) : Abort :=
  .malformed (.register slot s.size)

/-- The value of a slot. -/
def get (s : RegisterStack) (slot : Nat) : Checked Value :=
  match s.slots[slot]? with
  | some v => .ok v
  | none => .error (s.outside slot)

/-- Stores a value in a slot. -/
def set (s : RegisterStack) (slot : Nat) (v : Value) : Checked RegisterStack :=
  if h : slot < s.slots.size then
    .ok {
      slots := s.slots.set slot v h
      limit := s.limit
      size_le_limit := by simpa using s.size_le_limit }
  else .error (s.outside slot)

/-- Stores a value in a slot. One that does not exist takes no value. -/
def setIfInBounds (s : RegisterStack) (slot : Nat) (v : Value) : RegisterStack where
  slots := s.slots.setIfInBounds slot v
  limit := s.limit
  size_le_limit := by simpa using s.size_le_limit

theorem get_eq_ok_iff {s : RegisterStack} {slot : Nat} {v : Value} :
    s.get slot = .ok v ↔ s.slots[slot]? = some v := by
  unfold get
  split <;> simp_all

theorem set_eq_ok_iff {s t : RegisterStack} {slot : Nat} {v : Value} :
    s.set slot v = .ok t ↔ slot < s.size ∧ t = s.setIfInBounds slot v := by
  unfold set setIfInBounds size
  split
  next h =>
    have : s.slots.setIfInBounds slot v = s.slots.set slot v h := by simp [Array.setIfInBounds, h]
    simp only [this, h, true_and, Except.ok.injEq]
    exact eq_comm
  next h => simp [h]

@[simp] theorem size_setIfInBounds (s : RegisterStack) (slot : Nat) (v : Value) :
    (s.setIfInBounds slot v).size = s.size := by
  simp [setIfInBounds, size]

/-- A stored value is read back from its slot, and other slots keep theirs. -/
theorem get_setIfInBounds (s : RegisterStack) (slot other : Nat) (v : Value) (h : slot < s.size) :
    (s.setIfInBounds slot v).get other = if slot = other then .ok v else s.get other := by
  unfold size at h
  by_cases e : slot = other
  · subst e
    simp [get, setIfInBounds, h]
  · simp [get, setIfInBounds, outside, size, e]

/-- Copies `count` slots starting at `source` to `target`, in ascending order. The ranges may
overlap when `target` is below `source`. -/
def copyDown (s : RegisterStack) (source target : Nat) : Nat → Checked RegisterStack
  | 0 => .ok s
  | count + 1 =>
    match s.get source with
    | .error e => .error e
    | .ok v =>
      match s.set target v with
      | .error e => .error e
      | .ok s => s.copyDown (source + 1) (target + 1) count

/-- Sets `count` slots starting at `start` to nil. -/
def fillNil (s : RegisterStack) (start : Nat) : Nat → Checked RegisterStack
  | 0 => .ok s
  | count + 1 =>
    match s.set start .nil with
    | .error e => .error e
    | .ok s => s.fillNil (start + 1) count

/-- The value of a slot and the stack with nil in its place. -/
def take (s : RegisterStack) (slot : Nat) : Checked (Value × RegisterStack) :=
  match s.get slot with
  | .error e => .error e
  | .ok v =>
    match s.set slot .nil with
    | .error e => .error e
    | .ok s => .ok (v, s)

/-- Moves the values of the `count` slots that end below `top` up by one slot, the highest first. -/
def shiftUp (s : RegisterStack) (top : Nat) : Nat → Checked RegisterStack
  | 0 => .ok s
  | count + 1 =>
    match s.take (top - 1) with
    | .error e => .error e
    | .ok (v, s) =>
      match s.set top v with
      | .error e => .error e
      | .ok s => s.shiftUp (top - 1) count

/-- Moves the values from `slot` up to `top` up by one and stores `v` in `slot`. -/
def insert (s : RegisterStack) (slot top : Nat) (v : Value) : Checked RegisterStack :=
  match s.shiftUp top (top - slot) with
  | .error e => .error e
  | .ok s => s.set slot v

/-- The values from `start` up to `stop`. The range has to exist. -/
def slice (s : RegisterStack) (start stop : Nat) : Checked (List Value) :=
  if start ≤ stop ∧ stop ≤ s.size then .ok (s.slots.extract start stop).toList
  else .error (.fault .range)

end RegisterStack

end LuaMachine
