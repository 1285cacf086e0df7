import LuaMachine.Error.Abort
import LuaMachine.Value.Basic

/-!
# Call frames

Frames live in an arena indexed by call depth. A frame that returns leaves its place behind, to be
overwritten by the next call at that depth. Depth zero is the frame of the host, which is never
left.
-/
namespace LuaMachine

/-- The marks of a frame. -/
structure CallStatus where
  /-- The frame runs a closure. -/
  lua : Bool := false
  /-- The frame was entered by the host, and its return ends the run. -/
  fresh : Bool := false
  /-- The frame took the place of its caller. -/
  tail : Bool := false
  /-- The frame waits for `b < a` to answer `a <= b`. -/
  leq : Bool := false
  deriving DecidableEq, Repr, Inhabited

namespace CallStatus

/-- Whether every mark of `other` is set. -/
def contains (s other : CallStatus) : Bool :=
  (!other.lua || s.lua) && (!other.fresh || s.fresh) && (!other.tail || s.tail) &&
    (!other.leq || s.leq)

/-- Sets the marks of `other`. -/
def union (s other : CallStatus) : CallStatus :=
  ⟨s.lua || other.lua, s.fresh || other.fresh, s.tail || other.tail, s.leq || other.leq⟩

/-- Clears the marks of `other`. -/
def without (s other : CallStatus) : CallStatus :=
  ⟨s.lua && !other.lua, s.fresh && !other.fresh, s.tail && !other.tail, s.leq && !other.leq⟩

end CallStatus

/-- How many results a caller wants. -/
inductive ResultCount where
  | fixed (count : Nat)
  | all
  deriving DecidableEq, Repr, Inhabited

/-- Reads an operand: zero asks for all results and `n + 1` for `n`. -/
def ResultCount.ofOperand : Nat → ResultCount
  | 0 => .all
  | n + 1 => .fixed n

/-- An activation. -/
structure Frame where
  /-- The running closure. The frame of the host has none. -/
  closure : Option ClosureRef := none
  /-- The slot of the called function, where the results go. -/
  func : Nat := 0
  /-- The first register. -/
  base : Nat := 0
  /-- One past the last register. -/
  top : Nat := 0
  /-- The position of the next instruction. -/
  pc : Nat := 0
  results : ResultCount := .all
  status : CallStatus := {}
  deriving DecidableEq, Repr, Inhabited

/-- The arena of frames with the depth of the current one. -/
structure CallStack where
  frames : Array Frame
  depth : Nat
  depth_lt_size : depth < frames.size

namespace CallStack

/-- Only the frame of the host. -/
def new (hostTop : Nat) : CallStack where
  frames := #[{ top := hostTop }]
  depth := 0
  depth_lt_size := by simp

instance : Inhabited CallStack := ⟨new 0⟩

/-- The number of places in the arena, used or not. -/
def pooled (s : CallStack) : Nat := s.frames.size

def current (s : CallStack) : Frame :=
  have := s.depth_lt_size
  s.frames[s.depth]

/-- Changes the current frame. -/
def modifyCurrent (s : CallStack) (f : Frame → Frame) : CallStack where
  frames := s.frames.modify s.depth f
  depth := s.depth
  depth_lt_size := by simpa using s.depth_lt_size

/-- The caller of the current frame. -/
def previous? (s : CallStack) : Option Frame :=
  match s.depth with
  | 0 => none
  | d + 1 => s.frames[d]?

/-- Changes the caller of the current frame. The frame of the host has none. -/
def modifyPrevious (s : CallStack) (f : Frame → Frame) : CallStack where
  frames := if s.depth = 0 then s.frames else s.frames.modify (s.depth - 1) f
  depth := s.depth
  depth_lt_size := by split <;> simpa using s.depth_lt_size

/-- Makes a frame current, in the place at that depth if there is one. -/
def push (s : CallStack) (f : Frame) : CallStack :=
  if h : s.depth + 1 < s.frames.size then
    { frames := s.frames.set (s.depth + 1) f h, depth := s.depth + 1,
      depth_lt_size := by simpa using h }
  else
    { frames := s.frames.push f, depth := s.depth + 1
      depth_lt_size := by
        have := s.depth_lt_size
        simp only [Array.size_push]
        omega }

@[simp] theorem depth_push (s : CallStack) (f : Frame) : (s.push f).depth = s.depth + 1 := by
  unfold push
  split <;> rfl

/-- The pushed frame is current, whether its place is new or was used before. -/
@[simp] theorem current_push (s : CallStack) (f : Frame) : (s.push f).current = f := by
  have hd := s.depth_lt_size
  unfold push
  split
  next h => simp [current]
  next h =>
    have e : s.depth + 1 = s.frames.size := by omega
    simp [current, e]

/-- Leaves the current frame. The frame of the host stays. -/
def pop (s : CallStack) : Checked (Frame × CallStack) :=
  if 0 < s.depth then
    .ok (s.current, {
      frames := s.frames, depth := s.depth - 1
      depth_lt_size := by
        have := s.depth_lt_size
        omega })
  else .error (.fault .hostFramePopped)

/-- Replaces the current frame and its caller by one frame. The caller must not be the host. -/
def collapse (s : CallStack) (f : Frame) : Checked CallStack :=
  if h : 1 < s.depth then
    .ok {
      frames := s.frames.set (s.depth - 1) f (by have := s.depth_lt_size; omega)
      depth := s.depth - 1
      depth_lt_size := by
        have := s.depth_lt_size
        simp only [Array.size_set]
        omega }
  else .error (.fault .collapseWithoutCaller)

/-- Goes back to a depth. -/
def truncate (s : CallStack) (depth : Nat) : CallStack where
  frames := s.frames
  depth := min s.depth depth
  depth_lt_size := by
    have := s.depth_lt_size
    omega

/-- The frames above a depth, innermost first. -/
def activeAbove (s : CallStack) (depth : Nat) : Checked (List Frame) :=
  if depth ≤ s.depth then .ok (s.frames.extract (depth + 1) (s.depth + 1)).toList.reverse
  else .error (.fault .range)

end CallStack

end LuaMachine
