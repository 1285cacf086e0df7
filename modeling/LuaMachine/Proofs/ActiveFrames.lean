import Mathlib.Tactic
import LuaMachine.CallStack

/-!
# The active frames

The arena keeps the places of frames that have returned. What counts is the list of the active
frames, innermost first: entering a frame puts it in front, leaving one takes it off, and everything
behind stays the same.
-/
namespace LuaMachine

/-- Two frames differ at most in the position and in the mark of a pending comparison. -/
structure Frame.SamePlace (f g : Frame) : Prop where
  closure : f.closure = g.closure
  func : f.func = g.func
  base : f.base = g.base
  top : f.top = g.top
  results : f.results = g.results
  fresh : f.status.fresh = g.status.fresh

namespace Frame.SamePlace

theorem refl (f : Frame) : f.SamePlace f := ⟨rfl, rfl, rfl, rfl, rfl, rfl⟩

theorem trans {f g h : Frame} (hfg : f.SamePlace g) (hgh : g.SamePlace h) : f.SamePlace h where
  closure := hfg.closure.trans hgh.closure
  func := hfg.func.trans hgh.func
  base := hfg.base.trans hgh.base
  top := hfg.top.trans hgh.top
  results := hfg.results.trans hgh.results
  fresh := hfg.fresh.trans hgh.fresh

end Frame.SamePlace

namespace CallStack
variable {s t : CallStack} {f g : Frame}

/-- The frames below the current one, innermost first. -/
def callers (s : CallStack) : List Frame := (s.frames.toList.take s.depth).reverse

/-- The active frames, innermost first. The last one is the frame of the host. -/
def active (s : CallStack) : List Frame := s.current :: s.callers

@[simp] theorem length_callers (s : CallStack) : s.callers.length = s.depth := by
  have := s.depth_lt_size
  simp only [callers, List.length_reverse, List.length_take, Array.length_toList]
  omega

@[simp] theorem length_active (s : CallStack) : s.active.length = s.depth + 1 := by
  simp [active]

theorem depth_of_active {s : CallStack} {f : Frame} {below : List Frame}
    (h : s.active = f :: below) : s.depth = below.length := by
  have := congrArg List.length h
  simpa using this

/-- The active frames in the order of the arena. -/
theorem reverse_active (s : CallStack) : s.active.reverse = s.frames.toList.take (s.depth + 1) := by
  have h := s.depth_lt_size
  rw [active, callers, List.reverse_cons, List.reverse_reverse, current,
    List.take_succ_eq_append_getElem (by simpa using h)]
  simp

/-- Counted from below, the active frames are those of the arena. -/
theorem getElem?_reverse_active {d : Nat} (hd : d ≤ s.depth) :
    s.active.reverse[d]? = s.frames[d]? := by
  rw [reverse_active, List.getElem?_take_of_lt (by omega)]
  simp

theorem active_eq (h : s.frames.toList.take (s.depth + 1) = t.frames.toList.take (t.depth + 1)) :
    s.active = t.active := by
  rw [← List.reverse_inj, reverse_active, reverse_active, h]

/-- Stacks with the same active frames have the same depth and the same frame at each depth up to
it. -/
theorem active_eq_iff :
    s.active = t.active ↔ s.depth = t.depth ∧ ∀ d, d ≤ t.depth → s.frames[d]? = t.frames[d]? := by
  have hs := s.depth_lt_size
  have ht := t.depth_lt_size
  constructor
  · intro h
    have hd : s.depth = t.depth := by
      have := congrArg List.length h
      simpa using this
    refine ⟨hd, ?_⟩
    intro d hle
    rw [← getElem?_reverse_active hle, ← getElem?_reverse_active (hd ▸ hle), h]
  · rintro ⟨hd, hf⟩
    apply active_eq
    apply List.ext_getElem?
    intro d
    rw [hd]
    by_cases hlt : d < t.depth + 1
    · rw [List.getElem?_take_of_lt hlt, List.getElem?_take_of_lt hlt]
      simpa using hf d (by omega)
    · rw [List.getElem?_take_eq_none (by omega), List.getElem?_take_eq_none (by omega)]

theorem callers_push (s : CallStack) (f : Frame) : (s.push f).callers = s.active := by
  have h := s.depth_lt_size
  rw [← List.reverse_inj, reverse_active, callers, List.reverse_reverse, depth_push]
  unfold push
  split
  next hlt =>
    simp only [Array.toList_set]
    rw [List.take_set_of_le (Nat.le_refl _)]
  next hge =>
    simp [List.take_append_of_le_length
      (show s.depth + 1 ≤ s.frames.toList.length by simpa using h)]

@[simp] theorem active_push (s : CallStack) (f : Frame) : (s.push f).active = f :: s.active := by
  rw [active, current_push, callers_push]

@[simp] theorem depth_modifyCurrent (s : CallStack) (g : Frame → Frame) :
    (s.modifyCurrent g).depth = s.depth :=
  rfl

@[simp] theorem current_modifyCurrent (s : CallStack) (g : Frame → Frame) :
    (s.modifyCurrent g).current = g s.current := by
  simp [current, modifyCurrent, Array.getElem_modify]

@[simp] theorem callers_modifyCurrent (s : CallStack) (g : Frame → Frame) :
    (s.modifyCurrent g).callers = s.callers := by
  have h := s.depth_lt_size
  rw [callers, callers, List.reverse_inj]
  apply List.ext_getElem?
  intro d
  by_cases hlt : d < s.depth
  · rw [depth_modifyCurrent, List.getElem?_take_of_lt hlt, List.getElem?_take_of_lt hlt]
    simp only [modifyCurrent, Array.getElem?_toList, Array.getElem?_modify]
    rw [if_neg (by omega)]
  · rw [depth_modifyCurrent, List.getElem?_take_eq_none (by omega),
      List.getElem?_take_eq_none (by omega)]

@[simp] theorem active_modifyCurrent (s : CallStack) (g : Frame → Frame) :
    (s.modifyCurrent g).active = g s.current :: s.callers := by
  rw [active, current_modifyCurrent, callers_modifyCurrent]

/-- Leaving the current frame succeeds when a frame is below it, and makes that one current. -/
theorem pop_of_active {rest : List Frame} (h : s.active = f :: g :: rest) :
    ∃ t, s.pop = .ok (f, t) ∧ t.active = g :: rest := by
  obtain ⟨hf, hc⟩ := List.cons.inj h
  have hd : 0 < s.depth := by
    have := congrArg List.length hc
    simp at this
    omega
  have hlt := s.depth_lt_size
  refine ⟨_, by rw [pop, if_pos hd, hf], ?_⟩
  rw [← hc, ← List.reverse_inj, reverse_active, callers, List.reverse_reverse]
  show s.frames.toList.take (s.depth - 1 + 1) = _
  rw [Nat.sub_add_cancel hd]

/-- Replacing the current frame and its caller succeeds when that one has a caller itself. -/
theorem collapse_of_active {g' : Frame} {rest : List Frame} (h : s.active = f :: g :: g' :: rest)
    (c : Frame) : ∃ t, s.collapse c = .ok t ∧ t.active = c :: g' :: rest := by
  obtain ⟨hf, hc⟩ := List.cons.inj h
  have hd : s.depth = rest.length + 2 := by
    have := congrArg List.length hc
    simpa using this
  have hlt := s.depth_lt_size
  have hone : 1 < s.depth := by omega
  refine ⟨_, by rw [collapse, dif_pos hone], ?_⟩
  have htake : s.frames.toList.take s.depth = rest.reverse ++ [g', g] := by
    have := congrArg List.reverse hc
    simpa [callers] using this
  have hless : s.frames.toList.take (s.depth - 1) = rest.reverse ++ [g'] := by
    have := congrArg (List.take (s.depth - 1)) htake
    rw [List.take_take, Nat.min_eq_left (by omega)] at this
    rw [this, show s.depth - 1 = (rest.reverse ++ [g']).length by simp; omega,
      show rest.reverse ++ [g', g] = (rest.reverse ++ [g']) ++ [g] by simp, List.take_left]
  rw [active, List.cons.injEq]
  refine ⟨by simp [current], ?_⟩
  rw [← List.reverse_inj, callers, List.reverse_reverse]
  simp only [Array.toList_set]
  rw [List.take_set_of_le (Nat.le_refl _), hless]
  simp

/-- Going back to a depth keeps the frames up to it. -/
theorem active_truncate {above below : List Frame} {d : Nat} (h : s.active = above ++ below)
    (hd : below.length = d + 1) : (s.truncate d).active = below := by
  have hlen := congrArg List.length h
  simp only [length_active, List.length_append] at hlen
  have hle : d ≤ s.depth := by omega
  have hr := reverse_active s
  rw [h, List.reverse_append] at hr
  have ht := congrArg (List.take (d + 1)) hr
  rw [List.take_take, Nat.min_eq_left (by omega), ← hd, ← List.length_reverse, List.take_left] at ht
  rw [← List.reverse_inj, reverse_active]
  show s.frames.toList.take (min s.depth d + 1) = _
  rw [Nat.min_eq_right hle, ← hd, ← List.length_reverse]
  exact ht.symm

/-- The frames above a depth are those in front of the ones up to it. -/
theorem activeAbove_eq {above below : List Frame} {d : Nat} (h : s.active = above ++ below)
    (hd : below.length = d + 1) : s.activeAbove d = .ok above := by
  have hlength := congrArg List.length h
  simp only [length_active, List.length_append] at hlength
  have hlt := s.depth_lt_size
  have hreverse := reverse_active s
  rw [h, List.reverse_append] at hreverse
  have hdrop := congrArg (List.drop (d + 1)) hreverse
  rw [← hd, ← List.length_reverse, List.drop_left] at hdrop
  rw [activeAbove, if_pos (by omega), ← List.reverse_reverse above, hdrop, List.length_reverse, hd,
    Array.toList_extract, List.extract_eq_take_drop, List.take_drop,
    show d + 1 + (s.depth + 1 - (d + 1)) = s.depth + 1 by omega]

theorem previous?_of_active {rest : List Frame} (h : s.active = f :: g :: rest) :
    s.previous? = some g := by
  obtain ⟨hf, hc⟩ := List.cons.inj h
  have hd : s.depth = rest.length + 1 := by
    have := congrArg List.length hc
    simpa using this
  have hr := congrArg (fun l : List Frame => l.reverse[rest.length]?) hc
  simp only [callers, List.reverse_reverse, List.reverse_cons] at hr
  rw [List.getElem?_take_of_lt (by omega)] at hr
  simp only [previous?, hd]
  simpa using hr

end CallStack

end LuaMachine
