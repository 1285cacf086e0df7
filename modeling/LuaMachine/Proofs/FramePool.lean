import LuaMachine.Proofs.ActiveFrames

/-!
# The arena of frames is a stack

A frame that returns leaves its place in the arena, and the places above the depth still hold what
they held. Whoever uses the frames only through their operations cannot tell: all they see is what
an ordinary stack shows that forgets a frame when it is left. In particular nothing that lies above
the depth is ever seen again.
-/
namespace LuaMachine

/-! ## Stacks and what they show -/

/-- What can be done to a stack of frames. -/
inductive FrameOp where
  | push (f : Frame)
  | pop
  | collapse (f : Frame)
  | truncate (depth : Nat)
  | modifyCurrent (g : Frame → Frame)
  | modifyPrevious (g : Frame → Frame)

/-- What can be seen of a stack of frames. -/
structure FrameView where
  depth : Nat
  current : Frame
  previous? : Option Frame
  above : Nat → Checked (List Frame)

/-- A way to keep a stack of frames. An operation may give a frame back. -/
structure FrameStack (σ : Type) where
  apply : FrameOp → σ → Checked (Option Frame × σ)
  view : σ → FrameView

/-- What is seen at first and after each of a sequence of operations, up to one that has no
result. -/
def FrameStack.history {σ : Type} (S : FrameStack σ) (given : Option Frame) (s : σ) :
    List FrameOp → List (Checked (Option Frame × FrameView))
  | [] => [.ok (given, S.view s)]
  | op :: ops =>
    .ok (given, S.view s) ::
      match S.apply op s with
      | .ok (given, t) => S.history given t ops
      | .error why => [.error why]

/-- The arena, whose places are used again. -/
def CallStack.arena : FrameStack CallStack where
  apply op s :=
    match op with
    | .push f => .ok (none, s.push f)
    | .pop => s.pop.map fun p => (some p.1, p.2)
    | .collapse f => (s.collapse f).map fun t => (none, t)
    | .truncate depth => .ok (none, s.truncate depth)
    | .modifyCurrent g => .ok (none, s.modifyCurrent g)
    | .modifyPrevious g => .ok (none, s.modifyPrevious g)
  view s := ⟨s.depth, s.current, s.previous?, s.activeAbove⟩

/-- An ordinary stack of frames. It holds the current frame and its callers, innermost first, and
nothing else. -/
structure PlainFrames where
  current : Frame
  callers : List Frame

namespace PlainFrames

def depth (p : PlainFrames) : Nat := p.callers.length

def push (p : PlainFrames) (f : Frame) : PlainFrames := ⟨f, p.current :: p.callers⟩

def pop (p : PlainFrames) : Checked (Frame × PlainFrames) :=
  match p.callers with
  | caller :: rest => .ok (p.current, ⟨caller, rest⟩)
  | [] => .error (.fault .hostFramePopped)

/-- Forgets the two innermost frames and puts one in their place. -/
def collapse (p : PlainFrames) (f : Frame) : Checked PlainFrames :=
  match p.callers with
  | _ :: caller :: rest => .ok ⟨f, caller :: rest⟩
  | _ => .error (.fault .collapseWithoutCaller)

/-- Forgets the innermost frames until at most `depth` callers are left. -/
def forget (depth : Nat) (current : Frame) : List Frame → PlainFrames
  | [] => ⟨current, []⟩
  | caller :: rest =>
    if (caller :: rest).length ≤ depth then ⟨current, caller :: rest⟩ else forget depth caller rest

def modifyCurrent (p : PlainFrames) (g : Frame → Frame) : PlainFrames :=
  { p with current := g p.current }

def modifyPrevious (p : PlainFrames) (g : Frame → Frame) : PlainFrames :=
  { p with callers := p.callers.modifyHead g }

/-- The frames above a depth, innermost first. -/
def above (p : PlainFrames) (depth : Nat) : Checked (List Frame) :=
  if depth ≤ p.depth then .ok ((p.current :: p.callers).take (p.depth - depth))
  else .error (.fault .range)

/-- The ordinary stack, without places. -/
def stack : FrameStack PlainFrames where
  apply op p :=
    match op with
    | .push f => .ok (none, p.push f)
    | .pop => p.pop.map fun q => (some q.1, q.2)
    | .collapse f => (p.collapse f).map fun q => (none, q)
    | .truncate depth => .ok (none, forget depth p.current p.callers)
    | .modifyCurrent g => .ok (none, p.modifyCurrent g)
    | .modifyPrevious g => .ok (none, p.modifyPrevious g)
  view p := ⟨p.depth, p.current, p.callers.head?, p.above⟩

theorem forget_eq (depth : Nat) (current : Frame) (callers : List Frame) :
    (forget depth current callers).current :: (forget depth current callers).callers =
      (current :: callers).drop (callers.length - depth) := by
  induction callers generalizing current with
  | nil => simp [forget]
  | cons caller rest ih =>
    unfold forget
    by_cases hle : (caller :: rest).length ≤ depth
    · rw [if_pos hle, Nat.sub_eq_zero_of_le hle, List.drop_zero]
    · have hlength : (caller :: rest).length - depth = (rest.length - depth) + 1 := by
        simp only [List.length_cons] at hle ⊢
        omega
      rw [if_neg hle, ih, hlength, List.drop_succ_cons]

end PlainFrames

/-! ## The arena shows an ordinary stack -/

namespace CallStack
variable {s t : CallStack}

/-- The ordinary stack that an arena stands for. -/
def plain (s : CallStack) : PlainFrames := ⟨s.current, s.callers⟩

@[simp] theorem depth_plain (s : CallStack) : s.plain.depth = s.depth := s.length_callers

theorem plain_eq_of_active {p : PlainFrames} (h : s.active = p.current :: p.callers) :
    s.plain = p := by
  obtain ⟨hcurrent, hcallers⟩ := List.cons.inj h
  rw [plain, hcurrent, hcallers]

theorem depth_eq_of_callers {l : List Frame} (h : s.callers = l) : s.depth = l.length := by
  rw [← s.length_callers, h]

theorem plain_push (s : CallStack) (f : Frame) : (s.push f).plain = s.plain.push f :=
  plain_eq_of_active (s.active_push f)

theorem plain_modifyCurrent (s : CallStack) (g : Frame → Frame) :
    (s.modifyCurrent g).plain = s.plain.modifyCurrent g :=
  plain_eq_of_active (s.active_modifyCurrent g)

theorem plain_modifyPrevious (s : CallStack) (g : Frame → Frame) :
    (s.modifyPrevious g).plain = s.plain.modifyPrevious g := by
  have hlt := s.depth_lt_size
  cases hc : s.callers with
  | nil =>
    have hd : s.depth = 0 := depth_eq_of_callers hc
    have hsame : s.modifyPrevious g = s := by
      cases s
      simp_all [modifyPrevious]
    rw [hsame, plain, PlainFrames.modifyPrevious, hc, List.modifyHead_nil]
  | cons caller rest =>
    have hd : s.depth = rest.length + 1 := depth_eq_of_callers hc
    have htake : s.frames.toList.take s.depth = rest.reverse ++ [caller] := by
      have := congrArg List.reverse hc
      simpa [callers] using this
    have hcallers : (s.modifyPrevious g).callers = g caller :: rest := by
      have hmodified : (s.modifyPrevious g).frames.toList.take s.depth =
          rest.reverse ++ [g caller] := by
        simp only [modifyPrevious, hd, Nat.succ_ne_zero, if_false, Array.toList_modify,
          List.take_modify]
        rw [← hd, htake, hd, Nat.add_sub_cancel, List.modify_eq_take_drop]
        simp
      show ((s.modifyPrevious g).frames.toList.take s.depth).reverse = _
      simp [hmodified]
    have hcurrent : (s.modifyPrevious g).current = s.current := by
      simp [current, modifyPrevious, hd, Array.getElem_modify]
    simp only [plain, hcurrent, hcallers, PlainFrames.modifyPrevious, hc, List.modifyHead_cons]

/-- Leaving the current frame fails for the host alone, and else makes the caller current. -/
theorem pop_plain (s : CallStack) : s.pop.map (fun p => (p.1, p.2.plain)) = s.plain.pop := by
  cases hc : s.callers with
  | nil => simp [pop, depth_eq_of_callers hc, PlainFrames.pop, plain, hc, Except.map]
  | cons caller rest =>
    have hactive : s.active = s.current :: caller :: rest := by rw [active, hc]
    obtain ⟨t, hpop, ht⟩ := pop_of_active hactive
    obtain ⟨hcurrent, hcallers⟩ := List.cons.inj ht
    simp only [hpop, Except.map, PlainFrames.pop, plain, hc, hcurrent, hcallers]

/-- Replacing two frames fails where the caller is the host or there is none. -/
theorem collapse_plain (s : CallStack) (f : Frame) :
    (s.collapse f).map plain = s.plain.collapse f := by
  rcases hc : s.callers with _ | ⟨g, _ | ⟨g', rest⟩⟩
  · simp [collapse, depth_eq_of_callers hc, PlainFrames.collapse, plain, hc, Except.map]
  · simp [collapse, depth_eq_of_callers hc, PlainFrames.collapse, plain, hc, Except.map]
  · have hactive : s.active = s.current :: g :: g' :: rest := by rw [active, hc]
    obtain ⟨t, hcollapse, ht⟩ := collapse_of_active hactive f
    obtain ⟨hcurrent, hcallers⟩ := List.cons.inj ht
    simp only [hcollapse, Except.map, PlainFrames.collapse, plain, hc, hcurrent, hcallers]

theorem plain_truncate (s : CallStack) (d : Nat) :
    (s.truncate d).plain = PlainFrames.forget d s.current s.callers := by
  apply plain_eq_of_active
  rw [PlainFrames.forget_eq, length_callers]
  show _ = s.active.drop (s.depth - d)
  by_cases hd : d ≤ s.depth
  · apply active_truncate (List.take_append_drop (s.depth - d) s.active).symm
    rw [List.length_drop, length_active]
    omega
  · have hsame : s.truncate d = s := by
      cases s
      simp_all [truncate]
      omega
    rw [hsame, Nat.sub_eq_zero_of_le (by omega), List.drop_zero]

theorem previous?_eq_head? (s : CallStack) : s.previous? = s.callers.head? := by
  cases hc : s.callers with
  | nil => simp [previous?, depth_eq_of_callers hc]
  | cons caller rest =>
    have hactive : s.active = s.current :: caller :: rest := by rw [active, hc]
    rw [previous?_of_active hactive, List.head?_cons]

theorem activeAbove_plain (s : CallStack) : s.activeAbove = s.plain.above := by
  funext d
  by_cases hd : d ≤ s.depth
  · have hlength : (s.active.drop (s.depth - d)).length = d + 1 := by
      rw [List.length_drop, length_active]
      omega
    rw [activeAbove_eq (List.take_append_drop (s.depth - d) s.active).symm hlength,
      PlainFrames.above, depth_plain, if_pos hd]
    rfl
  · rw [activeAbove, if_neg hd, PlainFrames.above, depth_plain, if_neg hd]

theorem view_plain (s : CallStack) : arena.view s = PlainFrames.stack.view s.plain := by
  show FrameView.mk _ _ _ _ = FrameView.mk _ _ _ _
  rw [depth_plain, previous?_eq_head?, activeAbove_plain]
  rfl

/-- An operation on the arena is the same operation on the ordinary stack. -/
theorem apply_plain (op : FrameOp) (s : CallStack) :
    (arena.apply op s).map (fun p => (p.1, p.2.plain)) = PlainFrames.stack.apply op s.plain := by
  cases op with
  | push f => exact congrArg (fun p => Except.ok (none, p)) (plain_push s f)
  | truncate d => exact congrArg (fun p => Except.ok (none, p)) (plain_truncate s d)
  | modifyCurrent g => exact congrArg (fun p => Except.ok (none, p)) (plain_modifyCurrent s g)
  | modifyPrevious g => exact congrArg (fun p => Except.ok (none, p)) (plain_modifyPrevious s g)
  | pop =>
    simp only [arena, PlainFrames.stack, ← pop_plain]
    cases s.pop <;> rfl
  | collapse f =>
    simp only [arena, PlainFrames.stack, ← collapse_plain]
    cases s.collapse f <;> rfl

/-- Whatever is done to the arena, it shows what the ordinary stack shows. -/
theorem history_plain (given : Option Frame) (s : CallStack) (ops : List FrameOp) :
    arena.history given s ops = PlainFrames.stack.history given s.plain ops := by
  induction ops generalizing given s with
  | nil => rw [FrameStack.history, FrameStack.history, view_plain]
  | cons op ops ih =>
    rw [FrameStack.history, FrameStack.history, view_plain, ← apply_plain]
    cases arena.apply op s with
    | error why => rfl
    | ok p => exact congrArg _ (ih p.1 p.2)

theorem pop_eq_error_iff (s : CallStack) : (∃ why, s.pop = .error why) ↔ s.depth = 0 := by
  unfold pop
  by_cases hd : 0 < s.depth
  · simp [hd]
    omega
  · simp [hd]
    omega

theorem collapse_eq_error_iff (s : CallStack) (f : Frame) :
    (∃ why, s.collapse f = .error why) ↔ s.depth ≤ 1 := by
  unfold collapse
  by_cases hd : 1 < s.depth
  · simp [hd]
  · simp [hd]
    omega

/-- From a new arena on, every sequence of operations shows exactly what it shows on an ordinary
stack that holds the frame of the host. Leaving a frame fails at depth zero only, and replacing two
frames at depth zero or one only. Nothing in the places above the depth ever shows: with anything
else there, and with any number of places, all that is seen later is the same. -/
theorem arena_refines_plain (hostTop : Nat) (ops : List FrameOp) :
    arena.history none (new hostTop) ops =
      PlainFrames.stack.history none ⟨{ top := hostTop }, []⟩ ops ∧ ∀ s : CallStack,
        ((∃ why, s.pop = .error why) ↔ s.depth = 0) ∧
        (∀ f, (∃ why, s.collapse f = .error why) ↔ s.depth ≤ 1) ∧
        ∀ t : CallStack, t.depth = s.depth → (∀ d, d ≤ s.depth → t.frames[d]? = s.frames[d]?) →
          ∀ given, arena.history given t ops = arena.history given s ops := by
  constructor
  · exact history_plain none (new hostTop) ops
  · intro s
    refine ⟨pop_eq_error_iff s, collapse_eq_error_iff s, ?_⟩
    intro t hdepth hframes given
    have hactive : t.active = s.active := active_eq_iff.mpr ⟨hdepth, hframes⟩
    have hplain : t.plain = s.plain := plain_eq_of_active hactive
    rw [history_plain, history_plain, hplain]

/-- An arena that a call has returned to. The frame of the call still lies above the depth. -/
def vacated : CallStack where
  frames := #[{ top := 3 }, { func := 3, base := 4, top := 9, pc := 5, status := { lua := true } }]
  depth := 0
  depth_lt_size := by decide

/-- Calls made from there look as they would in a new arena. -/
theorem arena_refines_plain_vacated :
    vacated.depth = (new 3).depth ∧
      (∀ d, d ≤ (new 3).depth → vacated.frames[d]? = (new 3).frames[d]?) ∧
      vacated.frames[1]? ≠ (new 3).frames[1]? ∧
      arena.history none vacated [.push { func := 3 }, .push { func := 5 },
        .collapse { func := 3, pc := 1 }, .pop] =
        arena.history none (new 3) [.push { func := 3 }, .push { func := 5 },
          .collapse { func := 3, pc := 1 }, .pop] := by
  have hframes : ∀ d, d ≤ (new 3).depth → vacated.frames[d]? = (new 3).frames[d]? := by
    intro d hd
    obtain rfl : d = 0 := Nat.le_zero.mp hd
    rfl
  exact ⟨rfl,
    hframes, by decide, ((arena_refines_plain 3 _).2 (new 3)).2.2 vacated rfl hframes none⟩

end CallStack

end LuaMachine
