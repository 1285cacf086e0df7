import LuaMachine.Proofs.Running

/-!
# The moment a cell is closed

A cell that is closed takes the value that its slot has at that moment. A return closes the
registers of its frame before it moves its results, a tail call closes those of its caller before it
moves its arguments, and whatever else closes upvalues, a jump or an error, does so as the last
thing in its step. So for every cell that a step closes there is a state in which to read the value
that it has taken.
-/
namespace LuaMachine

open Relation (ReflTransGen)
open Exec (Keeps Post)

namespace Vm

/-! ## What becomes of the cells -/

/-- The cell with the number `i`, if there is one. -/
def cell? (vm : Vm) (i : Nat) : Option Cell := vm.upvalues.cells[i]?

/-- What became of every cell. An open one stays open or takes the value that its slot had at a
moment, a closed one stays closed, and a new one is open. -/
structure Accounted (moment : Nat → Vm) (vm after : Vm) : Prop where
  opened : ∀ i s, vm.cell? i = some (.opened s) →
    after.cell? i = some (.opened s) ∨ after.cell? i = some (.closed ((moment s).peek s))
  closed : ∀ i v, vm.cell? i = some (.closed v) → ∃ w, after.cell? i = some (.closed w)
  made : ∀ i c, vm.cell? i = none → after.cell? i = some c → ∃ s, c = .opened s

/-- Upvalues are closed, or neither they nor the registers change. -/
inductive Settle : Vm → Vm → Prop
  | close {vm : Vm} (level : Nat) : Settle vm (vm.closeFrom level)
  | still {vm after : Vm} (hs : after.stack = vm.stack) (hu : after.upvalues = vm.upvalues) :
      Settle vm after

/-- The registers are as they were. So is every cell, except that an open one may have been
closed. -/
structure Settled (vm after : Vm) : Prop where
  sound : after.upvalues.Sound
  stack : after.stack = vm.stack
  cells : ∀ i, after.cell? i = vm.cell? i ∨
    ∃ s, vm.cell? i = some (.opened s) ∧ after.cell? i = some (.closed (after.peek s))

/-- Upvalues are closed after everything else, so that their values are still in the registers. -/
def Ending (vm after : Vm) : Prop :=
  ∃ mid, mid.upvalues = vm.upvalues ∧ ReflTransGen Settle mid after

section Cells
variable {vm mid after : Vm} {level base i s : Nat} {moment : Nat → Vm}

theorem cell?_eq_of_upvalues (h : after.upvalues = vm.upvalues) (i : Nat) :
    after.cell? i = vm.cell? i := by
  rw [cell?, cell?, h]

theorem peek_eq_of_stack (h : after.stack = vm.stack) (s : Nat) : after.peek s = vm.peek s := by
  rw [peek, peek, h]

theorem cell?_closeFrom (hu : vm.upvalues.Sound) (level i : Nat) :
    (vm.closeFrom level).cell? i = (vm.cell? i).map (Cell.closedAt level vm.stack.slots) :=
  Upvalues.getElem?_cells_close hu i

/-- Closing at a level closes an open cell from there on, with the value of its slot. -/
theorem cell?_closeFrom_of_opened (hu : vm.upvalues.Sound) (level : Nat)
    (h : vm.cell? i = some (.opened s)) :
    (vm.closeFrom level).cell? i = some (if level ≤ s then .closed (vm.peek s) else .opened s) := by
  rw [cell?_closeFrom hu, h]
  rfl

theorem Settled.close (h : Settled vm mid) (level : Nat) : Settled vm (mid.closeFrom level) := by
  refine ⟨h.sound.close _ _, h.stack, fun i => ?_⟩
  cases hc : mid.cell? i with
  | none =>
    rcases h.cells i with hi | ⟨s, -, hi⟩
    · exact .inl (by rw [cell?_closeFrom h.sound, hc, ← hi, hc]; rfl)
    · simp [hc] at hi
  | some c =>
    cases c with
    | closed v =>
      have hclosed : (mid.closeFrom level).cell? i = some (.closed v) := by
        rw [cell?_closeFrom h.sound, hc]
        rfl
      rcases h.cells i with hi | ⟨s, hv, hi⟩
      · exact .inl (by rw [hclosed, ← hi, hc])
      · exact .inr ⟨s, hv, by rw [hclosed, ← hc, hi]; rfl⟩
    | opened s =>
      -- A cell that is still open was open at the same slot before.
      have hv : vm.cell? i = some (.opened s) := by
        rcases h.cells i with hi | ⟨s', -, hi⟩
        · rw [← hi, hc]
        · simp [hc] at hi
      have hclosed := cell?_closeFrom_of_opened h.sound level hc
      by_cases hl : level ≤ s
      · rw [if_pos hl] at hclosed
        exact .inr ⟨s, hv, hclosed⟩
      · rw [if_neg hl] at hclosed
        exact .inl (by rw [hclosed, hv])

theorem Settled.still (h : Settled vm mid) (hs : after.stack = mid.stack)
    (hu : after.upvalues = mid.upvalues) : Settled vm after := by
  refine ⟨by rw [hu]; exact h.sound, hs.trans h.stack, fun i => ?_⟩
  rw [cell?_eq_of_upvalues hu]
  rcases h.cells i with hi | ⟨s, hv, hi⟩
  · exact .inl hi
  · exact .inr ⟨s, hv, by rw [hi, peek_eq_of_stack hs]⟩

theorem settled_of_settles (hu : vm.upvalues.Sound) (h : ReflTransGen Settle vm after) :
    Settled vm after := by
  induction h with
  | refl => exact ⟨hu, rfl, fun _ => .inl rfl⟩
  | tail _ hs ih =>
    cases hs with
    | close level => exact ih.close level
    | still hs hu => exact ih.still hs hu

theorem settles_of_closes (h : ReflTransGen (Close base) vm after) :
    ReflTransGen Settle vm after := by
  refine ReflTransGen.mono (fun _ _ hc => ?_) _ _ h
  cases hc with
  | close _ => exact .close _
  | move _ _ => exact .still rfl rfl

theorem Ending.of_upvalues (h : after.upvalues = vm.upvalues) : Ending vm after := ⟨after, h, .refl⟩

theorem Ending.head (h : mid.upvalues = vm.upvalues) (h' : Ending mid after) : Ending vm after := by
  obtain ⟨start, hs, hsettle⟩ := h'
  exact ⟨start, hs.trans h, hsettle⟩

theorem Ending.tail (h : Ending vm mid) (h' : ReflTransGen Settle mid after) : Ending vm after := by
  obtain ⟨start, hs, hsettle⟩ := h
  exact ⟨start, hs, hsettle.trans h'⟩

theorem Ending.of_finished (h : Finished base vm after) : Ending vm after := by
  obtain ⟨mid, hw, hc⟩ := h
  exact ⟨mid, upvalues_of_works hw, settles_of_closes hc⟩

theorem Ending.cells (hu : vm.upvalues.Sound) (h : Ending vm after) (i : Nat) :
    after.cell? i = vm.cell? i ∨
      ∃ s, vm.cell? i = some (.opened s) ∧ after.cell? i = some (.closed (after.peek s)) := by
  obtain ⟨mid, hm, hsettle⟩ := h
  rw [← cell?_eq_of_upvalues hm i]
  exact (settled_of_settles (by rw [hm]; exact hu) hsettle).cells i

/-- In the end, an open cell is still open or has the value that its slot has in the end. -/
theorem Ending.cell?_of_opened (hu : vm.upvalues.Sound) (h : Ending vm after)
    (hi : vm.cell? i = some (.opened s)) :
    after.cell? i = some (.opened s) ∨ after.cell? i = some (.closed (after.peek s)) := by
  rcases h.cells hu i with ha | ⟨s', hs', ha⟩
  · exact .inl (ha.trans hi)
  · rw [hi] at hs'
    cases hs'
    exact .inr ha

theorem Ending.cell?_of_closed {v : Value} (hu : vm.upvalues.Sound) (h : Ending vm after)
    (hi : vm.cell? i = some (.closed v)) : after.cell? i = some (.closed v) := by
  rcases h.cells hu i with ha | ⟨s, hs, -⟩
  · exact ha.trans hi
  · simp [hi] at hs

theorem Ending.cell?_of_none (hu : vm.upvalues.Sound) (h : Ending vm after)
    (hi : vm.cell? i = none) : after.cell? i = none := by
  rcases h.cells hu i with ha | ⟨s, hs, -⟩
  · exact ha.trans hi
  · simp [hi] at hs

theorem accounted_of_ending (hu : vm.upvalues.Sound) (h : Ending vm after) :
    Accounted (fun _ => after) vm after where
  opened := fun _ _ hi => h.cell?_of_opened hu hi
  closed := fun _ v hi => ⟨v, h.cell?_of_closed hu hi⟩
  made := fun _ _ hi ha => by simp [h.cell?_of_none hu hi] at ha

/-- The cells at or above a level were closed first, the others in the end. -/
theorem accounted_of_closeFrom (hu : vm.upvalues.Sound)
    (hc : mid.upvalues = (vm.closeFrom level).upvalues) (h : Ending mid after) :
    Accounted (fun s => if level ≤ s then vm else after) vm after := by
  have hsound : mid.upvalues.Sound := by
    rw [hc]
    exact hu.close _ _
  have hmid : ∀ i, mid.cell? i = (vm.cell? i).map (Cell.closedAt level vm.stack.slots) := by
    intro i
    rw [cell?_eq_of_upvalues hc, cell?_closeFrom hu]
  refine ⟨?_, ?_, ?_⟩
  · intro i s hi
    have hclosed : mid.cell? i = some (if level ≤ s then .closed (vm.peek s) else .opened s) := by
      rw [hmid, hi]
      rfl
    by_cases hl : level ≤ s
    · rw [if_pos hl] at hclosed ⊢
      exact .inr (h.cell?_of_closed hsound hclosed)
    · rw [if_neg hl] at hclosed ⊢
      exact h.cell?_of_opened hsound hclosed
  · intro i v hi
    have hclosed : mid.cell? i = some (.closed v) := by
      rw [hmid, hi]
      rfl
    exact ⟨v, h.cell?_of_closed hsound hclosed⟩
  · intro i c hi ha
    have hnone : mid.cell? i = none := by
      rw [hmid, hi]
      rfl
    simp [h.cell?_of_none hsound hnone] at ha

/-- Making a closure closes nothing, and what it captures is open. -/
theorem accounted_of_makes (h : ReflTransGen (Make base) vm after) : Accounted moment vm after := by
  have hkept : ∀ i, after.cell? i = vm.cell? i ∨ vm.cell? i = none ∧ ∃ s,
      after.cell? i = some (.opened s) := by
    intro i
    induction h with
    | refl => exact .inl rfl
    | @tail mid after _ hm ih =>
      cases hm with
      | work hw => rwa [cell?_eq_of_upvalues (upvalues_of_works (.single hw))]
      | @capture slot _ =>
        let made : Vm := { mid with upvalues := (mid.upvalues.capture slot).2 }
        show made.cell? i = _ ∨ _ ∧ ∃ s, made.cell? i = _
        cases hc : mid.cell? i with
        | some c =>
          have hkeep : made.cell? i = mid.cell? i :=
            (Upvalues.getElem?_cells_capture hc).trans hc.symm
          rwa [hkeep]
        | none =>
          have hv : vm.cell? i = none := by
            rcases ih with hi | ⟨hv, -⟩
            · rw [← hi, hc]
            · exact hv
          cases hnew : made.cell? i with
          | none => exact .inl hv.symm
          | some c =>
            obtain rfl := Upvalues.eq_opened_of_capture hc hnew
            exact .inr ⟨hv, slot, rfl⟩
  refine ⟨?_, ?_, ?_⟩
  · intro i s hi
    rcases hkept i with ha | ⟨hn, -⟩
    · exact .inl (ha.trans hi)
    · simp [hn] at hi
  · intro i v hi
    rcases hkept i with ha | ⟨hn, -⟩
    · exact ⟨v, ha.trans hi⟩
    · simp [hn] at hi
  · intro i c hi hc
    rcases hkept i with ha | ⟨-, s, ha⟩
    · simp [ha, hi] at hc
    · rw [ha] at hc
      exact ⟨s, (Option.some.inj hc).symm⟩

theorem accounted_of_upvalues (h : after.upvalues = vm.upvalues) : Accounted moment vm after := by
  have hcell : ∀ i, after.cell? i = vm.cell? i := cell?_eq_of_upvalues h
  refine ⟨fun i s hi => .inl ((hcell i).trans hi), fun i v hi => ⟨v, (hcell i).trans hi⟩, ?_⟩
  intro i c hi ha
  simp [hcell, hi] at ha

/-- Assigning an upvalue closes nothing. -/
theorem accounted_of_writeUpvalue {r : CellRef} {v : Value}
    (h : writeUpvalue r v vm = .returned () after) : Accounted moment vm after := by
  unfold writeUpvalue at h
  cases hr : vm.upvalues.cell r with
  | opened slot =>
    simp only [hr] at h
    cases h
    exact accounted_of_upvalues rfl
  | closed w =>
    simp only [hr] at h
    cases h
    have hother : ∀ i, i ≠ r.index →
        (vm.upvalues.cells.setIfInBounds r.index (.closed v))[i]? = vm.upvalues.cells[i]? :=
      fun i hi => Array.getElem?_setIfInBounds_ne hi.symm
    refine ⟨?_, ?_, ?_⟩
    · intro i s hi
      have hne : i ≠ r.index := by
        rintro rfl
        rw [Upvalues.cell_eq_opened.mpr hi] at hr
        cases hr
      exact .inl ((hother i hne).trans hi)
    · intro i u hi
      by_cases he : i = r.index
      · have hlt : r.index < vm.upvalues.cells.size := he ▸ (Array.getElem?_eq_some_iff.mp hi).1
        exact ⟨v, by simp [cell?, Upvalues.setClosed, he, hlt]⟩
      · exact ⟨u, (hother i he).trans hi⟩
    · intro i c hi ha
      have hle : vm.upvalues.cells.size ≤ i := Array.getElem?_eq_none_iff.mp hi
      have hlt : i < vm.upvalues.cells.size := by
        simpa [Upvalues.setClosed] using (Array.getElem?_eq_some_iff.mp ha).1
      omega

theorem Accounted.congr {vm' : Vm} (h : Accounted moment vm after)
    (hu : vm'.upvalues = vm.upvalues) : Accounted moment vm' after := by
  have hcell : ∀ i, vm'.cell? i = vm.cell? i := cell?_eq_of_upvalues hu
  refine ⟨?_, ?_, ?_⟩ <;> intro i <;> rw [hcell]
  · exact h.opened i
  · exact h.closed i
  · exact h.made i

end Cells

/-! ## Errors and the beginning of calls -/

theorem failCall_keeps (e : LuaError) (site : CallSite) : (failCall e site).Keeps Settle := by
  intro vm
  have habove : (vm.frames.activeAbove site.depth).Yields fun _ => True := by
    unfold CallStack.activeAbove
    split_ifs
    · trivial
    · rfl
  refine Post.bind
    (Post.modify (Post.bind (Post.look (Post.bind (Post.check (habove.mono fun frames _ => ?_))))))
  refine Post.bind (Post.look ?_)
  refine Post.bind (Post.modify (Post.bind (Post.modify (Post.pure ?_))))
  let counted : Vm := { vm with hostCalls := vm.hostCalls - 1 }
  have hcount : Settle vm counted := .still rfl rfl
  exact .head hcount (.head (.close site.func) (.single (.still rfl rfl)))

/-- A call that begins closes nothing. One that cannot begin closes upvalues in the end. -/
theorem beginCall_ending (slot : Nat) (results : ResultCount) (vm : Vm) :
    (beginCall slot results).Post vm (fun _ after => after.upvalues = vm.upvalues) (Ending vm) := by
  have henter : (do
      precall slot results false
      Exec.modifyFrame fun f => { f with status := { f.status with fresh := true } } :
        Exec Unit).Post { vm with hostCalls := vm.hostCalls + 1 }
        (fun _ after => after.upvalues = vm.upvalues) fun after =>
          after.upvalues = vm.upvalues := by
    refine Post.bind ((precall_post slot results false _).mono ?_ ?_)
    · rintro _ entered - ⟨g, he⟩
      exact Post.modify he.upvalues
    · exact fun after hs => (onlyRegisters_of_shifts hs).upvalues
  unfold Post beginCall
  split_ifs
  · exact .of_upvalues rfl
  dsimp only
  generalize hx : (do
    precall slot results false
    Exec.modifyFrame fun f => { f with status := { f.status with fresh := true } } : Exec Unit) =
      enter at henter ⊢
  cases ho : enter { vm with hostCalls := vm.hostCalls + 1 } with
  | returned _ after => exact henter.of_returned ho
  | aborted why => exact henter.of_aborted ho
  | raised e mid =>
    have hmid : Ending vm mid := .of_upvalues (henter.of_raised ho)
    have hfail := failCall_keeps e ⟨vm.frames.depth, slot⟩ mid
    dsimp only
    cases hf : failCall e ⟨vm.frames.depth, slot⟩ mid with
    | returned e' after => exact hmid.tail (hfail.of_returned hf)
    | raised e' after => exact hmid.tail (hfail.of_raised hf)
    | aborted why => exact hfail.of_aborted hf

end Vm

namespace Run

section Ends
variable {root : Vm.CallSite} {suspended : List Suspended} {vm mid after : Vm} {base : Nat}
  {next : Vm.Next}

theorem abandon_keeps (k : Vm.Resume) : (abandon k).Keeps Vm.Settle := by
  unfold abandon
  split
  · exact Keeps.modify fun _ => .still rfl rfl
  · exact Keeps.pure _

theorem unwindNested_keeps (e : LuaError) (suspended : List Suspended) :
    (unwindNested e suspended).Keeps Vm.Settle := by
  induction suspended generalizing e with
  | nil => exact Keeps.pure _
  | cons s rest ih =>
    refine (Vm.failCall_keeps e s.site).bind fun e' => ?_
    exact (abandon_keeps s.resume).bind fun _ => ih e'

theorem fail_keeps (e : LuaError) (root : Vm.CallSite) (suspended : List Suspended) :
    (fail e root suspended).Keeps Vm.Settle := by
  intro vm
  have hall := ((unwindNested_keeps e suspended).bind fun e' => Vm.failCall_keeps e' root) vm
  unfold Post fail
  dsimp only
  generalize (unwindNested e suspended >>= fun e' => Vm.failCall e' root) = unwindAll at hall ⊢
  cases hx : unwindAll vm with
  | returned e' after => exact hall.of_returned hx
  | raised e' after => exact hall.of_raised hx
  | aborted why => exact hall.of_aborted hx

theorem fail_ending {e : LuaError} (h : (fail e root suspended vm).state? = some after) :
    Vm.Ending vm after :=
  ⟨vm, rfl, (fail_keeps e root suspended vm).of_state? h⟩

theorem nest_ending {k : Vm.Resume} {begin : Exec Vm.CallSite}
    (hb : begin.Post vm (fun _ after => after.upvalues = vm.upvalues) (Vm.Ending vm))
    (h : (nest root suspended k begin vm).state? = some after) : Vm.Ending vm after := by
  unfold nest at h
  cases hx : begin vm with
  | returned site mid =>
    rw [hx] at h
    cases h
    exact .of_upvalues (hb.of_returned hx)
  | raised e mid =>
    rw [hx] at h
    have hfail : (failBefore k e root suspended).Keeps Vm.Settle :=
      (abandon_keeps k).bind fun _ => fail_keeps e root suspended
    exact (hb.of_raised hx).tail ((hfail mid).of_state? h)
  | aborted why =>
    rw [hx] at h
    cases h

/-- What follows an instruction closes upvalues in the end, if at all. -/
theorem follow_ending (h : (follow root suspended vm next).state? = some after) :
    Vm.Ending vm after := by
  cases next with
  | proceed =>
    cases h
    exact .of_upvalues rfl
  | callAt func results k => exact nest_ending (Vm.beginCall_ending func results vm) h
  | invoke handler args k =>
    have hbegin : (beginInvoke handler args).Post vm (fun _ after => after.upvalues = vm.upvalues)
        (Vm.Ending vm) := by
      refine Post.bind (Post.look (Post.bind ?_))
      refine (Vm.pushAll_post (handler :: args) (Nat.zero_le vm.top)).mono (fun _ mid _ hm => ?_)
        fun mid hm => ?_
      · have hsame := (Vm.onlyRegisters_of_shifts hm).upvalues
        refine (Vm.beginCall_ending vm.top .all mid).mono ?_ fun after hend => hend.head hsame
        exact fun _ after _ hafter => hafter.trans hsame
      · exact .of_upvalues (Vm.onlyRegisters_of_shifts hm).upvalues
    exact nest_ending hbegin h

theorem followed_ending (hf : Vm.Followed base vm next mid)
    (h : (follow root suspended mid next).state? = some after) : Vm.Ending vm after := by
  cases hf with
  | closing hd =>
    cases h
    exact .of_finished hd
  | asking _ hw => exact (follow_ending h).head (Vm.upvalues_of_works hw)

end Ends

end Run

end LuaMachine
