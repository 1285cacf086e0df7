import LuaMachine.Proofs.StackTraces
import LuaMachine.Proofs.SwappedComparisons

/-!
# Tail calls in stack traces

Behind a function that was called by a tail call a trace has an entry for tail calls. How many of
them have replaced the frame since its place on the stack was entered is known from the history of
the run, but not from the frame: that has one mark, which the first tail call sets and every later
one leaves set. So the entry is there exactly if the frame was replaced, and it always counts one
tail call, which is right unless the frame was replaced again.
-/
namespace LuaMachine

open Exec (Post)

/-! ## Counting -/

namespace Run
variable {r : Run} {past history history' : List Run} {depth : Nat} {op : Opcode}

/-- The kind of the instruction that a run executes next. -/
def opcode? (r : Run) : Option Opcode :=
  (Vm.beginStep r.vm).result?.bind fun begun => begun.1.instr.op?

/-- A step leaves the frame at a depth where it is: it is made above the frame, or in the frame and
does not return. -/
def occupies (depth : Nat) (r : Run) : Bool :=
  decide (depth < r.vm.callDepth) || (depth == r.vm.callDepth && r.opcode? != some .ret)

/-- A step is a tail call of the frame at a depth. -/
def replaces (depth : Nat) (r : Run) : Bool :=
  depth == r.vm.callDepth && r.opcode? == some .tailCall

/-- How many tail calls have replaced the frame at a depth since the depth was entered. The latest
state of a history comes first. -/
def tailCalls (history : List Run) (depth : Nat) : Nat :=
  (history.takeWhile (occupies depth)).countP (replaces depth)

section Counting

theorem opcode?_of_beginStep {x : Vm.Activation} {mid : Vm}
    (h : Vm.beginStep r.vm = .returned x mid) (hop : x.instr.op? = some op) :
    r.opcode? = some op := by
  rw [opcode?, h]
  exact hop

theorem tailCalls_of_lt (past : List Run) (h : depth < r.vm.callDepth) :
    tailCalls (r :: past) depth = tailCalls past depth := by
  have hne : depth ≠ r.vm.callDepth := Nat.ne_of_lt h
  simp [tailCalls, occupies, replaces, h, hne]

theorem tailCalls_of_gt (past : List Run) (h : r.vm.callDepth < depth) :
    tailCalls (r :: past) depth = 0 := by
  have hne : depth ≠ r.vm.callDepth := Nat.ne_of_gt h
  simp [tailCalls, occupies, hne, Nat.not_lt_of_gt h]

theorem tailCalls_of_return (past : List Run) (h : r.opcode? = some .ret) :
    tailCalls (r :: past) r.vm.callDepth = 0 := by
  simp [tailCalls, occupies, h]

theorem tailCalls_of_tailCall (past : List Run) (h : r.opcode? = some .tailCall) :
    tailCalls (r :: past) r.vm.callDepth = tailCalls past r.vm.callDepth + 1 := by
  simp [tailCalls, occupies, replaces, h]

theorem tailCalls_of_other (past : List Run) (h : r.opcode? = some op) (htail : op ≠ .tailCall)
    (hret : op ≠ .ret) : tailCalls (r :: past) r.vm.callDepth = tailCalls past r.vm.callDepth := by
  simp [tailCalls, occupies, replaces, h, htail, hret]

end Counting

/-! ## Marks and counts -/

/-- Whether frames are marked as called by a tail call, innermost first, agrees with the counts at
their depths. The frame of the host, at the bottom, is not counted. -/
def Tallied (history : List Run) : List Bool → Prop
  | [] => True
  | marked :: below =>
    (0 < below.length → (marked = true ↔ 0 < tailCalls history below.length)) ∧
      Tallied history below

/-- The marks of the frames agree with the counts, and no tail calls are counted above the
frames. -/
structure Counted (history : List Run) (marks : List Bool) : Prop where
  tallied : Tallied history marks
  vacant : ∀ depth, marks.length ≤ depth → tailCalls history depth = 0

section Counted
variable {marks below : List Bool} {marked : Bool}

theorem Tallied.congr (h : Tallied history marks)
    (hd : ∀ depth < marks.length, tailCalls history' depth = tailCalls history depth) :
    Tallied history' marks := by
  induction marks with
  | nil => trivial
  | cons marked below ih =>
    refine ⟨fun hpos => ?_, ih h.2 fun depth hlt => hd depth (Nat.lt_succ_of_lt hlt)⟩
    rw [hd _ (Nat.lt_succ_self _)]
    exact h.1 hpos

theorem Tallied.of_suffix (h : Tallied history marks) (hs : below <:+ marks) :
    Tallied history below := by
  induction marks with
  | nil => rwa [List.suffix_nil.mp hs]
  | cons marked rest ih =>
    rcases List.suffix_cons_iff.mp hs with rfl | hs
    · exact h
    · exact ih h.2 hs

/-- Counted from the innermost frame, which is at the depth `d`. -/
theorem Tallied.of_getElem? {i d : Nat} (h : Tallied history marks) (hd : marks.length = d + 1)
    (hi : i < d) (hm : marks[i]? = some marked) :
    marked = true ↔ 0 < tailCalls history (d - i) := by
  induction marks generalizing i d with
  | nil => cases hd
  | cons top below ih =>
    obtain rfl : below.length = d := Nat.succ.inj hd
    cases i with
    | zero =>
      obtain rfl : top = marked := by simpa using hm
      exact h.1 hi
    | succ i =>
      have := ih (i := i) (d := below.length - 1) h.2 (by omega) (by omega) (by simpa using hm)
      rwa [show below.length - (i + 1) = below.length - 1 - i by omega]

/-- No tail call has replaced a frame that has just been entered. -/
theorem Counted.push (h : Counted history marks) : Counted history (false :: marks) := by
  refine ⟨⟨fun _ => ?_, h.tallied⟩, fun depth hle => h.vacant depth ?_⟩
  · rw [h.vacant _ (Nat.le_refl _)]
    decide
  · exact Nat.le_trans (Nat.le_succ _) hle

/-- A step in the innermost frame changes the counts of that frame alone. -/
theorem Counted.tail (h : Counted past (marked :: below)) (hd : below.length = r.vm.callDepth) :
    Tallied (r :: past) below :=
  h.tallied.2.congr fun _ hlt => tailCalls_of_lt past (hd ▸ hlt)

theorem vacant_above (past : List Run) (hd : marks.length = r.vm.callDepth + 1) :
    ∀ depth, marks.length ≤ depth → tailCalls (r :: past) depth = 0 :=
  fun _ hle => tailCalls_of_gt past (by omega)

/-- An instruction that neither returns nor makes a tail call counts for nothing. -/
theorem Counted.other (h : Counted past marks) (hd : marks.length = r.vm.callDepth + 1)
    (hop : r.opcode? = some op) (htail : op ≠ .tailCall) (hret : op ≠ .ret) :
    Counted (r :: past) marks := by
  refine ⟨h.tallied.congr fun depth hlt => ?_, vacant_above past hd⟩
  rcases Nat.lt_or_eq_of_le (Nat.le_of_lt_succ (hd ▸ hlt)) with hlt | rfl
  · exact tailCalls_of_lt past hlt
  · exact tailCalls_of_other past hop htail hret

theorem Counted.tailCall (h : Counted past (marked :: below)) (hd : below.length = r.vm.callDepth)
    (hop : r.opcode? = some .tailCall) : Counted (r :: past) (true :: below) := by
  refine ⟨⟨fun _ => ?_, h.tail hd⟩, vacant_above past (congrArg Nat.succ hd)⟩
  rw [hd, tailCalls_of_tailCall past hop]
  exact iff_of_true rfl (Nat.succ_pos _)

theorem Counted.return (h : Counted past (marked :: below)) (hd : below.length = r.vm.callDepth)
    (hop : r.opcode? = some .ret) : Counted (r :: past) below := by
  refine ⟨h.tail hd, fun depth hle => ?_⟩
  rcases Nat.lt_or_eq_of_le (hd ▸ hle) with hlt | rfl
  · exact tailCalls_of_gt past hlt
  · exact tailCalls_of_return past hop

end Counted

end Run

namespace Vm

/-- Which active frames are marked as called by a tail call, innermost first. -/
def tails (vm : Vm) : List Bool := vm.statuses.map CallStatus.tail

section Tails
variable {vm after : Vm} {op : Opcode} {next : Next} {marks left : List CallStatus}

theorem length_tails (vm : Vm) : vm.tails.length = vm.callDepth + 1 := by
  rw [tails, List.length_map, length_statuses, callDepth]

theorem tails_of_sameMarks (h : SameMarks vm after) : after.tails = vm.tails :=
  congrArg (List.map CallStatus.tail) h

theorem tails_released (vm : Vm) (negated : Bool) : (vm.released negated).tails = vm.tails := by
  rw [tails, statuses_released]
  rfl

theorem tails_of_active {frames : List Frame} (h : vm.frames.active = frames) :
    vm.tails = frames.map fun f => f.status.tail := by
  rw [tails, statuses_of_active h, List.map_map]
  rfl

theorem tails_of_beginCall {func : Nat} {results : ResultCount} {site : CallSite}
    (h : beginCall func results vm = .returned site after) : after.tails = false :: vm.tails := by
  rw [tails, beginCall_marks h]
  rfl

/-- An instruction that asks for a call has not changed which frames were called by a tail call. -/
theorem Remarks.tails_of_asks (h : Remarks op marks (.next next) left) (hn : next.Asks) :
    left.map CallStatus.tail = marks.map CallStatus.tail := by
  generalize ha : Action.next next = action at h
  cases h with
  | kept | compared => rfl
  | called | tailCalled =>
    cases ha
    exact absurd rfl hn
  | returned s below =>
    cases hfresh : s.fresh with
    | true => simp [hfresh] at ha
    | false => exact absurd (by simpa [hfresh] using ha) hn

/-- The frames that are left where an instruction raises an error are marked as they were. -/
theorem marksAtError_suffix (op : Opcode) (marks : List CallStatus) :
    marksAtError op marks <:+ marks := by
  unfold marksAtError
  split
  · exact List.tail_suffix marks
  · exact List.suffix_rfl

end Tails

end Vm

/-! ## Runs -/

namespace Run
variable {r r' : Run} {past : List Run} {outer own below : List Frame} {n : Nat} {f : Frame}
  {vm after : Vm}
  {rest : List Suspended} {s : Suspended} {next : Vm.Next} {depths : List Nat} {op : Opcode}

/-- What a step does to the marks fits to what it counts for. -/
theorem Counted.remarks {action : Vm.Action} {left : List CallStatus} (h : Counted past r.vm.tails)
    (hop : r.opcode? = some op) (hr : Vm.Remarks op r.vm.statuses action left) :
    Counted (r :: past) (left.map CallStatus.tail) := by
  have hd := r.vm.length_tails
  rw [Vm.tails] at h hd
  generalize r.vm.statuses = marks at h hd hr
  cases hr with
  | kept htail hret => exact h.other hd hop htail hret
  | compared _ hle => exact h.other hd hop (by rw [hle]; decide) (by rw [hle]; decide)
  | called _ hcall => exact (h.other hd hop (by rw [hcall]; decide) (by rw [hcall]; decide)).push
  | tailCalled _ _ htail => exact h.tailCall (Nat.succ.inj hd) (htail ▸ hop)
  | returned _ _ hret => exact h.return (Nat.succ.inj hd) (hret ▸ hop)

/-- An instruction that goes on after a call leaves the marks alone, whether it fails or not. -/
theorem continueWith_tails (s : Suspended) (hc : vm.frames.current.closure.isSome) :
    (continueWith s).Post vm (fun _ after => after.tails = vm.tails) fun after =>
      after.tails = vm.tails := by
  have hsame : ∀ {after : Vm}, Vm.SameMarks (vm.released s.resume.swaps) after →
      after.tails = vm.tails := by
    intro after h
    rw [Vm.tails_of_sameMarks h, Vm.tails_released]
  exact (continueWith_marks s hc).mono (fun _ _ _ h => hsame h.2) fun _ h => hsame h

section Steps
variable (h : Executing r.root outer n r.suspended r.vm f own below)
  (hm : Vm.MarkedAt (waits r.suspended ++ depths) r.vm) (hd : ∀ d ∈ depths, d ≤ r.root.depth)
include h hm hd

/-- A step that ends a nested call leaves one frame, and the frame that waits for the call runs a
closure. -/
theorem Executing.tails_of_leave (hx : Vm.dispatch r.vm = .returned .leave vm)
    (hs : r.suspended = s :: rest) :
    (∃ marked, r.vm.tails = marked :: vm.tails) ∧ vm.frames.current.closure.isSome := by
  obtain ⟨-, -, op, -, -, hr⟩ := (h.remarks hm hd).of_returned hx
  obtain ⟨t, ht⟩ := hr.of_leave
  have hleft := h.left_of_leave hx
  rw [hs] at hleft
  exact ⟨⟨t.tail, by rw [Vm.tails, ht]; rfl⟩, hleft.closure⟩

theorem pending_counted (hc : Counted past r.vm.tails) (hp : r.pending = .follows next after rest) :
    Counted (r :: past) after.tails := by
  rcases pending_eq_follows hp with ⟨hx, rfl⟩ | ⟨s, mid, hx, hs, hcontinue⟩
  · obtain ⟨x, mid, op, hbegin, hop, hr⟩ := (h.remarks hm hd).of_returned hx
    exact hc.remarks (opcode?_of_beginStep hbegin hop) hr
  · obtain ⟨x, begun, op, hbegin, hop, hr⟩ := (h.remarks hm hd).of_returned hx
    have hclosure := (h.tails_of_leave hm hd hx hs).2
    rw [(continueWith_tails s hclosure).of_returned hcontinue]
    exact hc.remarks (opcode?_of_beginStep hbegin hop) hr

/-- A step keeps the marks in agreement with the counts. -/
theorem Leads.counted (hc : Counted past r.vm.tails) (hl : Leads r r') :
    Counted (r :: past) r'.vm.tails := by
  rcases leads_cases hl with hp | ⟨start, slot, wanted, k, rest, site,
    ⟨next, vm, hp, hrequest⟩, hbegin, -⟩
  · exact pending_counted h hm hd hc hp
  · have hpending := pending_counted h hm hd hc hp
    have hstart : start.tails = vm.tails := by
      cases hrequest with
      | callAt => rfl
      | invoke hpush =>
        have hframes :=
          (Vm.onlyRegisters_of_shifts
            ((Vm.pushAll_post _ (Nat.zero_le _)).of_returned hpush)).frames
        exact Vm.tails_of_sameMarks (Vm.sameMarks_of_frames hframes)
    rw [Vm.tails_of_beginCall hbegin, hstart]
    exact hpending.push

/-- Before a call that comes next, the frames have the marks that they had before the
instruction. -/
theorem pending_suffix (hn : next.Asks) (hp : r.pending = .follows next after rest) :
    after.tails <:+ r.vm.tails := by
  rcases pending_eq_follows hp with ⟨hx, rfl⟩ | ⟨s, mid, hx, hs, hcontinue⟩
  · obtain ⟨-, -, op, -, -, hr⟩ := (h.remarks hm hd).of_returned hx
    rw [Vm.tails, hr.tails_of_asks hn]
    exact List.suffix_rfl
  · obtain ⟨⟨marked, hmarked⟩, hclosure⟩ := h.tails_of_leave hm hd hx hs
    rw [(continueWith_tails s hclosure).of_returned hcontinue, hmarked]
    exact List.suffix_cons marked mid.tails

/-- Where a step raises an error, the frames that are left have the marks that they had before the
step. -/
theorem Raises.suffix {e : LuaError} (hr : r.Raises e vm) : vm.tails <:+ r.vm.tails := by
  have hrefused : ∀ {level : Nat} {mid after : Vm}, Refused level outer mid after →
      after.tails = mid.tails := by
    intro level mid after href
    rw [Vm.tails_of_active href.active, Vm.tails_of_active rfl]
  have hpending := pending_sane h
  cases hr with
  | executed hx =>
    obtain ⟨-, -, op, -, -, hleft⟩ := (h.remarks hm hd).of_raised hx
    rw [Vm.tails, hleft]
    exact (Vm.marksAtError_suffix op _).map _
  | continued hx hs hcontinue =>
    obtain ⟨⟨marked, hmarked⟩, hclosure⟩ := h.tails_of_leave hm hd hx hs
    rw [(continueWith_tails _ hclosure).of_raised hcontinue, hmarked]
    exact List.suffix_cons marked _
  | @invoked handler args k mid _ rest _ hp hx =>
    rw [hp] at hpending
    obtain ⟨-, f', own', below', hmid, -⟩ := hpending
    rw [hrefused ((beginInvoke_post handler args hmid).of_raised hx)]
    exact pending_suffix h hm hd (Vm.Next.asks_invoke handler args k) hp
  | @called func results k mid _ rest _ hp hx =>
    rw [hp] at hpending
    obtain ⟨-, f', own', below', hmid, hn⟩ := hpending
    rw [hrefused ((beginCallAt_post results hmid hn.1).of_raised hx)]
    exact pending_suffix h hm hd (Vm.Next.asks_callAt func results k) hp

end Steps

section Trails
variable {start : Run} {e : LuaError}

theorem Trail.leads (h : Trail start past r) : Relation.ReflTransGen Leads start r := by
  induction h with
  | start => exact .refl
  | step _ hs ih => exact ih.tail hs

/-- A run that fails also fails from every state that it comes through. -/
theorem Trail.steps_raised {fuel : Nat} (h : Trail start past r)
    (hx : steps fuel start = .raised e after) : ∃ fuel', steps fuel' r = .raised e after := by
  induction h with
  | start => exact ⟨fuel, hx⟩
  | @step past r r' _ hs ih =>
    obtain ⟨fuel', hfails⟩ := ih
    cases fuel' with
    | zero => cases hfails
    | succ fuel' =>
      rw [steps, show r.step = .running r' from hs] at hfails
      exact ⟨fuel', hfails⟩

/-- Goes on until an instruction raises an error, and gives the history up to it and the state that
it leaves. -/
def failure? : Nat → List Run → Run → Option (List Run × Vm)
  | 0, _, _ => none
  | fuel + 1, past, r =>
    match Vm.dispatch r.vm with
    | .raised _ vm => some (past, vm)
    | .returned _ _ | .aborted _ =>
      match r.step with
      | .running r' => failure? fuel (r :: past) r'
      | .ended _ => none

theorem Trail.failure {fuel : Nat} {past' : List Run} (h : Trail start past r)
    (hx : failure? fuel past r = some (past', vm)) :
    ∃ r' e, Trail start past' r' ∧ r'.Raises e vm := by
  induction fuel generalizing past r with
  | zero => cases hx
  | succ fuel ih =>
    unfold failure? at hx
    split at hx
    · next e mid hraised =>
      cases hx
      exact ⟨r, e, h, .executed hraised⟩
    all_goals
      split at hx
      · next r' hstep => exact ih (h.step hstep) hx
      · cases hx

/-- A step that raises an error is the last one. -/
theorem Raises.step_ne (h : r.Raises e vm) : r.step ≠ .running r' := by
  cases h with
  | executed hx => simp [step, hx]
  | continued hx hs hcontinue => simp [step, hx, hs, leave, hcontinue]
  | invoked hp hx => simp [step_eq, hp, follow, nest, hx]
  | called hp hx => simp [step_eq, hp, follow, nest, hx]

end Trails

end Run

/-! ## Traces -/

/-- The entries of a trace for the function of a frame, with a count of tail calls if there is
one. -/
def Frame.entries (heap : Heap) (f : Frame) (count : Option Nat) : List TraceEntry :=
  .lua (f.call heap).pc (f.call heap).proto :: (count.map TraceEntry.tailCalls).toList

/-- The count of tail calls that a trace has for a frame. -/
def Frame.tailCount (f : Frame) : Option Nat := if f.status.tail then some 1 else none

theorem Frame.entries_call (heap : Heap) (f : Frame) :
    (f.call heap).entries = f.entries heap f.tailCount := by
  cases ht :
    f.status.tail <;> simp [ActiveCall.entries, Frame.entries, Frame.tailCount, Frame.call, ht]

/-- A mark that tells whether there was a tail call can stand for one, but not for more. -/
theorem Frame.tailCount_of_iff {f : Frame} {k : Nat} (h : f.status.tail = true ↔ 0 < k) :
    (f.tailCount = if k = 0 then none else some 1) ∧ (f.tailCount.getD 0 = k ↔ k ≤ 1) := by
  cases ht : f.status.tail with
  | false =>
    obtain rfl : k = 0 := Nat.eq_zero_of_not_pos fun hpos => Bool.false_ne_true (ht ▸ h.mpr hpos)
    simp [tailCount, ht]
  | true =>
    have hpos : 0 < k := h.mp ht
    simp only [tailCount, ht, if_true, Option.getD_some, if_neg (Nat.ne_of_gt hpos), true_and]
    omega

namespace Vm
variable {limits : Config} {vm after : Vm} {fuel func : Nat} {results : ResultCount} {e : LuaError}

/-- Where no function runs, only the frame of the host can be marked. -/
theorem AtRest.markedAt (h : AtRest limits vm) :
    MarkedAt (waitAt vm.frames.current.status.leq 0) vm := by
  obtain ⟨host, hhost⟩ := h.active
  have hcurrent : vm.frames.current = host := (List.cons.inj hhost).1
  refine ⟨h.sound, ?_, fun d hm => ?_⟩
  · rw [statuses_of_active hhost, hcurrent]
    exact ⟨by simp [mem_waitAt], trivial⟩
  · rw [(mem_waitAt.mp hm).2]
    exact Nat.zero_le _

section Trails
variable {root : CallSite} {start failing : Vm} {past : List Run} {r : Run}

/-- In every state of a run the marks agree with the counts. -/
theorem AtRest.counted (h : AtRest limits vm)
    (hb : beginCall func results vm = .returned root start)
    (ht : Run.Trail { vm := start, root } past r) : Run.Counted past r.vm.tails := by
  induction ht with
  | start =>
    -- Nothing has been executed yet, and the first frame stands on that of the host.
    obtain ⟨host, hhost⟩ := h.active
    have htails : start.tails = [false, host.status.tail] := by
      rw [tails_of_beginCall hb, tails_of_active hhost]
      rfl
    show Run.Counted [] start.tails
    rw [htails]
    exact .push ⟨⟨fun hpos => absurd hpos (Nat.lt_irrefl 0), trivial⟩, fun _ _ => rfl⟩
  | @step past r r' ht hs ih =>
    have hduring : During vm func results r := ⟨root, start, hb, ht.leads⟩
    obtain ⟨-, -, f, own, below, hf⟩ := executing_of_during h.sound hduring
    obtain ⟨hm, hd⟩ := h.markedAt.during hduring
    exact Run.Leads.counted hf hm hd ih hs

theorem AtRest.standing (h : AtRest limits vm)
    (hb : beginCall func results vm = .returned root start)
    (ht : Run.Trail { vm := start, root } past r) :
    Run.Standing past vm.frames.active r.vm.frames.callers := by
  induction ht with
  | start =>
    obtain ⟨-, -, -, g, hg⟩ := executing_of_began h.sound hb
    have hcallers : start.frames.callers = vm.frames.active := (List.cons.inj hg.active).2
    exact hcallers ▸ .outer
  | @step past r r' ht hs ih =>
    obtain ⟨-, -, f, own, below, hf⟩ := executing_of_during h.sound ⟨root, start, hb, ht.leads⟩
    exact Run.Leads.standing hf ih hs

/-- A call has begun, has come through the states `past`, the latest first, and raises an error in
the state `failing`. -/
def FailsAt (vm : Vm) (func : Nat) (results : ResultCount) (past : List Run) (failing : Vm) :
    Prop :=
  ∃ root start r raw, beginCall func results vm = .returned root start ∧
    Run.Trail { vm := start, root } past r ∧ r.Raises raw failing

/-- Where a call raises an error, the marks of the frames agree with the counts before the step that
raises it. -/
theorem FailsAt.tallied (hf : FailsAt vm func results past failing) (h : AtRest limits vm) :
    Run.Tallied past failing.tails := by
  obtain ⟨root, start, r, raw, hb, ht, hr⟩ := hf
  have hduring : During vm func results r := ⟨root, start, hb, ht.leads⟩
  obtain ⟨-, -, f, own, below, hexecuting⟩ := executing_of_during h.sound hduring
  obtain ⟨hm, hd⟩ := h.markedAt.during hduring
  exact (h.counted hb ht).tallied.of_suffix (hr.suffix hexecuting hm hd)

/-- The trace tells all functions that are active where the call raises the error. -/
theorem FailsAt.traced (hf : FailsAt vm func results past failing) (h : AtRest limits vm)
    (hx : call fuel func results vm = .raised e after) :
    ∃ history raw, Run.Traced history vm.frames.active raw failing e := by
  obtain ⟨root, start, r, raw, hb, ht, hr⟩ := hf
  obtain ⟨-, -, f, own, below, hexecuting⟩ :=
    executing_of_during h.sound ⟨root, start, hb, ht.leads⟩
  simp only [call, hb] at hx
  -- The call comes through the state in which the step raises, so it is this step that ends it.
  obtain ⟨fuel', hfails⟩ := ht.steps_raised hx
  cases fuel' with
  | zero => cases hfails
  | succ fuel' =>
    rw [Run.steps] at hfails
    cases hstep : r.step with
    | running r' => exact absurd hstep hr.step_ne
    | ended o =>
      simp only [hstep] at hfails
      exact ⟨r :: past, raw, hr.traced hexecuting (h.standing hb ht) (hfails ▸ hstep)⟩

end Trails

/-- A call that fails has not begun, or it raises an error in some state. -/
theorem failsAt_of_call (h : AtRest limits vm) (hx : call fuel func results vm = .raised e after) :
    (beginCall func results vm = .raised e after ∧ e.trace = #[]) ∨ ∃ past failing,
      FailsAt vm func results past failing := by
  unfold call at hx
  cases hb : beginCall func results vm with
  | aborted why => simp [hb] at hx
  | raised e' mid =>
    simp only [hb] at hx
    obtain ⟨rfl, rfl⟩ := Outcome.raised.inj hx
    exact .inl ⟨rfl, Run.beginCall_unrecorded func results vm mid e' hb⟩
  | returned root start =>
    simp only [hb] at hx
    obtain ⟨-, -, -, g, hg⟩ := executing_of_began h.sound hb
    obtain ⟨past, r, raw, failing, ht, hr, -⟩ :=
      Run.steps_raised .start hg (h.standing hb .start) hx
    exact .inr ⟨past, failing, root, start, r, raw, hb, ht, hr⟩

/-- Every active function has an entry in the trace of an error, innermost first, and behind it one
for tail calls exactly if they have replaced its frame since the frame's place was entered. That
entry always counts one tail call, so it is right exactly if there were no more. -/
theorem tailCount_right_iff (hv : Hosted limits vm)
    (h : call fuel func results vm = .raised e after) :
    (beginCall func results vm = .raised e after ∧ e.trace = #[] ∨
      ∃ past failing, FailsAt vm func results past failing) ∧
    ∀ past failing, FailsAt vm func results past failing → ∃ counts : List (Option Nat),
      counts.length = failing.activeFrames.length ∧
      e.trace.toList =
        (List.zipWith (Frame.entries failing.heap) failing.activeFrames counts).flatten ∧
      ∀ i count, counts[i]? = some count →
        (count = if Run.tailCalls past (failing.callDepth - i) = 0 then none else some 1) ∧
        (count.getD 0 = Run.tailCalls past (failing.callDepth - i) ↔
          Run.tailCalls past (failing.callDepth - i) ≤ 1) := by
  have hrest := hv.atRest
  obtain ⟨host, hhost⟩ := hrest.active
  refine ⟨failsAt_of_call hrest h, fun past failing hfails => ?_⟩
  have htallied := hfails.tallied hrest
  obtain ⟨-, -, mine, hmine, -, -, htrace⟩ := hfails.traced hrest h
  rw [hhost] at hmine
  have hframes : failing.activeFrames = mine := activeFrames_eq hmine
  have hlength : mine.length = failing.callDepth := by
    have := failing.length_tails
    rw [tails_of_active hmine] at this
    simpa using this
  refine ⟨mine.map Frame.tailCount, by rw [hframes, List.length_map], ?_, fun i count hcount => ?_⟩
  · -- An entry for tail calls only depends on the mark of its frame.
    rw [htrace, hframes, List.zipWith_map_right, List.zipWith_self, ← List.flatMap_def,
      List.flatMap_map]
    simp only [Frame.entries_call]
  · rw [List.getElem?_map] at hcount
    obtain ⟨f, hf, rfl⟩ := Option.map_eq_some_iff.mp hcount
    have hi : i < mine.length := (List.getElem?_eq_some_iff.mp hf).1
    -- The frame of the host is the last one, so that the index leads to the same frame in both
    -- lists.
    refine Frame.tailCount_of_iff (htallied.of_getElem? failing.length_tails (hlength ▸ hi) ?_)
    rw [tails_of_active hmine, List.getElem?_map, List.getElem?_append_left hi, hf]
    rfl

/-- Calls its first parameter in its own place, with the second one. -/
def passOn : Prototype where
  paramCount := 2
  maxStackSize := 2
  code := #[⟨0x01000025⟩]

def passOnHost : Vm := .new {} .standard { closures := #[{ proto := passOn, upvalues := #[] }] } {}

/-- The function goes on in itself two times, and then cannot call nil. The trace has one tail call
for the two. -/
theorem tailCount_right_iff_twice :
    ∃ vm e after past failing f, Hosted {} vm ∧ call 3 0 .all vm = .raised e after ∧
      FailsAt vm 0 .all past failing ∧ failing.activeFrames = [f] ∧
      Run.tailCalls past failing.callDepth = 2 ∧
      e.trace.toList = f.entries failing.heap (some 1) := by
  have hcheck :
      ((pushAll [.closure ⟨0⟩, .closure ⟨0⟩, .closure ⟨0⟩] passOnHost).result?.any fun p =>
      (call 3 0 .all p.2).error?.isSome && (beginCall 0 .all p.2).result?.any fun q =>
        (Run.failure? 3 [] { vm := q.2, root := q.1 }).any fun s =>
          s.2.activeFrames.length == 1 && Run.tailCalls s.1 s.2.callDepth == 2) = true := by
            decide +kernel
  obtain ⟨⟨_, vm⟩, hpush, hrest⟩ := (Option.any_eq_true _ _).mp hcheck
  obtain ⟨herror, hrest⟩ := Bool.and_eq_true_iff.mp hrest
  obtain ⟨⟨root, start⟩, hbegin, hrest⟩ := (Option.any_eq_true _ _).mp hrest
  obtain ⟨⟨past, failing⟩, hfailure, hboth⟩ := (Option.any_eq_true _ _).mp hrest
  obtain ⟨hframes, htwice⟩ := Bool.and_eq_true_iff.mp hboth
  have htwice : Run.tailCalls past failing.callDepth = 2 := beq_iff_eq.mp htwice
  obtain ⟨f, hf⟩ := List.length_eq_one_iff.mp (beq_iff_eq.mp hframes)
  have hhosted : Hosted {} vm := (Hosted.new _ _ _ rfl).pushAll (Outcome.result?_eq_some hpush)
  obtain ⟨e, he⟩ := Option.isSome_iff_exists.mp herror
  obtain ⟨after, hcall⟩ := Outcome.error?_eq_some he
  obtain ⟨r, raw, htrail, hraises⟩ := Run.Trail.start.failure hfailure
  have hfails : FailsAt vm 0 .all past failing :=
    ⟨root, start, r, raw, Outcome.result?_eq_some hbegin, htrail, hraises⟩
  obtain ⟨counts, hlength, htrace, hcounts⟩ :=
    (tailCount_right_iff hhosted hcall).2 past failing hfails
  rw [hf] at hlength htrace
  obtain ⟨count, rfl⟩ := List.length_eq_one_iff.mp hlength
  obtain ⟨hcount, -⟩ := hcounts 0 count rfl
  rw [Nat.sub_zero, htwice, if_neg (by decide)] at hcount
  refine ⟨vm, e, after, past, failing, f, hhosted, hcall, hfails, hf, htwice, ?_⟩
  rw [htrace, hcount]
  simp

end Vm

end LuaMachine
