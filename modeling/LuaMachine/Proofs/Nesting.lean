import LuaMachine.Proofs.Running

/-!
# Nested calls are calls

A run keeps the calls that its instructions make in a list of suspended ones. Such a nested call
behaves like a call that the host makes in the same state: the run does step by step what that call
does, and goes on where it ends. So whatever is proved about all calls holds of the nested ones too.
-/
namespace LuaMachine

open Relation (ReflTransGen)
open Exec (Post)

namespace Run
variable {root : Vm.CallSite} {s : Suspended} {rest inner : List Suspended} {vm : Vm}

/-- Goes on with at most `fuel` steps. -/
def Progress.finish (fuel : Nat) : Progress → Outcome Unit
  | .running r => steps fuel r
  | .ended o => o

/-- What a run makes of the progress of a nested call: it goes on with the instruction that waits
for the call, or fails with it. -/
def Progress.within (root : Vm.CallSite) (s : Suspended) (rest : List Suspended) :
    Progress → Progress
  | .running r => .running { vm := r.vm, root, suspended := r.suspended ++ s :: rest }
  | .ended (.returned _ vm) =>
    match (collect s.site s.resume >>= Vm.resume s.resume) vm with
    | .returned next vm => follow root rest vm next
    | .raised e vm => .ended (fail e root rest vm)
    | .aborted why => .ended (.aborted why)
  | .ended (.raised e vm) => .ended (failBefore s.resume e root rest vm)
  | .ended (.aborted why) => .ended (.aborted why)

/-! ## Failing together -/

/-- Ending a call with an error raises no other error. -/
theorem failCall_total (e : LuaError) (site : Vm.CallSite) (vm : Vm) :
    (Vm.failCall e site).Post vm (fun _ _ => True) fun _ => False := by
  refine Post.bind (Post.modify (Post.bind (Post.look (Post.bind (Post.check ?_)))))
  have hframes : (vm.frames.activeAbove site.depth).Yields fun _ => True := by
    unfold CallStack.activeAbove
    split
    · trivial
    · rfl
  refine hframes.mono fun frames _ => ?_
  exact Post.bind
    (Post.look (Post.bind (Post.modify (Post.bind (Post.modify (Post.pure trivial))))))

theorem unwindNested_total (e : LuaError) (suspended : List Suspended) (vm : Vm) :
    (unwindNested e suspended).Post vm (fun _ _ => True) fun _ => False := by
  induction suspended generalizing e vm with
  | nil => exact Post.pure trivial
  | cons s rest ih =>
    refine Post.bind ((failCall_total e s.site vm).mono (fun e' mid _ _ => ?_) fun _ h => h)
    exact Post.bind ((abandon_post 0 s.resume mid).mono (fun _ mid' _ _ => ih e' mid') fun _ h => h)

theorem unwindNested_append (e : LuaError) (inner outer : List Suspended) :
    unwindNested e (inner ++ outer) = unwindNested e inner >>= fun e => unwindNested e outer := by
  induction inner generalizing e with
  | nil => rfl
  | cons s rest ih =>
    simp only [List.cons_append, unwindNested, bind_assoc, ih]

/-- An error ends the nested call first. -/
theorem fail_within (e : LuaError) (vm : Vm) :
    Progress.ended (fail e root (inner ++ s :: rest) vm) =
      (Progress.ended (fail e s.site inner vm)).within root s rest := by
  have htotal : (do
      let e ← unwindNested e inner
      Vm.failCall e s.site : Exec LuaError).Post vm (fun _ _ => True) fun _ => False :=
    Post.bind
      ((unwindNested_total e inner vm).mono (fun e' mid _ _ => failCall_total e' s.site mid)
        fun _ h => h)
  have hparts : (do
      let e ← unwindNested e (inner ++ s :: rest)
      Vm.failCall e root : Exec LuaError) = (do
      let e ← (do
        let e ← unwindNested e inner
        Vm.failCall e s.site)
      abandon s.resume
      let e ← unwindNested e rest
      Vm.failCall e root) := by
    simp only [unwindNested_append, unwindNested, bind_assoc]
  generalize hx : (do
    let e ← unwindNested e inner
    Vm.failCall e s.site : Exec LuaError) = x at htotal hparts
  unfold fail
  dsimp only
  rw [hparts, hx]
  cases ho : x vm with
  | raised e' mid => exact (htotal.of_raised ho).elim
  | aborted why => rw [Exec.bind_of_aborted ho]; rfl
  | returned e' mid =>
    rw [Exec.bind_of_returned ho]
    show _ = Progress.ended ((abandon s.resume >>= fun _ => fail e' root rest) mid)
    have habandon := abandon_post 0 s.resume mid
    cases ha : abandon s.resume mid with
    | raised e'' last => exact (habandon.of_raised ha).elim
    | aborted why => rw [Exec.bind_of_aborted ha, Exec.bind_of_aborted ha]
    | returned _ last =>
      rw [Exec.bind_of_returned ha, Exec.bind_of_returned ha]
      rfl

theorem failBefore_within (k : Vm.Resume) (e : LuaError) (vm : Vm) :
    Progress.ended (failBefore k e root (inner ++ s :: rest) vm) =
      (Progress.ended (failBefore k e s.site inner vm)).within root s rest := by
  unfold failBefore
  have habandon := abandon_post 0 k vm
  cases ha : abandon k vm with
  | raised e' last => exact (habandon.of_raised ha).elim
  | aborted why =>
    rw [Exec.bind_of_aborted ha, Exec.bind_of_aborted ha]
    rfl
  | returned _ last =>
    rw [Exec.bind_of_returned ha, Exec.bind_of_returned ha]
    exact fail_within e last

/-! ## Going on together -/

theorem follow_within (vm : Vm) (next : Vm.Next) :
    follow root (inner ++ s :: rest) vm next =
      (follow s.site inner vm next).within root s rest := by
  have hnest : ∀ k begin, nest root (inner ++ s :: rest) k begin vm =
      (nest s.site inner k begin vm).within root s rest := by
    intro k begin
    unfold nest
    cases begin vm with
    | returned site after => rfl
    | raised e after => exact failBefore_within k e after
    | aborted why => rfl
  cases next with
  | proceed => rfl
  | invoke handler args k => exact hnest k _
  | callAt func results k => exact hnest k _

theorem leave_within (vm : Vm) :
    leave root vm (inner ++ s :: rest) = (leave s.site vm inner).within root s rest := by
  cases inner with
  | nil => rfl
  | cons s' inner =>
    simp only [List.cons_append, leave]
    cases continueWith s' vm with
    | returned next after => exact follow_within after next
    | raised e after => exact fail_within e after
    | aborted why => rfl

/-- A run with a nested call does what the call does on its own. -/
theorem step_within (vm : Vm) :
    step { vm, root, suspended := inner ++ s :: rest } =
      (step { vm, root := s.site, suspended := inner }).within root s rest := by
  unfold step
  dsimp only
  cases Vm.dispatch vm with
  | raised e after => exact fail_within e after
  | aborted why => rfl
  | returned action after =>
    cases action with
    | next next => exact follow_within after next
    | leave => exact leave_within after

theorem root_of_follow {suspended : List Suspended} {next : Vm.Next} {r : Run}
    (h : follow root suspended vm next = .running r) : r.root = root := by
  cases next with
  | proceed =>
    cases h
    rfl
  | invoke handler args k => exact (nest_eq_running h).1
  | callAt func results k => exact (nest_eq_running h).1

theorem root_of_leads {r r' : Run} (h : Leads r r') : r'.root = r.root := by
  unfold Leads at h
  rw [step_eq] at h
  split at h
  · exact root_of_follow h
  · cases h

theorem steps_of_step {r : Run} {p : Progress} (more : Nat) (h : r.step = p) :
    steps (1 + more) r = p.finish more := by
  rw [Nat.add_comm, steps, h]
  rfl

/-- A run goes on where a nested call ends. -/
theorem steps_within (root : Vm.CallSite) (rest : List Suspended) {fuel : Nat} {r : Run}
    {o : Outcome Unit} (hr : r.root = s.site) (ho : steps fuel r = o)
    (hfuel : o ≠ .aborted .outOfFuel) :
    ∃ used ≤ fuel, ∀ more,
      steps (used + more) { vm := r.vm, root, suspended := r.suspended ++ s :: rest } =
      ((Progress.ended o).within root s rest).finish more := by
  induction fuel generalizing r with
  | zero => exact absurd ho.symm hfuel
  | succ fuel ih =>
    have hstep : step { vm := r.vm, root, suspended := r.suspended ++ s :: rest } =
        (step { vm := r.vm, root := s.site, suspended := r.suspended }).within root s rest :=
          step_within r.vm
    rw [← hr] at hstep
    change _ = (step r).within root s rest at hstep
    unfold steps at ho
    cases hp : r.step with
    | ended o' =>
      rw [hp] at ho hstep
      obtain rfl : o' = o := ho
      exact ⟨1, by omega, fun more => steps_of_step more hstep⟩
    | running r' =>
      rw [hp] at ho hstep
      obtain ⟨used, hle, hused⟩ := ih ((root_of_leads hp).trans hr) ho
      refine ⟨1 + used, by omega, fun more => ?_⟩
      rw [Nat.add_assoc, steps_of_step _ hstep]
      exact hused more

/-! ## Calls of a run -/

/-- What an instruction asks for in the state `vm`: a call of the function in a slot, made in the
state `start`. -/
inductive Requests (vm : Vm) :
    Vm.Next → (start : Vm) → (func : Nat) → ResultCount → Vm.Resume → Prop
  | invoke {handler : Value} {args : List Value} {k : Vm.Resume} {start : Vm}
      (h : Vm.pushAll (handler :: args) vm = .returned () start) :
      Requests vm (.invoke handler args k) start vm.top .all k
  | callAt {func : Nat} {results : ResultCount} {k : Vm.Resume} :
      Requests vm (.callAt func results k) vm func results k

/-- The next step of the run calls the function in the slot `func` in the state `start`. -/
def Calls (r : Run) (start : Vm) (func : Nat) (results : ResultCount) (k : Vm.Resume)
    (rest : List Suspended) : Prop :=
  ∃ next vm, r.pending = .follows next vm rest ∧ Requests vm next start func results k

section Calls
variable {r : Run} {start : Vm} {func : Nat} {results : ResultCount} {k : Vm.Resume}

theorem site_of_beginCall {site : Vm.CallSite} {after : Vm}
    (h : Vm.beginCall func results start = .returned site after) :
    site = ⟨start.frames.depth, func⟩ := by
  unfold Vm.beginCall at h
  split at h
  · cases h
  · dsimp only at h
    split at h
    · cases h
      rfl
    · split at h <;> cases h
    · cases h

/-- The step that makes a call nests it. -/
theorem step_of_calls (h : r.Calls start func results k rest) :
    r.step = nest r.root rest k (Vm.beginCall func results) start := by
  obtain ⟨next, vm, hp, hrequest⟩ := h
  rw [step_eq, hp]
  cases hrequest with
  | callAt => rfl
  | invoke hpush =>
    have hbegin : ∀ handler args, Vm.pushAll (handler :: args) vm = .returned () start →
        beginInvoke handler args vm = Vm.beginCall vm.top .all start := fun handler args hpush =>
      Exec.bind_of_returned (f := fun _ => Vm.beginCall vm.top .all) hpush
    show nest r.root rest k _ vm = _
    unfold nest
    rw [hbegin _ _ hpush]

/-- A nested call is a call: the run does what the call does when the host makes it in the same
state, and goes on where it ends. -/
theorem steps_of_call {fuel : Nat} {o : Outcome Unit} (h : r.Calls start func results k rest)
    (ho : Vm.call fuel func results start = o) (hfuel : o ≠ .aborted .outOfFuel) :
    ∃ used ≤ fuel + 1, ∀ more, steps (used + more) r =
      ((Progress.ended o).within r.root ⟨⟨start.frames.depth, func⟩, k⟩ rest).finish more := by
  have hstep := step_of_calls h
  unfold nest at hstep
  unfold Vm.call at ho
  cases hx : Vm.beginCall func results start with
  | raised e after =>
    rw [hx] at hstep ho
    subst ho
    exact ⟨1, by omega, fun more => steps_of_step more hstep⟩
  | aborted why =>
    rw [hx] at hstep ho
    subst ho
    exact ⟨1, by omega, fun more => steps_of_step more hstep⟩
  | returned site after =>
    rw [hx] at hstep ho
    obtain rfl := site_of_beginCall hx
    let s : Suspended := ⟨⟨start.frames.depth, func⟩, k⟩
    obtain ⟨used, hle, hused⟩ := steps_within (s := s) r.root rest rfl ho hfuel
    refine ⟨1 + used, by omega, fun more => ?_⟩
    rw [Nat.add_assoc, steps_of_step _ hstep]
    exact hused more

end Calls

end Run

end LuaMachine
