import LuaMachine.Proofs.Reachable

/-!
# The assertions of the machine

The dispatch loop relies on the current frame to run a closure, a return relies on a frame to return
to, and a tail call relies on a caller that has a caller itself and on the top of the frame it has
entered. All of this holds in every state of every run, whatever the bytecode is, because the frames
of every call from the host keep their order.
-/
namespace LuaMachine

open Relation (ReflTransGen)
open Exec (Post)

namespace Run

/-- Where the calls of a run began, innermost first. -/
def sitesOf (root : Vm.CallSite) : List Suspended → List Vm.CallSite
  | [] => [root]
  | s :: rest => s.site :: sitesOf root rest

def sites (r : Run) : List Vm.CallSite := sitesOf r.root r.suspended

section Sites
variable {root : Vm.CallSite} {outer own below : List Frame}
  {suspended : List Suspended} {f : Frame}

theorem root_mem_sitesOf (root : Vm.CallSite) (suspended : List Suspended) :
    root ∈ sitesOf root suspended := by
  induction suspended with
  | nil => exact List.mem_singleton_self _
  | cons s rest ih => exact List.mem_cons_of_mem _ ih

/-- Every call of a run began above the outermost one, and below its own frames. -/
theorem Waiting.depth_bounds (h : Waiting root outer suspended below) :
    ∀ site ∈ sitesOf root suspended, root.depth ≤ site.depth ∧ site.depth < below.length := by
  induction h with
  | root hd =>
    intro site hm
    obtain rfl := List.mem_singleton.mp hm
    exact ⟨Nat.le_refl _, by omega⟩
  | @nested s rest f own below h hown hd hl hk ih =>
    intro site hm
    have hroot := ih root (root_mem_sitesOf root rest)
    have hshorter : below.length < (f :: own ++ below).length := by simp
    rcases List.mem_cons.mp hm with rfl | hm
    · exact ⟨by omega, by omega⟩
    · have := ih site hm
      exact ⟨this.1, by omega⟩

/-- Counted from below, a frame of the run is fresh exactly where one of its calls began. -/
theorem Waiting.fresh_iff (h : Waiting root outer suspended below)
    (hown : CallFrames (innermost root suspended).func own) {d : Nat} (hd : root.depth < d)
    (hf : (own ++ below).reverse[d]? = some f) :
    f.closure.isSome ∧ (f.status.fresh = true ↔
      ∃ site ∈ sitesOf root suspended, d = site.depth + 1) := by
  -- The frames of the innermost call are the last ones; the others are found below them.
  have hsplit : ∀ {own below : List Frame}, (own ++ below).reverse[d]? = some f →
      below.reverse[d]? = some f ∧ d < below.length ∨
        own.reverse[d - below.length]? = some f ∧ below.length ≤ d := by
    intro own below hf
    rw [List.reverse_append, List.getElem?_append, List.length_reverse] at hf
    split at hf
    · next hlt => exact .inl ⟨hf, hlt⟩
    · next hle => exact .inr ⟨hf, by omega⟩
  induction h generalizing own with
  | root hlength =>
    rcases hsplit hf with ⟨-, hlt⟩ | ⟨hf, hle⟩
    · omega
    · obtain ⟨hclosure, hfresh⟩ := hown.fresh_iff hf
      refine ⟨hclosure, hfresh.trans ?_⟩
      simp only [sitesOf, List.mem_singleton, exists_eq_left]
      omega
  | @nested s rest g own' below h hown' hlength hl hk ih =>
    have hbounds := h.depth_bounds
    have hshorter : below.length < (g :: own' ++ below).length := by simp
    simp only [sitesOf, List.mem_cons, exists_eq_or_imp]
    rcases hsplit hf with ⟨hf, hlt⟩ | ⟨hf, hle⟩
    · obtain ⟨hclosure, hfresh⟩ := ih hown' hf
      refine ⟨hclosure, hfresh.trans ⟨.inr, ?_⟩⟩
      rintro (hs | hsite)
      · omega
      · exact hsite
    · obtain ⟨hclosure, hfresh⟩ := hown.fresh_iff hf
      refine ⟨hclosure, hfresh.trans ⟨fun _ => .inl (by omega), ?_⟩⟩
      rintro (hs | ⟨site, hm, hs⟩)
      · omega
      · have := (hbounds site hm).2
        omega

/-- The frames of a run are in order: the current one runs a closure, and the lowest frame of every
call is the fresh one. -/
structure Disciplined (r : Run) : Prop where
  closure : r.vm.frames.current.closure.isSome
  sites : ∀ site ∈ r.sites, r.root.depth ≤ site.depth ∧ site.depth < r.vm.frames.depth
  fresh : ∀ d f, r.root.depth < d → d ≤ r.vm.frames.depth → r.vm.frames.frames[d]? = some f →
    f.closure.isSome ∧ (f.status.fresh = true ↔ ∃ site ∈ r.sites, d = site.depth + 1)

theorem Executing.disciplined {r : Run} {n : Nat}
    (h : Executing r.root outer n r.suspended r.vm f own below) : r.Disciplined := by
  have hlength : (f :: own ++ below).length = r.vm.frames.depth + 1 := by
    rw [← h.active, CallStack.length_active]
  have hcurrent : r.vm.frames.current = f := (List.cons.inj h.active).1
  refine ⟨hcurrent ▸ h.frames.running.closure, ?_, ?_⟩
  · intro site hm
    have := h.waiting.depth_bounds site hm
    simp only [List.cons_append, List.length_cons, List.length_append] at hlength
    exact ⟨this.1, by omega⟩
  · intro d g hd hle hg
    rw [← CallStack.getElem?_reverse_active hle, h.active] at hg
    exact h.waiting.fresh_iff h.frames hd hg

end Sites

end Run

namespace Vm

/-- What a tail call relies on when it puts the frame it has entered in the place of its caller. -/
structure SpliceReady (vm : Vm) : Prop where
  caller : vm.frames.previous?.isSome
  depth : 1 < vm.frames.depth
  closure : vm.frames.current.closure.isSome
  top : spliceTailCall.Post vm
    (fun _ after => ∃ c, after.frames.current.closure = some c ∧
      after.top = after.frames.current.base + (after.heap.closureAt c).proto.maxStackSize)
    fun _ => False

section SpliceReady
variable {root : CallSite} {outer own below : List Frame} {n : Nat} {suspended : List Suspended}
  {f g : Frame} {vm after : Vm}

theorem Spliced.top_eq {slot : Nat} {wanted : ResultCount} (hg : Entering vm.heap slot wanted g)
    (h : Spliced g f below vm after) :
    ∃ c, after.frames.current.closure = some c ∧
      after.top = after.frames.current.base + (after.heap.closureAt c).proto.maxStackSize := by
  obtain ⟨mid, frames, hs, htop, hactive, rfl⟩ := h
  obtain ⟨c, hc, hroom⟩ := hg.closure
  have hcurrent : frames.current = replacement g f := (List.cons.inj hactive).1
  have hheap : mid.heap = vm.heap := (onlyRegisters_of_shifts hs).heap
  have habove := hg.above
  have hfunc := hg.func
  refine ⟨c, by rw [hcurrent]; exact hc, ?_⟩
  show mid.top = frames.current.base + (mid.heap.closureAt c).proto.maxStackSize
  rw [htop, hcurrent, hheap]
  simp only [replacement]
  omega

theorem spliceReady_of_entered {func : Nat} {mid : Vm}
    (h : Run.Executing root outer n suspended vm f own below)
    (hw : ReflTransGen (Shift f.base) vm mid) (he : Entered func .all g mid after) :
    SpliceReady after := by
  obtain ⟨k, rest, hcallers⟩ := h.callers
  have hactive : after.frames.active = g :: f :: k :: rest := by
    rw [he.active, (onlyRegisters_of_shifts hw).frames, h.active, List.cons_append, hcallers]
  have hcurrent : after.frames.current = g := (List.cons.inj hactive).1
  have hlength := after.frames.length_active
  have hentering : Entering after.heap func .all g := he.heap ▸ he.1
  refine ⟨by rw [CallStack.previous?_of_active hactive]; rfl, ?_, ?_, ?_⟩
  · rw [hactive] at hlength
    simp only [List.length_cons] at hlength
    omega
  · obtain ⟨c, hc, -⟩ := hentering.closure
    rw [hcurrent, hc]
    rfl
  · exact (spliceTailCall_post hactive hentering he.top).mono (fun _ _ _ hs => hs.top_eq hentering)
      fun _ h => h

end SpliceReady

/-- What an instruction relies on in the state in which its step begins. -/
structure StepReady (vm : Vm) : Prop where
  returns : ∀ x mid, beginStep vm = .returned x mid → x.instr.op? = some .ret → 0 < mid.frames.depth
  splices : ∀ entered, vm.splicing? = some entered → SpliceReady entered

theorem stepReady_of_executing {root : CallSite} {outer own below : List Frame} {n : Nat}
    {suspended : List Suspended} {f : Frame} {vm : Vm}
    (h : Run.Executing root outer n suspended vm f own below) : StepReady vm := by
  have hactive : vm.frames.active = f :: (own ++ below) := h.active
  have hbegin := begun_post hactive h.frames.running.closure
  refine ⟨?_, ?_⟩
  · intro x mid hx _
    obtain ⟨g, hbegun, -⟩ := hbegin.of_returned hx
    obtain ⟨k, rest, hcallers⟩ := h.callers
    have hlength := mid.frames.length_active
    rw [hbegun.active, hcallers] at hlength
    simp only [List.length_cons] at hlength
    omega
  · intro entered hs
    obtain ⟨x, mid, hx, -, he⟩ := splicing?_eq_some.mp hs
    obtain ⟨g, hbegun, hbase⟩ := hbegin.of_returned hx
    obtain ⟨-, hmid⟩ := h.begun hbegun
    obtain ⟨placed, g', hw, hentered⟩ := (enterCall_post x .all true mid).of_returned he
    exact spliceReady_of_entered hmid (shifts_mono hw (hbase ▸ base_le_ra x)) hentered

/-- Whatever the host does and whatever the bytecode is, everything the machine relies on holds. Its
dispatch finds a closure, a return finds a frame to return to, a tail call finds what it needs, and
no operation ends in an internal fault. -/
theorem assertions_hold {vm : Vm} (h : Reachable vm) :
    (∀ func results r, During vm func results r →
      r.root.depth = vm.frames.depth ∧ r.Disciplined ∧ StepReady r.vm) ∧
    ∀ op fuel why, HostOp.run fuel op vm = .aborted why → why.isInternal = false := by
  refine ⟨?_, fun op fuel why ho => (op.run_safe fuel vm h.sound).of_aborted ho⟩
  intro func results r hr
  obtain ⟨hroot, -, f, own, below, hf⟩ := executing_of_during h.sound hr
  exact ⟨by rw [hroot], hf.disciplined, stepReady_of_executing hf⟩

/-- Calls its first parameter as an iterator. -/
def iterate : Prototype where
  paramCount := 2
  maxStackSize := 8
  code := #[⟨0x00000029⟩, ⟨0x0000002a⟩, ⟨0x00800026⟩]

/-- Goes on in its parameter, as a tail call. -/
def goOn : Prototype where
  paramCount := 1
  maxStackSize := 2
  code := #[⟨0x00800025⟩, ⟨0x00000026⟩]

/-- Returns at once. -/
def finish : Prototype where
  maxStackSize := 2
  code := #[⟨0x00800026⟩]

def iterateHost : Vm :=
  .new { initialStackSize := 12 } .standard {
    closures := #[{ proto := iterate, upvalues := #[] }, { proto := goOn, upvalues := #[] },
      { proto := finish, upvalues := #[] }] } {}

/-- The iterator is a nested call, and its fresh frame is about to be replaced by a tail call. With
fuel for no more than this the call is aborted. -/
theorem assertions_hold_goingOn :
    ∃ vm r entered why, Reachable vm ∧ During vm 0 .all r ∧ r.suspended.length = 1 ∧
      r.vm.splicing? = some entered ∧ r.Disciplined ∧ SpliceReady entered ∧
      HostOp.run 2 (.call 0 .all) vm = .aborted why ∧ why.isInternal = false := by
  have hcheck : ((firstStep iterateHost [.closure ⟨0⟩, .closure ⟨1⟩, .closure ⟨2⟩]).any fun p =>
      p.2.suspended.length == 1 && p.2.vm.splicing?.isSome &&
        (HostOp.run 2 (.call 0 .all) p.1).state?.isNone) = true := by decide +kernel
  obtain ⟨⟨vm, r⟩, hgoing, hall⟩ := (Option.any_eq_true _ _).mp hcheck
  obtain ⟨hboth, hnone⟩ := Bool.and_eq_true_iff.mp hall
  obtain ⟨hnested, hsplicing⟩ := Bool.and_eq_true_iff.mp hboth
  obtain ⟨entered, he⟩ := Option.isSome_iff_exists.mp hsplicing
  obtain ⟨hreachable, hduring⟩ := during_of_firstStep (.new _ _ _ rfl) hgoing
  obtain ⟨hruns, hops⟩ := assertions_hold hreachable
  obtain ⟨-, hdisciplined, hready⟩ := hruns 0 .all r hduring
  cases ho : HostOp.run 2 (.call 0 .all) vm with
  | returned _ after => simp [ho, Outcome.state?] at hnone
  | raised _ after => simp [ho, Outcome.state?] at hnone
  | aborted why =>
    exact ⟨vm, r, entered, why, hreachable, hduring, of_decide_eq_true hnested, he, hdisciplined,
      hready.splices entered he, ho, hops _ _ _ ho⟩

end Vm

end LuaMachine
