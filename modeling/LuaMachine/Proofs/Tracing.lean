import LuaMachine.Proofs.ExecutionLog

/-!
# Recording the execution

Whether a machine records its execution makes no difference to anything but the log. To see this,
the machine that records and the one that does not are both compared with a third one, in which
nothing is recorded whatever the configuration says. The log itself is the course of the session in
groups.
-/
namespace LuaMachine

/-! ## Nothing is recorded -/

/-- The mask under which nothing is recorded. -/
def Mask.unlogged : Mask := .logAs none fun _ => false

instance Mask.recording_unlogged : Mask.unlogged.Recording := ⟨fun _ _ => rfl⟩

namespace Vm

/-- Machines that are the same where nothing is recorded differ only in the log and the
configuration. -/
theorem eq_of_unlogged {vm vm' : Vm} (h : Mask.unlogged.hide vm = Mask.unlogged.hide vm') :
    vm' = { vm with trace := vm'.trace, config := vm'.config } := by
  cases vm
  cases vm'
  simp only [Mask.hide, Mask.unlogged, Mask.logAs, id, Vm.mk.injEq] at h
  simp [h]

/-! ## Sessions -/

section Sessions
variable {fuel : Nat} {limits : Config} {vm after : Vm} {ops : List HostOp}

theorem session_cons_eq_some {op : HostOp} :
    (session fuel (op :: ops) vm).2 = some after ↔
      ∃ mid, (op.perform fuel vm).state? = some mid ∧ (session fuel ops mid).2 = some after := by
  rw [session]
  cases op.perform fuel vm <;> simp [Outcome.state?]

theorem AtRest.session (h : AtRest limits vm) (hs : (session fuel ops vm).2 = some after) :
    AtRest limits after := by
  induction ops generalizing vm with
  | nil =>
    cases hs
    exact h
  | cons op ops ih =>
    obtain ⟨mid, hmid, hs⟩ := session_cons_eq_some.mp hs
    exact ih (h.perform hmid) hs

/-- A session logs its course. -/
theorem session_logs (hs : (session fuel ops vm).2 = some after) :
    after.trace = vm.trace.map (recorded (sessionCourse fuel ops vm)) := by
  induction ops generalizing vm with
  | nil =>
    cases hs
    exact Option.map_id'.symm
  | cons op ops ih =>
    obtain ⟨mid, hmid, hs⟩ := session_cons_eq_some.mp hs
    rw [ih hs, HostOp.perform_logs fuel op vm mid hmid, sessionCourse, hmid, Option.elim_some,
      map_recorded_append]

/-- A session goes the same way where nothing is recorded. -/
theorem session_unlogged (h : AtRest limits vm) : session fuel ops (Mask.unlogged.hide vm) =
    ((session fuel ops vm).1, (session fuel ops vm).2.map Mask.unlogged.hide) := by
  induction ops generalizing vm with
  | nil => rfl
  | cons op ops ih =>
    have hop : (op.perform fuel vm).Hidden Mask.unlogged _ :=
      HostOp.perform_unaware fuel False.elim vm h (Mask.settled_logAs _ _ vm)
    have hsame := hop.eq_hide fun _ _ => id
    have hrest : ∀ mid, (op.perform fuel vm).state? = some mid → AtRest limits mid :=
      fun mid => h.perform
    unfold session
    rw [hsame]
    cases hx : op.perform fuel vm with
    | returned a mid => simp only [Outcome.hide, ih (hrest mid (by rw [hx]; rfl))]
    | raised e mid => simp only [Outcome.hide, ih (hrest mid (by rw [hx]; rfl))]
    | aborted why => rfl

end Sessions

/-! ## Tracing -/

/-- The machine with an empty log that it will add to. It may have been asked to by its
configuration, or later. -/
def tracing (vm : Vm) (configured : Bool) : Vm :=
  { vm with trace := some #[], config := { vm.config with recordTrace := configured } }

section Tracing
variable {limits : Config} {vm : Vm}

theorem AtRest.tracing (h : AtRest limits vm) (configured : Bool) :
    AtRest { limits with recordTrace := configured } (vm.tracing configured) :=
  { h with config := by rw [Vm.tracing, h.config] }

/-- Recording makes no difference to the reports of a session, and to the machine at the end only in
its log. The log is what the session fetches, in groups. -/
theorem tracing_faithful (h : Hosted limits vm) (configured : Bool) (fuel : Nat)
    (ops : List HostOp) :
    ∃ log, session fuel ops (vm.tracing configured) =
        ((session fuel ops vm).1,
          (session fuel ops vm).2.map fun after =>
            { after.tracing configured with trace := some log }) ∧
      Groups log (sessionCourse fuel ops (vm.tracing configured)) := by
  have hrest := h.atRest
  have htraced := hrest.tracing configured
  -- Where nothing is recorded, the two machines are the same one.
  have hmasked : Mask.unlogged.hide (vm.tracing configured) = Mask.unlogged.hide vm := rfl
  have hsessions : session fuel ops (Mask.unlogged.hide vm) = _ :=
    hmasked ▸ session_unlogged htraced
  rw [session_unlogged hrest] at hsessions
  obtain ⟨hreports, hends⟩ := Prod.mk.inj hsessions.symm
  refine ⟨recorded (sessionCourse fuel ops (vm.tracing configured)) #[], Prod.ext hreports ?_,
    .of_recorded _⟩
  cases hend : (session fuel ops vm).2 with
  | none => simpa [hend] using hends
  | some after =>
    rw [hend] at hends
    obtain ⟨after', hend', hsame⟩ := Option.map_eq_some_iff.mp hends
    have hconfig : after'.config = { after.config with recordTrace := configured } := by
      rw [(htraced.session hend').config, (hrest.session hend).config]
    have hlog := session_logs hend'
    rw [hend', eq_of_unlogged hsame.symm, hconfig, hlog]
    rfl

/-- Calls its parameter. -/
def callParameter : Prototype where
  id := 1
  paramCount := 1
  maxStackSize := 2
  code := #[⟨0x00804024⟩, ⟨0x00800026⟩]

/-- Returns at once. -/
def returnAtOnce : Prototype where
  id := 2
  maxStackSize := 2
  code := #[⟨0x00800026⟩]

def callingHost : Vm :=
  .new {} .standard {
    closures := #[
      { proto := callParameter, upvalues := #[] }, { proto := returnAtOnce, upvalues := #[] }] } {}

/-- Calls a function through the other one, and then tries that with nil. -/
def callTwice : List HostOp :=
  [.callFunction (.closure ⟨0⟩) [.closure ⟨1⟩], .callFunction (.closure ⟨0⟩) [.nil]]

/-- The course goes into the other prototype and back. The second call begins in the prototype in
which the first one has ended, and fails in its first instruction. -/
theorem tracing_faithful_nested :
    Hosted {} callingHost ∧
      (session 4 callTwice callingHost).1.map Report.hasFailed = [false, true] ∧
      (sessionCourse 4 callTwice (callingHost.tracing false)).identities =
        [(1, 0), (2, 0), (1, 1), (1, 0)] ∧
      ∃ log, session 4 callTwice (callingHost.tracing false) =
          ((session 4 callTwice callingHost).1,
            (session 4 callTwice callingHost).2.map fun after =>
              { after.tracing false with trace := some log }) ∧
        Groups log (sessionCourse 4 callTwice (callingHost.tracing false)) := by
  have hhosted : Hosted {} callingHost := .new {} _ _ rfl
  exact ⟨hhosted, by decide +kernel, by decide +kernel, tracing_faithful hhosted false 4 callTwice⟩

end Tracing

end Vm

end LuaMachine
