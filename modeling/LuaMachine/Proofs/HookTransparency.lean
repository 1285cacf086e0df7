import LuaMachine.Proofs.TerritoryRuns

/-!
# Hooks without metatables

Where no metatable is within reach, it makes no difference whether the hooks consult metatables.
Whatever the host does, both machines give it the same results and the same errors, and end in the
same state.
-/
namespace LuaMachine.Vm
variable {D : Territory}

/-- How an operation ended, as the host sees it. -/
inductive Report where
  | answered (a : Answer)
  | failed (e : LuaError)
  | stopped (why : Abort)

def Report.hasFailed : Report → Bool
  | .failed _ => true
  | .answered _ | .stopped _ => false

/-- Does operations one after another, and goes on after errors. Gives a report of each operation,
and the machine at the end if there still is one. -/
def session (fuel : Nat) : List HostOp → Vm → List Report × Option Vm
  | [], vm => ([], some vm)
  | op :: ops, vm =>
    match op.perform fuel vm with
    | .returned a vm => (.answered a :: (session fuel ops vm).1, (session fuel ops vm).2)
    | .raised e vm => (.failed e :: (session fuel ops vm).1, (session fuel ops vm).2)
    | .aborted why => ([.stopped why], none)

theorem session_agrees (fuel : Nat) {ops : List HostOp} {vm : Vm} (hd : ¬ D.hooked)
    (hc : D.Closed vm) (h : ∀ op ∈ ops, ∀ v, op.Passes v → D.Holds v) (hooks : Hooks) :
    session fuel ops (vm.withHooks hooks) =
      ((session fuel ops vm).1, (session fuel ops vm).2.map (·.withHooks hooks)) := by
  induction ops generalizing D vm with
  | nil => rfl
  | cons op ops ih =>
    have hop := HostOp.perform_widens fuel (h op List.mem_cons_self)
    -- The rest of the session is in the territory that the operation has left behind.
    have hrest : ∀ {D' : Territory} {mid : Vm}, D ≤ D' → D'.Closed mid →
        session fuel ops (mid.withHooks hooks) =
          ((session fuel ops mid).1, (session fuel ops mid).2.map (·.withHooks hooks)) := by
      intro D' mid hle hmid
      refine ih (Territory.hooked_eq_of_le hle ▸ hd) hmid fun op' hm v hv => ?_
      exact (h op' (List.mem_cons_of_mem _ hm) v hv).mono hle
    unfold session
    rw [hop.agrees hd hc hooks]
    cases hx : op.perform fuel vm with
    | returned a mid =>
      obtain ⟨D', hle, -, hmid⟩ := hop.returned hc hx
      simp only [Outcome.withHooks, hrest hle hmid]
    | raised e mid =>
      obtain ⟨D', hle, hmid⟩ := hop.raised hc hx
      simp only [Outcome.withHooks, hrest hle hmid]
    | aborted why => rfl

/-- Where no metatable is within reach, the hooks make no difference to any session: the results and
the errors with their traces are the same, and so is the machine at the end, with all of its
tables. -/
theorem hooks_transparent {vm : Vm} {ops : List HostOp}
    (h : vm.Bare fun v => ∃ op ∈ ops, op.Passes v) (fuel : Nat) :
    (session fuel ops (vm.withHooks .raw)).1 = (session fuel ops (vm.withHooks .standard)).1 ∧
      (session fuel ops (vm.withHooks .raw)).2 =
        (session fuel ops (vm.withHooks .standard)).2.map (·.withHooks .raw) := by
  have hpassed : ∀ op ∈ ops, ∀ v, op.Passes v →
      (vm.territory fun v => ∃ op ∈ ops, op.Passes v).Holds v :=
    fun op hm v hv => (Reaches.given ⟨op, hm, hv⟩).holds
  have hagrees := session_agrees fuel id (h.closed.withHooks .standard) hpassed .raw
  exact Prod.ext_iff.mp hagrees

/-- A function that makes a table, measures it and adds it to the parameter. -/
def addToTable : Prototype where
  paramCount := 1
  maxStackSize := 4
  code := #[⟨0x0000004b⟩, ⟨0x0080009c⟩, ⟨0x000040cd⟩]

/-- A machine with a table that nothing refers to, and that is its own metatable. -/
def hidingHost : Vm :=
  .new {} .standard
    { tables := #[{ metatable := some ⟨0⟩ }],
      closures := #[{ proto := addToTable, upvalues := #[] }] } {}

/-- Calls the function, and measures the table that it has made. -/
def addThenMeasure : List HostOp :=
  [.callFunction (.closure ⟨0⟩) [.number (.int 7)], .lengthOf (.table ⟨1⟩)]

/-- All values that a program can get hold of there. -/
theorem hidingHost_reaches {v : Value}
    (h : Reaches hidingHost (fun v => ∃ op ∈ addThenMeasure, op.Passes v) v) :
    v ∈ [.closure ⟨0⟩, .number (.int 7), .table ⟨1⟩, .nil] := by
  induction h with
  | given h =>
    obtain ⟨op, hop, hv⟩ := h
    rcases List.mem_cons.mp hop with rfl | hop
    · exact List.mem_append_left [.table ⟨1⟩, .nil] hv
    · rw [List.mem_singleton.mp hop] at hv
      cases hv
      simp
  | slot h => simp [(Array.mem_replicate.mp h).2]
  | running hf hr =>
    cases List.mem_singleton.mp hf
    cases hr
  | opened hc hv => cases hc
  | item h hv ih =>
    obtain rfl : _ = (⟨1⟩ : TableRef) := by simpa using ih
    exact absurd hv (Array.not_mem_empty _)
  | entry h hv ih =>
    obtain rfl : _ = (⟨1⟩ : TableRef) := by simpa using ih
    exact absurd hv (Array.not_mem_empty _)
  | constant h hv ih =>
    obtain rfl : _ = (⟨0⟩ : ClosureRef) := by simpa using ih
    cases hv with
    | own hv => exact absurd hv (Array.not_mem_empty _)
    | nested hq hv => exact absurd hq (Array.not_mem_empty _)
  | upvalue h hc hv ih =>
    obtain rfl : _ = (⟨0⟩ : ClosureRef) := by simpa using ih
    exact absurd hc (Array.not_mem_empty _)

theorem hidingHost_bare : hidingHost.Bare fun v => ∃ op ∈ addThenMeasure, op.Passes v := by
  refine ⟨rfl, fun v hv => ?_⟩
  have hknown := hidingHost_reaches hv
  simp only [List.mem_cons, List.not_mem_nil, or_false] at hknown
  rcases hknown with rfl | rfl | rfl | rfl <;> rfl

/-- A metatable out of reach makes no difference, neither when the call fails nor afterwards. -/
theorem hooks_transparent_hidden :
    (hidingHost.Bare fun v => ∃ op ∈ addThenMeasure, op.Passes v) ∧
      (session 3 addThenMeasure (hidingHost.withHooks .standard)).1.map Report.hasFailed =
        [true, false] ∧
      (session 3 addThenMeasure (hidingHost.withHooks .raw)).1 =
        (session 3 addThenMeasure (hidingHost.withHooks .standard)).1 ∧
      (session 3 addThenMeasure (hidingHost.withHooks .raw)).2 =
        (session 3 addThenMeasure (hidingHost.withHooks .standard)).2.map (·.withHooks .raw) :=
  ⟨hidingHost_bare, by decide +kernel, hooks_transparent hidingHost_bare 3⟩

end LuaMachine.Vm
