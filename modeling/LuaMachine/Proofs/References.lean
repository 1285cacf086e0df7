import LuaMachine.Proofs.TableMap
import LuaMachine.Proofs.TerritoryRuns

/-!
# References to tables

A table is known by its number, so a value could refer to a table that was never made. It does not
where a host makes its objects in the heap and passes on only the tables that it was given: whatever
a program does with them, every reference in the machine is to a table of its heap.
-/
namespace LuaMachine

/-! ## Heaps in order -/

namespace Heap
variable {h h' : Heap} {r : TableRef} {v : Value} {k : Key}

/-- The value is no table, or one of the heap. -/
def Has (h : Heap) : Value → Prop
  | .table r => r.index < h.tables.size
  | _ => True

/-- All tables hold only tables of the heap. -/
def Intact (h : Heap) : Prop := ∀ r, (h.tableAt r).content.All h.Has

theorem Has.mono (hv : h.Has v) (hs : h.tables.size ≤ h'.tables.size) : h'.Has v := by
  cases v with
  | table r => exact Nat.lt_of_lt_of_le hv hs
  | nil | bool _ | number _ | string _ | light _ | host _ | closure _ | userdata _ => trivial

theorem intact_empty : ({} : Heap).Intact := fun _ => Table.all_empty _

namespace Intact

theorem metafield (hi : h.Intact) (types : TypeMetatables) (o : Value) (event : String) :
    h.Has (h.metafield types o event) := by
  unfold Heap.metafield
  split
  · exact (hi _).get trivial _
  · trivial

/-- A heap with at least as many tables, and with the same values in them. -/
theorem of_content (hi : h.Intact) (hs : h.tables.size ≤ h'.tables.size)
    (hc : ∀ r, (h'.tableAt r).content = (h.tableAt r).content) : h'.Intact := by
  intro r
  rw [hc]
  exact (hi r).mono fun _ hv => hv.mono hs

theorem newTable (hi : h.Intact) : h.newTable.2.Intact := by
  refine hi.of_content ?_ fun r => congrArg TableObject.content (h.tableAt_newTable r)
  simp [Heap.newTable]

theorem setMetatable (hi : h.Intact) (v : Value) (m : Option TableRef) :
    (h.setMetatable v m).Intact := by
  cases v with
  | table r =>
    refine hi.of_content (by simp [Heap.setMetatable]) fun r' => ?_
    simp only [Heap.setMetatable, tableAt, Array.getElem?_modify]
    split
    · cases h.tables[r'.index]? <;> rfl
    · rfl
  | userdata r => exact hi
  | nil | bool _ | number _ | string _ | light _ | host _ | closure _ => exact hi

end Intact

@[simp] theorem size_tables_rawSet (h : Heap) (r : TableRef) (k : Key) (v : Value) :
    (h.rawSet r k v).tables.size = h.tables.size := by
  simp [rawSet]

theorem Intact.rawSet (hi : h.Intact) (hr : r.index < h.tables.size) (k : Key) (hv : h.Has v) :
    (h.rawSet r k v).Intact := by
  intro r'
  have hheld : ((h.rawSet r k v).tableAt r').content.All h.Has := by
    rw [tableAt_rawSet hr]
    split_ifs
    · exact (hi r').set trivial k hv
    · exact hi r'
  exact hheld.mono fun _ hw => hw.mono (by simp)

end Heap

/-! ## Machines in order -/

namespace Vm

/-- All values that the machine holds refer to tables of its heap. -/
structure Intact (vm : Vm) : Prop where
  heap : vm.heap.Intact
  slots : ∀ v ∈ vm.stack.slots, vm.heap.Has v
  cells : ∀ r v, vm.upvalues.cell r = .closed v → vm.heap.Has v
  constants : ∀ r v, (vm.heap.closureAt r).proto.Constant v → vm.heap.Has v

end Vm

/-- The territory of the first `count` tables and of all other objects. -/
def Territory.ofTables (count : Nat) : Territory where
  tables r := r.index < count
  closures _ := True
  userdata _ := True
  cells _ := True
  hooked := True
  grows := False

namespace Vm
variable {vm after : Vm} {func : Nat} {results : ResultCount} {r : Run}

theorem holds_ofTables_iff (vm : Vm) (v : Value) :
    (Territory.ofTables vm.heap.tables.size).Holds v ↔ vm.heap.Has v := by
  cases v <;> exact Iff.rfl

/-- A machine is in order exactly if no program leaves its tables. -/
theorem intact_iff_closed :
    vm.Intact ↔ (Territory.ofTables vm.heap.tables.size).Closed vm := by
  have hholds : (Territory.ofTables vm.heap.tables.size).Holds = vm.heap.Has :=
    funext fun v => propext (vm.holds_ofTables_iff v)
  constructor
  · intro h
    refine ⟨?_, fun _ _ _ _ => trivial, ?_, ?_⟩
    · rw [Territory.HoldsStack, hholds]
      exact h.slots
    · refine ⟨fun r _ => ?_, fun _ _ => Iff.rfl, fun v m _ _ => ⟨trivial, ?_⟩,
        fun r _ => ⟨?_, fun _ _ => trivial⟩, fun hd => hd.elim, fun _ _ => trivial⟩
      · rw [hholds]
        exact h.heap r
      · rw [hholds]
        exact h.heap m
      · rw [hholds]
        exact h.constants r
    · refine ⟨fun r v _ hv => ?_, fun _ _ => trivial, fun _ _ => trivial⟩
      rw [hholds]
      exact h.cells r v hv
  · intro h
    refine ⟨fun r => ?_, ?_, fun r v hv => ?_, fun r => ?_⟩
    · by_cases hr : r.index < vm.heap.tables.size
      · rw [← hholds]
        exact h.heap.content r hr
      · have hnone : vm.heap.tableAt r = default := by
          simp [Heap.tableAt, Array.getElem?_eq_none (Nat.le_of_not_lt hr)]
        rw [hnone]
        exact Table.all_empty _
    · rw [← hholds]
      exact h.stack
    · rw [← hholds]
      exact h.cells.values r v trivial hv
    · rw [← hholds]
      exact (h.heap.closures r trivial).constants

/-- A territory that has grown from that of some tables is that of the tables there are now. -/
theorem intact_of_closed {count : Nat} {D : Territory} (hle : Territory.ofTables count ≤ D)
    (hc : D.Closed vm) : vm.Intact := by
  have hgrows : ¬ D.grows := by
    rw [hle.others]
    exact id
  have htables : D.tables = fun r => r.index < vm.heap.tables.size :=
    funext fun r => propext (hc.heap.made hgrows r)
  have hD : D = Territory.ofTables vm.heap.tables.size := by
    rw [hle.others, htables]
    rfl
  exact intact_iff_closed.mpr (hD ▸ hc)

/-- Every state of a run from a machine in order is in order. -/
theorem Intact.of_during (h : vm.Intact) (hr : During vm func results r) : r.vm.Intact := by
  obtain ⟨D, hle, hc, -⟩ := closed_of_during (intact_iff_closed.mp h) hr
  exact intact_of_closed hle hc

/-- So is the machine after an operation on tables of the heap. -/
theorem Intact.of_perform {op : HostOp} {fuel : Nat} (h : vm.Intact)
    (hp : ∀ v, op.Passes v → vm.heap.Has v) (ha : (op.perform fuel vm).state? = some after) :
    after.Intact := by
  have hpassed : ∀ v, op.Passes v → (Territory.ofTables vm.heap.tables.size).Holds v :=
    fun v hv => (vm.holds_ofTables_iff v).mpr (hp v hv)
  obtain ⟨D, hle, hc⟩ :=
    (HostOp.perform_widens fuel hpassed).closed (intact_iff_closed.mp h) ha
  exact intact_of_closed hle hc

/-- The host changes the heap, and no table disappears. -/
theorem Intact.withHeap {heap : Heap} (h : vm.Intact) (hi : heap.Intact)
    (hs : vm.heap.tables.size ≤ heap.tables.size)
    (hc : ∀ r v, (heap.closureAt r).proto.Constant v →
      (vm.heap.closureAt r).proto.Constant v ∨ heap.Has v) : Intact { vm with heap } where
  heap := hi
  slots := fun v hv => (h.slots v hv).mono hs
  cells := fun r v hv => (h.cells r v hv).mono hs
  constants := by
    intro r v hv
    rcases hc r v hv with hv | hv
    · exact (h.constants r v hv).mono hs
    · exact hv

/-! ## What a host does with tables that it was given -/

/-- The states that a host can bring about when it makes its objects in the heap and passes on only
tables that are there. -/
inductive Honest : Vm → Prop
  | created {config : Config} {hooks : Hooks} {vm : Vm}
      (h : Vm.create config hooks {} {} = .ok vm) : Honest vm
  | operated {vm after : Vm} {op : HostOp} {fuel : Nat} (h : Honest vm)
      (hp : ∀ v, op.Passes v → vm.heap.Has v) (ho : (op.perform fuel vm).state? = some after) :
      Honest after
  | running {vm : Vm} {func : Nat} {results : ResultCount} {r : Run} (h : Honest vm)
      (hr : During vm func results r) : Honest r.vm
  | madeTable {vm : Vm} {listed keyed : Nat} {r : TableRef} {heap : Heap} (h : Honest vm)
      (hn : vm.heap.newTableOfSize listed keyed = .ok (r, heap)) : Honest { vm with heap }
  | madeUserdata {vm : Vm} (h : Honest vm) (u : Userdata) :
      Honest { vm with heap := (vm.heap.newUserdata u).2 }
  | stored {vm : Vm} {r : TableRef} {v : Value} (h : Honest vm) (hr : vm.heap.Has (.table r))
      (k : Key) (hv : vm.heap.Has v) : Honest { vm with heap := vm.heap.rawSet r k v }
  | setMetatable {vm : Vm} (h : Honest vm) (v : Value) (m : Option TableRef) :
      Honest { vm with heap := vm.heap.setMetatable v m }
  | setTypes {vm : Vm} (h : Honest vm) (types : TypeMetatables) : Honest { vm with types }

theorem intact_new (config : Config) (hooks : Hooks) : (Vm.new config hooks {} {}).Intact where
  heap := Heap.intact_empty
  slots := by
    intro v hv
    rw [(Array.mem_replicate.mp hv).2]
    trivial
  cells := by
    intro r v hv
    cases hv
    trivial
  constants := by
    intro r v hv
    refine (holds_ofTables_iff _ v).mp ?_
    exact (Territory.holdsClosure_default _).constants v hv

/-- Such a host never meets a reference to a table that was not made. -/
theorem Honest.intact (h : Honest vm) : vm.Intact := by
  induction h with
  | created h =>
    rw [create_eq_ok h]
    exact intact_new _ _
  | operated _ hp ho ih => exact ih.of_perform hp ho
  | running _ hr ih => exact ih.of_during hr
  | madeTable _ hn ih =>
    cases Heap.newTable_of_newTableOfSize hn
    exact ih.withHeap ih.heap.newTable (by simp) fun _ _ hv => .inl hv
  | madeUserdata _ u ih => exact ih.withHeap ih.heap (Nat.le_refl _) fun _ _ hv => .inl hv
  | stored _ hr k hv ih =>
    exact ih.withHeap (ih.heap.rawSet hr k hv) (by simp) fun _ _ hv => .inl hv
  | setMetatable _ v m ih =>
    refine ih.withHeap (ih.heap.setMetatable v m) ?_ fun r w hw => .inl ?_
    · cases v <;> simp [Heap.setMetatable]
    · cases v <;> exact hw
  | setTypes _ types ih => exact { ih with }

end Vm

end LuaMachine
