import Mathlib.Order.Basic
import LuaMachine.Machine.State
import LuaMachine.Proofs.ActiveFrames
import LuaMachine.Proofs.OpenUpvalues

/-!
# What a program can reach

A program starts from the registers, the running closures and the open upvalues, and gets further
through the values of tables, the constants of prototypes and the cells of closures. A territory is
a set of objects that it cannot leave: whatever an object of the territory refers to belongs to it
as well, and so do the handlers that are found for it and every closure that is yet to be made.
-/
namespace LuaMachine

/-! ## The values of a table -/

namespace Table
variable {P : Value → Prop} {t : Table} {v : Value}

/-- All values of the table have a property. -/
structure All (P : Value → Prop) (t : Table) : Prop where
  array : ∀ v ∈ t.array, P v
  entries : ∀ e ∈ t.entries, P e.2

theorem all_empty (P : Value → Prop) : All P {} := ⟨by simp, by simp⟩

theorem All.mono {Q : Value → Prop} (h : t.All P) (hpq : ∀ v, P v → Q v) : t.All Q :=
  ⟨fun v hv => hpq v (h.array v hv), fun e he => hpq e.2 (h.entries e he)⟩

theorem All.hashGet (h : t.All P) (hnil : P .nil) (k : Key) : P (t.hashGet k) := by
  unfold Table.hashGet
  split
  · next p _ =>
    cases he : t.entries[p]? with
    | none => exact hnil
    | some e => exact h.entries e (Array.mem_of_getElem? he)
  · exact hnil

theorem All.get (h : t.All P) (hnil : P .nil) (k : Key) : P (t.get k) := by
  unfold Table.get
  split
  · next v hv =>
    obtain ⟨i, -, hi⟩ := Option.bind_eq_some_iff.mp hv
    exact h.array v (Array.mem_of_getElem? hi)
  · exact h.hashGet hnil k

theorem All.getValue (h : t.All P) (hnil : P .nil) (key : Value) : P (t.getValue key) := by
  unfold Table.getValue
  split
  · exact h.get hnil _
  · exact hnil

theorem All.compact (h : t.All P) : t.compact.All P := by
  refine ⟨h.array, fun e he => h.entries e ?_⟩
  exact (Array.mem_filter.mp he).1

theorem All.setEntry (h : t.All P) (p : Nat) (hv : P v) : (t.setEntry p v).All P := by
  refine ⟨h.array, fun e he => ?_⟩
  obtain ⟨i, hi⟩ := Array.getElem?_of_mem he
  rw [Table.setEntry, Array.getElem?_modify] at hi
  split at hi
  · obtain ⟨e', -, rfl⟩ := Option.map_eq_some_iff.mp hi
    exact hv
  · exact h.entries e (Array.mem_of_getElem? hi)

theorem All.addEntry {k : Key} (h : t.All P) (hk : t.positions[k]? = none) (hv : P v) :
    (t.addEntry k v hk).All P := by
  refine ⟨h.array, fun e he => ?_⟩
  rcases Array.mem_push.mp he with he | rfl
  · exact h.entries e he
  · exact hv

theorem All.hashSet (h : t.All P) (k : Key) (hv : P v) : (t.hashSet k v).All P := by
  unfold Table.hashSet
  split
  · exact h.setEntry _ hv
  · split
    · exact h
    · split
      · exact h.compact.addEntry _ hv
      · exact h.addEntry _ hv

theorem All.push (h : t.All P) (hv : P v) : All P { t with array := t.array.push v } := by
  refine ⟨fun w hw => ?_, h.entries⟩
  rcases Array.mem_push.mp hw with hw | rfl
  · exact h.array w hw
  · exact hv

theorem All.migrate (hnil : P .nil) (fuel : Nat) (h : t.All P) : (migrate fuel t).All P := by
  induction fuel generalizing t with
  | zero => exact h
  | succ fuel ih =>
    unfold Table.migrate
    split
    · exact h
    · next next _ =>
      dsimp only
      split
      · exact h
      · exact ih ((h.hashSet next hnil).push (h.hashGet hnil next))

theorem All.set (h : t.All P) (hnil : P .nil) (k : Key) (hv : P v) : (t.set k v).All P := by
  unfold Table.set
  split
  · exact h.hashSet k hv
  · split
    · refine ⟨fun w hw => ?_, h.entries⟩
      rcases Array.mem_or_eq_of_mem_setIfInBounds hw with hw | rfl
      · exact h.array w hw
      · exact hv
    · split
      · exact .migrate hnil _ ((h.hashSet k hnil).push hv)
      · exact h.hashSet k hv

end Table

/-- A constant of a prototype or of one nested in it. -/
inductive Prototype.Constant : Prototype → Value → Prop
  | own {p : Prototype} {v : Value} (h : v ∈ p.constants) : Constant p v
  | nested {p q : Prototype} {v : Value} (hq : q ∈ p.functions) (h : Constant q v) : Constant p v

/-- A new table looks the same before and after it is made. -/
theorem Heap.tableAt_newTable (heap : Heap) (r : TableRef) :
    heap.newTable.2.tableAt r = heap.tableAt r := by
  simp only [Heap.newTable, Heap.tableAt, Array.getElem?_push]
  split
  · next heq =>
    rw [heq, Array.getElem?_eq_none (Nat.le_refl _)]
    rfl
  · rfl

theorem Heap.metatable?_newTable (heap : Heap) (types : TypeMetatables) (v : Value) :
    heap.newTable.2.metatable? types v = heap.metatable? types v := by
  cases v with
  | table r => exact congrArg TableObject.metatable (heap.tableAt_newTable r)
  | nil | bool _ | number _ | string _ | light _ | host _ | closure _ | userdata _ => rfl

/-! ## Territories -/

/-- Sets of objects of each kind. Where it is not `hooked`, none of them has a metatable. A
territory that `grows` has every table that is yet to be made, any other one has those that were
made. -/
structure Territory where
  tables : TableRef → Prop
  closures : ClosureRef → Prop
  userdata : UserdataRef → Prop
  cells : CellRef → Prop
  hooked : Prop
  grows : Prop

namespace Territory

/-- The value is no object, or one of the territory. -/
def Holds (D : Territory) : Value → Prop
  | .table r => D.tables r
  | .closure r => D.closures r
  | .userdata r => D.userdata r
  | _ => True

theorem holds_nil (D : Territory) : D.Holds .nil := trivial

/-- All registers have values of the territory. -/
def HoldsStack (D : Territory) (s : RegisterStack) : Prop :=
  ∀ v ∈ s.slots, D.Holds v

/-- All active frames run closures of the territory. -/
def HoldsFrames (D : Territory) (s : CallStack) : Prop :=
  ∀ f ∈ s.active, ∀ r, f.closure = some r → D.closures r

/-- The closure refers to the territory only. -/
structure HoldsClosure (D : Territory) (c : Closure) : Prop where
  constants : ∀ v, c.proto.Constant v → D.Holds v
  cells : ∀ r ∈ c.upvalues, D.cells r

/-- The objects of the territory refer to it only, and so do their metatables. -/
structure HoldsHeap (D : Territory) (types : TypeMetatables) (h : Heap) : Prop where
  content : ∀ r, D.tables r → (h.tableAt r).content.All D.Holds
  made : ¬ D.grows → ∀ r, D.tables r ↔ r.index < h.tables.size
  handlers : ∀ v m, D.Holds v → h.metatable? types v = some m →
    D.hooked ∧ (h.tableAt m).content.All D.Holds
  closures : ∀ r, D.closures r → D.HoldsClosure (h.closureAt r)
  freshTables : D.grows → ∀ r : TableRef, h.tables.size ≤ r.index → D.tables r
  freshClosures : ∀ r : ClosureRef, h.closures.size ≤ r.index → D.closures r

/-- The cells of the territory have values of it, and all open cells are among them. -/
structure HoldsCells (D : Territory) (u : Upvalues) : Prop where
  values : ∀ r v, D.cells r → u.cell r = .closed v → D.Holds v
  opened : ∀ p ∈ u.opened, D.cells p.2
  fresh : ∀ r : CellRef, u.cells.size ≤ r.index → D.cells r

/-- No program leaves the territory. -/
structure Closed (D : Territory) (vm : Vm) : Prop where
  stack : D.HoldsStack vm.stack
  frames : D.HoldsFrames vm.frames
  heap : D.HoldsHeap vm.types vm.heap
  cells : D.HoldsCells vm.upvalues

/-- A territory with more tables. -/
structure Extends (D D' : Territory) : Prop where
  tables : ∀ r, D.tables r → D'.tables r
  others : D' = { D with tables := D'.tables }

instance : Preorder Territory where
  le := Extends
  le_refl _ := ⟨fun _ h => h, rfl⟩
  le_trans _ _ _ h h' := by
    refine ⟨fun r hr => h'.tables r (h.tables r hr), ?_⟩
    rw [h'.others, h.others]

variable {D D' : Territory} {types : TypeMetatables} {heap : Heap} {u : Upvalues}
  {s t : RegisterStack} {vm : Vm} {v : Value}

theorem Holds.mono (hv : D.Holds v) (h : D ≤ D') : D'.Holds v := by
  rw [h.others]
  cases v with
  | table r => exact h.tables r hv
  | nil | bool _ | number _ | string _ | light _ | host _ | closure _ | userdata _ => exact hv

theorem hooked_eq_of_le (h : D ≤ D') : D'.hooked = D.hooked := by
  rw [h.others]

theorem HoldsClosure.child {c : Closure} {child : Prototype} {refs : Array CellRef}
    (h : D.HoldsClosure c) (hc : child ∈ c.proto.functions) (hr : ∀ r ∈ refs, D.cells r) :
    D.HoldsClosure { proto := child, upvalues := refs } :=
  ⟨fun v hv => h.constants v (.nested hc hv), hr⟩

namespace HoldsStack

theorem getD (h : D.HoldsStack s) (slot : Nat) : D.Holds (s.slots[slot]?.getD .nil) := by
  cases hv : s.slots[slot]? with
  | none => exact trivial
  | some v => exact h v (Array.mem_of_getElem? hv)

theorem get {slot : Nat} (h : D.HoldsStack s) (hg : s.get slot = .ok v) : D.Holds v :=
  h v (Array.mem_of_getElem? (RegisterStack.get_eq_ok_iff.mp hg))

theorem setIfInBounds (h : D.HoldsStack s) (slot : Nat) (hv : D.Holds v) :
    D.HoldsStack (s.setIfInBounds slot v) := by
  intro w hw
  rcases Array.mem_or_eq_of_mem_setIfInBounds hw with hw | rfl
  · exact h w hw
  · exact hv

theorem set {slot : Nat} (h : D.HoldsStack s) (hv : D.Holds v) (hs : s.set slot v = .ok t) :
    D.HoldsStack t := by
  obtain ⟨-, rfl⟩ := RegisterStack.set_eq_ok_iff.mp hs
  exact h.setIfInBounds slot hv

theorem copyDown {source target count : Nat} (h : D.HoldsStack s)
    (hs : s.copyDown source target count = .ok t) : D.HoldsStack t := by
  induction count generalizing s source target with
  | zero =>
    cases hs
    exact h
  | succ count ih =>
    unfold RegisterStack.copyDown at hs
    split at hs
    · cases hs
    · next v hv =>
      split at hs
      · cases hs
      · next s' hw => exact ih (h.set (h.get hv) hw) hs

theorem fillNil {start count : Nat} (h : D.HoldsStack s) (hs : s.fillNil start count = .ok t) :
    D.HoldsStack t := by
  induction count generalizing s start with
  | zero =>
    cases hs
    exact h
  | succ count ih =>
    unfold RegisterStack.fillNil at hs
    split at hs
    · cases hs
    · next s' hw => exact ih (h.set D.holds_nil hw) hs

theorem take {slot : Nat} (h : D.HoldsStack s) (hs : s.take slot = .ok (v, t)) :
    D.Holds v ∧ D.HoldsStack t := by
  unfold RegisterStack.take at hs
  split at hs
  · cases hs
  · next w hw =>
    split at hs
    · cases hs
    · next s' hset =>
      cases hs
      exact ⟨h.get hw, h.set D.holds_nil hset⟩

theorem shiftUp {top count : Nat} (h : D.HoldsStack s) (hs : s.shiftUp top count = .ok t) :
    D.HoldsStack t := by
  induction count generalizing s top with
  | zero =>
    cases hs
    exact h
  | succ count ih =>
    unfold RegisterStack.shiftUp at hs
    split at hs
    · cases hs
    · next v s' hv =>
      obtain ⟨hvalue, hs'⟩ := h.take hv
      split at hs
      · cases hs
      · next s'' hw => exact ih (hs'.set hvalue hw) hs

theorem insert {slot top : Nat} (h : D.HoldsStack s) (hv : D.Holds v)
    (hs : s.insert slot top v = .ok t) : D.HoldsStack t := by
  unfold RegisterStack.insert at hs
  split at hs
  · cases hs
  · next s' hshift => exact (h.shiftUp hshift).set hv hs

theorem slice {start stop : Nat} {vs : List Value} (h : D.HoldsStack s)
    (hs : s.slice start stop = .ok vs) : ∀ v ∈ vs, D.Holds v := by
  unfold RegisterStack.slice at hs
  split at hs
  · cases hs
    intro v hv
    obtain ⟨i, hi⟩ := Array.getElem?_of_mem (Array.mem_toList_iff.mp hv)
    rw [Array.getElem?_extract] at hi
    split at hi
    · exact h v (Array.mem_of_getElem? hi)
    · cases hi
  · cases hs

theorem grow (h : D.HoldsStack s) (wanted : Nat) : D.HoldsStack (s.grow wanted) := by
  intro v hv
  rcases Array.mem_append.mp hv with hv | hv
  · exact h v hv
  · rw [(Array.mem_replicate.mp hv).2]
    exact trivial

end HoldsStack

namespace HoldsFrames
variable {frames after : CallStack} {f : Frame}

/-- The active frames lie in the arena up to the depth. -/
theorem mem_active : f ∈ frames.active ↔ ∃ d, d ≤ frames.depth ∧ frames.frames[d]? = some f := by
  rw [← List.mem_reverse, List.mem_iff_getElem?]
  constructor
  · rintro ⟨d, hd⟩
    have hlt := (List.getElem?_eq_some_iff.mp hd).1
    rw [List.length_reverse, CallStack.length_active] at hlt
    exact ⟨d, Nat.le_of_lt_succ hlt, CallStack.getElem?_reverse_active (Nat.le_of_lt_succ hlt) ▸ hd⟩
  · rintro ⟨d, hle, hd⟩
    exact ⟨d, CallStack.getElem?_reverse_active hle ▸ hd⟩

theorem current (h : D.HoldsFrames frames) {r : ClosureRef} (hr : frames.current.closure = some r) :
    D.closures r :=
  h _ List.mem_cons_self r hr

theorem modifyCurrent {g : Frame → Frame} (h : D.HoldsFrames frames)
    (hg : ∀ f, (g f).closure = f.closure) : D.HoldsFrames (frames.modifyCurrent g) := by
  intro f hf
  rw [CallStack.active_modifyCurrent] at hf
  rcases List.mem_cons.mp hf with rfl | hf
  · rw [hg]
    exact h _ List.mem_cons_self
  · exact h f (List.mem_cons_of_mem _ hf)

theorem push (h : D.HoldsFrames frames) (hf : ∀ r, f.closure = some r → D.closures r) :
    D.HoldsFrames (frames.push f) := by
  intro g hg
  rw [CallStack.active_push] at hg
  rcases List.mem_cons.mp hg with rfl | hg
  · exact hf
  · exact h g hg

theorem pop (h : D.HoldsFrames frames) (hp : frames.pop = .ok (f, after)) :
    D.HoldsFrames after := by
  unfold CallStack.pop at hp
  split at hp
  · cases hp
    intro g hg
    obtain ⟨d, hle, hd⟩ := mem_active.mp hg
    exact h g (mem_active.mpr ⟨d, Nat.le_trans hle (Nat.sub_le _ _), hd⟩)
  · cases hp

theorem collapse (h : D.HoldsFrames frames) (hf : ∀ r, f.closure = some r → D.closures r)
    (hc : frames.collapse f = .ok after) : D.HoldsFrames after := by
  unfold CallStack.collapse at hc
  split at hc
  · cases hc
    intro g hg
    obtain ⟨d, hle, hd⟩ := mem_active.mp hg
    simp only [Array.getElem?_set] at hd
    split at hd
    · cases hd
      exact hf
    · exact h g (mem_active.mpr ⟨d, Nat.le_trans hle (Nat.sub_le _ _), hd⟩)
  · cases hc

theorem truncate (h : D.HoldsFrames frames) (depth : Nat) :
    D.HoldsFrames (frames.truncate depth) := by
  intro g hg
  obtain ⟨d, hle, hd⟩ := mem_active.mp hg
  exact h g (mem_active.mpr ⟨d, Nat.le_trans hle (Nat.min_le_left _ _), hd⟩)

end HoldsFrames

/-- A closure that does not exist refers to nothing. -/
theorem holdsClosure_default (D : Territory) : D.HoldsClosure default := by
  have hconstants : (default : Closure).proto.constants = #[] := rfl
  have hfunctions : (default : Closure).proto.functions = #[] := rfl
  have hupvalues : (default : Closure).upvalues = #[] := rfl
  refine ⟨fun v hv => ?_, fun r hr => ?_⟩
  · cases hv with
    | own hv => simp [hconstants] at hv
    | nested hq _ => simp [hfunctions] at hq
  · simp [hupvalues] at hr

namespace HoldsHeap

theorem rawSet {r : TableRef} (h : D.HoldsHeap types heap) (k : Key) (hv : D.Holds v) :
    D.HoldsHeap types (heap.rawSet r k v) := by
  have htable : ∀ r', (heap.rawSet r k v).tableAt r' = heap.tableAt r' ∨
      (heap.rawSet r k v).tableAt r' =
        { heap.tableAt r' with content := (heap.tableAt r').content.set k v } := by
    intro r'
    simp only [Heap.rawSet, Heap.tableAt, Array.getElem?_modify]
    split
    · cases heap.tables[r'.index]? with
      | none => exact .inl rfl
      | some t => exact .inr rfl
    · exact .inl rfl
  have hall : ∀ r', (heap.tableAt r').content.All D.Holds →
      ((heap.rawSet r k v).tableAt r').content.All D.Holds := by
    intro r' hr'
    rcases htable r' with heq | heq
    · rwa [heq]
    · rw [heq]
      exact hr'.set trivial k hv
  have hmetatable : ∀ w, (heap.rawSet r k v).metatable? types w = heap.metatable? types w := by
    intro w
    cases w with
    | table r' =>
      show ((heap.rawSet r k v).tableAt r').metatable = (heap.tableAt r').metatable
      rcases htable r' with heq | heq <;> rw [heq]
    | _ => rfl
  have hsize : (heap.rawSet r k v).tables.size = heap.tables.size := by simp [Heap.rawSet]
  refine ⟨fun r' hr' => hall r' (h.content r' hr'), fun hd => ?_, fun w m hw hm => ?_, h.closures,
    fun hd => ?_, h.freshClosures⟩
  · rw [hsize]
    exact h.made hd
  · rw [hmetatable] at hm
    exact (h.handlers w m hw hm).imp_right (hall m)
  · rw [hsize]
    exact h.freshTables hd

theorem newClosure {c : Closure} (h : D.HoldsHeap types heap) (hc : D.HoldsClosure c) :
    D.closures (heap.newClosure c).1 ∧ D.HoldsHeap types (heap.newClosure c).2 := by
  refine ⟨h.freshClosures _ (Nat.le_refl _), h.content, h.made, fun v m hv hm => ?_,
    fun r hr => ?_, h.freshTables, ?_⟩
  · refine h.handlers v m hv ?_
    cases v <;> exact hm
  · have hclosure : (heap.newClosure c).2.closureAt r = c ∨
        (heap.newClosure c).2.closureAt r = heap.closureAt r := by
      simp only [Heap.newClosure, Heap.closureAt, Array.getElem?_push]
      split
      · exact .inl rfl
      · exact .inr rfl
    rcases hclosure with heq | heq
    · rw [heq]
      exact hc
    · rw [heq]
      exact h.closures r hr
  · intro r hr
    refine h.freshClosures r ?_
    simp only [Heap.newClosure, Array.size_push] at hr
    omega

end HoldsHeap

namespace HoldsCells

theorem allocate (h : D.HoldsCells u) (c : Cell) (hc : ∀ v, c = .closed v → D.Holds v) :
    D.cells (u.allocate c).1 ∧ D.HoldsCells (u.allocate c).2 := by
  refine ⟨h.fresh _ (Nat.le_refl _), fun r v hr hv => ?_, h.opened, ?_⟩
  · simp only [Upvalues.allocate, Upvalues.cell, Array.getElem?_push] at hv
    split at hv
    · exact hc v hv
    · exact h.values r v hr hv
  · intro r hr
    refine h.fresh r ?_
    simp only [Upvalues.allocate, Array.size_push] at hr
    omega

theorem setCell (h : D.HoldsCells u) (r : CellRef) (hv : D.Holds v) :
    D.HoldsCells { u with cells := u.cells.setIfInBounds r.index (.closed v) } := by
  refine ⟨fun r' w hr' hw => ?_, h.opened, fun r' hr' => h.fresh r' (by simpa using hr')⟩
  simp only [Upvalues.cell, Array.getElem?_setIfInBounds] at hw
  split at hw
  · split at hw
    · cases hw
      exact hv
    · cases hw
      exact trivial
  · exact h.values r' w hr' hw

theorem capture (h : D.HoldsCells u) (slot : Nat) :
    D.cells (u.capture slot).1 ∧ D.HoldsCells (u.capture slot).2 := by
  cases hf : Upvalues.findOpen slot u.opened with
  | some r =>
    rw [Upvalues.capture_of_some hf]
    exact ⟨h.opened _ (Upvalues.mem_of_findOpen hf), h⟩
  | none =>
    obtain ⟨hcell, hcells⟩ := h.allocate (.opened slot) (by simp)
    rw [Upvalues.capture_of_none hf]
    refine ⟨hcell, hcells.values, fun p hp => ?_, hcells.fresh⟩
    rcases Upvalues.mem_insertOpen.mp hp with rfl | hp
    · exact hcell
    · exact h.opened p hp

theorem close (h : D.HoldsCells u) (level : Nat) (hs : D.HoldsStack s) :
    D.HoldsCells (u.close level s.slots) := by
  obtain ⟨cells, opened⟩ := u
  unfold Upvalues.close
  induction opened generalizing cells with
  | nil => exact h
  | cons p rest ih =>
    obtain ⟨slot, r⟩ := p
    unfold Upvalues.closeFrom
    split
    · have hset := h.setCell r (hs.getD slot)
      exact ih _ ⟨hset.values, fun p hp => h.opened p (List.mem_cons_of_mem _ hp), hset.fresh⟩
    · exact h

end HoldsCells

/-- A territory is extended by each table that is made. -/
theorem Closed.newTable (h : D.Closed vm) :
    ∃ D', D ≤ D' ∧ D'.tables vm.heap.newTable.1 ∧
      D'.Closed { vm with heap := vm.heap.newTable.2 } := by
  let D' : Territory := { D with tables := fun r => D.tables r ∨ r = vm.heap.newTable.1 }
  have hle : D ≤ D' := ⟨fun _ hr => .inl hr, rfl⟩
  have hclosure : ∀ {c : Closure}, D.HoldsClosure c → D'.HoldsClosure c := fun hc =>
    ⟨fun v hv => (hc.constants v hv).mono hle, hc.cells⟩
  have hnew : vm.heap.tableAt vm.heap.newTable.1 = default := by
    simp [Heap.newTable, Heap.tableAt]
  refine ⟨D', hle, .inr rfl, fun v hv => (h.stack v hv).mono hle, h.frames, ?_,
    fun r v hr hv => (h.cells.values r v hr hv).mono hle, h.cells.opened, h.cells.fresh⟩
  refine ⟨fun r hr => ?_, fun hd r => ?_, fun v m hv hm => ?_, fun r hr =>
    hclosure (h.heap.closures r hr), fun hd r hr => ?_, h.heap.freshClosures⟩
  · rw [vm.heap.tableAt_newTable]
    rcases hr with hr | rfl
    · exact (h.heap.content r hr).mono fun _ hv => hv.mono hle
    · rw [hnew]
      exact Table.all_empty _
  · show D.tables r ∨ r = ⟨vm.heap.tables.size⟩ ↔ r.index < (vm.heap.tables.push _).size
    rw [h.heap.made hd r, Array.size_push]
    obtain ⟨i⟩ := r
    simp only [TableRef.mk.injEq]
    omega
  · -- The new table has no metatable, and the others have theirs.
    have hold : D.Holds v ∨ v = .table vm.heap.newTable.1 := by
      cases v with
      | table r => exact hv.imp_right (congrArg _)
      | nil | bool _ | number _ | string _ | light _ | host _ | closure _ | userdata _ =>
        exact .inl hv
    rw [vm.heap.metatable?_newTable] at hm
    rw [vm.heap.tableAt_newTable]
    rcases hold with hv | rfl
    · refine (h.heap.handlers v m hv hm).imp_right fun hm => ?_
      exact hm.mono fun _ hw => hw.mono hle
    · rw [Heap.metatable?, hnew] at hm
      cases hm
  · refine .inl (h.heap.freshTables hd r ?_)
    simp only [Heap.newTable, Array.size_push] at hr
    omega

/-- The handlers of a value of the territory belong to it. -/
theorem Closed.metafield (h : D.Closed vm) (hv : D.Holds v) (event : String) :
    D.Holds (vm.heap.metafield vm.types v event) := by
  unfold Heap.metafield
  split
  · next m hm => exact (h.heap.handlers v m hv hm).2.get D.holds_nil _
  · exact D.holds_nil

/-- Without metatables there are none. -/
theorem Closed.metafield_eq_nil (h : D.Closed vm) (hd : ¬ D.hooked) (hv : D.Holds v)
    (event : String) : vm.heap.metafield vm.types v event = .nil := by
  unfold Heap.metafield
  split
  · next m hm => exact absurd (h.heap.handlers v m hv hm).1 hd
  · rfl

end Territory

/-! ## Reach -/

namespace Vm
variable {vm : Vm} {given : Value → Prop}

/-- The values that a program can get hold of when it is given some. -/
inductive Reaches (vm : Vm) (given : Value → Prop) : Value → Prop
  | given {v : Value} (h : given v) : Reaches vm given v
  | slot {v : Value} (h : v ∈ vm.stack.slots) : Reaches vm given v
  | running {f : Frame} {r : ClosureRef} (hf : f ∈ vm.frames.active) (hr : f.closure = some r) :
      Reaches vm given (.closure r)
  | opened {slot : Nat} {c : CellRef} {v : Value} (hc : (slot, c) ∈ vm.upvalues.opened)
      (hv : vm.upvalues.cell c = .closed v) : Reaches vm given v
  | item {r : TableRef} {v : Value} (h : Reaches vm given (.table r))
      (hv : v ∈ (vm.heap.tableAt r).content.array) :
      Reaches vm given v
  | entry {r : TableRef} {k : Key} {v : Value} (h : Reaches vm given (.table r))
      (hv : (k, v) ∈ (vm.heap.tableAt r).content.entries) : Reaches vm given v
  | constant {r : ClosureRef} {v : Value} (h : Reaches vm given (.closure r))
      (hv : (vm.heap.closureAt r).proto.Constant v) : Reaches vm given v
  | upvalue {r : ClosureRef} {c : CellRef} {v : Value} (h : Reaches vm given (.closure r))
      (hc : c ∈ (vm.heap.closureAt r).upvalues) (hv : vm.upvalues.cell c = .closed v) :
      Reaches vm given v

/-- No type has a metatable, and nothing has one that a program can get hold of. -/
structure Bare (vm : Vm) (given : Value → Prop) : Prop where
  types : vm.types = {}
  reached : ∀ v, Reaches vm given v → vm.heap.metatable? vm.types v = none

/-- What can be reached, and what is yet to be made. -/
def territory (vm : Vm) (given : Value → Prop) : Territory where
  tables r := Reaches vm given (.table r) ∨ vm.heap.tables.size ≤ r.index
  closures r := Reaches vm given (.closure r) ∨ vm.heap.closures.size ≤ r.index
  userdata r := Reaches vm given (.userdata r)
  cells c := (∃ r, Reaches vm given (.closure r) ∧ c ∈ (vm.heap.closureAt r).upvalues) ∨
    (∃ slot, (slot, c) ∈ vm.upvalues.opened) ∨ vm.upvalues.cells.size ≤ c.index
  hooked := False
  grows := True

theorem Reaches.holds {v : Value} (h : Reaches vm given v) : (vm.territory given).Holds v := by
  cases v with
  | table r => exact .inl h
  | closure r => exact .inl h
  | userdata r => exact h
  | nil | bool _ | number _ | string _ | light _ | host _ => exact trivial

theorem Bare.metatable?_eq_none (h : Bare vm given) {v : Value}
    (hv : (vm.territory given).Holds v) : vm.heap.metatable? vm.types v = none := by
  cases v with
  | table r =>
    rcases hv with hr | hr
    · exact h.reached _ hr
    · show (vm.heap.tableAt r).metatable = none
      rw [show vm.heap.tableAt r = default by simp [Heap.tableAt, Array.getElem?_eq_none hr]]
      rfl
  | userdata r => exact h.reached _ hv
  | nil => rfl
  | bool _ | number _ | string _ | light _ | closure _ | host _ =>
    rw [h.types]
    rfl

theorem Bare.holdsHeap (h : Bare vm given) :
    (vm.territory given).HoldsHeap vm.types vm.heap where
  content := by
    rintro r (hr | hr)
    · exact ⟨fun v hv => (hr.item hv).holds, fun e he => (hr.entry he).holds⟩
    · have hnone : vm.heap.tableAt r = default := by simp [Heap.tableAt, Array.getElem?_eq_none hr]
      rw [hnone]
      exact Table.all_empty _
  made := fun hd => absurd trivial hd
  handlers := by
    intro v m hv hm
    rw [h.metatable?_eq_none hv] at hm
    cases hm
  closures := by
    rintro r (hr | hr)
    · exact ⟨fun v hv => (hr.constant hv).holds, fun c hc => .inl ⟨r, hr, hc⟩⟩
    · have hnone : vm.heap.closureAt r = default := by
        simp [Heap.closureAt, Array.getElem?_eq_none hr]
      rw [hnone]
      exact Territory.holdsClosure_default _
  freshTables := fun _ r hr => .inr hr
  freshClosures := fun r hr => .inr hr

theorem holdsCells (vm : Vm) (given : Value → Prop) :
    (vm.territory given).HoldsCells vm.upvalues where
  values := by
    rintro c v (⟨r, hr, hc⟩ | ⟨slot, hc⟩ | hc) hv
    · exact (hr.upvalue hc hv).holds
    · exact (Reaches.opened hc hv).holds
    · simp only [Upvalues.cell, Array.getElem?_eq_none hc, Option.getD_none, default,
        Cell.closed.injEq] at hv
      subst hv
      exact trivial
  opened := fun p hp => .inr (.inl ⟨p.1, hp⟩)
  fresh := fun c hc => .inr (.inr hc)

/-- What can be reached from a machine without metatables is a territory without metatables. -/
theorem Bare.closed (h : Bare vm given) : (vm.territory given).Closed vm where
  stack := fun _ hv => (Reaches.slot hv).holds
  frames := fun _ hf _ hr => .inl (.running hf hr)
  heap := h.holdsHeap
  cells := holdsCells vm given

end Vm

end LuaMachine
