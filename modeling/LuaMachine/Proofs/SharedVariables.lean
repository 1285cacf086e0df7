import LuaMachine.Proofs.OpenUpvalues

/-!
# Upvalues as shared variables

A captured slot is a variable. While its cell is open, the variable and the slot are one and the
same place, for the function that owns the slot and for every closure that captured it. Closing
gives the cell a place of its own, which only assignments through the cell reach. What a cell holds
is therefore the last of the assignments made to it, and whether two captures of a slot give the
same variable is decided by what was closed in between.
-/
namespace LuaMachine

/-- What can be done with the slots of a stack and the variables captured from them. -/
inductive VariableOp where
  | capture (slot : Nat)
  | close (level : Nat)
  | read (r : CellRef)
  | write (r : CellRef) (v : Value)
  | store (slot : Nat) (v : Value)

/-- Slots and the variables captured from them. -/
structure Scope where
  upvalues : Upvalues := {}
  stack : Array Value

namespace Scope

def step (c : Scope) : VariableOp → Scope
  | .capture slot => { c with upvalues := (c.upvalues.capture slot).2 }
  | .close level => { c with upvalues := c.upvalues.close level c.stack }
  | .read _ => c
  | .write r v => ⟨(c.upvalues.write c.stack r v).1, (c.upvalues.write c.stack r v).2⟩
  | .store slot v => { c with stack := c.stack.setIfInBounds slot v }

def run (c : Scope) (ops : List VariableOp) : Scope :=
  ops.foldl step c

/-- The cell that capturing the slot gives. -/
def captured (c : Scope) (slot : Nat) : CellRef :=
  (c.upvalues.capture slot).1

/-- The value that is read through a cell. -/
def value (c : Scope) (r : CellRef) : Value :=
  c.upvalues.read c.stack r

/-- The value in a slot. -/
def slotValue (c : Scope) (slot : Nat) : Value :=
  c.stack[slot]?.getD .nil

end Scope

namespace VariableOp

/-- Whether a variable captured from the slot still lives there after the operation. -/
def leavesOpen (slot : Nat) (isOpen : Bool) : VariableOp → Bool
  | .close level => isOpen && decide (slot < level)
  | .capture _ | .read _ | .write _ _ | .store _ _ => isOpen

/-- The value that the operation assigns to the variable of the cell: through the cell, or through
the slot while the variable lives there. -/
def assigned? (r : CellRef) (slot : Nat) (isOpen : Bool) : VariableOp → Option Value
  | .write r' v => if r' = r then some v else none
  | .store slot' v => if isOpen ∧ slot' = slot then some v else none
  | .capture _ | .close _ | .read _ => none

/-- All values that a run assigns to the variable, in their order. -/
def assignments (r : CellRef) (slot : Nat) : Bool → List VariableOp → List Value
  | _, [] => []
  | isOpen, op :: rest =>
    (op.assigned? r slot isOpen).toList ++ assignments r slot (op.leavesOpen slot isOpen) rest

/-- A variable stays in its slot exactly as long as nothing closes at or below that slot. -/
theorem foldl_leavesOpen_eq_true (slot : Nat) (isOpen : Bool) (ops : List VariableOp) :
    ops.foldl (fun isOpen op => op.leavesOpen slot isOpen) isOpen = true ↔
      isOpen = true ∧ ∀ level, VariableOp.close level ∈ ops → slot < level := by
  induction ops generalizing isOpen with
  | nil => simp
  | cons op rest ih =>
    rw [List.foldl_cons, ih]
    cases op with
    | close level => simp [leavesOpen, and_assoc]
    | capture _ | read _ | write _ _ | store _ _ => simp [leavesOpen]

end VariableOp

namespace Upvalues
variable {u : Upvalues} {slot : Nat} {r : CellRef}

theorem sound_empty : Sound {} :=
  .of_closed rfl cell_empty_ne_opened

theorem findOpen_of_mem {l : List (Nat × CellRef)} (hl : l.Pairwise fun p q => q.1 < p.1)
    (hm : (slot, r) ∈ l) : findOpen slot l = some r := by
  induction l with
  | nil => simp at hm
  | cons p rest ih =>
    obtain ⟨s, r'⟩ := p
    obtain ⟨hhead, hrest⟩ := List.pairwise_cons.mp hl
    rcases List.mem_cons.mp hm with he | hm
    · cases he
      simp [findOpen]
    · have hs : slot < s := hhead _ hm
      rw [findOpen, if_neg (by omega), if_neg (by omega), ih hrest hm]

/-- The table lists a slot with a cell exactly when that cell is open there. -/
theorem Sound.mem_opened_iff (hu : u.Sound) : (slot, r) ∈ u.opened ↔ u.cell r = .opened slot := by
  rw [cell_eq_opened]
  exact ⟨hu.cell_of_mem, hu.mem_of_cell⟩

/-- What the table says of a slot is its one open cell. -/
theorem Sound.findOpen_eq_some (hu : u.Sound) :
    findOpen slot u.opened = some r ↔ u.cell r = .opened slot := by
  rw [← hu.mem_opened_iff]
  exact ⟨mem_of_findOpen, findOpen_of_mem hu.descending⟩

theorem Sound.eq_of_opened {r' : CellRef} (hu : u.Sound) (h : u.cell r = .opened slot)
    (h' : u.cell r' = .opened slot) : r = r' := by
  rw [← hu.findOpen_eq_some] at h h'
  exact Option.some.inj (h.symm.trans h')

/-- The cell that capturing gives is open at the slot. -/
theorem Sound.cell_capture (hu : u.Sound) :
    (u.capture slot).2.cell (u.capture slot).1 = .opened slot := by
  cases hf : findOpen slot u.opened with
  | some r =>
    rw [capture_of_some hf]
    exact hu.findOpen_eq_some.mp hf
  | none =>
    rw [capture_of_none hf, cell_eq_opened]
    simp

/-- Capturing a slot gives a known cell again exactly when that cell is still open there. -/
theorem Sound.capture_eq_iff (hu : u.Sound) (hr : r.index < u.cells.size) :
    (u.capture slot).1 = r ↔ u.cell r = .opened slot := by
  rw [← hu.findOpen_eq_some]
  cases hf : findOpen slot u.opened with
  | some r' => simp [capture_of_some hf]
  | none =>
    rw [capture_of_none hf]
    constructor
    · rintro rfl
      simp at hr
    · simp

theorem read_of_opened {stack : Array Value} (h : u.cell r = .opened slot) :
    u.read stack r = stack[slot]?.getD .nil := by
  rw [read, h]

theorem read_of_closed {stack : Array Value} {v : Value} (h : u.cell r = .closed v) :
    u.read stack r = v := by
  rw [read, h]

end Upvalues

namespace Scope
variable {c : Scope} {r : CellRef} {slot : Nat} {isOpen : Bool}

@[simp] theorem run_cons (op : VariableOp) (ops : List VariableOp) :
    c.run (op :: ops) = (c.step op).run ops :=
  rfl

@[simp] theorem run_append (ops more : List VariableOp) :
    c.run (ops ++ more) = (c.run ops).run more :=
  List.foldl_append

theorem sound_step (hc : c.upvalues.Sound) (op : VariableOp) : (c.step op).upvalues.Sound := by
  cases op with
  | capture slot => exact hc.capture slot
  | close level => exact hc.close level c.stack
  | read r => exact hc
  | write r v =>
    simp only [step, Upvalues.write]
    cases hr : c.upvalues.cell r with
    | opened slot => exact hc
    | closed w => exact hc.setClosed (by simp [hr])
  | store slot v => exact hc

theorem sound_run (hc : c.upvalues.Sound) (ops : List VariableOp) : (c.run ops).upvalues.Sound := by
  induction ops generalizing c with
  | nil => exact hc
  | cons op rest ih => exact ih (sound_step hc op)

theorem size_stack_step (op : VariableOp) : (c.step op).stack.size = c.stack.size := by
  cases op with
  | capture _ | close _ | read _ => rfl
  | write r v =>
    simp only [step, Upvalues.write]
    cases c.upvalues.cell r <;> simp
  | store slot v => simp [step]

theorem size_stack_run (ops : List VariableOp) : (c.run ops).stack.size = c.stack.size := by
  induction ops generalizing c with
  | nil => rfl
  | cons op rest ih => rw [run_cons, ih, size_stack_step]

/-- The cell is that of a variable captured from the slot, which lives there as long as the cell is
open. -/
structure Places (c : Scope) (r : CellRef) (slot : Nat) (isOpen : Bool) : Prop where
  sound : c.upvalues.Sound
  bound : slot < c.stack.size
  cell : c.upvalues.cells[r.index]? = some (if isOpen then .opened slot else .closed (c.value r))

theorem value_of_getElem?_opened (h : c.upvalues.cells[r.index]? = some (.opened slot)) :
    c.value r = c.slotValue slot :=
  Upvalues.read_of_opened (Upvalues.cell_eq_opened.mpr h)

theorem value_of_getElem?_closed {v : Value} (h : c.upvalues.cells[r.index]? = some (.closed v)) :
    c.value r = v :=
  Upvalues.read_of_closed (by simp [Upvalues.cell, h])

theorem Places.of_closed {v : Value} (hc : c.upvalues.Sound) (hs : slot < c.stack.size)
    (h : c.upvalues.cells[r.index]? = some (.closed v)) : c.Places r slot false :=
  ⟨hc, hs, by rw [h, value_of_getElem?_closed h]; rfl⟩

/-- A captured slot is a variable that lives there and has the slot's value. -/
theorem places_captured (hc : c.upvalues.Sound) (hs : slot < c.stack.size) :
    (c.step (.capture slot)).Places (c.captured slot) slot true :=
  ⟨hc.capture slot, hs, Upvalues.cell_eq_opened.mp hc.cell_capture⟩

/-- Assigning through another cell reaches neither the cell of a variable nor the slot that it lives
in. -/
theorem Places.write_other {r' : CellRef} {v : Value} (h : c.Places r slot isOpen) (hne : r' ≠ r) :
    (c.step (.write r' v)).upvalues.cells[r.index]? = c.upvalues.cells[r.index]? ∧
      (isOpen = true → (c.step (.write r' v)).slotValue slot = c.slotValue slot) := by
  have hi : r'.index ≠ r.index := fun he => hne (by cases r; cases r'; simp_all)
  simp only [Scope.step, Upvalues.write, slotValue]
  cases hr : c.upvalues.cell r' with
  | closed w => exact ⟨by simp [Upvalues.setClosed, hi], fun _ => rfl⟩
  | opened slot' =>
    refine ⟨rfl, fun ho => ?_⟩
    -- Two cells that are open at one slot would be the same cell.
    have hs : slot' ≠ slot := by
      rintro rfl
      have hopened : c.upvalues.cell r = .opened slot' :=
        Upvalues.cell_eq_opened.mpr (by simpa [ho] using h.cell)
      exact hne (h.sound.eq_of_opened hr hopened)
    simp [hs]

/-- One operation: the variable leaves its slot when the slot is closed, and has the value that is
assigned to it. -/
theorem Places.step (h : c.Places r slot isOpen) (op : VariableOp) :
    (c.step op).Places r slot (op.leavesOpen slot isOpen) ∧
      (c.step op).value r = (op.assigned? r slot isOpen).getD (c.value r) := by
  have hsound := sound_step h.sound op
  have hbound : slot < (c.step op).stack.size := by
    rw [size_stack_step]
    exact h.bound
  have hcell := h.cell
  cases isOpen with
  | true =>
    have hvalue := value_of_getElem?_opened hcell
    cases op with
    | capture s =>
      have hstill : (c.step (.capture s)).upvalues.cells[r.index]? = some (.opened slot) :=
        Upvalues.getElem?_cells_capture hcell
      exact ⟨⟨hsound, hbound, hstill⟩, (value_of_getElem?_opened hstill).trans hvalue.symm⟩
    | close level =>
      have hclosed : (c.step (.close level)).upvalues.cells[r.index]? =
          some (Cell.closedAt level c.stack (.opened slot)) := by
        rw [Scope.step, Upvalues.getElem?_cells_close h.sound, hcell]
        rfl
      by_cases hlevel : slot < level
      · rw [Cell.closedAt, if_neg (by omega)] at hclosed
        refine ⟨⟨hsound, hbound, ?_⟩, (value_of_getElem?_opened hclosed).trans hvalue.symm⟩
        simpa [VariableOp.leavesOpen, hlevel] using hclosed
      · rw [Cell.closedAt, if_pos (by omega)] at hclosed
        refine ⟨?_, (value_of_getElem?_closed hclosed).trans hvalue.symm⟩
        simpa [VariableOp.leavesOpen, hlevel] using Places.of_closed hsound hbound hclosed
    | read _ => exact ⟨h, rfl⟩
    | write r' v =>
      by_cases hr : r' = r
      · subst hr
        have hopened : c.upvalues.cell r' = .opened slot := Upvalues.cell_eq_opened.mpr hcell
        have hstill : (c.step (.write r' v)).upvalues.cells[r'.index]? = some (.opened slot) := by
          simpa [Scope.step, Upvalues.write, hopened] using hcell
        refine ⟨⟨hsound, hbound, hstill⟩, ?_⟩
        rw [value_of_getElem?_opened hstill]
        simp [Scope.step, Upvalues.write, hopened, slotValue, h.bound, VariableOp.assigned?]
      · obtain ⟨hsame, hslot⟩ := h.write_other (v := v) hr
        have hstill := hsame.trans hcell
        refine ⟨⟨hsound, hbound, hstill⟩, ?_⟩
        rw [value_of_getElem?_opened hstill, hslot rfl, ← hvalue]
        simp [VariableOp.assigned?, hr]
    | store s v =>
      refine ⟨⟨hsound, hbound, hcell⟩, ?_⟩
      rw [value_of_getElem?_opened (c := c.step (.store s v)) hcell, hvalue]
      by_cases hs : s = slot
      · simp [Scope.step, slotValue, VariableOp.assigned?, hs, h.bound]
      · simp [Scope.step, slotValue, VariableOp.assigned?, hs]
  | false =>
    -- A closed cell is its own place: only assigning through it makes a difference.
    cases op with
    | capture s =>
      have hstill : (c.step (.capture s)).upvalues.cells[r.index]? = some (.closed (c.value r)) :=
        Upvalues.getElem?_cells_capture hcell
      exact ⟨.of_closed hsound hbound hstill, value_of_getElem?_closed hstill⟩
    | close level =>
      have hstill : (c.step (.close level)).upvalues.cells[r.index]? =
          some (.closed (c.value r)) := by
        rw [Scope.step, Upvalues.getElem?_cells_close h.sound, hcell]
        rfl
      exact ⟨.of_closed hsound hbound hstill, value_of_getElem?_closed hstill⟩
    | read _ => exact ⟨h, rfl⟩
    | write r' v =>
      by_cases hr : r' = r
      · subst hr
        have hclosed : c.upvalues.cell r' = .closed (c.value r') := by
          rw [Upvalues.cell, hcell]
          rfl
        have hnew : (c.step (.write r' v)).upvalues.cells[r'.index]? = some (.closed v) := by
          have hi : r'.index < c.upvalues.cells.size := (Array.getElem?_eq_some_iff.mp hcell).1
          simp [Scope.step, Upvalues.write, hclosed, Upvalues.setClosed, hi]
        refine ⟨.of_closed hsound hbound hnew, ?_⟩
        simp [value_of_getElem?_closed hnew, VariableOp.assigned?]
      · have hstill := (h.write_other (v := v) hr).1.trans hcell
        refine ⟨.of_closed hsound hbound hstill, ?_⟩
        simp [value_of_getElem?_closed hstill, VariableOp.assigned?, hr]
    | store s v =>
      have hstill : (c.step (.store s v)).upvalues.cells[r.index]? =
          some (.closed (c.value r)) := hcell
      refine ⟨.of_closed hsound hbound hstill, ?_⟩
      simp [value_of_getElem?_closed hstill, VariableOp.assigned?]

/-- A run: the variable lives in its slot if nothing closed that, and has the last value that was
assigned to it. -/
theorem Places.run (h : c.Places r slot isOpen) (ops : List VariableOp) :
    (c.run ops).Places r slot (ops.foldl (fun o op => op.leavesOpen slot o) isOpen) ∧
      (c.run ops).value r = (VariableOp.assignments r slot isOpen ops).getLastD (c.value r) := by
  induction ops generalizing c isOpen with
  | nil => exact ⟨h, rfl⟩
  | cons op rest ih =>
    obtain ⟨hstep, hvalue⟩ := h.step op
    obtain ⟨hrun, hlast⟩ := ih hstep
    refine ⟨hrun, ?_⟩
    rw [run_cons, hlast, hvalue, VariableOp.assignments]
    cases op.assigned? r slot isOpen with
    | none => rfl
    | some v => exact List.getLastD_cons.symm

/-- No variables yet. -/
def start (stack : Array Value) : Scope := { stack }

/-- Captured slots are shared variables. The table of open cells names for each slot the one cell
that is open there; a slot captured twice is the same variable unless it was closed in between; and
a variable has the last of the values assigned to it, through its cell or through the slot that it
lives in, or else the value of the slot when it was captured. -/
theorem captures_share (stack : Array Value) (ops : List VariableOp) (slot : Nat) :
    (∀ r, (slot, r) ∈ ((start stack).run ops).upvalues.opened ↔
      ((start stack).run ops).upvalues.cell r = .opened slot) ∧
    (∀ r, Upvalues.findOpen slot ((start stack).run ops).upvalues.opened = some r ↔
      ((start stack).run ops).upvalues.cell r = .opened slot) ∧
    (∀ r r', ((start stack).run ops).upvalues.cell r = .opened slot →
      ((start stack).run ops).upvalues.cell r' = .opened slot → r = r') ∧
    (slot < stack.size → ∀ more : List VariableOp,
      (((start stack).run (ops ++ .capture slot :: more)).captured slot =
        ((start stack).run ops).captured slot ↔
        ∀ level, VariableOp.close level ∈ more → slot < level) ∧
      ((start stack).run (ops ++ .capture slot :: more)).value
        (((start stack).run ops).captured slot) =
        (VariableOp.assignments (((start stack).run ops).captured slot) slot true more).getLastD
          (((start stack).run ops).slotValue slot)) := by
  have hsound : ((start stack).run ops).upvalues.Sound := sound_run Upvalues.sound_empty ops
  refine ⟨fun r => hsound.mem_opened_iff, fun r => hsound.findOpen_eq_some,
    fun r r' => hsound.eq_of_opened, ?_⟩
  intro hslot more
  have hbound : slot < ((start stack).run ops).stack.size := by rwa [size_stack_run]
  have hplaces := places_captured hsound hbound
  have hvalue : (((start stack).run ops).step (.capture slot)).value
      (((start stack).run ops).captured slot) =
      ((start stack).run ops).slotValue slot := value_of_getElem?_opened hplaces.cell
  obtain ⟨hend, hlast⟩ := hplaces.run more
  rw [run_append, run_cons, hlast, hvalue]
  refine ⟨?_, rfl⟩
  have hcell := hend.cell
  rw [captured, hend.sound.capture_eq_iff (Array.getElem?_eq_some_iff.mp hcell).1,
    Upvalues.cell_eq_opened, hcell]
  have hopen := VariableOp.foldl_leavesOpen_eq_true slot true more
  cases ho : more.foldl (fun o op => op.leavesOpen slot o) true with
  | true => simpa using (hopen.mp ho).2
  | false => simpa [ho] using hopen

/-- A slot is captured, assigned through its cell and directly, closed, assigned again and captured
again: the first variable keeps the value that it had when it was closed, and the second capture is
another variable. -/
theorem captures_share_closed :
    ((start #[.nil, .bool true]).run [.capture 1, .write ⟨0⟩ (.int 7), .store 1 (.int 8), .close 0,
        .store 1 (.int 9)]).value ⟨0⟩ = .int 8 ∧
      ((start #[.nil, .bool true]).run [.capture 1, .write ⟨0⟩ (.int 7),
        .store 1 (.int 8), .close 0, .store 1 (.int 9)]).captured 1 ≠ ⟨0⟩ := by
  obtain ⟨-, -, -, hshared⟩ := captures_share #[.nil, .bool true] [] 1
  obtain ⟨hsame, hvalue⟩ := hshared (by decide)
    [.write ⟨0⟩ (.int 7), .store 1 (.int 8), .close 0, .store 1 (.int 9)]
  refine ⟨hvalue, fun he => ?_⟩
  exact absurd (hsame.mp he 0 (by simp)) (by decide)

end Scope

end LuaMachine
