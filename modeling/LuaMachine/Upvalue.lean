import LuaMachine.Value.Basic

/-!
# Upvalues

An upvalue is a variable shared between closures. Its cell is open while the variable lives in a
slot of the register stack and closed once it holds the value itself. The open cells are listed by
slot, highest first, and a slot has at most one of them, so closures that capture the same slot
share its cell.
-/
namespace LuaMachine

/-- The identity of an upvalue cell. -/
structure CellRef where
  index : Nat
  deriving DecidableEq, Hashable, Repr, Inhabited

/-- The state of an upvalue. -/
inductive Cell where
  | opened (slot : Nat)
  | closed (v : Value)
  deriving DecidableEq

instance : Inhabited Cell := ⟨.closed .nil⟩

/-- All cells, and the open ones in descending order of their slots. -/
structure Upvalues where
  cells : Array Cell := #[]
  opened : List (Nat × CellRef) := []

namespace Upvalues

instance : Inhabited Upvalues := ⟨{}⟩

/-- The state of a cell. -/
def cell (u : Upvalues) (r : CellRef) : Cell :=
  u.cells[r.index]?.getD default

/-- Adds a cell that is not listed as open. -/
def allocate (u : Upvalues) (c : Cell) : CellRef × Upvalues :=
  (⟨u.cells.size⟩, { u with cells := u.cells.push c })

/-- The slot of a cell, if it is open. -/
def openSlot? (u : Upvalues) (r : CellRef) : Option Nat :=
  match u.cell r with
  | .opened slot => some slot
  | .closed _ => none

/-- The open cell of a slot in a list sorted by descending slots. -/
def findOpen (slot : Nat) : List (Nat × CellRef) → Option CellRef
  | [] => none
  | (s, r) :: rest => if s = slot then some r else if s < slot then none else findOpen slot rest

/-- Lists a cell at its place. -/
def insertOpen (slot : Nat) (r : CellRef) : List (Nat × CellRef) → List (Nat × CellRef)
  | [] => [(slot, r)]
  | (s, r') :: rest =>
    if s < slot then (slot, r) :: (s, r') :: rest else (s, r') :: insertOpen slot r rest

/-- The open cell of a slot, made if there is none. -/
def capture (u : Upvalues) (slot : Nat) : CellRef × Upvalues :=
  match findOpen slot u.opened with
  | some r => (r, u)
  | none =>
    let (r, u) := u.allocate (.opened slot)
    (r, { u with opened := insertOpen slot r u.opened })

/-- The value of a variable. A slot beyond the stack reads as nil. -/
def read (u : Upvalues) (stack : Array Value) (r : CellRef) : Value :=
  match u.cell r with
  | .opened slot => stack[slot]?.getD .nil
  | .closed v => v

/-- Gives a closed cell a value. -/
def setClosed (u : Upvalues) (r : CellRef) (v : Value) : Upvalues :=
  { u with cells := u.cells.setIfInBounds r.index (.closed v) }

/-- Assigns a variable, in the stack or in its cell. A slot beyond the stack takes no value. -/
def write (u : Upvalues) (stack : Array Value) (r : CellRef) (v : Value) : Upvalues × Array Value :=
  match u.cell r with
  | .opened slot => (u, stack.setIfInBounds slot v)
  | .closed _ => (u.setClosed r v, stack)

/-- Closes the cells at the head of the list whose slots are at or above `level`, each with the
value of its slot. -/
def closeFrom (level : Nat) (stack : Array Value) : Array Cell → List (Nat × CellRef) → Upvalues
  | cells, [] => { cells, opened := [] }
  | cells, (slot, r) :: rest =>
    if level ≤ slot then
      closeFrom level stack (cells.setIfInBounds r.index (.closed (stack[slot]?.getD .nil))) rest
    else { cells, opened := (slot, r) :: rest }

/-- Closes every open cell at or above `level`. -/
def close (u : Upvalues) (level : Nat) (stack : Array Value) : Upvalues :=
  closeFrom level stack u.cells u.opened

/-- How many cells are open. -/
def openCount (u : Upvalues) : Nat :=
  u.opened.length

end Upvalues

end LuaMachine
