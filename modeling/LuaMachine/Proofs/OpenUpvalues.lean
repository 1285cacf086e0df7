import Mathlib.Tactic
import LuaMachine.Upvalue

/-!
# Open upvalues

The table of open cells and the cells themselves tell the same story: a slot is listed with a cell
exactly when that cell is open at that slot, and the list descends. Capturing a slot adds at most
one entry. Closing removes exactly the entries at or above a level and leaves in each of their cells
the value of its slot.
-/
namespace LuaMachine

/-- The slot of an open cell. -/
def Cell.slot? : Cell → Option Nat
  | .opened slot => some slot
  | .closed _ => none

/-- What closing at a level makes of a cell. -/
def Cell.closedAt (level : Nat) (stack : Array Value) : Cell → Cell
  | .opened slot => if level ≤ slot then .closed (stack[slot]?.getD .nil) else .opened slot
  | .closed v => .closed v

namespace Upvalues

/-- The table lists exactly the open cells, in descending order of their slots. -/
structure Sound (u : Upvalues) : Prop where
  descending : u.opened.Pairwise fun p q => q.1 < p.1
  cell_of_mem : ∀ {slot : Nat} {r : CellRef}, (slot, r) ∈ u.opened →
    u.cells[r.index]? = some (.opened slot)
  mem_of_cell : ∀ {slot i : Nat}, u.cells[i]? = some (.opened slot) → (slot, ⟨i⟩) ∈ u.opened

section Table
variable {slot : Nat} {r : CellRef} {l : List (Nat × CellRef)}

theorem mem_of_findOpen (h : findOpen slot l = some r) : (slot, r) ∈ l := by
  induction l with
  | nil => simp [findOpen] at h
  | cons p rest ih =>
    obtain ⟨s, r'⟩ := p
    simp only [findOpen] at h
    split_ifs at h with hs
    · cases h
      simp [hs]
    · exact List.mem_cons_of_mem _ (ih h)

theorem notMem_of_findOpen (hl : l.Pairwise fun p q => q.1 < p.1) (h : findOpen slot l = none) :
    (slot, r) ∉ l := by
  induction l with
  | nil => simp
  | cons p rest ih =>
    obtain ⟨s, r'⟩ := p
    obtain ⟨hhead, hrest⟩ := List.pairwise_cons.mp hl
    simp only [findOpen] at h
    split_ifs at h with heq hlt
    · -- The list descends, so nothing after a smaller slot can be the slot.
      intro hm
      rcases List.mem_cons.mp hm with he | hm
      · exact heq (congrArg Prod.fst he).symm
      · have hs := hhead _ hm
        simp only at hs
        omega
    · intro hm
      rcases List.mem_cons.mp hm with he | hm
      · exact heq (congrArg Prod.fst he).symm
      · exact ih hrest h hm

theorem mem_insertOpen {p : Nat × CellRef} : p ∈ insertOpen slot r l ↔ p = (slot, r) ∨ p ∈ l := by
  induction l with
  | nil => simp [insertOpen]
  | cons q rest ih =>
    obtain ⟨s, r'⟩ := q
    simp only [insertOpen]
    split_ifs
    · simp
    · simp only [List.mem_cons, ih]
      tauto

theorem descending_insertOpen (hl : l.Pairwise fun p q => q.1 < p.1) (hn : ∀ r', (slot, r') ∉ l) :
    (insertOpen slot r l).Pairwise fun p q => q.1 < p.1 := by
  induction l with
  | nil => simp [insertOpen]
  | cons q rest ih =>
    obtain ⟨s, r'⟩ := q
    obtain ⟨hhead, hrest⟩ := List.pairwise_cons.mp hl
    have hne : s ≠ slot := by
      intro he
      exact hn r' (by simp [he])
    simp only [insertOpen]
    split_ifs with hlt
    · refine List.pairwise_cons.mpr ⟨?_, hl⟩
      intro q hq
      rcases List.mem_cons.mp hq with rfl | hq
      · exact hlt
      · exact Nat.lt_trans (hhead q hq) hlt
    · refine List.pairwise_cons.mpr ⟨?_, ih hrest fun r'' hm => hn r'' (List.mem_cons_of_mem _ hm)⟩
      intro q hq
      rcases mem_insertOpen.mp hq with rfl | hq
      · show slot < s
        omega
      · exact hhead q hq

end Table

section Capture
variable {u : Upvalues} {slot : Nat}

theorem capture_of_some {r : CellRef} (h : findOpen slot u.opened = some r) :
    u.capture slot = (r, u) := by
  simp [capture, h]

theorem capture_of_none (h : findOpen slot u.opened = none) :
    u.capture slot = (⟨u.cells.size⟩, {
      cells := u.cells.push (.opened slot),
      opened := insertOpen slot ⟨u.cells.size⟩ u.opened }) := by
  simp [capture, h, allocate]

/-- Capturing only adds cells. -/
theorem getElem?_cells_capture {i : Nat} {c : Cell} (h : u.cells[i]? = some c) :
    (u.capture slot).2.cells[i]? = some c := by
  cases hf : findOpen slot u.opened with
  | some r => simpa [capture_of_some hf] using h
  | none =>
    have hi : i < u.cells.size := (Array.getElem?_eq_some_iff.mp h).1
    simp only [capture_of_none hf, Array.getElem?_push]
    rw [if_neg (by omega), h]

/-- A cell that capturing adds is open. -/
theorem eq_opened_of_capture {i : Nat} {c : Cell} (hn : u.cells[i]? = none)
    (h : (u.capture slot).2.cells[i]? = some c) : c = .opened slot := by
  cases hf : findOpen slot u.opened with
  | some r => simp [capture_of_some hf, hn] at h
  | none =>
    simp only [capture_of_none hf, Array.getElem?_push, hn] at h
    split_ifs at h
    exact (Option.some.inj h).symm

/-- A captured slot is listed, and entries of other slots are as before. -/
theorem mem_opened_capture {p : Nat × CellRef} (h : p ∈ (u.capture slot).2.opened) :
    p ∈ u.opened ∨ p.1 = slot := by
  cases hf : findOpen slot u.opened with
  | some r =>
    rw [capture_of_some hf] at h
    exact Or.inl h
  | none =>
    rw [capture_of_none hf] at h
    rcases mem_insertOpen.mp h with rfl | h
    · exact Or.inr rfl
    · exact Or.inl h

theorem mem_opened_capture_of_mem {p : Nat × CellRef} (h : p ∈ u.opened) :
    p ∈ (u.capture slot).2.opened := by
  cases hf : findOpen slot u.opened with
  | some r => rwa [capture_of_some hf]
  | none =>
    rw [capture_of_none hf]
    exact mem_insertOpen.mpr (Or.inr h)

theorem Sound.capture (hu : u.Sound) (slot : Nat) : (u.capture slot).2.Sound := by
  cases hf : findOpen slot u.opened with
  | some r => rwa [capture_of_some hf]
  | none =>
    have hnew : ∀ r, (slot, r) ∉ u.opened := fun r => notMem_of_findOpen hu.descending hf
    rw [capture_of_none hf]
    refine ⟨descending_insertOpen hu.descending hnew, ?_, ?_⟩
    · intro s r hm
      rcases mem_insertOpen.mp hm with he | hm
      · cases he
        simp
      · have hc := hu.cell_of_mem hm
        have hi : r.index < u.cells.size := (Array.getElem?_eq_some_iff.mp hc).1
        simp only [Array.getElem?_push]
        rw [if_neg (by omega), hc]
    · intro s i hc
      simp only [Array.getElem?_push] at hc
      apply mem_insertOpen.mpr
      split_ifs at hc with hi
      · cases hc
        exact Or.inl (by rw [hi])
      · exact Or.inr (hu.mem_of_cell hc)

end Capture

section Close
variable {u : Upvalues} {level : Nat} {stack : Array Value}

theorem opened_closeFrom (cells : Array Cell) (l : List (Nat × CellRef)) :
    (closeFrom level stack cells l).opened = l.dropWhile fun p => level ≤ p.1 := by
  induction l generalizing cells with
  | nil => rfl
  | cons p rest ih =>
    obtain ⟨s, r⟩ := p
    simp only [closeFrom]
    split_ifs with h
    · rw [ih, List.dropWhile_cons_of_pos (by simpa using h)]
    · rw [List.dropWhile_cons_of_neg (by simpa using h)]

/-- In a descending list, what is left after the entries at or above a level are the entries below
it. -/
theorem mem_dropWhile_iff {l : List (Nat × CellRef)} (hl : l.Pairwise fun p q => q.1 < p.1)
    {p : Nat × CellRef} : p ∈ l.dropWhile (fun q => level ≤ q.1) ↔ p ∈ l ∧ p.1 < level := by
  induction l with
  | nil => simp
  | cons q rest ih =>
    obtain ⟨hhead, hrest⟩ := List.pairwise_cons.mp hl
    by_cases h : level ≤ q.1
    · rw [List.dropWhile_cons_of_pos (by simpa using h), ih hrest, List.mem_cons]
      constructor
      · rintro ⟨hm, hp⟩
        exact ⟨Or.inr hm, hp⟩
      · rintro ⟨rfl | hm, hp⟩
        · omega
        · exact ⟨hm, hp⟩
    · rw [List.dropWhile_cons_of_neg (by simpa using h)]
      constructor
      · intro hm
        refine ⟨hm, ?_⟩
        rcases List.mem_cons.mp hm with rfl | hm
        · omega
        · have := hhead p hm
          omega
      · exact fun hm => hm.1

theorem mem_opened_close (hu : u.Sound) {p : Nat × CellRef} :
    p ∈ (u.close level stack).opened ↔ p ∈ u.opened ∧ p.1 < level := by
  rw [close, opened_closeFrom]
  exact mem_dropWhile_iff hu.descending

/-- A cell that the list does not name keeps its state. -/
theorem cells_closeFrom_of_notMem {cells : Array Cell} {l : List (Nat × CellRef)} {i : Nat}
    (h : ∀ slot, (slot, ⟨i⟩) ∉ l) : (closeFrom level stack cells l).cells[i]? = cells[i]? := by
  induction l generalizing cells with
  | nil => rfl
  | cons p rest ih =>
    obtain ⟨s, r⟩ := p
    simp only [closeFrom]
    split_ifs with hs
    · rw [ih fun slot hm => h slot (List.mem_cons_of_mem _ hm)]
      have hne : r.index ≠ i := by
        intro he
        exact h s (by simp [← he])
      rw [Array.getElem?_setIfInBounds_ne hne]
    · rfl

/-- A cell that the list names with its slot is closed if the slot is at or above the level. -/
theorem cells_closeFrom_of_mem {cells : Array Cell} {l : List (Nat × CellRef)} {slot i : Nat}
    (hl : l.Pairwise fun p q => q.1 < p.1)
    (hc : ∀ {s : Nat} {r : CellRef}, (s, r) ∈ l → cells[r.index]? = some (.opened s))
    (hm : (slot, ⟨i⟩) ∈ l) :
    (closeFrom level stack cells l).cells[i]? =
      some (Cell.closedAt level stack (.opened slot)) := by
  induction l generalizing cells with
  | nil => simp at hm
  | cons p rest ih =>
    obtain ⟨s, r⟩ := p
    obtain ⟨hhead, hrest⟩ := List.pairwise_cons.mp hl
    -- A cell has one slot, so the head and an entry of the rest never share a cell.
    have hother : ∀ {s' : Nat} {r' : CellRef}, (s', r') ∈ rest → r.index ≠ r'.index := by
      intro s' r' hm' he
      have h1 := hc (List.mem_cons_self (a := (s, r)) (l := rest))
      have h2 := hc (List.mem_cons_of_mem (s, r) hm')
      rw [he, h2] at h1
      simp only [Option.some.injEq, Cell.opened.injEq] at h1
      have := hhead _ hm'
      simp only at this
      omega
    simp only [closeFrom]
    split_ifs with hs
    · rcases List.mem_cons.mp hm with he | hm
      · cases he
        have hi : i < cells.size := (Array.getElem?_eq_some_iff.mp (hc List.mem_cons_self)).1
        rw [cells_closeFrom_of_notMem fun s' hm' => hother hm' rfl]
        simp [Cell.closedAt, hs, hi]
      · apply ih hrest _ hm
        intro s' r' hm'
        rw [Array.getElem?_setIfInBounds_ne (hother hm')]
        exact hc (List.mem_cons_of_mem _ hm')
    · have hlt : ¬ level ≤ slot := by
        rcases List.mem_cons.mp hm with he | hm
        · cases he
          exact hs
        · have := hhead _ hm
          simp only at this
          omega
      rw [Cell.closedAt, if_neg hlt]
      exact hc hm

/-- Closing gives every cell at or above the level the value of its slot, and leaves the others as
they are. -/
theorem getElem?_cells_close (hu : u.Sound) (i : Nat) :
    (u.close level stack).cells[i]? = (u.cells[i]?).map (Cell.closedAt level stack) := by
  rw [close]
  cases hc : u.cells[i]? with
  | none =>
    rw [cells_closeFrom_of_notMem, hc]
    · rfl
    · intro slot hm
      have := hu.cell_of_mem hm
      simp [hc] at this
  | some c =>
    cases c with
    | opened slot =>
      exact cells_closeFrom_of_mem hu.descending hu.cell_of_mem (hu.mem_of_cell hc)
    | closed v =>
      rw [cells_closeFrom_of_notMem, hc]
      · rfl
      · intro slot hm
        have := hu.cell_of_mem hm
        simp [hc] at this

theorem Sound.close (hu : u.Sound) (level : Nat) (stack : Array Value) :
    (u.close level stack).Sound := by
  refine ⟨?_, ?_, ?_⟩
  · rw [Upvalues.close, opened_closeFrom]
    exact hu.descending.sublist (List.dropWhile_sublist _)
  · intro slot r hm
    obtain ⟨hm, hlt⟩ := (mem_opened_close hu).mp hm
    rw [getElem?_cells_close hu, hu.cell_of_mem hm]
    simp only at hlt
    simp [Cell.closedAt, Nat.not_le.mpr hlt]
  · intro slot i hc
    rw [getElem?_cells_close hu, Option.map_eq_some_iff] at hc
    obtain ⟨c, hc, he⟩ := hc
    apply (mem_opened_close hu).mpr
    cases c with
    | opened s =>
      simp only [Cell.closedAt] at he
      split_ifs at he with hs
      cases he
      exact ⟨hu.mem_of_cell hc, by simpa using hs⟩
    | closed v => simp [Cell.closedAt] at he

end Close

section Cell
variable {u : Upvalues} {r : CellRef} {slot : Nat} {v : Value}

theorem cell_eq_opened : u.cell r = .opened slot ↔ u.cells[r.index]? = some (.opened slot) := by
  unfold cell
  cases u.cells[r.index]? with
  | none => simp [default]
  | some c => simp

theorem Sound.of_closed (ho : u.opened = []) (hc : ∀ r slot, u.cell r ≠ .opened slot) :
    u.Sound := by
  refine ⟨by simp [ho], ?_, ?_⟩
  · intro slot r hm
    simp [ho] at hm
  · intro slot i hi
    exact absurd (cell_eq_opened.mpr hi) (hc ⟨i⟩ slot)

theorem cell_empty_ne_opened (r : CellRef) (slot : Nat) :
    ({} : Upvalues).cell r ≠ .opened slot := by
  simp [cell, default]

/-- A new closed cell is not in the table. -/
theorem Sound.allocateClosed (hu : u.Sound) (v : Value) : (u.allocate (.closed v)).2.Sound := by
  refine ⟨hu.descending, ?_, ?_⟩
  · intro slot r hm
    have hc := hu.cell_of_mem hm
    have hi : r.index < u.cells.size := (Array.getElem?_eq_some_iff.mp hc).1
    simp only [allocate, Array.getElem?_push]
    rw [if_neg (by omega), hc]
  · intro slot i hc
    simp only [allocate, Array.getElem?_push] at hc
    split_ifs at hc with hi
    · simp at hc
    · exact hu.mem_of_cell hc

/-- Assigning a cell that is not open opens and closes nothing. -/
theorem Sound.setClosed (hu : u.Sound) (hr : ∀ slot, u.cell r ≠ .opened slot) :
    (u.setClosed r v).Sound := by
  refine ⟨hu.descending, ?_, ?_⟩
  · intro slot r' hm
    have hc := hu.cell_of_mem hm
    have hne : r.index ≠ r'.index := by
      intro he
      exact hr slot (cell_eq_opened.mpr (by rw [he, hc]))
    simpa [Upvalues.setClosed, hne] using hc
  · intro slot i hc
    apply hu.mem_of_cell
    by_cases hi : r.index = i
    · subst hi
      simp only [Upvalues.setClosed, Array.getElem?_setIfInBounds_self] at hc
      split_ifs at hc
      cases hc
    · simpa [Upvalues.setClosed, hi] using hc

end Cell

end Upvalues

end LuaMachine
