import LuaMachine.Proofs.Running

/-!
# How long a frame stands

A frame stands from the moment it is entered until it returns or a tail call replaces it. Meanwhile
it may call functions, which stand above it and call further ones, and instructions may call
handlers in between. All of that happens at or above its first register. What lies below, its
arguments among them, is left alone as long as the frame stands.
-/
namespace LuaMachine.Run

open Relation (ReflTransGen)

variable {root : Vm.CallSite} {outer own below rest : List Frame} {n : Nat}
  {suspended : List Suspended} {place f g : Frame} {vm mid after : Vm}

/-! ## Frames that stand -/

/-- Among the active frames, innermost first, the one in `place` stands over `rest`. Every frame
above it belongs to a function that one of its registers holds. -/
inductive Remains (place : Frame) (rest : List Frame) : List Frame → Prop
  | current {f : Frame} (h : f.SamePlace place) : Remains place rest (f :: rest)
  | above {g : Frame} {active : List Frame} (hg : place.base ≤ g.func)
      (h : Remains place rest active) :
      Remains place rest (g :: active)

namespace Remains

theorem exists_mine {active : List Frame} (h : Remains place rest active) :
    ∃ f mine, active = f :: mine ++ rest := by
  induction h with
  | @current f h => exact ⟨f, [], rfl⟩
  | @above g active hg h ih =>
    obtain ⟨f, mine, rfl⟩ := ih
    exact ⟨g, f :: mine, rfl⟩

theorem suffix (h : Remains place rest (f :: below)) : ∃ mine, below = mine ++ rest := by
  obtain ⟨_, mine, hactive⟩ := h.exists_mine
  exact ⟨mine, (List.cons.inj hactive).2⟩

theorem base_le (h : Remains place rest (f :: below)) (hf : f.Running) : place.base ≤ f.base := by
  have := hf.above
  cases h with
  | current h => exact Nat.le_of_eq h.base.symm
  | above hg h => omega

/-- The current frame may move within its place. -/
theorem congr (h : Remains place rest (f :: below)) (hg : g.SamePlace f) :
    Remains place rest (g :: below) := by
  cases h with
  | current h => exact .current (hg.trans h)
  | above hf h => exact .above (hg.func ▸ hf) h

/-- A frame above the one in question can be left. -/
theorem tail (h : Remains place rest (f :: below)) (hd : rest.length < below.length) :
    place.base ≤ f.func ∧ Remains place rest below := by
  cases h with
  | current h => omega
  | above hg h => exact ⟨hg, h⟩

end Remains

/-- From `vm` to `after` the frame in `place` has stood, and all that happened were events at or
above its registers. -/
structure Persists (place : Frame) (rest : List Frame) (vm after : Vm) : Prop where
  events : ReflTransGen (Vm.Event place.base rest) vm after
  remains : Remains place rest after.frames.active

theorem Persists.head (he : ReflTransGen (Vm.Event place.base rest) vm mid)
    (h : Persists place rest mid after) : Persists place rest vm after :=
  ⟨he.trans h.events, h.remains⟩

/-! ## Instructions -/

section Instructions
variable {x : Vm.Activation} {op : Opcode} {action : Vm.Action} {next : Vm.Next}

theorem Executing.exists_mine (h : Executing root outer n suspended vm f own below)
    (hr : Remains place rest (f :: (own ++ below))) :
    ∃ mine, own ++ below = mine ++ rest ∧ vm.frames.active = f :: mine ++ rest := by
  obtain ⟨mine, hmine⟩ := hr.suffix
  exact ⟨mine, hmine, by rw [h.active, List.cons_append, hmine, List.cons_append]⟩

end Instructions

/-! ## Steps -/

section Steps
variable {r r' : Run} {next : Vm.Next}

/-- The next step does not end the frame at a depth: either a function above it is executing, or the
instruction is neither a return nor a tail call. -/
def KeepsFrame (depth : Nat) (r : Run) : Prop :=
  depth < r.vm.frames.depth ∨
    ∀ x mid, Vm.beginStep r.vm = .returned x mid → x.instr.op? ≠ some .ret ∧
      x.instr.op? ≠ some .tailCall

/-- A step after which the frame at a depth still stands. -/
def Within (depth : Nat) (r r' : Run) : Prop := r.KeepsFrame depth ∧ Leads r r'

end Steps

end LuaMachine.Run

namespace LuaMachine.Vm

open Relation (ReflTransGen)

variable {host : Vm} {func : Nat} {results : ResultCount} {r r' : Run}

theorem During.tail (h : During host func results r) (hstep : Run.Leads r r') :
    During host func results r' := by
  obtain ⟨root, start, hbegin, hsteps⟩ := h
  exact ⟨root, start, hbegin, hsteps.tail hstep⟩

theorem During.within {depth : Nat} (h : During host func results r)
    (hw : ReflTransGen (Run.Within depth) r r') : During host func results r' := by
  induction hw with
  | refl => exact h
  | tail _ hstep ih => exact ih.tail hstep.2

end LuaMachine.Vm
