import LuaMachine.Proofs.FusedJumps
import LuaMachine.Prototype.Listing

/-!
# What a listing says about tests

A listing says of every test under which condition the instruction behind it is skipped. Read as a
language of its own, with a text and a meaning for each condition, a listing says the truth about
comparisons and about tests that copy a register. Of a plain test it says the opposite of what is
executed.
-/
namespace LuaMachine

/-! ## Conditions in listings -/

/-- The comparisons that are instructions. -/
inductive Comparison where
  | equal | less | lessEqual
  deriving DecidableEq

def Comparison.operator : Comparison → String
  | .equal => "=="
  | .less => "<"
  | .lessEqual => "<="

/-- The answer of a comparison, with the call of a handler if it needs one. -/
def Comparison.answer (fuel : ℕ) : Comparison → Value → Value → Exec Bool
  | .equal => Vm.isEqual fuel
  | .less => Vm.isLess fuel
  | .lessEqual => Vm.isLessEqual fuel

/-- A condition as a listing states it. -/
inductive Condition where
  /-- A register is true, or it is not. -/
  | register (r : ℕ) (holds : Bool)
  /-- A comparison of two operands has another answer than expected. -/
  | comparison (which : Comparison) (lhs rhs : ℕ) (expected : Bool)
  /-- A register is other than expected. If it is as expected, it is copied. -/
  | copy (target source : ℕ) (expected : Bool)
  deriving DecidableEq

namespace Condition

/-- The wording of a condition. -/
def text (p : Prototype) : Condition → String
  | .register r true => "if " ++ registerText r ++ " then pc++"
  | .register r false => "if not " ++ registerText r ++ " then pc++"
  | .comparison which lhs rhs expected =>
    "if (" ++ p.operandText lhs ++ " " ++ which.operator ++ " " ++ p.operandText rhs ++ ") ~= " ++
      toString expected ++ " then pc++"
  | .copy target source expected =>
    "if " ++ registerText source ++ " is " ++ toString expected ++ " then " ++
      registerText target ++ " = " ++ registerText source ++ " else pc++"

/-- Does what the wording says, and tells whether it says to skip the next instruction. -/
def skips (fuel : ℕ) (x : Vm.Activation) : Condition → Exec Bool
  | .register r holds => do
    let v ← Exec.getSlot (x.base + r)
    return v.isTruthy == holds
  | .comparison which lhs rhs expected => do
    let lhs ← Vm.operandValue x lhs
    let rhs ← Vm.operandValue x rhs
    let answer ← which.answer fuel lhs rhs
    return answer != expected
  | .copy target source expected => do
    let v ← Exec.getSlot (x.base + source)
    if v.isTruthy == expected then
      Exec.setSlot (x.base + target) v
      return false
    return true

/-- The condition that a listing states for an instruction, if it is a test. -/
def stated? (i : Instruction) : Opcode → Option Condition
  | .eq => some (.comparison .equal i.b i.c (i.a != 0))
  | .lt => some (.comparison .less i.b i.c (i.a != 0))
  | .le => some (.comparison .lessEqual i.b i.c (i.a != 0))
  | .test => some (.register i.a (i.c != 0))
  | .testSet => some (.copy i.a i.b (i.c != 0))
  | _ => none

variable {i : Instruction} {op : Opcode} {s : Condition} {fuel : ℕ} {x : Vm.Activation}

theorem instructionText_eq (p : Prototype) (index : ℕ) (hop : i.op? = some op)
    (hs : stated? i op = some s) : p.instructionText index i = op.name ++ "\t" ++ s.text p := by
  have hflag : ∀ n : ℕ, decide (n ≠ 0) = (n != 0) := fun n => by cases n <;> rfl
  have hline : p.instructionText index i = op.name ++ "\t" ++ p.operandsText index i op := by
    rw [Prototype.instructionText, hop]
  rw [hline]
  refine congrArg (op.name ++ "\t" ++ ·) ?_
  have hcompared (which : Comparison) :
      p.comparisonText i which.operator = (comparison which i.b i.c (i.a != 0)).text p :=
    congrArg (fun expected => (comparison which i.b i.c expected).text p) (hflag i.a)
  cases op with
  | eq =>
    cases hs
    exact hcompared .equal
  | lt =>
    cases hs
    exact hcompared .less
  | le =>
    cases hs
    exact hcompared .lessEqual
  | testSet =>
    cases hs
    exact congrArg (fun expected => (copy i.a i.b expected).text p) (hflag i.c)
  | test =>
    cases hs
    -- The listing decides by the operand which of the two wordings it takes.
    change (if i.c = 0 then "if not " ++ registerText i.a ++ " then pc++"
      else "if " ++ registerText i.a ++ " then pc++") = _
    by_cases hc : i.c = 0
    · rw [if_pos hc, hc]
      rfl
    · rw [if_neg hc, bne_iff_ne.mpr hc]
      rfl
  | _ => cases hs

/-- The wording tells whether the register has to be true. -/
theorem text_register_inj (p : Prototype) (r : ℕ) {a b : Bool} :
    (Condition.register r a).text p = (Condition.register r b).text p ↔ a = b := by
  have hne : "if " ++ registerText r ++ " then pc++" ≠ "if not " ++ registerText r ++
      " then pc++" := by
    intro h
    have hlength := congrArg String.length h
    simp only [String.length_append, Nat.add_right_cancel_iff] at hlength
    exact absurd hlength (by decide)
  cases a with
  | true => cases b with
    | true => exact iff_of_true rfl rfl
    | false => exact iff_of_false hne Bool.noConfusion
  | false => cases b with
    | true => exact iff_of_false hne.symm Bool.noConfusion
    | false => exact iff_of_true rfl rfl

/-- A listing states when the next instruction is skipped, and the first half of a test finds out
when it is not. For a plain test the two conditions are the same one. -/
theorem skips_eq {first : Exec Bool} (hs : stated? x.instr op = some s)
    (hfirst : Vm.firstHalf? fuel x op = some first) :
    s.skips fuel x = first >>= fun condition => pure (condition == decide (op = .test)) := by
  have hnot : ∀ a b : Bool, (a != b) = ((a == b) == false) := by decide
  have hcompared (comparison : Value → Value → Exec Bool) :
      (do
        let lhs ← Vm.operandValue x x.instr.b
        let rhs ← Vm.operandValue x x.instr.c
        let answer ← comparison lhs rhs
        return answer != (x.instr.a != 0)) =
        Vm.firstHalf?.compared x comparison >>= fun condition => pure (condition == false) := by
    simp only [Vm.firstHalf?.compared, bind_assoc, pure_bind, hnot]
  cases op with
  | eq =>
    cases hs
    cases hfirst
    exact hcompared (Vm.isEqual fuel)
  | lt =>
    cases hs
    cases hfirst
    exact hcompared (Vm.isLess fuel)
  | le =>
    cases hs
    cases hfirst
    exact hcompared (Vm.isLessEqual fuel)
  | test =>
    cases hs
    cases hfirst
    simp only [skips, bind_assoc, pure_bind]
    exact bind_congr fun v => congrArg pure (beq_true _).symm
  | testSet =>
    cases hs
    cases hfirst
    simp only [skips, bind_assoc]
    refine bind_congr fun v => ?_
    cases v.isTruthy == (x.instr.c != 0) with
    | false => rfl
    | true =>
      simp only [if_true, bind_assoc, pure_bind]
      rfl
  | _ => cases hs

/-- The instructions for which a listing states a condition end with the jump behind them. -/
theorem halves_of_stated (fuel : ℕ) (x : Vm.Activation) (hs : stated? x.instr op = some s) :
    (∃ first, Vm.firstHalf? fuel x op = some first) ∧ Vm.lastHalf op = Vm.endTest := by
  cases op with
  | eq | lt | le | test | testSet => exact ⟨⟨_, rfl⟩, rfl⟩
  | _ => cases hs

end Condition

/-! ## The end of a test -/

namespace Vm
variable {vm half : Vm} {x : Activation} {c : ClosureRef} {i : Instruction}

theorem beginStep_of_code (hc : vm.frames.current.closure = some c)
    (hi : (vm.heap.closureAt c).proto.code[vm.frames.current.pc]? = some i) :
    ∃ next,
      beginStep vm = .returned ⟨vm.heap.closureAt c, vm.frames.current.base, vm.frames.current.pc,
        i⟩ next := by
  have hcurrent : Exec.currentFrame vm = .returned vm.frames.current vm := rfl
  have hlook : Exec.look (fun vm => vm.heap.closureAt c) vm =
      .returned (vm.heap.closureAt c) vm := rfl
  have hfetch : fetch (vm.heap.closureAt c).proto vm.frames.current.pc vm = .returned i vm := by
    rw [fetch, hi]; rfl
  rw [beginStep, Exec.bind_of_returned hcurrent]
  simp only [hc]
  rw [Exec.bind_of_returned hlook, Exec.bind_of_returned hfetch, recordStep_eq]
  exact ⟨_, rfl⟩

/-- A test whose condition holds needs a jump behind it. -/
theorem endTest_malformed (hc : vm.frames.current.closure = some c)
    (hnot : ∀ y next, beginStep vm = .returned y next → y.instr.op? ≠ some .jmp) :
    ∃ m, endTest true vm = .aborted (.malformed m) := by
  let x : Activation := ⟨vm.heap.closureAt c, vm.frames.current.base, 0, default⟩
  have hcurrent : x.Current vm := ⟨rfl, c, hc, rfl⟩
  have hframe : Exec.currentFrame vm = .returned vm.frames.current vm := rfl
  have hfails : ∃ m, fetchExpected x.proto vm.frames.current.pc .jmp vm =
      .aborted (.malformed m) := by
    cases hi : (vm.heap.closureAt c).proto.code[vm.frames.current.pc]? with
    | none =>
      have hfetch : fetch x.proto vm.frames.current.pc vm =
          .aborted (.malformed (.programCounter vm.frames.current.pc x.proto.code.size)) := by
        change fetch (vm.heap.closureAt c).proto vm.frames.current.pc vm = _
        rw [fetch, hi]
        rfl
      exact ⟨_, Exec.bind_of_aborted hfetch⟩
    | some i =>
      have hfetch : fetch x.proto vm.frames.current.pc vm = .returned i vm := by
        change fetch (vm.heap.closureAt c).proto vm.frames.current.pc vm = _
        rw [fetch, hi]
        rfl
      obtain ⟨next, hbegin⟩ := beginStep_of_code hc hi
      have hop : ¬ i.opcode = Opcode.jmp.toNat :=
        fun hop => hnot _ next hbegin (Instruction.op?_eq_some.mpr hop)
      refine ⟨.expectedOpcode Opcode.jmp.name i.opName, ?_⟩
      rw [fetchExpected, Exec.bind_of_returned hfetch, if_neg hop]
      rfl
  obtain ⟨m, hm⟩ := hfails
  refine ⟨m, ?_⟩
  rw [endTest_eq hcurrent, conditionalJump, if_pos rfl, bind_assoc,
    Exec.bind_of_returned hframe, bind_assoc]
  exact Exec.bind_of_aborted hm

end Vm

namespace Run
variable {vm mid half : Vm} {func : ℕ} {results : ResultCount} {r : Run} {x : Vm.Activation}
  {op : Opcode} {fuel : ℕ}

/-- How a test ends in the state `half`, in which its condition is known. It skips the instruction
behind it, or executes it, which has to be a jump. -/
structure EndsTest (r : Run) (half : Vm) (skips : Bool) : Prop where
  skipped : skips = true → Completes r.suspended r (.running { r with vm := half.moved (· + 1) })
  jumped : skips = false → ∀ y next, Vm.beginStep half = .returned y next →
    y.instr.op? = some .jmp →
    ∃ p, Completes r.suspended r p ∧ step { r with vm := half } = p.logged y.proto y.pc
  malformed : skips = false →
    (∀ y next, Vm.beginStep half = .returned y next → y.instr.op? ≠ some .jmp) →
    ∃ m, Completes r.suspended r (.ended (.aborted (.malformed m)))

theorem endsTest_of_firstHalf {first : Exec Bool} {condition : Bool} (hv : vm.Reachable)
    (hr : Vm.During vm func results r) (hx : Vm.beginStep r.vm = .returned x mid)
    (hop : x.instr.op? = some op) (hfirst : Vm.firstHalf? fuel x op = some first)
    (hlast : Vm.lastHalf op = Vm.endTest) (h : first mid = .returned condition half) :
    r.EndsTest half (!condition) := by
  obtain ⟨-, -, f, own, below, hexecuting⟩ := Vm.executing_of_during hv.sound hr
  have hsound : mid.upvalues.Sound := Vm.eq_of_beginStep hx ▸ hexecuting.sound
  obtain ⟨-, c, hc, -⟩ := Vm.current_of_beginStep hx
  have hclosure : half.frames.current.closure = some c :=
    (Vm.firstHalf_samePosition hsound hfirst h).closure.trans hc
  have hcompletes := completes_of_halves hx hop hfirst (by simp [h])
  rw [Exec.bind_of_returned h, hlast] at hcompletes
  cases condition with
  | false =>
    let y : Vm.Activation :=
      { x with closure := half.heap.closureAt c, base := half.frames.current.base }
    have hcurrent : y.Current half := ⟨rfl, c, hclosure, rfl⟩
    rw [Vm.endTest_false hcurrent] at hcompletes
    exact ⟨fun _ => hcompletes, by simp, by simp⟩
  | true =>
    refine ⟨by simp, fun _ y next hy hjmp => ?_, fun _ hnot => ?_⟩
    · have hsecond : y.instr.op? = some (Vm.secondHalf .test) := hjmp
      exact ⟨_, hcompletes, step_of_secondHalf hy hsecond⟩
    · obtain ⟨m, hm⟩ := Vm.endTest_malformed hclosure hnot
      rw [hm] at hcompletes
      exact ⟨m, hcompletes⟩

end Run

namespace Vm

/-- A test skips the next instruction exactly if the condition that its line in a listing states
holds, except for a plain test, which skips it exactly if that condition does not hold. The line of
a plain test leaves no doubt about its condition. If the condition raises an error then so does the
test. -/
theorem listed_condition_decides {vm mid : Vm} {func : ℕ} {results : ResultCount} {r : Run}
    {x : Activation} {op : Opcode} {s : Condition} (hv : vm.Reachable)
    (hr : During vm func results r) (hx : beginStep r.vm = .returned x mid)
    (hop : x.instr.op? = some op) (hs : Condition.stated? x.instr op = some s) :
    (∀ p index, p.instructionText index x.instr = op.name ++ "\t" ++ s.text p) ∧
    (op = .test → ∀ p index holds, p.instructionText index x.instr =
      op.name ++ "\t" ++ (Condition.register x.instr.a holds).text p ↔
        s = .register x.instr.a holds) ∧
    (∀ fuel said half, s.skips fuel x mid = .returned said half →
      r.EndsTest half (said != decide (op = .test))) ∧
    ∀ fuel e after, s.skips fuel x mid = .raised e after →
      Run.Completes r.suspended r (.ended (Run.fail e r.root r.suspended after)) := by
  have htext := fun p index => Condition.instructionText_eq p index hop hs
  refine ⟨htext, ?_, fun fuel said half h => ?_, fun fuel e after h => ?_⟩
  · rintro rfl p index holds
    cases hs
    rw [htext, String.append_right_inj, Condition.text_register_inj]
    simp
  · obtain ⟨⟨first, hfirst⟩, hlast⟩ := Condition.halves_of_stated fuel x hs
    rw [Condition.skips_eq hs hfirst] at h
    obtain ⟨condition, _, hhalf, hpure⟩ := Exec.bind_eq_returned_iff.mp h
    cases hpure
    have hends := Run.endsTest_of_firstHalf hv hr hx hop hfirst hlast hhalf
    have hnot : ∀ a b : Bool, ((a == b) != b) = !a := by decide
    rwa [hnot]
  · obtain ⟨⟨first, hfirst⟩, -⟩ := Condition.halves_of_stated fuel x hs
    rw [Condition.skips_eq hs hfirst] at h
    rcases Exec.bind_eq_raised_iff.mp h with hraised | ⟨condition, _, -, hpure⟩
    · have hcompletes := Run.completes_of_halves hx hop hfirst (by simp [hraised])
      rwa [Exec.bind_of_raised hraised] at hcompletes
    · cases hpure

/-- Tests its parameter after one instruction that does nothing. The test is listed as skipping the
jump if the register is not true. -/
def testParameter : Prototype where
  paramCount := 1
  maxStackSize := 2
  code := #[⟨0x00000000⟩, ⟨0x00000022⟩, ⟨0x8000001e⟩, ⟨0x00800026⟩, ⟨0x00800026⟩]

def testHost : Vm :=
  .new {} .standard { closures := #[{ proto := testParameter, upvalues := #[] }] } {}

/-- A test of nil that is listed as skipping the next instruction executes it. -/
theorem listed_condition_decides_nil :
    ∃ vm r x mid y next, Reachable vm ∧ During vm 0 .all r ∧ beginStep r.vm = .returned x mid ∧
      (∀ p index, Prototype.instructionText p index x.instr = "TEST\tif not R[0] then pc++") ∧
      mid.stack.slots[x.ra]? = some .nil ∧ beginStep mid = .returned y next ∧
      ∃ p, Run.Completes r.suspended r p ∧
      Run.step { r with vm := mid } = p.logged y.proto y.pc := by
  have hcheck :
      ((firstStep testHost [.closure ⟨0⟩, .nil]).any fun p =>
        (beginStep p.2.vm).result?.any fun q =>
      q.1.instr == ⟨0x00000022⟩ && q.2.stack.slots[q.1.ra]? == some .nil &&
        (beginStep q.2).result?.any fun s => s.1.instr.op? == some .jmp) = true := by decide +kernel
  obtain ⟨⟨vm, r⟩, hfirst, hrest⟩ := (Option.any_eq_true _ _).mp hcheck
  obtain ⟨⟨x, mid⟩, hbegin, hrest⟩ := (Option.any_eq_true _ _).mp hrest
  obtain ⟨hboth, hrest⟩ := Bool.and_eq_true_iff.mp hrest
  obtain ⟨⟨y, next⟩, hjump, hjmp⟩ := (Option.any_eq_true _ _).mp hrest
  obtain ⟨hinstr, hslot⟩ := Bool.and_eq_true_iff.mp hboth
  have hword : x.instr = ⟨0x00000022⟩ := beq_iff_eq.mp hinstr
  have hop : x.instr.op? = some .test := by rw [hword]; decide
  have hstated : Condition.stated? x.instr .test = some (.register 0 false) := by rw [hword]; decide
  have hnil : mid.stack.slots[x.ra]? = some .nil := beq_iff_eq.mp hslot
  obtain ⟨hreachable, hduring⟩ := during_of_firstStep (.new _ _ _ rfl) hfirst
  obtain ⟨htext, -, hends, -⟩ :=
    listed_condition_decides hreachable hduring (Outcome.result?_eq_some hbegin) hop hstated
  have hskips : (Condition.register 0 false).skips 0 x mid = .returned true mid := by
    have hra : x.ra = x.base + 0 := by rw [Activation.ra, hword]; rfl
    have hget : Exec.getSlot (x.base + 0) mid = .returned .nil mid :=
      Exec.getSlot_eq_returned_iff.mpr ⟨hra ▸ hnil, rfl⟩
    exact Exec.bind_of_returned hget
  have hbehind : beginStep mid = .returned y next := Outcome.result?_eq_some hjump
  refine ⟨vm, r, x, mid, y, next, hreachable, hduring, Outcome.result?_eq_some hbegin,
    fun p index => ?_, hnil, hbehind,
    (hends 0 true mid hskips).jumped rfl y next hbehind (beq_iff_eq.mp hjmp)⟩
  rw [htext]
  change "TEST\t" ++ ("if not " ++ registerText 0 ++ " then pc++") = _
  rw [show registerText 0 = "R[0]" by decide]
  rfl

end Vm

end LuaMachine
