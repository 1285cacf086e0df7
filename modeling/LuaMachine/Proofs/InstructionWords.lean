import Mathlib.Tactic
import LuaMachine.Instruction.Encoding

/-!
# Encoding and decoding

The fields of a word determine it, and every choice of fields in their ranges is a word. So encoding
is the inverse of decoding: it gives the word whose opcode and operands are the given ones, and
fails when there is none.
-/
namespace LuaMachine

/-- The operands of a layout, each with its least and its greatest value. -/
def OpMode.ranges : OpMode → List (Int × Int)
  | .abc => [(0, 255), (0, 511), (0, 511)]
  | .abx => [(0, 255), (0, 262143)]
  | .asbx => [(0, 255), (-131071, 131072)]
  | .ax => [(0, 67108863)]

/-- The operands that a layout uses. Missing ones are zero and further ones ignored. -/
def OpMode.used (m : OpMode) (operands : List Int) : List Int :=
  (List.range m.ranges.length).map fun i => operands.getD i 0

/-- Every operand that the layout uses is in its range. -/
def OpMode.Admits (m : OpMode) (operands : List Int) : Prop :=
  List.Forall₂ (fun range operand => range.1 ≤ operand ∧ operand ≤ range.2) m.ranges
    (m.used operands)

theorem OpMode.Admits.operand {m : OpMode} {operands : List Int} (h : m.Admits operands) (k : Nat)
    {range : Int × Int} (hk : m.ranges[k]? = some range) :
    range.1 ≤ operands.getD k 0 ∧ operands.getD k 0 ≤ range.2 := by
  obtain ⟨hlt, rfl⟩ := List.getElem?_eq_some_iff.mp hk
  have hused := (List.forall₂_iff_get.mp h).2 k hlt (by simpa [used] using hlt)
  simpa [used] using hused

theorem Opcode.ofNat?_eq_some {n : Nat} {op : Opcode} : ofNat? n = some op ↔ n = op.toNat := by
  constructor
  · intro h
    have hnumbers : ∀ m : Fin all.size, all[m].toNat = m := by decide
    obtain ⟨hlt, rfl⟩ := Array.getElem?_eq_some_iff.mp h
    exact (hnumbers ⟨n, hlt⟩).symm
  · rintro rfl
    exact ofNat?_toNat op

namespace Instruction
variable {i : Instruction} {op : Opcode}

theorem op?_eq_some : i.op? = some op ↔ i.opcode = op.toNat :=
  Opcode.ofNat?_eq_some

section Fields

/-- A word is its opcode below its widest operand. -/
theorem word_eq_iff {n : Nat} (hn : n < 2 ^ 32) :
    i = ⟨UInt32.ofNat n⟩ ↔ n = i.opcode + i.ax * 2 ^ 6 := by
  have hword : i.word.toNat = i.opcode + i.ax * 2 ^ 6 := by
    have := i.word.toNat_lt
    simp only [opcode, ax, show Nat.pow 2 6 = 64 from rfl, show Nat.pow 2 26 = 67108864 from rfl]
    omega
  rw [← hword]
  constructor
  · rintro rfl
    exact (UInt32.toNat_ofNat_of_lt' hn).symm
  · rintro rfl
    simp

/-- The widest operand is a register below the index. -/
theorem ax_eq (i : Instruction) : i.ax = i.a + i.bx * 2 ^ 8 := by
  have := i.word.toNat_lt
  simp only [ax, a, bx, show Nat.pow 2 6 = 64 from rfl, show Nat.pow 2 26 = 67108864 from rfl,
    show Nat.pow 2 8 = 256 from rfl, show Nat.pow 2 14 = 16384 from rfl,
      show Nat.pow 2 18 = 262144 from rfl]
  omega

/-- The index is the third operand below the second. -/
theorem bx_eq (i : Instruction) : i.bx = i.c + i.b * 2 ^ 9 := by
  have := i.word.toNat_lt
  simp only [bx, b, c, show Nat.pow 2 14 = 16384 from rfl, show Nat.pow 2 18 = 262144 from rfl,
    show Nat.pow 2 23 = 8388608 from rfl, show Nat.pow 2 9 = 512 from rfl]
  omega

theorem opcode_lt (i : Instruction) : i.opcode < 2 ^ 6 := Nat.mod_lt _ (by decide)

theorem a_lt (i : Instruction) : i.a < 2 ^ 8 := Nat.mod_lt _ (by decide)

theorem b_lt (i : Instruction) : i.b < 2 ^ 9 := Nat.mod_lt _ (by decide)

theorem c_lt (i : Instruction) : i.c < 2 ^ 9 := Nat.mod_lt _ (by decide)

theorem bx_lt (i : Instruction) : i.bx < 2 ^ 18 := Nat.mod_lt _ (by decide)

theorem ax_lt (i : Instruction) : i.ax < 2 ^ 26 := Nat.mod_lt _ (by decide)

end Fields

section Layouts
variable {x y z : Int}

theorem inRange?_eq_some {bound n : Nat} : inRange? bound x = some n ↔ x = n ∧ n < bound := by
  unfold inRange?
  split_ifs with h
  · simp only [Option.some.injEq]
    omega
  · simp only [false_iff]
    omega

theorem ofABC?_eq_some :
    ofABC? op x y z = some i ↔ op.mode = .abc ∧ i.opcode = op.toNat ∧ i.a = x ∧ i.b = y ∧
      i.c = z := by
  have hop := op.toNat_lt
  have hax := i.ax_eq
  have hbx := i.bx_eq
  have ha := i.a_lt
  have hb := i.b_lt
  have hc := i.c_lt
  have ho := i.opcode_lt
  simp only [ofABC?, Option.bind_eq_bind, Option.bind_eq_some_iff, inRange?_eq_some,
    Option.pure_def, Option.guard_eq_some', Option.some.injEq, exists_const, Nat.pow_eq]
  constructor
  · rintro ⟨hm, a, ⟨rfl, hlta⟩, b, ⟨rfl, hltb⟩, c, ⟨rfl, hltc⟩, he⟩
    have hw := (word_eq_iff (by omega)).mp he.symm
    refine ⟨hm, ?_⟩
    omega
  · rintro ⟨hm, he, rfl, rfl, rfl⟩
    refine ⟨hm, i.a, ⟨rfl, ha⟩, i.b, ⟨rfl, hb⟩, i.c, ⟨rfl, hc⟩, ?_⟩
    exact ((word_eq_iff (by omega)).mpr (by omega)).symm

theorem ofABx?_eq_some : ofABx? op x y = some i ↔ i.opcode = op.toNat ∧ i.a = x ∧ i.bx = y := by
  have hop := op.toNat_lt
  have hax := i.ax_eq
  have ha := i.a_lt
  have hbx := i.bx_lt
  have ho := i.opcode_lt
  simp only [ofABx?, Option.bind_eq_bind, Option.bind_eq_some_iff, inRange?_eq_some,
    Option.pure_def, Option.some.injEq, Nat.pow_eq]
  constructor
  · rintro ⟨a, ⟨rfl, hlta⟩, b, ⟨rfl, hltb⟩, he⟩
    have hw := (word_eq_iff (by omega)).mp he.symm
    omega
  · rintro ⟨he, rfl, rfl⟩
    refine ⟨i.a, ⟨rfl, ha⟩, i.bx, ⟨rfl, hbx⟩, ?_⟩
    exact ((word_eq_iff (by omega)).mpr (by omega)).symm

theorem ofAsBx?_eq_some :
    ofAsBx? op x y = some i ↔ op.mode = .asbx ∧ i.opcode = op.toNat ∧ i.a = x ∧ i.sbx = y := by
  simp only [ofAsBx?, Option.bind_eq_bind, Option.bind_eq_some_iff, Option.guard_eq_some',
    exists_const, ofABx?_eq_some, sbx]
  have hbias : (i.bx : Int) = y + sbxBias ↔ (i.bx : Int) - sbxBias = y := by omega
  rw [hbias]

theorem ofAx?_eq_some : ofAx? op x = some i ↔ i.opcode = op.toNat ∧ i.ax = x := by
  have hop := op.toNat_lt
  have hax := i.ax_lt
  have ho := i.opcode_lt
  simp only [ofAx?, Option.bind_eq_bind, Option.bind_eq_some_iff, inRange?_eq_some, Option.pure_def,
    Option.some.injEq, Nat.pow_eq]
  constructor
  · rintro ⟨a, ⟨rfl, hlta⟩, he⟩
    have hw := (word_eq_iff (by omega)).mp he.symm
    omega
  · rintro ⟨he, rfl⟩
    exact ⟨i.ax, ⟨rfl, hax⟩, ((word_eq_iff (by omega)).mpr (by omega)).symm⟩

end Layouts

section Encoding
variable {operands : List Int}

/-- Encoding gives the word that decodes to the opcode and to the operands that its layout uses. -/
theorem encode?_eq_some :
    encode? op operands = some i ↔
      i.op? = some op ∧ i.operands op.mode = op.mode.used operands := by
  rw [op?_eq_some]
  cases hm : op.mode <;>
    simp [encode?, hm, ofABC?_eq_some, ofABx?_eq_some, ofAsBx?_eq_some, ofAx?_eq_some,
      Instruction.operands, OpMode.used, OpMode.ranges, List.range_succ]

/-- A word decodes to operands in their ranges. -/
theorem admits_of_operands_eq (h : i.operands op.mode = op.mode.used operands) :
    op.mode.Admits operands := by
  have ha := i.a_lt
  have hb := i.b_lt
  have hc := i.c_lt
  have hbx := i.bx_lt
  have hax := i.ax_lt
  rw [OpMode.Admits, ← h]
  cases hm : op.mode <;> simp [OpMode.ranges, Instruction.operands, sbx, sbxBias] <;> omega

theorem inRange?_of_le {x greatest : Int} (bound : Nat) (h : 0 ≤ x ∧ x ≤ greatest)
    (hlt : greatest < bound) : inRange? bound x = some x.toNat :=
  if_pos ⟨h.1, Int.lt_of_le_of_lt h.2 hlt⟩

/-- Operands in their ranges can be encoded. -/
theorem isSome_encode?_of_admits (h : op.mode.Admits operands) : (encode? op operands).isSome := by
  cases hm : op.mode with
  | abc =>
    rw [hm] at h
    simp only [encode?, hm, ofABC?]
    rw [inRange?_of_le (Nat.pow 2 8) (h.operand 0 rfl) (by decide),
      inRange?_of_le (Nat.pow 2 9) (h.operand 1 rfl) (by decide),
      inRange?_of_le (Nat.pow 2 9) (h.operand 2 rfl) (by decide)]
    rfl
  | abx =>
    rw [hm] at h
    simp only [encode?, hm, ofABx?]
    rw [inRange?_of_le (Nat.pow 2 8) (h.operand 0 rfl) (by decide),
      inRange?_of_le (Nat.pow 2 18) (h.operand 1 rfl) (by decide)]
    rfl
  | asbx =>
    rw [hm] at h
    have hoffset := h.operand 1 rfl
    have hbiased : 0 ≤ operands.getD 1 0 + sbxBias ∧ operands.getD 1 0 + sbxBias ≤ 262143 := by
      simp only [sbxBias]
      omega
    simp only [encode?, hm, ofAsBx?, ofABx?]
    rw [inRange?_of_le (Nat.pow 2 8) (h.operand 0 rfl) (by decide),
      inRange?_of_le (Nat.pow 2 18) hbiased (by decide)]
    rfl
  | ax =>
    rw [hm] at h
    simp only [encode?, hm, ofAx?]
    rw [inRange?_of_le (Nat.pow 2 26) (h.operand 0 rfl) (by decide)]
    rfl

/-- Encoding succeeds exactly on operands in their ranges, decoding the word gives the opcode and
those operands back, and every word of a known opcode is the encoding of what it decodes to. -/
theorem encode?_inverse_operands :
    (∀ op operands, (encode? op operands).isSome ↔ op.mode.Admits operands) ∧
    (∀ op operands i, encode? op operands = some i →
      i.op? = some op ∧ i.operands op.mode = op.mode.used operands) ∧
    ∀ (i : Instruction) op, i.op? = some op → encode? op (i.operands op.mode) = some i := by
  refine ⟨?_, ?_, ?_⟩
  · intro op operands
    constructor
    · intro h
      obtain ⟨i, hi⟩ := Option.isSome_iff_exists.mp h
      exact admits_of_operands_eq (encode?_eq_some.mp hi).2
    · exact isSome_encode?_of_admits
  · intro op operands i h
    exact encode?_eq_some.mp h
  · intro i op h
    refine encode?_eq_some.mpr ⟨h, ?_⟩
    cases op.mode <;> rfl

theorem encode?_inverse_operands_jump :
    OpMode.asbx.Admits [0, -131071, 7] ∧ encode? .jmp [0, -131071, 7] = some ⟨30⟩ ∧
      Instruction.operands ⟨30⟩ .asbx = [0, -131071] ∧ ¬ OpMode.asbx.Admits [0, -131072] := by
  have hword : encode? .jmp [0, -131071, 7] = some ⟨30⟩ := by decide
  refine ⟨?_, hword, (encode?_inverse_operands.2.1 .jmp _ _ hword).2, ?_⟩
  · exact (encode?_inverse_operands.1 .jmp _).mp (by rw [hword]; rfl)
  · intro h
    have := (encode?_inverse_operands.1 .jmp _).mpr h
    revert this
    decide

end Encoding

end Instruction

end LuaMachine
