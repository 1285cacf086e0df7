import Mathlib
import LuaMachine.Arith
import LuaMachine.Error.Abort

/-!
# Integer arithmetic is exact

Operators on integers of 64 bits are compared with arithmetic on all integers. A division that
rounds toward zero is corrected by comparing signs, and this gives the quotient rounded down.
Bitwise operators agree with those on infinite two's complement, and a shift is a multiplication
with a power of two, rounded down. No step but those that are meant to wrap around leaves the range:
the operators agree with versions in which such a step would be a fault.
-/
namespace LuaMachine

/-! ## Rounding a quotient down -/

section Division
variable {a b : ℤ}

theorem floor_div_eq_fdiv (a b : ℤ) : ⌊(a / b : ℚ)⌋ = a.fdiv b := by
  have hnonneg : ∀ (a : ℤ) (k : ℕ), ⌊(a / ((k : ℤ) : ℚ))⌋ = a.fdiv k := by
    intro a k
    rw [Int.cast_natCast, Rat.floor_intCast_div_natCast,
      Int.fdiv_eq_ediv_of_nonneg a (Int.natCast_nonneg k)]
  obtain ⟨k, rfl | rfl⟩ := b.eq_nat_or_neg
  · exact hnonneg a k
  · have hfraction : (a / ((-k : ℤ) : ℚ)) = ((-a : ℤ) : ℚ) / ((k : ℤ) : ℚ) := by
      push_cast
      rw [div_neg, neg_div]
    rw [hfraction, hnonneg, ← Int.neg_fdiv_neg a, neg_neg]

theorem natAbs_tmod_lt (a : ℤ) (hb : b ≠ 0) : (a.tmod b).natAbs < b.natAbs := by
  rw [Int.natAbs_tmod]
  exact Nat.mod_lt _ (Int.natAbs_pos.mpr hb)

theorem tmod_neg_iff (h : ¬ b ∣ a) : a.tmod b < 0 ↔ a < 0 := by
  rw [← Int.sign_eq_neg_one_iff_neg, Int.sign_tmod, if_neg h, Int.sign_eq_neg_one_iff_neg]

/-- A truncated quotient is one too large exactly when the signs differ and there is a remainder. -/
theorem fdiv_eq_ite (hb : b ≠ 0) :
    a.fdiv b = if ¬ b ∣ a ∧ ¬ (a < 0 ↔ b < 0) then a.tdiv b - 1 else a.tdiv b := by
  have hsign : b < 0 ∧ b.sign = -1 ∨ 0 < b ∧ b.sign = 1 := by
    rw [Int.sign_eq_neg_one_iff_neg, Int.sign_eq_one_iff_pos]
    omega
  rw [Int.fdiv_eq_tdiv]
  split_ifs <;> omega

theorem fmod_eq_ite (hb : b ≠ 0) :
    a.fmod b = if ¬ b ∣ a ∧ ¬ (a < 0 ↔ b < 0) then a.tmod b + b else a.tmod b := by
  rw [Int.fmod_def, fdiv_eq_ite hb, Int.tmod_def]
  split_ifs
  · ring
  · rfl

end Division

section Words
variable {m n : Int64}

theorem msb_iff (k : Int64) : k.toBitVec.msb = true ↔ k.toInt < 0 := by
  rw [BitVec.msb_eq_toInt, decide_eq_true_iff]
  rfl

theorem xor_neg_iff : (m ^^^ n) < 0 ↔ ¬ (m.toInt < 0 ↔ n.toInt < 0) := by
  have hneg : (m ^^^ n) < 0 ↔ (m ^^^ n).toInt < 0 := Int64.lt_iff_toInt_lt
  rw [hneg, ← msb_iff, ← msb_iff, ← msb_iff, Int64.toBitVec_xor, BitVec.msb_xor]
  cases m.toBitVec.msb <;> cases n.toBitVec.msb <;> simp

theorem toInt_eq_zero_iff : m.toInt = 0 ↔ m = 0 := Int64.toInt_inj (y := 0)

theorem toInt_eq_neg_one_iff : m.toInt = -1 ↔ m = -1 := Int64.toInt_inj (y := -1)

/-- The corrected remainder is smaller than the divisor, so it fits. -/
theorem natAbs_fmod_lt (h : n ≠ 0) : (m.toInt.fmod n.toInt).natAbs < n.toInt.natAbs := by
  have hn : n.toInt ≠ 0 := mt toInt_eq_zero_iff.mp h
  have habs := natAbs_tmod_lt m.toInt hn
  rw [fmod_eq_ite hn]
  split_ifs with hcorrect
  · have hneg := tmod_neg_iff hcorrect.1
    have hzero := mt Int.dvd_iff_tmod_eq_zero.mpr hcorrect.1
    omega
  · exact habs

theorem mod_corrects_iff :
    (m % n ≠ 0 ∧ (m % n ^^^ n) < 0) ↔ ¬ n.toInt ∣ m.toInt ∧ ¬ (m.toInt < 0 ↔ n.toInt < 0) := by
  have hdvd : m % n ≠ 0 ↔ ¬ n.toInt ∣ m.toInt := by
    rw [Ne, ← toInt_eq_zero_iff, Int64.toInt_mod, Int.dvd_iff_tmod_eq_zero]
  rw [hdvd]
  apply and_congr_right
  intro h
  rw [xor_neg_iff, Int64.toInt_mod, tmod_neg_iff h]

theorem div_corrects_iff :
    ((m ^^^ n) < 0 ∧ m % n ≠ 0) ↔ ¬ n.toInt ∣ m.toInt ∧ ¬ (m.toInt < 0 ↔ n.toInt < 0) := by
  rw [Ne, ← toInt_eq_zero_iff, Int64.toInt_mod, ← Int.dvd_iff_tmod_eq_zero, xor_neg_iff, and_comm]

/-- Correcting a remainder brings it between zero and the divisor, so the sum does not overflow. -/
theorem toInt_mod_add (h : n ≠ 0) (hcorrect : ¬ n.toInt ∣ m.toInt ∧ ¬ (m.toInt < 0 ↔ n.toInt < 0)) :
    (m % n + n).toInt = m.toInt.tmod n.toInt + n.toInt := by
  have hrange := natAbs_fmod_lt (m := m) h
  have hlow := n.le_toInt
  have hhigh := n.toInt_lt
  rw [fmod_eq_ite (mt toInt_eq_zero_iff.mp h), if_pos hcorrect] at hrange
  rw [Int64.toInt_add, Int64.toInt_mod]
  exact Int.bmod_eq_of_le (by omega) (by omega)

/-- A quotient that is corrected is at most half of the dividend, so the difference does not
overflow. -/
theorem toInt_div_sub (hzero : n ≠ 0) (hunit : n ≠ -1) (h : ¬ n.toInt ∣ m.toInt) :
    (m / n - 1).toInt = m.toInt.tdiv n.toInt - 1 := by
  have hlow := m.le_toInt
  have hhigh := m.toInt_lt
  have hdivisor : 2 ≤ n.toInt.natAbs := by
    have hzero := mt toInt_eq_zero_iff.mp hzero
    have hminus := mt toInt_eq_neg_one_iff.mp hunit
    have hone : n.toInt ≠ 1 := fun hone => h (hone ▸ one_dvd _)
    omega
  have hhalf : (m.toInt.tdiv n.toInt).natAbs ≤ 2 ^ 62 := by
    rw [Int.natAbs_tdiv]
    refine (Nat.div_le_div_left hdivisor two_pos).trans ?_
    omega
  rw [Int64.toInt_sub, Int64.toInt_div_of_ne_right m n hunit]
  change (m.toInt.tdiv n.toInt - 1).bmod (2 ^ 64) = _
  exact Int.bmod_eq_of_le (by omega) (by omega)

/-- The remainder is that of the division rounded down. It is never cut to 64 bits. -/
theorem intMod?_eq (h : n ≠ 0) : ∃ r, intMod? m n = some r ∧ r.toInt = m.toInt.fmod n.toInt := by
  have hn : n.toInt ≠ 0 := mt toInt_eq_zero_iff.mp h
  simp only [intMod?, mod_corrects_iff, if_neg h]
  by_cases hunit : n = -1
  · subst hunit
    have hzero : m.toInt.fmod (-1 : Int64).toInt = 0 :=
      Int.natAbs_eq_zero.mp (Nat.lt_one_iff.mp (natAbs_fmod_lt (by decide)))
    exact ⟨0, if_pos rfl, hzero.symm⟩
  · rw [if_neg hunit, fmod_eq_ite hn]
    split_ifs with hcorrect
    · exact ⟨m % n + n, rfl, toInt_mod_add h hcorrect⟩
    · exact ⟨m % n, rfl, Int64.toInt_mod m n⟩

/-- The quotient is the one rounded down, which overflows for the least integer and a divisor of
minus one. -/
theorem intDiv?_eq (h : n ≠ 0) :
    ∃ q, intDiv? m n = some q ∧ q.toInt = (m.toInt.fdiv n.toInt).bmod (2 ^ 64) := by
  have hn : n.toInt ≠ 0 := mt toInt_eq_zero_iff.mp h
  simp only [intDiv?, div_corrects_iff, if_neg h]
  rw [fdiv_eq_ite hn]
  by_cases hunit : n = -1
  · subst hunit
    have hdvd : (-1 : Int64).toInt ∣ m.toInt := (isUnit_one.neg : IsUnit (-1 : ℤ)).dvd
    have htdiv : m.toInt.tdiv (-1 : Int64).toInt = -m.toInt :=
      (Int.tdiv_neg _ 1).trans (congrArg _ (Int.tdiv_one _))
    refine ⟨-m, if_pos rfl, ?_⟩
    rw [if_neg (fun hcorrect => hcorrect.1 hdvd), Int64.toInt_neg, htdiv]
  · have htdiv := Int64.toInt_div_of_ne_right m n hunit
    rw [if_neg hunit, ← htdiv]
    split_ifs with hcorrect
    · exact ⟨m / n - 1, rfl, Int64.toInt_sub _ _⟩
    · refine ⟨m / n, rfl, ?_⟩
      exact (Int.bmod_eq_of_le (m / n).le_toInt (m / n).toInt_lt).symm

end Words

/-! ## Bits -/

section Bits

/-- An integer is determined by its bits in two's complement. -/
theorem eq_of_testBit_eq {a b : ℤ} (h : ∀ i, a.testBit i = b.testBit i) : a = b := by
  -- A natural number has only finitely many bits that are set, and a negative one only finitely
  -- many that are not.
  have hmixed : ∀ m n : ℕ, ¬ ∀ i, m.testBit i = !n.testBit i := by
    intro m n hbits
    have hm :=
      Nat.testBit_lt_two_pow
        (Nat.lt_two_pow_self.trans_le (Nat.pow_le_pow_right two_pos (le_max_left m n)))
    have hn :=
      Nat.testBit_lt_two_pow
        (Nat.lt_two_pow_self.trans_le (Nat.pow_le_pow_right two_pos (le_max_right m n)))
    simpa [hm, hn] using hbits (max m n)
  cases a with
  | ofNat m =>
    cases b with
    | ofNat n => exact congrArg _ (Nat.eq_of_testBit_eq h)
    | negSucc n => exact absurd h (hmixed m n)
  | negSucc m =>
    cases b with
    | ofNat n => exact absurd (fun i => (h i).symm) (hmixed n m)
    | negSucc n => exact congrArg _ (Nat.eq_of_testBit_eq fun i => Bool.not_inj (h i))

/-- The bits of a word, the last of which is repeated without end. -/
theorem testBit_toInt (x : Int64) (i : ℕ) :
    x.toInt.testBit i = if i < 64 then x.toBitVec.getLsbD i else x.toBitVec.msb := by
  change x.toBitVec.toInt.testBit i = _
  generalize x.toBitVec = v
  cases hmsb : v.msb with
  | false =>
    rw [BitVec.toInt_eq_toNat_of_msb hmsb]
    change v.getLsbD i = _
    split_ifs with h
    · rfl
    · exact BitVec.getLsbD_of_ge v i (not_lt.mp h)
  | true =>
    have hnegative : v.toInt = Int.negSucc (~~~v).toNat := by
      have := v.isLt
      rw [BitVec.toInt_eq_msb_cond, if_pos hmsb, BitVec.toNat_not]
      omega
    rw [hnegative]
    change (!(~~~v).getLsbD i) = _
    rw [BitVec.getLsbD_not]
    split_ifs with h <;> simp [h]

theorem toInt_and (x y : Int64) : (x &&& y).toInt = x.toInt.land y.toInt := by
  refine eq_of_testBit_eq fun i => ?_
  simp only [Int.testBit_land, testBit_toInt, Int64.toBitVec_and, BitVec.getLsbD_and,
    BitVec.msb_and]
  split_ifs <;> rfl

theorem toInt_or (x y : Int64) : (x ||| y).toInt = x.toInt.lor y.toInt := by
  refine eq_of_testBit_eq fun i => ?_
  simp only [Int.testBit_lor, testBit_toInt, Int64.toBitVec_or, BitVec.getLsbD_or, BitVec.msb_or]
  split_ifs <;> rfl

theorem toInt_xor (x y : Int64) : (x ^^^ y).toInt = x.toInt.xor y.toInt := by
  refine eq_of_testBit_eq fun i => ?_
  simp only [Int.testBit_lxor, testBit_toInt, Int64.toBitVec_xor, BitVec.getLsbD_xor,
    BitVec.msb_xor]
  split_ifs <;> rfl

theorem toInt_not (x : Int64) : (~~~x).toInt = x.toInt.lnot := by
  refine eq_of_testBit_eq fun i => ?_
  simp only [Int.testBit_lnot, testBit_toInt, Int64.toBitVec_not, BitVec.getLsbD_not,
    BitVec.msb_not]
  split_ifs with h <;> simp [h]

end Bits

/-! ## Shifts -/

section Shifts
variable {x y : Int64}

theorem toNat_toUInt64 (h : 0 ≤ y.toInt) : (y.toUInt64.toNat : ℤ) = y.toInt := by
  have hmsb : y.toBitVec.msb = false := by
    rw [← Bool.not_eq_true, msb_iff]
    exact not_lt.mpr h
  exact (BitVec.toInt_eq_toNat_of_msb hmsb).symm

/-- An unsigned word multiplied by a power of two, rounded down and cut to 64 bits. -/
def shifted (u : ℕ) (k : ℤ) : ℤ := ⌊(u * 2 ^ k : ℚ)⌋ % 2 ^ 64

theorem shifted_of_le_neg {u : ℕ} {k : ℤ} (hu : u < 2 ^ 64) (hk : k ≤ -64) : shifted u k = 0 := by
  have hfloor : ⌊(u * 2 ^ k : ℚ)⌋ = 0 := by
    rw [Int.floor_eq_zero_iff]
    refine ⟨by positivity, ?_⟩
    have hcast : (u : ℚ) < 2 ^ (64 : ℤ) := by exact_mod_cast hu
    calc (u * 2 ^ k : ℚ) < 2 ^ (64 : ℤ) * 2 ^ k := by gcongr
      _ = 2 ^ (64 + k) := (zpow_add₀ two_ne_zero 64 k).symm
      _ ≤ 1 := zpow_le_one_of_nonpos₀ one_le_two (by omega)
  rw [shifted, hfloor, Int.zero_emod]

theorem shifted_natCast (u k : ℕ) : shifted u k = u * 2 ^ k % 2 ^ 64 := by
  have hcast : (u * 2 ^ (k : ℤ) : ℚ) = ((u * 2 ^ k : ℤ) : ℚ) := by simp
  rw [shifted, hcast, Int.floor_intCast]

theorem shifted_of_le {u : ℕ} {k : ℤ} (hk : 64 ≤ k) : shifted u k = 0 := by
  obtain ⟨j, rfl⟩ : ∃ j : ℕ, k = ((64 + j : ℕ) : ℤ) := ⟨(k - 64).toNat, by omega⟩
  rw [shifted_natCast, pow_add, mul_left_comm]
  exact Int.mul_emod_right _ _

theorem shifted_neg_natCast {u : ℕ} (hu : u < 2 ^ 64) (k : ℕ) :
    shifted u (-k) = (u / 2 ^ k : ℕ) := by
  have hcast : (u * 2 ^ (-(k : ℤ)) : ℚ) = (u : ℚ) / ((2 ^ k : ℕ) : ℚ) := by
    rw [zpow_neg, zpow_natCast, div_eq_mul_inv]
    norm_cast
  have hlt : u / 2 ^ k < 2 ^ 64 := (Nat.div_le_self _ _).trans_lt hu
  rw [shifted, hcast, Rat.floor_natCast_div_natCast]
  exact Int.emod_eq_of_lt (by positivity) (by exact_mod_cast hlt)

theorem toNat_shiftLeft (x y : Int64) :
    ((shiftLeft x y).toUInt64.toNat : ℤ) = shifted x.toUInt64.toNat y.toInt := by
  have hx : x.toUInt64.toNat < 2 ^ 64 := x.toUInt64.toNat_lt
  have hlow : y ≤ -64 ↔ y.toInt ≤ -64 := Int64.le_iff_toInt_le
  have hhigh : 64 ≤ y ↔ 64 ≤ y.toInt := Int64.le_iff_toInt_le
  have hneg : y < 0 ↔ y.toInt < 0 := Int64.lt_iff_toInt_lt
  simp only [shiftLeft, hlow, hhigh, hneg]
  split_ifs with hout hright
  · rcases hout with hout | hout
    · rw [shifted_of_le_neg hx hout]
      rfl
    · rw [shifted_of_le hout]
      rfl
  · have hamount : (-y).toInt = -y.toInt := by
      rw [Int64.toInt_neg]
      exact Int.bmod_eq_of_le (by omega) (by omega)
    have hk := toNat_toUInt64 (y := -y) (by omega)
    have hplaces : y.toInt = -((-y).toUInt64.toNat : ℤ) := by omega
    rw [hplaces, shifted_neg_natCast hx, UInt64.toUInt64_toInt64, UInt64.toNat_shiftRight,
      Nat.shiftRight_eq_div_pow, Nat.mod_eq_of_lt (by omega)]
  · have hplaces := toNat_toUInt64 (y := y) (by omega)
    have hsmall : y.toUInt64.toNat % 64 = y.toUInt64.toNat := Nat.mod_eq_of_lt (by omega)
    rw [← hplaces, shifted_natCast, UInt64.toUInt64_toInt64, UInt64.toNat_shiftLeft,
      Nat.shiftLeft_eq, hsmall]
    norm_cast

/-- A shift to the right is one to the left by the negated amount. The least amount is its own
negation. Then it should shift to the left, but by so much that nothing is left either way. -/
theorem toNat_shiftRight (x y : Int64) :
    ((shiftLeft x (-y)).toUInt64.toNat : ℤ) = shifted x.toUInt64.toNat (-y.toInt) := by
  have hx : x.toUInt64.toNat < 2 ^ 64 := x.toUInt64.toNat_lt
  rw [toNat_shiftLeft, Int64.toInt_neg]
  have hlow := y.le_toInt
  have hhigh := y.toInt_lt
  by_cases hleast : y.toInt = -2 ^ 63
  · rw [hleast, shifted_of_le_neg hx (by decide), shifted_of_le (by norm_num)]
  · rw [Int.bmod_eq_of_le (by omega) (by omega)]

end Shifts

/-! ## Steps that must not overflow -/

/-- A result that has to be an integer of 64 bits. -/
def Checked.word (n : ℤ) : Checked Int64 :=
  match int64OfInt? n with
  | some w => .ok w
  | none => .error (.fault .wordOverflow)

/-- The places of a shift of a word, which have to be fewer than its bits. -/
def Checked.places (k : Int64) : Checked UInt64 :=
  if 0 ≤ k ∧ k < 64 then .ok k.toUInt64 else .error (.fault .wordOverflow)

section Guarded
open Checked

/-- The remainder rounded down, with every step on the way held to 64 bits. -/
def guardedMod (m n : Int64) : Checked (Option Int64) :=
  if n = 0 then pure none
  else if n = -1 then pure (some 0)
  else do
    let _ ← word (m.toInt.tdiv n.toInt)
    let r ← word (m.toInt.tmod n.toInt)
    if r ≠ 0 ∧ (r ^^^ n) < 0 then
      let corrected ← word (r.toInt + n.toInt)
      return some corrected
    else return some r

/-- The quotient rounded down, with every step but a negation held to 64 bits. -/
def guardedDiv (m n : Int64) : Checked (Option Int64) :=
  if n = 0 then pure none
  else if n = -1 then pure (some (-m))
  else do
    let q ← word (m.toInt.tdiv n.toInt)
    let r ← word (m.toInt.tmod n.toInt)
    if (m ^^^ n) < 0 ∧ r ≠ 0 then
      let corrected ← word (q.toInt - 1)
      return some corrected
    else return some q

/-- A shift, with its amount held to the width of a word. -/
def guardedShift (x y : Int64) : Checked Int64 :=
  if y ≤ -64 ∨ 64 ≤ y then pure 0
  else if y < 0 then do
    let amount ← word (-y.toInt)
    let k ← places amount
    return (x.toUInt64 >>> k).toInt64
  else do
    let k ← places y
    return (x.toUInt64 <<< k).toInt64

theorem word_eq_ok {k : ℤ} {w : Int64} (h : w.toInt = k) : word k = .ok w := by
  simp [word, int64OfInt?_eq_some.mpr h]

theorem guardedMod_eq (m n : Int64) : guardedMod m n = .ok (intMod? m n) := by
  by_cases hzero : n = 0
  · simp [guardedMod, intMod?, hzero]
    rfl
  by_cases hunit : n = -1
  · simp [guardedMod, intMod?, hunit]
    rfl
  simp only [guardedMod, intMod?, if_neg hzero, if_neg hunit,
    word_eq_ok (Int64.toInt_div_of_ne_right m n hunit),
    word_eq_ok (Int64.toInt_mod m n), bind, Except.bind]
  split_ifs with hcorrect
  · have hsum : (m % n + n).toInt = (m % n).toInt + n.toInt := by
      rw [toInt_mod_add hzero (mod_corrects_iff.mp hcorrect), Int64.toInt_mod]
    rw [word_eq_ok hsum]
    rfl
  · rfl

theorem guardedDiv_eq (m n : Int64) : guardedDiv m n = .ok (intDiv? m n) := by
  by_cases hzero : n = 0
  · simp [guardedDiv, intDiv?, hzero]
    rfl
  by_cases hunit : n = -1
  · simp [guardedDiv, intDiv?, hunit]
    rfl
  simp only [guardedDiv, intDiv?, if_neg hzero, if_neg hunit,
    word_eq_ok (Int64.toInt_div_of_ne_right m n hunit),
    word_eq_ok (Int64.toInt_mod m n), bind, Except.bind]
  split_ifs with hcorrect
  · have hdifference : (m / n - 1).toInt = (m / n).toInt - 1 := by
      rw [toInt_div_sub hzero hunit (div_corrects_iff.mp hcorrect).1,
        Int64.toInt_div_of_ne_right m n hunit]
    rw [word_eq_ok hdifference]
    rfl
  · rfl

theorem places_eq_ok {k : Int64} (hlow : 0 ≤ k.toInt) (hhigh : k.toInt < 64) :
    places k = .ok k.toUInt64 :=
  if_pos ⟨Int64.le_iff_toInt_le.mpr hlow, Int64.lt_iff_toInt_lt.mpr hhigh⟩

theorem guardedShift_eq (x y : Int64) : guardedShift x y = .ok (shiftLeft x y) := by
  have hlow : y ≤ -64 ↔ y.toInt ≤ -64 := Int64.le_iff_toInt_le
  have hhigh : 64 ≤ y ↔ 64 ≤ y.toInt := Int64.le_iff_toInt_le
  have hneg : y < 0 ↔ y.toInt < 0 := Int64.lt_iff_toInt_lt
  simp only [guardedShift, shiftLeft, hlow, hhigh, hneg]
  split_ifs with hout hright
  · rfl
  · have hamount : (-y).toInt = -y.toInt := by
      rw [Int64.toInt_neg]
      exact Int.bmod_eq_of_le (by omega) (by omega)
    rw [word_eq_ok hamount]
    simp only [bind, Except.bind, places_eq_ok (show 0 ≤ (-y).toInt by omega) (by omega)]
    rfl
  · simp only [bind, Except.bind, places_eq_ok (show 0 ≤ y.toInt by omega) (by omega)]
    rfl

end Guarded

namespace ArithOp

/-- An operator on integers, with every step that does not wrap around held to 64 bits. -/
def guarded (op : ArithOp) (x y : Int64) : Checked (Except Cause (Option Value)) :=
  match op with
  | .mod => do
    match ← guardedMod x y with
    | some r => return .ok (some (.int r))
    | none => return .error .moduloByZero
  | .idiv => do
    match ← guardedDiv x y with
    | some q => return .ok (some (.int q))
    | none => return .error .divideByZero
  | .shl => do
    let r ← guardedShift x y
    return .ok (some (.int r))
  | .shr => do
    let r ← guardedShift x (-y)
    return .ok (some (.int r))
  | _ => return op.applyRaw (.int x) (.int y)

/-- What the result of an operator on integers is, as an equation between integers without
bounds. -/
def Meaning (op : ArithOp) (x y r : Int64) : Prop :=
  match op with
  | .add => r.toInt = (x.toInt + y.toInt).bmod (2 ^ 64)
  | .sub => r.toInt = (x.toInt - y.toInt).bmod (2 ^ 64)
  | .mul => r.toInt = (x.toInt * y.toInt).bmod (2 ^ 64)
  | .unm => r.toInt = (-x.toInt).bmod (2 ^ 64)
  | .mod => r.toInt = x.toInt - y.toInt * ⌊(x.toInt / y.toInt : ℚ)⌋
  | .idiv => r.toInt = ⌊(x.toInt / y.toInt : ℚ)⌋.bmod (2 ^ 64)
  | .band => r.toInt = x.toInt.land y.toInt
  | .bor => r.toInt = x.toInt.lor y.toInt
  | .bxor => r.toInt = x.toInt.xor y.toInt
  | .bnot => r.toInt = x.toInt.lnot
  | .shl => (r.toUInt64.toNat : ℤ) = ⌊(x.toUInt64.toNat * 2 ^ y.toInt : ℚ)⌋ % 2 ^ 64
  | .shr => (r.toUInt64.toNat : ℤ) = ⌊(x.toUInt64.toNat * 2 ^ (-y.toInt) : ℚ)⌋ % 2 ^ 64
  | .pow => False
  | .div => False

/-- The outcomes that an operator may have on integers. Only the divisions that round down fail, and
only for zero. -/
inductive Yields (op : ArithOp) (x y : Int64) : Except Cause (Option Value) → Prop where
  | moduloByZero : op = .mod → y = 0 → Yields op x y (.error .moduloByZero)
  | divideByZero : op = .idiv → y = 0 → Yields op x y (.error .divideByZero)
  | result (r : Int64) :
      ¬ ((op = .mod ∨ op = .idiv) ∧ y = 0) → op.Meaning x y r → Yields op x y (.ok (some (.int r)))

section Exact
variable {x y : Int64}

theorem applyRaw_mod (x y : Int64) : mod.applyRaw (.int x) (.int y) =
    (intMod? x y).elim (.error .moduloByZero) fun r => .ok (some (.int r)) := by
  simp only [applyRaw, isBitwise, Bool.false_eq_true, if_false, operands?, onNumbers, Number.mod?]
  cases intMod? x y <;> rfl

theorem applyRaw_idiv (x y : Int64) : idiv.applyRaw (.int x) (.int y) =
    (intDiv? x y).elim (.error .divideByZero) fun q => .ok (some (.int q)) := by
  simp only [applyRaw, isBitwise, Bool.false_eq_true, if_false, operands?, onNumbers,
    Number.floorDiv?]
  cases intDiv? x y <;> rfl

theorem guarded_eq (op : ArithOp) (x y : Int64) :
    op.guarded x y = .ok (op.applyRaw (.int x) (.int y)) := by
  cases op with
  | mod =>
    rw [applyRaw_mod, guarded, guardedMod_eq]
    cases intMod? x y <;> rfl
  | idiv =>
    rw [applyRaw_idiv, guarded, guardedDiv_eq]
    cases intDiv? x y <;> rfl
  | shl =>
    rw [guarded, guardedShift_eq]
    rfl
  | shr =>
    rw [guarded, guardedShift_eq]
    rfl
  | _ => rfl

theorem yields_mod (x y : Int64) : mod.Yields x y (mod.applyRaw (.int x) (.int y)) := by
  rw [applyRaw_mod]
  by_cases hy : y = 0
  · subst hy
    exact .moduloByZero rfl rfl
  · obtain ⟨r, hr, hvalue⟩ := intMod?_eq (m := x) hy
    rw [hr]
    refine .result r (fun h => hy h.2) ?_
    rw [Meaning, hvalue, floor_div_eq_fdiv, Int.fmod_def]

theorem yields_idiv (x y : Int64) : idiv.Yields x y (idiv.applyRaw (.int x) (.int y)) := by
  rw [applyRaw_idiv]
  by_cases hy : y = 0
  · subst hy
    exact .divideByZero rfl rfl
  · obtain ⟨q, hq, hvalue⟩ := intDiv?_eq (m := x) hy
    rw [hq]
    refine .result q (fun h => hy h.2) ?_
    rw [Meaning, hvalue, floor_div_eq_fdiv]

/-- Every operator but the two that compute with floats has its mathematical meaning on integers. -/
theorem yields_applyRaw {op : ArithOp} (hpow : op ≠ .pow) (hdiv : op ≠ .div) (x y : Int64) :
    op.Yields x y (op.applyRaw (.int x) (.int y)) := by
  cases op with
  | pow => exact absurd rfl hpow
  | div => exact absurd rfl hdiv
  | mod => exact yields_mod x y
  | idiv => exact yields_idiv x y
  | add => exact .result (x + y) (by simp) (Int64.toInt_add x y)
  | sub => exact .result (x - y) (by simp) (Int64.toInt_sub x y)
  | mul => exact .result (x * y) (by simp) (Int64.toInt_mul x y)
  | unm => exact .result (-x) (by simp) (Int64.toInt_neg x)
  | band => exact .result (x &&& y) (by simp) (toInt_and x y)
  | bor => exact .result (x ||| y) (by simp) (toInt_or x y)
  | bxor => exact .result (x ^^^ y) (by simp) (toInt_xor x y)
  | bnot => exact .result (~~~x) (by simp) (toInt_not x)
  | shl => exact .result (shiftLeft x y) (by simp) (toNat_shiftLeft x y)
  | shr => exact .result (shiftLeft x (-y)) (by simp) (toNat_shiftRight x y)

/-- Quotient and remainder give the dividend back, up to a multiple of `2 ^ 64`. -/
theorem idiv_mod_modEq (h : y ≠ 0) :
    ∃ q r, idiv.applyRaw (.int x) (.int y) = .ok (some (.int q)) ∧
      mod.applyRaw (.int x) (.int y) = .ok (some (.int r)) ∧
        x.toInt ≡ y.toInt * q.toInt + r.toInt [ZMOD 2 ^ 64] := by
  obtain ⟨q, hq, hquotient⟩ := intDiv?_eq (m := x) h
  obtain ⟨r, hr, hremainder⟩ := intMod?_eq (m := x) h
  refine ⟨q, r, by rw [applyRaw_idiv, hq]; rfl, by rw [applyRaw_mod, hr]; rfl, ?_⟩
  have hwrapped : q.toInt ≡ x.toInt.fdiv y.toInt [ZMOD 2 ^ 64] := by
    rw [hquotient]
    exact Int.bmod_emod
  calc x.toInt = y.toInt * x.toInt.fdiv y.toInt + x.toInt.fmod y.toInt :=
        (Int.mul_fdiv_add_fmod _ _).symm
    _ ≡ y.toInt * q.toInt + r.toInt [ZMOD 2 ^ 64] := by
      rw [hremainder]
      exact (hwrapped.symm.mul_left _).add_right _

/-- Integer operations never overflow on the way. They have their mathematical meaning, or fail for
a division by zero, and quotient and remainder belong together. -/
theorem integers_exact (op : ArithOp) (x y : Int64) (hpow : op ≠ .pow) (hdiv : op ≠ .div) :
    op.guarded x y = .ok (op.applyRaw (.int x) (.int y)) ∧
      op.Yields x y (op.applyRaw (.int x) (.int y)) ∧
      (y ≠ 0 → ∃ q r, idiv.applyRaw (.int x) (.int y) = .ok (some (.int q)) ∧
        mod.applyRaw (.int x) (.int y) = .ok (some (.int r)) ∧
        x.toInt ≡ y.toInt * q.toInt + r.toInt [ZMOD 2 ^ 64]) :=
  ⟨guarded_eq op x y, yields_applyRaw hpow hdiv x y, idiv_mod_modEq⟩

/-- The least integer divided by minus one wraps around to itself, with the remainder zero. -/
theorem integers_exact_least :
    (idiv ≠ .pow ∧ idiv ≠ .div) ∧
      idiv.Yields Int64.minValue (-1) (.ok (some (.int Int64.minValue))) ∧
      ∃ q r, idiv.applyRaw (.int Int64.minValue) (.int (-1)) = .ok (some (.int q)) ∧
        mod.applyRaw (.int Int64.minValue) (.int (-1)) = .ok (some (.int r)) ∧
        Int64.minValue.toInt ≡ (-1 : Int64).toInt * q.toInt + r.toInt [ZMOD 2 ^ 64] :=
  have h := integers_exact .idiv Int64.minValue (-1) (by decide) (by decide)
  ⟨⟨by decide, by decide⟩, h.2.1, h.2.2 (by decide)⟩

end Exact

end ArithOp

end LuaMachine
