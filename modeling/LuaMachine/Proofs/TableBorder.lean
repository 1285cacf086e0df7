import LuaMachine.Proofs.TableParts

/-!
# The length of a table

The length of a table is a border: a count after which a value is missing, with a value right
before. If the last value of the array part is missing, halving the part finds a border inside it.
Otherwise the border is the size of that part, since the key after it never has a value in the hash
part. On machine words the search takes the same steps, and none of them overflows.
-/
namespace LuaMachine

namespace Table
variable {t : Table} {array : Array Value} {i j n fuel rounds : ℕ}

/-! ## Halving the array part -/

/-- Between a position with a value, or the beginning, and one without a value, halving comes to a
border. Each round makes the range smaller, so that its length is enough fuel. -/
theorem searchBorder_spec (hlt : i < j) (hfuel : j ≤ i + fuel + 1)
    (hi : i = 0 ∨ array[i - 1]?.getD .nil ≠ .nil) (hj : array[j - 1]?.getD .nil = .nil) :
    searchBorder array fuel i j < j ∧
      (searchBorder array fuel i j = 0 ∨ array[searchBorder array fuel i j - 1]?.getD .nil ≠ .nil) ∧
      array[searchBorder array fuel i j]?.getD .nil = .nil := by
  induction fuel generalizing i j with
  | zero =>
    obtain rfl : j = i + 1 := by omega
    exact ⟨hlt, hi, hj⟩
  | succ fuel ih =>
    unfold searchBorder
    dsimp only
    split_ifs with hgap hnil
    · obtain ⟨hlow, hrest⟩ :=
        ih (show i < (i + j) / 2 by omega) (by omega) hi (Value.isNil_iff.mp hnil)
      exact ⟨by omega, hrest⟩
    · exact ih (show (i + j) / 2 < j by omega) (by omega) (.inr (mt Value.isNil_iff.mpr hnil)) hj
    · obtain rfl : j = i + 1 := by omega
      exact ⟨hlt, hi, hj⟩

/-! ## Borders -/

/-- The count `n` is a border: the key `n` has a value, unless `n` is zero, and the key `n + 1` has
none. -/
structure IsBorder (t : Table) (n : ℕ) : Prop where
  lt : n < 2 ^ 63
  present : n = 0 ∨ t.get (.int (Int64.ofNat n)) ≠ .nil
  absent : ∀ k : Int64, k.toInt = n + 1 → t.get (.int k) = .nil

theorem slot?_ofNat (hpos : 0 < n) (hlt : n < 2 ^ 63) :
    slot? (.int (Int64.ofNat n)) = some (n - 1) := by
  refine slot?_eq_some.mpr ⟨_, rfl, ?_⟩
  rw [Int64.toInt_ofNat_of_lt hlt]
  omega

/-- A value of the array part is the value of its key. -/
theorem get_listed (hlt : i < t.array.size) {k : Key} (hs : slot? k = some i) :
    t.get k = t.array[i]?.getD .nil := by
  rw [get_of_slot hs (Array.getElem?_eq_getElem hlt), Array.getElem?_eq_getElem hlt]
  rfl

/-- The walk through the hash part ends where it begins. -/
theorem Settled.walkBorder_eq (h : t.Settled) (fuel : ℕ) :
    t.walkBorder fuel t.array.size = t.array.size := by
  cases fuel with
  | zero => rfl
  | succ fuel =>
    unfold walkBorder
    rw [if_neg]
    rintro ⟨hlt, hlive⟩
    have hnil : t.hashGet (.int (Int64.ofNat (t.array.size + 1))) = .nil :=
      h _ (slot?_ofNat (Nat.succ_pos _) hlt)
    rw [hnil] at hlive
    cases hlive

theorem border_isBorder (h : t.Consistent) (hs : t.Settled) : t.IsBorder t.border := by
  have hsize := h.size
  unfold border
  dsimp only
  split_ifs with hlast
  · obtain ⟨hpos, hnil⟩ := hlast
    obtain ⟨hlt, hpresent, habsent⟩ :=
      searchBorder_spec hpos (show t.array.size ≤ 0 + t.array.size + 1 by omega) (.inl rfl)
        (Value.isNil_iff.mp hnil)
    refine ⟨by omega, Decidable.or_iff_not_imp_left.mpr fun hzero => ?_, fun k hk => ?_⟩
    · rw [get_listed (by omega) (slot?_ofNat (Nat.pos_of_ne_zero hzero) (by omega))]
      exact hpresent.resolve_left hzero
    · rw [get_listed hlt (slot?_eq_some.mpr ⟨k, rfl, hk⟩), habsent]
  · rw [hs.walkBorder_eq]
    refine ⟨hsize, Decidable.or_iff_not_imp_left.mpr fun hzero => ?_, fun k hk => ?_⟩
    · rw [get_listed (by omega) (slot?_ofNat (Nat.pos_of_ne_zero hzero) hsize)]
      intro hnil
      exact hlast ⟨Nat.pos_of_ne_zero hzero, Value.isNil_iff.mpr hnil⟩
    · exact hs.get_eq_nil (slot?_eq_some.mpr ⟨k, rfl, hk⟩)

/-- A table with values at the keys from one to `m` and no other positive integer has no border but
`m`. -/
theorem IsBorder.unique (h : t.IsBorder n) {m : Int64} (hm : 0 ≤ m.toInt)
    (hkeys : ∀ k : Int64, 0 < k.toInt → (t.get (.int k) ≠ .nil ↔ k.toInt ≤ m.toInt)) :
    (n : ℤ) = m.toInt := by
  have hn : (Int64.ofNat n).toInt = n := Int64.toInt_ofNat_of_lt h.lt
  rcases Int.lt_trichotomy n m.toInt with hlt | he | hgt
  · have hm' := m.toInt_lt
    have hnext : (Int64.ofNat (n + 1)).toInt = n + 1 := by
      rw [Int64.toInt_ofNat_of_lt (by omega)]
      rfl
    exact absurd (h.absent _ hnext) ((hkeys _ (by omega)).mpr (by omega))
  · exact he
  · have hpresent := h.present.resolve_left (by omega)
    have := (hkeys _ (by omega)).mp hpresent
    omega

/-! ## The search on machine words -/

/-- Halves a range of the array part with positions that are words. Every sum, difference and access
has to have a result. -/
def searchChecked (array : Array Value) : ℕ → ℕ → ℕ → Checked ℕ
  | 0, _, _ => .error .outOfFuel
  | fuel + 1, i, j => do
    let gap ← Checked.sub j i
    if gap ≤ 1 then return i
    let sum ← Checked.add i j
    let before ← Checked.sub (sum / 2) 1
    let some v := array[before]? | .error (.fault .range)
    if v.isNil then searchChecked array fuel i (sum / 2) else searchChecked array fuel (sum / 2) j

/-- Walks through the hash part with a count that is an integer of 64 bits. The next key wraps
around, the count must not. -/
def walkChecked (t : Table) : ℕ → Int64 → Checked Int64
  | 0, _ => .error .outOfFuel
  | fuel + 1, n => do
    if (t.hashGet (.int (n + 1))).isNil then return n
    walkChecked t fuel (← Checked.addInt n.toInt 1)

/-- The border with every step on machine words checked, in at most `fuel` rounds. -/
def borderChecked (t : Table) (fuel : ℕ) : Checked Int64 :=
  let n := t.array.size
  if 0 < n ∧ (t.array[n - 1]?.getD .nil).isNil then (searchChecked t.array fuel 0 n).map Int64.ofNat
  else t.walkChecked fuel (Int64.ofNat n)

/-- On words the halving takes the same steps. -/
theorem searchChecked_eq (hsize : array.size < 2 ^ 63) (hlt : i < j) (hj : j ≤ array.size)
    (hfuel : j ≤ i + fuel) (hrounds : j ≤ i + rounds + 1) :
    searchChecked array fuel i j = .ok (searchBorder array rounds i j) := by
  induction fuel generalizing i j rounds with
  | zero => omega
  | succ fuel ih =>
    have hgap : Checked.sub j i = .ok (j - i) := if_pos (Nat.le_of_lt hlt)
    unfold searchChecked
    simp only [hgap, bind, Except.bind]
    by_cases hadjacent : j - i ≤ 1
    · rw [if_pos hadjacent]
      cases rounds with
      | zero => rfl
      | succ rounds =>
        unfold searchBorder
        rw [if_neg (Nat.not_lt.mpr hadjacent)]
        rfl
    · obtain ⟨rounds, rfl⟩ : ∃ k, rounds = k + 1 := Nat.exists_eq_succ_of_ne_zero (by omega)
      have hsum : Checked.add i j = .ok (i + j) :=
        if_pos (by simp only [wordLimit, Nat.pow_eq]; omega)
      have hbefore : Checked.sub ((i + j) / 2) 1 = .ok ((i + j) / 2 - 1) := if_pos (by omega)
      have hin : (i + j) / 2 - 1 < array.size := by omega
      unfold searchBorder
      rw [if_neg hadjacent, if_pos (Nat.lt_of_not_le hadjacent)]
      simp only [hsum, hbefore, Array.getElem?_eq_getElem hin, Option.getD_some]
      split_ifs
      · exact ih (by omega) (by omega) (by omega) (by omega)
      · exact ih (by omega) hj (by omega) (by omega)

/-- A table whose array part can be stored is searched without overflow, in fewer rounds than that
part has values. -/
theorem borderChecked_eq (h : t.Consistent) (hs : t.Settled)
    (hstored : Checked.reserve t.array.size Value.bytes = .ok ()) (hfuel : t.array.size < fuel) :
    t.borderChecked fuel = .ok (Int64.ofNat t.border) := by
  have hsmall : t.array.size + 1 < 2 ^ 63 := by
    unfold Checked.reserve at hstored
    split_ifs at hstored with hfits
    simp only [Value.bytes, storageLimit, Nat.pow_eq] at hfits
    omega
  unfold borderChecked border
  dsimp only
  split_ifs with hlast
  · rw [searchChecked_eq h.size hlast.1 (Nat.le_refl _) (by omega)
      (show t.array.size ≤ 0 + t.array.size + 1 by omega)]
    rfl
  · rw [hs.walkBorder_eq]
    obtain ⟨fuel, rfl⟩ : ∃ k, fuel = k + 1 := Nat.exists_eq_succ_of_ne_zero (by omega)
    have hnext : Int64.ofNat t.array.size + 1 = Int64.ofNat (t.array.size + 1) :=
      (Int64.ofNat_add _ 1).symm
    have hnil : t.hashGet (.int (Int64.ofNat (t.array.size + 1))) = .nil :=
      hs _ (slot?_ofNat (Nat.succ_pos _) hsmall)
    unfold walkChecked
    rw [hnext, hnil]
    rfl

end Table

namespace Heap
variable {h h' : Heap} {r : TableRef} {listed keyed : ℕ}

/-- The length of a table is a border: it is zero or a key with a value, and the next integer has no
value. It is found in finitely many rounds without overflow. If the values stand at the keys from
one to `m`, it is `m`. -/
theorem storeAll_length_border (hnew : h.newTableOfSize listed keyed = .ok (r, h'))
    (stores : List Store) :
    let after := h'.storeAll r stores
    let t := (after.tableAt r).content
    let n := after.rawLength r
    n < 2 ^ 63 ∧
    (n = 0 ∨ after.rawGetValue r (.int (Int64.ofNat n)) ≠ .nil) ∧
    (∀ k : Int64, k.toInt = n + 1 → after.rawGetValue r (.int k) = .nil) ∧
    (Checked.reserve t.array.size Value.bytes = .ok () →
      ∀ fuel, t.array.size < fuel → t.borderChecked fuel = .ok (Int64.ofNat n)) ∧
    ∀ m : Int64, 0 ≤ m.toInt →
      (∀ k : Int64, 0 < k.toInt → (after.rawGetValue r (.int k) ≠ .nil ↔ k.toInt ≤ m.toInt)) →
        (n : ℤ) = m.toInt := by
  intro after t n
  obtain ⟨hconsistent, hsettled⟩ : t.Consistent ∧ t.Settled := by
    rw [show t = _ from content_storeAll hnew stores]
    exact Table.foldl_set_settles stores
  have hborder : t.IsBorder n := Table.border_isBorder hconsistent hsettled
  exact ⟨hborder.lt, hborder.present, hborder.absent,
    fun hstored fuel hfuel => Table.borderChecked_eq hconsistent hsettled hstored hfuel,
    fun m hm hkeys => hborder.unique hm hkeys⟩

/-- A value to be stored under an integer. -/
def storeAt (n : Int64) (v : Value) : Store := ⟨.int n, v, .int n, rfl⟩

/-- Four values in the array part, the last of which is erased. -/
def shortened : List Store :=
  [storeAt 1 (.ofText "a"), storeAt 2 (.ofText "b"), storeAt 3 (.ofText "c"),
    storeAt 4 (.ofText "d"), storeAt 4 .nil]

theorem storeAll_length_border_shortened :
    ∃ h', newTableOfSize {} 0 0 = .ok (⟨0⟩, h') ∧
      (h'.storeAll ⟨0⟩ shortened).rawLength ⟨0⟩ = 3 := by
  have hnew : newTableOfSize {} 0 0 = .ok (⟨0⟩, (newTable {}).2) := rfl
  obtain ⟨-, -, -, -, hexact⟩ := storeAll_length_border hnew shortened
  refine ⟨_, hnew, Int.ofNat_inj.mp (hexact 3 (by decide) fun k hk => ?_)⟩
  show (((newTable {}).2.storeAll ⟨0⟩ shortened).tableAt ⟨0⟩).content.get (.int k) ≠ .nil ↔ _
  rw [content_storeAll hnew, Table.get_foldl_set]
  have hkey : ∀ n : Int64, n = k ↔ n.toInt = k.toInt := fun n => Int64.toInt_inj.symm
  simp only [shortened, storeAt, List.foldl_cons, List.foldl_nil, Key.int.injEq, hkey]
  have hthree : Int64.toInt 3 = 3 := rfl
  split_ifs with hfour hlast hmiddle hfirst
  · simp only [ne_eq, not_true_eq_false, false_iff, ← hfour]
    decide
  · simp [Value.ofText, ← hlast]
  · simp only [Value.ofText, ne_eq, reduceCtorEq, not_false_eq_true, true_iff, ← hmiddle]
    decide
  · simp only [Value.ofText, ne_eq, reduceCtorEq, not_false_eq_true, true_iff, ← hfirst]
    decide
  · have : Int64.toInt 1 = 1 := rfl
    have : Int64.toInt 2 = 2 := rfl
    simp only [ne_eq, not_true_eq_false, false_iff]
    omega

end Heap

end LuaMachine
