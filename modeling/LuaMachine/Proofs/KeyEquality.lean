import LuaMachine.Proofs.CanonicalKeys

/-!
# Equality of keys

A table compares its keys by the raw equality of values in canonical form, and hashes the bits of
floats, the bytes of strings and the addresses of objects. Raw equality takes an integer for the
float of its value and the two zeros for one number, so the two go together only because the form is
canonical: raw-equal values have one representation in it, down to the bits of a float.
-/
namespace LuaMachine

namespace Value

variable {v w : Value} {k l : Key}

/-- Values with the same representation: the same bits or bytes in the same variant, or the same
object. The object of a host function is its code. -/
inductive Identical : Value → Value → Prop
  | bool (b : Bool) : Identical (.bool b) (.bool b)
  | int (n : Int64) : Identical (.int n) (.int n)
  | float {x y : Float} (bits : x.toBits = y.toBits) : Identical (.float x) (.float y)
  | string {s t : ByteArray} (bytes : s.data.toList = t.data.toList) :
      Identical (.string s) (.string t)
  | light (address : UInt64) : Identical (.light address) (.light address)
  | userdata (r : UserdataRef) : Identical (.userdata r) (.userdata r)
  | closure (r : ClosureRef) : Identical (.closure r) (.closure r)
  | host {f g : HostFunction} (address : f.address = g.address) : Identical (.host f) (.host g)
  | table (r : TableRef) : Identical (.table r) (.table r)

/-- The same representation is the same data for a hasher, wherever the objects are. -/
theorem Identical.hashInput_eq (h : v.Identical w) (place : Placement) :
    v.hashInput place = w.hashInput place := by
  cases h with
  | float bits => simp only [hashInput, bits]
  | string bytes => rw [ByteArray.ext (Array.toList_inj.mp bytes)]
  | host address => simp only [hashInput, address]
  | _ => rfl

theorem normalized_normalized (v : Value) : v.normalized.normalized = v.normalized := by
  cases v with
  | number a =>
    cases a with
    | int n => rfl
    | float x => cases hn : floatToInt? .exact x <;> simp [normalized, hn]
  | _ => rfl

/-- The canonical form of a value has the same key. -/
theorem toKey_normalized (v : Value) : v.normalized.toKey = v.toKey := by
  unfold toKey
  rw [normalized_normalized]

theorem Identical.symm (h : v.Identical w) : w.Identical v := by
  cases h with
  | float bits => exact .float bits.symm
  | string bytes => exact .string bytes.symm
  | host address => exact .host address.symm
  | _ => constructor

theorem Identical.trans {u : Value} (h : u.Identical v) (h' : v.Identical w) : u.Identical w := by
  cases h with
  | float bits =>
    cases h' with
    | float bits' => exact .float (bits.trans bits')
  | string bytes =>
    cases h' with
    | string bytes' => exact .string (bytes.trans bytes')
  | host address =>
    cases h' with
    | host address' => exact .host (address.trans address')
  | _ => exact h'

/-- The key of a value keeps the representation of its canonical form. -/
theorem identical_toValue (h : v.toKey = .ok k) : v.normalized.Identical k.toValue := by
  unfold toKey at h
  generalize v.normalized = a at h ⊢
  cases a with
  | nil => cases h
  | number a =>
    cases a with
    | int n =>
      cases h
      exact .int n
    | float x =>
      dsimp only at h
      split_ifs at h
      cases h
      exact .float rfl
  | string s =>
    cases h
    exact .string rfl
  | host f =>
    cases h
    exact .host rfl
  | _ =>
    cases h
    constructor

/-- Keys are the same exactly when the canonical forms have the same representation. -/
theorem identical_normalized_iff (hv : v.toKey = .ok k) (hw : w.toKey = .ok l) :
    v.normalized.Identical w.normalized ↔ k = l := by
  constructor
  · intro h
    have hsame : v.normalized.toKey = w.normalized.toKey := by
      generalize v.normalized = a at h
      generalize w.normalized = b at h
      cases h with
      | float bits => rw [Float.toBits_inj.mp bits]
      | string bytes => rw [ByteArray.ext (Array.toList_inj.mp bytes)]
      | host address => simp only [toKey, normalized, address]
      | _ => rfl
    rw [toKey_normalized, toKey_normalized, hv, hw] at hsame
    exact Except.ok.inj hsame
  · rintro rfl
    exact (identical_toValue hv).trans (identical_toValue hw).symm

/-! ## Values that index tables -/

theorem toKey_eq_isNil : v.toKey = .error .isNil ↔ v = .nil := by
  refine ⟨fun h => ?_, fun h => h ▸ rfl⟩
  rcases toKey_eq_error h with rfl | rfl
  · rfl
  · rw [toKey, normalized, floatToInt?_nan] at h
    simp at h

theorem toKey_eq_isNaN : v.toKey = .error .isNaN ↔ ∃ x, v = .float x ∧ x.isNaN = true := by
  constructor
  · intro h
    rcases toKey_eq_error h with rfl | rfl
    · cases h
    · exact ⟨_, rfl, by simp [Float.isNaN_eq_decide_eq_nan]⟩
  · rintro ⟨x, rfl, hx⟩
    obtain rfl : x = Float.nan := by simpa [Float.isNaN_eq_decide_eq_nan] using hx
    simp [toKey, normalized, floatToInt?_nan]

/-- The values other than nil and NaN. -/
structure Indexes (v : Value) : Prop where
  notNil : v ≠ .nil
  notNaN : ∀ x, v = .float x → x.isNaN = false

theorem Indexes.toKey_eq_ok (h : v.Indexes) : ∃ k, v.toKey = .ok k := by
  cases hkey : v.toKey with
  | ok k => exact ⟨k, rfl⟩
  | error why =>
    cases why with
    | isNil => exact absurd (toKey_eq_isNil.mp hkey) h.notNil
    | isNaN =>
      obtain ⟨x, hv, hx⟩ := toKey_eq_isNaN.mp hkey
      rw [h.notNaN x hv] at hx
      cases hx

/-- Canonical forms are raw-equal exactly when the keys are the same. -/
theorem Indexes.rawEqual_normalized_iff (hv : v.Indexes) (hw : w.Indexes) :
    v.normalized.rawEqual w.normalized = true ↔ v.toKey = w.toKey := by
  obtain ⟨k, hk⟩ := hv.toKey_eq_ok
  obtain ⟨l, hl⟩ := hw.toKey_eq_ok
  rw [← toKey_normalized] at hk hl
  rw [← toKey_eq_iff hk hl, ← toKey_normalized v, ← toKey_normalized w, hk, hl, Except.ok.injEq]

/-- Only nil and NaN have no key. Values that have one are raw-equal exactly when their canonical
forms have the same representation, which is when their keys are the same. So raw equality of
canonical forms is an equivalence relation, and a hasher is given the same data for equal ones. This
data is what the hash of a key is made of. -/
theorem toKey_canonical :
    (∀ v : Value, (v.toKey = .error .isNil ↔ v = .nil) ∧
      (v.toKey = .error .isNaN ↔ ∃ x, v = .float x ∧ x.isNaN = true)) ∧
    (∀ v w : Value, v.Indexes → w.Indexes → ∃ k l, v.toKey = .ok k ∧ w.toKey = .ok l ∧
      (v.rawEqual w = true ↔ v.normalized.Identical w.normalized) ∧
      (v.rawEqual w = true ↔ k = l)) ∧
    Equivalence (fun v w : {v : Value // v.Indexes} =>
      v.1.normalized.rawEqual w.1.normalized = true) ∧
    (∀ v w : Value, v.Indexes → w.Indexes → v.normalized.rawEqual w.normalized = true →
      ∀ place, v.normalized.hashInput place = w.normalized.hashInput place) ∧
    ∀ (v : Value) (k : Key), v.toKey = .ok k →
      k.hash = HashInput.digest (v.normalized.hashInput .byIndex) := by
  refine ⟨fun v => ⟨toKey_eq_isNil, toKey_eq_isNaN⟩, ?_, ?_, ?_, ?_⟩
  · intro v w hv hw
    obtain ⟨k, hk⟩ := hv.toKey_eq_ok
    obtain ⟨l, hl⟩ := hw.toKey_eq_ok
    have hsame := toKey_eq_iff hk hl
    exact ⟨k, l, hk, hl, by rw [identical_normalized_iff hk hl, hsame], hsame.symm⟩
  · have hkeys : (fun v w : {v : Value // v.Indexes} =>
        v.1.normalized.rawEqual w.1.normalized = true) = fun v w => v.1.toKey = w.1.toKey := by
      funext v w
      exact propext (v.2.rawEqual_normalized_iff w.2)
    rw [hkeys]
    exact eq_equivalence.comap fun v : {v : Value // v.Indexes} => v.1.toKey
  · intro v w hv hw h place
    obtain ⟨k, hk⟩ := hv.toKey_eq_ok
    have hl : w.toKey = .ok k := ((hv.rawEqual_normalized_iff hw).mp h).symm.trans hk
    exact ((identical_normalized_iff hk hl).mpr rfl).hashInput_eq place
  · intro v k hk
    rw [Key.hash, (identical_toValue hk).hashInput_eq]

/-- The negative zero is raw-equal to the integer, and so is a host function to one with the same
code and another name. -/
theorem toKey_canonical_zeros :
    ((Value.float (-0)).Indexes ∧ (Value.int 0).Indexes) ∧
      (Value.float (-0)).normalized.Identical (Value.int 0).normalized ∧
      (Value.host ⟨64, "print"⟩).normalized.Identical (Value.host ⟨64, "write"⟩).normalized := by
  have hfloat : (Value.float (-0)).Indexes := by
    refine ⟨by simp, ?_⟩
    rintro x ⟨⟩
    decide +kernel
  have hint : (Value.int 0).Indexes := ⟨by simp, by simp⟩
  have hhost : ∀ f, (Value.host f).Indexes := fun f => ⟨by simp, by simp⟩
  refine ⟨⟨hfloat, hint⟩, ?_, ?_⟩
  · obtain ⟨k, l, -, -, hiff, -⟩ := toKey_canonical.2.1 _ _ hfloat hint
    exact hiff.mp (by decide +kernel)
  · obtain ⟨k, l, -, -, hiff, -⟩ :=
      toKey_canonical.2.1 _ _ (hhost ⟨64, "print"⟩) (hhost ⟨64, "write"⟩)
    exact hiff.mp (by decide +kernel)

end Value

end LuaMachine
