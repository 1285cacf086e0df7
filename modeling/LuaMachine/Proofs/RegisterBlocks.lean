import LuaMachine.Proofs.Admission

/-!
# Blocks of registers

Arguments, results and handlers travel through the stack as blocks of neighbouring slots. `Holds`
says that a block stands somewhere, and `Puts` that a block was stored and every other slot kept its
value. Each of the loops that move blocks stores one. They never read a slot that they have already
overwritten, so that overlapping blocks arrive whole.
-/
namespace LuaMachine

namespace Value

/-- A list of values brought to a length: missing ones are nil and further ones dropped. -/
def adjusted (wanted : Nat) (values : List Value) : List Value :=
  values.take wanted ++ .replicate (wanted - values.length) .nil

@[simp] theorem length_adjusted (wanted : Nat) (values : List Value) :
    (adjusted wanted values).length = wanted := by
  simp only [adjusted, List.length_append, List.length_take, List.length_replicate]
  omega

end Value

namespace RegisterStack
variable {s t u : RegisterStack} {start source target count slot top : Nat} {v : Value}
  {values more : List Value}

/-- The values stand in the slots from `start` on. -/
def Holds (s : RegisterStack) (start : Nat) (values : List Value) : Prop :=
  ∀ i, i < values.length → s.slots[start + i]? = values[i]?

instance instDecidableHolds (s : RegisterStack) (start : Nat) (values : List Value) :
    Decidable (s.Holds start values) :=
  inferInstanceAs (Decidable (∀ i, i < values.length → s.slots[start + i]? = values[i]?))

/-- The stack `t` is the stack `s` with values in the slots from `start` on. -/
structure Puts (s : RegisterStack) (start : Nat) (values : List Value) (t : RegisterStack) :
    Prop where
  limit : t.limit = s.limit
  size : t.size = s.size
  holds : t.Holds start values
  kept : ∀ slot, slot < start ∨ start + values.length ≤ slot → t.slots[slot]? = s.slots[slot]?

/-! ## Blocks that stand somewhere -/

theorem holds_nil : s.Holds start [] := fun _ hi => absurd hi (Nat.not_lt_zero _)

theorem holds_cons :
    s.Holds start (v :: values) ↔ s.slots[start]? = some v ∧ s.Holds (start + 1) values := by
  constructor
  · intro h
    refine ⟨h 0 (Nat.zero_lt_succ _), fun i hi => ?_⟩
    rw [Nat.add_right_comm]
    exact h (i + 1) (Nat.succ_lt_succ hi)
  · rintro ⟨hv, h⟩ i hi
    cases i with
    | zero => exact hv
    | succ i =>
      rw [← Nat.add_assoc, Nat.add_right_comm]
      exact h i (Nat.lt_of_succ_lt_succ hi)

theorem holds_append :
    s.Holds start (values ++ more) ↔
      s.Holds start values ∧ s.Holds (start + values.length) more := by
  induction values generalizing start with
  | nil => simp [holds_nil]
  | cons v values ih =>
    rw [List.cons_append, holds_cons, holds_cons, ih, and_assoc, List.length_cons, Nat.add_assoc,
      Nat.add_comm 1]

/-- A block stands in slots that exist. -/
theorem Holds.room (h : s.Holds start values) (hne : values ≠ []) :
    start + values.length ≤ s.size := by
  have hlast := h (values.length - 1) (Nat.sub_lt (List.length_pos_iff.mpr hne) Nat.one_pos)
  rw [List.getElem?_eq_getElem (Nat.sub_lt (List.length_pos_iff.mpr hne) Nat.one_pos)] at hlast
  have hlt := (Array.getElem?_eq_some_iff.mp hlast).1
  simp only [size]
  omega

/-- Slots that exist hold some block. -/
theorem exists_holds (h : start + count ≤ s.size) :
    ∃ values, values.length = count ∧ s.Holds start values := by
  induction count generalizing start with
  | zero => exact ⟨[], rfl, holds_nil⟩
  | succ count ih =>
    obtain ⟨values, hlength, hvalues⟩ := ih (show start + 1 + count ≤ s.size by omega)
    have hlt : start < s.slots.size := by
      simp only [size] at h
      omega
    exact ⟨s.slots[start] :: values, by rw [List.length_cons, hlength],
      holds_cons.mpr ⟨Array.getElem?_eq_getElem hlt, hvalues⟩⟩

/-- Only the slots of a block count. -/
theorem Holds.congr (h : s.Holds start values)
    (hs : ∀ slot, start ≤ slot → slot < start + values.length → t.slots[slot]? = s.slots[slot]?) :
    t.Holds start values :=
  fun i hi => (hs (start + i) (by omega) (by omega)).trans (h i hi)

theorem Holds.take (h : s.Holds start values) (count : Nat) :
    s.Holds start (values.take count) := by
  rw [← List.take_append_drop count values] at h
  exact (holds_append.mp h).1

/-- The block of a range of slots is what a slice of the stack yields. -/
theorem slice_eq_ok_iff : s.slice start top = .ok values ↔
    start + values.length = top ∧ top ≤ s.size ∧ s.Holds start values := by
  unfold slice
  constructor
  · intro h
    split_ifs at h with hrange
    cases h
    have hlength : (s.slots.extract start top).toList.length = top - start := by
      have := hrange.2
      simp only [size] at this
      simp
      omega
    refine ⟨by omega, hrange.2, fun i hi => ?_⟩
    rw [hlength] at hi
    rw [Array.getElem?_toList, Array.getElem?_extract, if_pos]
    have := hrange.2
    simp only [size] at this
    omega
  · rintro ⟨hlength, htop, h⟩
    rw [if_pos ⟨by omega, htop⟩]
    refine congrArg Except.ok (List.ext_getElem? fun i => ?_)
    rw [Array.getElem?_toList, Array.getElem?_extract]
    split_ifs with hi
    · exact h i (by omega)
    · simp only [size] at htop
      rw [List.getElem?_eq_none (by omega)]

/-! ## Storing blocks -/

theorem Puts.refl (s : RegisterStack) (start : Nat) : s.Puts start [] s :=
  ⟨rfl, rfl, holds_nil, fun _ _ => rfl⟩

/-- A block is stored from its first slot on. -/
theorem Puts.cons (hroom : start < s.size)
    (h : (s.setIfInBounds start v).Puts (start + 1) values t) : s.Puts start (v :: values) t := by
  refine ⟨h.limit, h.size.trans (s.size_setIfInBounds start v), holds_cons.mpr ⟨?_, h.holds⟩,
    fun slot hslot => ?_⟩
  · rw [h.kept start (.inl (Nat.lt_succ_self start))]
    exact Array.getElem?_setIfInBounds_self_of_lt hroom
  · rw [List.length_cons] at hslot
    rw [h.kept slot (by omega)]
    exact Array.getElem?_setIfInBounds_ne (by omega)

/-- A block that follows another one extends it. -/
theorem Puts.append (h : s.Puts start values t) (h' : t.Puts (start + values.length) more u) :
    s.Puts start (values ++ more) u := by
  refine ⟨h'.limit.trans h.limit, h'.size.trans h.size, holds_append.mpr ⟨?_, h'.holds⟩,
    fun slot hslot => ?_⟩
  · exact h.holds.congr fun slot _ hlt => h'.kept slot (.inl hlt)
  · rw [List.length_append] at hslot
    rw [h'.kept slot (by omega), h.kept slot (by omega)]

/-- A block that stands elsewhere is left alone. -/
theorem Puts.holds_of_disjoint (h : s.Puts start values t) (hs : s.Holds slot more)
    (hdisjoint : slot + more.length ≤ start ∨ start + values.length ≤ slot) : t.Holds slot more :=
  hs.congr fun other _ _ => h.kept other (by omega)

theorem set_puts (h : slot < s.size) (v : Value) : ∃ t, s.set slot v = .ok t ∧ s.Puts slot [v] t :=
  ⟨s.setIfInBounds slot v, set_eq_ok_iff.mpr ⟨h, rfl⟩, .cons h (.refl _ _)⟩

/-- A block that is copied arrives whole. It may overlap its old place if it goes down, and else has
to lie above it. -/
theorem copyDown_puts (h : s.Holds source values) (hroom : target + values.length ≤ s.size)
    (hplace : target ≤ source ∨ source + values.length ≤ target) :
    ∃ t, s.copyDown source target values.length = .ok t ∧ s.Puts target values t := by
  induction values generalizing s source target with
  | nil => exact ⟨s, rfl, .refl _ _⟩
  | cons v values ih =>
    rw [List.length_cons] at hroom hplace
    obtain ⟨hv, hrest⟩ := holds_cons.mp h
    have htarget : target < s.size := by omega
    have hset : s.set target v = .ok (s.setIfInBounds target v) := set_eq_ok_iff.mpr ⟨htarget, rfl⟩
    -- The first value is stored outside of what is still to be read.
    have hkept : (s.setIfInBounds target v).Holds (source + 1) values :=
      hrest.congr fun slot hle hlt => Array.getElem?_setIfInBounds_ne (by omega)
    obtain ⟨t, hcopy, hputs⟩ := ih hkept
      (show target + 1 + values.length ≤ _ by rw [size_setIfInBounds]; omega) (by omega)
    refine ⟨t, ?_, .cons htarget hputs⟩
    rw [List.length_cons]
    unfold copyDown
    simp only [get_eq_ok_iff.mpr hv, hset]
    exact hcopy

theorem fillNil_puts (hroom : start + count ≤ s.size) :
    ∃ t, s.fillNil start count = .ok t ∧ s.Puts start (.replicate count .nil) t := by
  induction count generalizing s start with
  | zero => exact ⟨s, rfl, .refl _ _⟩
  | succ count ih =>
    have hstart : start < s.size := by omega
    have hset : s.set start .nil = .ok (s.setIfInBounds start .nil) :=
      set_eq_ok_iff.mpr ⟨hstart, rfl⟩
    obtain ⟨t, hfill, hputs⟩ := ih
      (show start + 1 + count ≤ (s.setIfInBounds start .nil).size by rw [size_setIfInBounds]; omega)
    refine ⟨t, ?_, .cons hstart hputs⟩
    unfold fillNil
    simp only [hset]
    exact hfill

/-- Copying as many values as there are and filling up with nil stores the adjusted list. -/
theorem copy_fill_puts {wanted : Nat} (h : s.Holds source values) (hroom : target + wanted ≤ s.size)
    (hplace : target ≤ source ∨ source + values.length ≤ target) :
    ∃ t u, s.copyDown source target (min wanted values.length) = .ok t ∧
      t.fillNil (target + min wanted values.length) (wanted - min wanted values.length) = .ok u ∧
      s.Puts target (Value.adjusted wanted values) u := by
  have hlength : (values.take wanted).length = min wanted values.length := List.length_take
  obtain ⟨t, hcopy, ht⟩ := copyDown_puts (h.take wanted)
    (show target + (values.take wanted).length ≤ s.size by omega) (by omega)
  rw [hlength] at hcopy
  obtain ⟨u, hfill, hu⟩ := fillNil_puts
    (show target + min wanted values.length + (wanted - min wanted values.length) ≤
      t.size by rw [ht.size]; omega)
  refine ⟨t, u, hcopy, hfill, ?_⟩
  rw [← hlength] at hu
  have happend := ht.append hu
  rwa [hlength, show wanted - min wanted values.length = wanted - values.length by omega] at happend

/-- A value that is taken out of a slot and stored in another one changes no third slot. -/
theorem take_set_eq_ok (hv : s.slots[source]? = some v) (htarget : target < s.size) :
    ∃ taken moved, s.take source = .ok (v, taken) ∧ taken.set target v = .ok moved ∧
      moved.limit = s.limit ∧ moved.size = s.size ∧ moved.slots[target]? = some v ∧
      ∀ other, other ≠ source → other ≠ target → moved.slots[other]? = s.slots[other]? := by
  have hsource : source < s.size := (Array.getElem?_eq_some_iff.mp hv).1
  have hset : s.set source .nil = .ok (s.setIfInBounds source .nil) :=
    set_eq_ok_iff.mpr ⟨hsource, rfl⟩
  have htaken : target < (s.setIfInBounds source .nil).size := by rwa [size_setIfInBounds]
  refine ⟨s.setIfInBounds source .nil, _, ?_, set_eq_ok_iff.mpr ⟨htaken, rfl⟩, rfl, ?_, ?_,
    fun other hne hne' => ?_⟩
  · simp only [take, get_eq_ok_iff.mpr hv, hset]
  · rw [size_setIfInBounds, size_setIfInBounds]
  · exact Array.getElem?_setIfInBounds_self_of_lt htaken
  · exact (Array.getElem?_setIfInBounds_ne hne'.symm).trans
      (Array.getElem?_setIfInBounds_ne hne.symm)

/-- What stands from `slot` up to `top` is moved up by one, the highest value first. -/
theorem shiftUp_puts (h : s.Holds slot values) (htop : slot + values.length = top)
    (hroom : top < s.size) :
    ∃ t left, s.shiftUp top values.length = .ok t ∧ s.Puts slot (left :: values) t := by
  induction values using List.reverseRecOn generalizing s top with
  | nil =>
    obtain ⟨left, hleft⟩ : ∃ left, s.slots[slot]? = some left :=
      ⟨_, Array.getElem?_eq_getElem (show slot < s.slots.size by simp only [size] at hroom; omega)⟩
    exact ⟨s, left, rfl, rfl, rfl, holds_cons.mpr ⟨hleft, holds_nil⟩, fun _ _ => rfl⟩
  | append_singleton values v ih =>
    rw [List.length_append, List.length_singleton] at htop
    obtain ⟨hvalues, hv⟩ := holds_append.mp h
    have hlast : s.slots[top - 1]? = some v := by
      rw [show top - 1 = slot + values.length by omega]
      exact (holds_cons.mp hv).1
    obtain ⟨taken, moved, htake, hset, hlimit, hsize, hmoved, hkept⟩ := take_set_eq_ok hlast hroom
    have hrest : moved.Holds slot values := hvalues.congr fun other _ hlt =>
      hkept other (by omega) (by omega)
    obtain ⟨t, left, hshift, hputs⟩ :=
      ih hrest (show slot + values.length = top - 1 by omega) (by omega)
    have hlength := hputs.kept
    rw [List.length_cons] at hlength
    refine ⟨t, left, ?_, hputs.limit.trans hlimit, hputs.size.trans hsize, ?_,
      fun other hother => ?_⟩
    · rw [List.length_append, List.length_singleton]
      unfold shiftUp
      simp only [htake, hset]
      exact hshift
    · refine holds_append.mpr ⟨hputs.holds, holds_cons.mpr ⟨?_, holds_nil⟩⟩
      rw [List.length_cons, show slot + (values.length + 1) = top by omega, hlength top (by omega)]
      exact hmoved
    · rw [List.length_cons, List.length_append, List.length_singleton] at hother
      rw [hlength other (by omega), hkept other (by omega) (by omega)]

/-- A value is put before a block, which moves up for it. -/
theorem insert_puts (h : s.Holds slot values) (htop : slot + values.length = top)
    (hroom : top < s.size) (v : Value) :
    ∃ t, s.insert slot top v = .ok t ∧ s.Puts slot (v :: values) t := by
  obtain ⟨shifted, left, hshift, hputs⟩ := shiftUp_puts h htop hroom
  obtain ⟨t, hset, ht⟩ := set_puts (show slot < shifted.size by rw [hputs.size]; omega) v
  have hrest := (holds_cons.mp hputs.holds).2
  have hkept := hputs.kept
  rw [List.length_cons] at hkept
  refine ⟨t, ?_, ht.limit.trans hputs.limit, ht.size.trans hputs.size, holds_cons.mpr ⟨?_, ?_⟩,
    fun other hother => ?_⟩
  · unfold insert
    rw [show top - slot = values.length by omega, hshift]
    exact hset
  · exact (holds_cons.mp ht.holds).1
  · exact ht.holds_of_disjoint hrest (.inr (Nat.le_refl _))
  · rw [List.length_cons] at hother
    rw [ht.kept other (by rw [List.length_singleton]; omega), hkept other hother]

/-! ## Room for blocks -/

/-- The stack has `wanted` slots or may grow to that size: neither its limit nor the storage it
needs is in the way. -/
structure Grants (s : RegisterStack) (wanted : Nat) : Prop where
  word : wanted < wordLimit
  limit : wanted ≤ s.limit
  storage : s.size < wanted → s.grownSize wanted * Value.bytes < storageLimit

instance instDecidableGrants (s : RegisterStack) (wanted : Nat) : Decidable (s.Grants wanted) :=
  decidable_of_iff
    (wanted < wordLimit ∧ wanted ≤ s.limit ∧
      (s.size < wanted → s.grownSize wanted * Value.bytes < storageLimit))
    ⟨fun h => ⟨h.1, h.2.1, h.2.2⟩, fun h => ⟨h.word, h.limit, h.storage⟩⟩

/-- Growth changes no slot, if those that do not exist read as nil. -/
theorem Grown.getD (hg : Grown s t) (slot : Nat) :
    t.slots[slot]?.getD .nil = s.slots[slot]?.getD .nil := by
  by_cases hlt : slot < s.size
  · rw [hg.kept slot hlt]
  · rw [Array.getElem?_eq_none (Nat.le_of_not_lt hlt), Option.getD_none]
    by_cases hnew : slot < t.size
    · rw [hg.filled slot (Nat.le_of_not_lt hlt) hnew, Option.getD_some]
    · rw [Array.getElem?_eq_none (Nat.le_of_not_lt hnew), Option.getD_none]

theorem Grown.holds (hg : Grown s t) (h : s.Holds start values) : t.Holds start values := by
  intro i hi
  have hroom := h.room (List.ne_nil_of_length_pos (Nat.zero_lt_of_lt hi))
  exact (hg.kept (start + i) (by omega)).trans (h i hi)

end RegisterStack

namespace Exec

/-- A stack that grants the room grows to hold it. -/
theorem ensure_of_grants {wanted : Nat} {vm : Vm} (h : vm.stack.Grants wanted) :
    ∃ s, ensure wanted vm = .returned () { vm with stack := s } ∧ vm.stack.Grown s ∧
      wanted ≤ s.size := by
  unfold ensure
  dsimp only
  split_ifs with hsize
  · exact ⟨vm.stack, rfl, .refl _, hsize⟩
  · have hreserve : Checked.reserve (vm.stack.grownSize wanted) Value.bytes = .ok () :=
      if_pos (h.storage (Nat.lt_of_not_le hsize))
    have hlimit := h.limit
    refine ⟨vm.stack.grow wanted, ?_, vm.stack.grown_grow wanted, vm.stack.le_size_grow hlimit⟩
    unfold RegisterStack.ensure?
    rw [if_neg hsize, if_neg (Nat.not_lt.mpr hlimit), hreserve]

end Exec

end LuaMachine
