import Mathlib.Data.Set.Card
import LuaMachine.Proofs.TableMap

/-!
# The two parts of a table

A key is kept in one part only: the array part has the keys from one up to its size, and the hash
part has no value for them, nor for the key that comes next. Entries that have lost their value are
counted exactly, through insertions, erasures, revivals, compactions and moves to the array part. So
the size of the hash part is the number of its keys that have a value.
-/
namespace LuaMachine

namespace Table
variable {t s : Table} {k : Key} {v : Value} {i p fuel : ℕ}

/-! ## Counting dead entries -/

/-- The counter tells how many entries have no value. -/
def Counted (t : Table) : Prop :=
  t.dead = t.entries.countP fun e => e.2.isNil

theorem counted_empty : Counted empty := rfl

theorem Counted.dead_le (h : t.Counted) : t.dead ≤ t.entries.size := by
  rw [h]
  exact Array.countP_le_size

/-- An entry without a value is counted. -/
theorem Counted.dead_pos (h : t.Counted) {e : Key × Value} (he : e ∈ t.entries)
    (hnil : e.2 = .nil) : 0 < t.dead := by
  rw [h, Array.countP_pos_iff]
  exact ⟨e, he, by rw [hnil]; rfl⟩

theorem counted_compact (t : Table) : t.compact.Counted := by
  show 0 = Array.countP _ (t.entries.filter fun e => !e.2.isNil)
  symm
  rw [Array.countP_eq_zero]
  intro e he hnil
  have hlive := (Array.mem_filter.mp he).2
  rw [hnil] at hlive
  cases hlive

/-- The counter follows the value of an entry that changes. -/
theorem countP_modify {entries : Array (Key × Value)} {e : Key × Value} (he : entries[p]? = some e)
    (v : Value) :
    (entries.modify p fun e => (e.1, v)).countP (fun e => e.2.isNil) =
      deadAfter (entries.countP fun e => e.2.isNil) e.2 v := by
  obtain ⟨hp, rfl⟩ := Array.getElem?_eq_some_iff.mp he
  have hset : (entries.modify p fun e => (e.1, v)) = entries.set p (entries[p].1, v) hp := by
    refine Array.ext (by simp) fun q _ _ => ?_
    rw [Array.getElem_modify, Array.getElem_set]
    split_ifs with hq
    · subst hq
      rfl
    · rfl
  rw [hset, Array.countP_set]
  dsimp only
  have hpos : entries[p].2.isNil = true → 0 < entries.countP fun e => e.2.isNil := by
    intro hnil
    exact Array.countP_pos_iff.mpr ⟨entries[p], Array.getElem_mem hp, hnil⟩
  cases hold : entries[p].2.isNil <;> cases hnew : v.isNil <;> simp only [deadAfter] <;> grind

theorem counted_setEntry (hc : t.Counted) (hp : t.positions[k]? = some p) (v : Value) :
    (t.setEntry p v).Counted := by
  obtain ⟨e, he, rfl⟩ := Option.map_eq_some_iff.mp ((t.indexed k p).mp hp)
  show deadAfter t.dead ((t.entries[p]?.map (·.2)).getD .nil) v = _
  rw [setEntry, countP_modify he, he, hc]
  rfl

theorem counted_addEntry (hc : t.Counted) (hk : t.positions[k]? = none) (hv : ¬ v.isNil = true) :
    (t.addEntry k v hk).Counted := by
  show t.dead = (t.entries.push (k, v)).countP _
  rw [hc, Array.countP_push, if_neg hv]
  rfl

theorem counted_hashSet (hc : t.Counted) (k : Key) (v : Value) : (t.hashSet k v).Counted := by
  unfold hashSet
  split
  · next p hp => exact counted_setEntry hc hp v
  · next hp =>
    split_ifs with hnil hsparse
    · exact hc
    · exact counted_addEntry (counted_compact t) _ hnil
    · exact counted_addEntry hc hp hnil

/-! ## The size of the hash part -/

/-- The keys that have a value in the hash part. -/
def liveKeys (t : Table) : Set Key := {k | t.hashGet k ≠ .nil}

/-- The size of the hash part is the number of keys that have a value there. -/
theorem encard_liveKeys (hc : t.Counted) : t.liveKeys.encard = t.hashSize := by
  let live := (t.entries.toList.filter fun e => !e.2.isNil).map Prod.fst
  have hset : t.liveKeys = (live.toFinset : Set Key) := by
    ext k
    simp only [liveKeys, Set.mem_ofPred_eq, List.coe_toFinset, live, List.mem_map, List.mem_filter,
      Array.mem_toList_iff]
    constructor
    · intro hk
      exact ⟨(k, t.hashGet k),
        ⟨(hashGet_eq_iff hk).mp rfl, by simpa [Value.isNil_eq_false_iff] using hk⟩, rfl⟩
    · rintro ⟨⟨k, v⟩, ⟨he, hlive⟩, rfl⟩ hnil
      have hv : v ≠ .nil := by simpa [Value.isNil_eq_false_iff] using hlive
      exact hv (((hashGet_eq_iff hv).mpr he).symm.trans hnil)
  have hnodup : live.Nodup := t.nodup.sublist (List.filter_sublist.map _)
  have hlength : live.length = t.hashSize := by
    have hsize : t.entries.size = _ := Array.size_eq_countP_add_countP (p := fun e => e.2.isNil)
    have hlive : live.length = t.entries.countP fun e => decide ¬e.2.isNil = true := by
      rw [List.length_map, ← List.countP_eq_length_filter, ← Array.countP_toList]
      exact List.countP_congr fun e _ => by simp [Value.isNil_eq_false_iff]
    rw [hlive, hashSize, hc]
    omega
  rw [hset, Set.encard_coe_eq_coe_finsetCard, List.toFinset_card_of_nodup hnodup, hlength]

/-- Erasing a key that has a value makes the hash part smaller by one. -/
theorem hashSize_erase (hc : t.Counted) (hk : t.hashGet k ≠ .nil) :
    (t.hashSet k .nil).hashSize + 1 = t.hashSize := by
  have hset := t.hashSet_updated k .nil
  have hlive : (t.hashSet k .nil).liveKeys = t.liveKeys \ {k} := by
    ext k'
    simp only [liveKeys, Set.mem_ofPred_eq, Set.mem_sdiff, Set.mem_singleton_iff]
    by_cases hk' : k' = k
    · simp [hk', hset.same]
    · simp [hk', hset.other k' (Ne.symm hk')]
  have hcard := Set.encard_sdiff_singleton_add_one (s := t.liveKeys) (a := k) hk
  rw [← hlive, encard_liveKeys (counted_hashSet hc k .nil), encard_liveKeys hc] at hcard
  exact_mod_cast hcard

/-! ## Where a key is kept -/

/-- The counter and the two parts agree with each other. -/
structure Consistent (t : Table) : Prop where
  counted : t.Counted
  apart : ∀ k i, slot? k = some i → i < t.array.size → t.hashGet k = .nil
  size : t.array.size < 2 ^ 63

/-- The key that comes after the array part has no value. -/
def Settled (t : Table) : Prop := ∀ k, slot? k = some t.array.size → t.hashGet k = .nil

theorem slot?_lt (h : slot? k = some i) : i + 1 < 2 ^ 63 := by
  obtain ⟨n, -, hn⟩ := slot?_eq_some.mp h
  have := n.toInt_lt
  omega

theorem consistent_empty : Consistent empty where
  counted := counted_empty
  apart := by simp [empty]
  size := by simp [empty]

theorem settled_empty : Settled empty := by
  intro k _
  simp [hashGet, empty]

/-- Storing a value in the hash part keeps the parts apart, if it is nil or not for a key of the
array part. -/
theorem consistent_hashSet (h : t.Consistent)
    (hk : v = .nil ∨ ∀ i, slot? k = some i → t.array.size ≤ i) : (t.hashSet k v).Consistent := by
  have hset := t.hashSet_updated k v
  refine ⟨counted_hashSet h.counted k v, fun k' i hs hi => ?_, by rw [hset.array]; exact h.size⟩
  rw [hset.array] at hi
  by_cases he : k = k'
  · subst he
    rw [hset.same]
    rcases hk with rfl | hk
    · rfl
    · exact absurd hi (Nat.not_lt.mpr (hk i hs))
  · rw [hset.other k' he, h.apart k' i hs hi]

/-- The key after the array part moves there. -/
theorem consistent_push (h : t.Consistent) (hs : slot? k = some t.array.size) (v : Value) :
    { t.hashSet k .nil with array := (t.hashSet k .nil).array.push v }.Consistent := by
  have hset := t.hashSet_updated k .nil
  have herased :=
    consistent_hashSet h (.inl rfl : Value.nil = .nil ∨ ∀ i, slot? k = some i → t.array.size ≤ i)
  have hlt := slot?_lt hs
  refine ⟨herased.counted, fun k' i hi hle => ?_, ?_⟩
  · rw [Array.size_push, hset.array] at hle
    by_cases hne : i = t.array.size
    · obtain rfl : k = k' := slot?_inj hs (hne ▸ hi)
      exact hset.same
    · exact herased.apart k' i hi (by rw [hset.array]; omega)
  · rw [Array.size_push, hset.array]
    omega

theorem size_le_push (t : Table) (k : Key) (v : Value) :
    t.array.size ≤ ((t.hashSet k .nil).array.push v).size := by
  rw [Array.size_push, (t.hashSet_updated k .nil).array]
  exact Nat.le_succ _

theorem slot?_eq_size_iff (t : Table) (k : Key) :
    slot? k = some t.array.size ↔ t.nextKey? = some k := by
  refine ⟨fun hs => ?_, slot?_of_nextKey?⟩
  have hlt : t.array.size + 1 < Nat.pow 2 63 := slot?_lt hs
  have hnext : t.nextKey? = some (.int (Int64.ofNat (t.array.size + 1))) := if_pos hlt
  rw [hnext, slot?_inj hs (slot?_of_nextKey? hnext)]

/-- Moving keys over keeps everything in order and goes on until the next key has no value. Each key
that is moved leaves one less in the hash part, so that there are rounds enough. -/
theorem migrate_settles (h : t.Consistent) (hfuel : t.hashSize ≤ fuel) :
    (t.migrate fuel).Consistent ∧ (t.migrate fuel).Settled ∧
      t.array.size ≤ (t.migrate fuel).array.size := by
  induction fuel generalizing t with
  | zero =>
    refine ⟨h, fun k _ => ?_, Nat.le_refl _⟩
    by_contra hk
    have := hashSize_erase h.counted hk
    omega
  | succ fuel ih =>
    unfold migrate
    cases hnext : t.nextKey? with
    | none =>
      refine ⟨h, fun k hs => ?_, Nat.le_refl _⟩
      rw [slot?_eq_size_iff, hnext] at hs
      cases hs
    | some next =>
      dsimp only
      split_ifs with hnil
      · refine ⟨h, fun k hs => ?_, Nat.le_refl _⟩
        rw [slot?_eq_size_iff, hnext] at hs
        cases hs
        exact Value.isNil_iff.mp hnil
      · have hslot := slot?_of_nextKey? hnext
        have hlive : t.hashGet next ≠ .nil := mt Value.isNil_iff.mpr hnil
        have hsize := hashSize_erase h.counted hlive
        obtain ⟨hconsistent, hsettled, hle⟩ := ih (consistent_push h hslot (t.hashGet next))
          (show (t.hashSet next .nil).hashSize ≤ fuel by omega)
        exact ⟨hconsistent, hsettled, (t.size_le_push next _).trans hle⟩

/-- A key of the hash part stays there, so that the array part and the key after it are as
before. -/
theorem hashSet_settles (h : t.Consistent) (hsettled : t.Settled)
    (hk : ∀ i, slot? k = some i → t.array.size ≤ i ∧ (i = t.array.size → v = .nil)) :
    (t.hashSet k v).Consistent ∧ (t.hashSet k v).Settled ∧
      t.array.size ≤ (t.hashSet k v).array.size := by
  have hset := t.hashSet_updated k v
  refine ⟨consistent_hashSet h (.inr fun i hi => (hk i hi).1), fun k' hs => ?_, by rw [hset.array]⟩
  rw [hset.array] at hs
  by_cases he : k = k'
  · subst he
    rw [hset.same]
    exact (hk _ hs).2 rfl
  · rw [hset.other k' he, hsettled k' hs]

/-- A store keeps the parts in order, and the array part does not shrink. -/
theorem set_settles (h : t.Consistent) (hsettled : t.Settled) (k : Key) (v : Value) :
    (t.set k v).Consistent ∧ (t.set k v).Settled ∧ t.array.size ≤ (t.set k v).array.size := by
  unfold set
  cases hs : slot? k with
  | none => exact hashSet_settles h hsettled (by simp [hs])
  | some i =>
    dsimp only
    split_ifs with hlt hnext
    · have hsize : (t.array.setIfInBounds i v).size = t.array.size := Array.size_setIfInBounds
      refine ⟨⟨h.counted, fun k' j hj hle => ?_, ?_⟩, fun k' hk' => ?_, ?_⟩
      · exact h.apart k' j hj (by rwa [hsize] at hle)
      · rw [hsize]
        exact h.size
      · exact hsettled k' (by rwa [hsize] at hk')
      · rw [hsize]
    · obtain ⟨rfl, -⟩ := hnext
      obtain ⟨hconsistent, hsettled', hle⟩ := migrate_settles (consistent_push h hs v)
        (show (t.hashSet k .nil).hashSize ≤ (t.hashSet k .nil).entries.size from Nat.sub_le _ _)
      exact ⟨hconsistent, hsettled', (t.size_le_push k v).trans hle⟩
    · refine hashSet_settles h hsettled fun j hj => ?_
      rw [hs] at hj
      cases hj
      refine ⟨Nat.le_of_not_lt hlt, fun he => ?_⟩
      by_contra hv
      exact hnext ⟨he, by simpa [Value.isNil_eq_false_iff] using hv⟩

/-- After any sequence of stores the parts are in order. -/
theorem foldl_set_settles (stores : List Store) :
    (stores.foldl (fun t s => t.set s.key s.value) empty).Consistent ∧
      (stores.foldl (fun t s => t.set s.key s.value) empty).Settled := by
  induction stores using List.reverseRecOn with
  | nil => exact ⟨consistent_empty, settled_empty⟩
  | append_singleton rest s ih =>
    rw [List.foldl_append]
    obtain ⟨hconsistent, hsettled, -⟩ := set_settles ih.1 ih.2 s.key s.value
    exact ⟨hconsistent, hsettled⟩

/-- A key has the value that was stored last under it. -/
theorem get_foldl_set (stores : List Store) (k : Key) :
    (stores.foldl (fun t s => t.set s.key s.value) empty).get k =
      stores.foldl (fun v s => if s.key = k then s.value else v) .nil := by
  induction stores using List.reverseRecOn with
  | nil => exact get_empty k
  | append_singleton rest s ih =>
    rw [List.foldl_append, List.foldl_append, ← ih]
    exact get_set _ s.key s.value k

/-- The key belongs to the array part: it is an integer from one up to the size of that part. -/
def Lists (t : Table) (k : Key) : Prop :=
  ∃ n : Int64, k = .int n ∧ 1 ≤ n.toInt ∧ n.toInt ≤ t.array.size

theorem lists_iff (t : Table) (k : Key) : t.Lists k ↔ ∃ i, slot? k = some i ∧ i < t.array.size := by
  constructor
  · rintro ⟨n, rfl, hpos, hle⟩
    exact ⟨(n.toInt - 1).toNat, slot?_eq_some.mpr ⟨n, rfl, by omega⟩, by omega⟩
  · rintro ⟨i, hs, hlt⟩
    obtain ⟨n, rfl, hn⟩ := slot?_eq_some.mp hs
    exact ⟨n, rfl, by omega, by omega⟩

theorem get_of_not_lists (h : ¬ t.Lists k) : t.get k = t.hashGet k := by
  refine get_of_hash fun i hi => Nat.le_of_not_lt fun hlt => ?_
  exact h ((lists_iff t k).mpr ⟨i, hi, hlt⟩)

/-- The keys with a value outside of the array part are those of the hash part. -/
theorem Consistent.liveKeys_eq (h : t.Consistent) :
    t.liveKeys = {k | t.get k ≠ .nil ∧ ¬ t.Lists k} := by
  ext k
  simp only [liveKeys, Set.mem_ofPred_eq]
  constructor
  · intro hk
    have hout : ¬ t.Lists k := by
      rw [lists_iff]
      rintro ⟨i, hs, hlt⟩
      exact hk (h.apart k i hs hlt)
    exact ⟨by rwa [get_of_not_lists hout], hout⟩
  · rintro ⟨hk, hout⟩
    rwa [get_of_not_lists hout] at hk

theorem Settled.get_eq_nil (h : t.Settled) (hs : slot? k = some t.array.size) : t.get k = .nil := by
  rw [get_of_hash fun i hi => ?_, h k hs]
  rw [hs] at hi
  cases hi
  exact Nat.le_refl _

end Table

namespace Heap
variable {h h' : Heap} {r : TableRef} {listed keyed : ℕ}

/-- The parts of a table never overlap and their sizes are exact. The hash part counts the keys that
have a value and do not belong to the array part. The key after the array part has no value, and
that part never shrinks. The index finds the entry of each key, no key has two, and the counter of
dead entries is right, so that it is never taken below zero. -/
theorem storeAll_parts_exact (hnew : h.newTableOfSize listed keyed = .ok (r, h'))
    (stores : List Store) :
    let t := ((h'.storeAll r stores).tableAt r).content
    {k | t.get k ≠ .nil ∧ ¬ t.Lists k}.encard = t.hashSize ∧
    (∀ k, t.Lists k → t.hashGet k = .nil) ∧
    (∀ n : Int64, n.toInt = t.array.size + 1 → t.get (.int n) = .nil) ∧
    (∀ s, t.array.size ≤ ((h'.storeAll r (stores ++ [s])).tableAt r).content.array.size) ∧
    (∀ (k : Key) (p : ℕ), t.positions[k]? = some p → ∃ v, t.entries[p]? = some (k, v)) ∧
    (t.entries.toList.map Prod.fst).Nodup ∧
    t.dead = t.entries.countP (fun e => e.2.isNil) ∧
    (∀ e ∈ t.entries, e.2 = .nil → 0 < t.dead) ∧
    t.dead ≤ t.entries.size := by
  obtain ⟨hconsistent, hsettled⟩ := Table.foldl_set_settles stores
  simp only [content_storeAll hnew, List.foldl_append]
  refine ⟨?_, fun k hk => ?_, fun n hn => ?_, fun s => ?_, fun k p hp => ?_,
    Table.nodup _, hconsistent.counted, fun e => hconsistent.counted.dead_pos,
    hconsistent.counted.dead_le⟩
  · rw [← hconsistent.liveKeys_eq]
    exact Table.encard_liveKeys hconsistent.counted
  · obtain ⟨i, hs, hlt⟩ := (Table.lists_iff _ k).mp hk
    exact hconsistent.apart k i hs hlt
  · exact hsettled.get_eq_nil (Table.slot?_eq_some.mpr ⟨n, rfl, hn⟩)
  · exact (Table.set_settles hconsistent hsettled s.key s.value).2.2
  · obtain ⟨⟨k', v⟩, he, rfl⟩ := Option.map_eq_some_iff.mp ((Table.indexed _ k p).mp hp)
    exact ⟨v, he⟩

/-- The key 3 was stored before the others, and all keys have moved to the array part in the end. -/
theorem storeAll_parts_exact_regrown :
    ∃ h', newTableOfSize {} 4 2 = .ok (⟨0⟩, h') ∧
      3 ≤ ((h'.storeAll ⟨0⟩ regrown).tableAt ⟨0⟩).content.array.size ∧
      ((h'.storeAll ⟨0⟩ regrown).tableAt ⟨0⟩).content.hashSize = 0 := by
  have hnew : newTableOfSize {} 4 2 = .ok (⟨0⟩, (newTable {}).2) := rfl
  obtain ⟨hcount, -, hnext, -⟩ := storeAll_parts_exact hnew regrown
  refine ⟨_, hnew, ?_⟩
  have hget := Table.get_foldl_set regrown
  rw [← content_storeAll hnew] at hget
  generalize (((newTable {}).2.storeAll ⟨0⟩ regrown).tableAt ⟨0⟩).content = t at hcount hnext hget ⊢
  have hsize : 3 ≤ t.array.size := by
    by_contra hlt
    obtain he | he | he : t.array.size = 0 ∨ t.array.size = 1 ∨ t.array.size = 2 := by omega
    · have hnil := (hget (.int 1)).symm.trans (hnext 1 (by rw [he]; rfl))
      simp [regrown, Value.ofText] at hnil
    · have hnil := (hget (.int 2)).symm.trans (hnext 2 (by rw [he]; rfl))
      simp [regrown, Value.ofText] at hnil
    · have hnil := (hget (.int 3)).symm.trans (hnext 3 (by rw [he]; rfl))
      simp [regrown, Value.ofText] at hnil
  have hlists : ∀ n : Int64, 1 ≤ n.toInt → n.toInt ≤ 3 → t.Lists (.int n) :=
    fun n hpos hle => ⟨n, rfl, hpos, by omega⟩
  have hnone : {k | t.get k ≠ .nil ∧ ¬ t.Lists k} = ∅ := by
    rw [Set.eq_empty_iff_forall_notMem]
    rintro k ⟨hk, hout⟩
    rw [hget] at hk
    simp only [regrown, List.foldl_cons, List.foldl_nil] at hk
    split_ifs at hk with hthree htwo hone
    · exact hout (hthree ▸ hlists 3 (by decide) (by decide))
    · exact hout (htwo ▸ hlists 2 (by decide) (by decide))
    · exact hout (hone ▸ hlists 1 (by decide) (by decide))
    · exact hk rfl
  rw [hnone, Set.encard_empty] at hcount
  exact ⟨hsize, by exact_mod_cast hcount.symm⟩

end Heap

end LuaMachine
