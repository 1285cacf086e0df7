import Mathlib.Tactic
import LuaMachine.Heap
import LuaMachine.Proofs.CanonicalKeys

/-!
# A table is a finite map

The index of the hash part finds every entry, whatever was inserted, erased and compacted before. So
storing a value under a key is an update of that key alone, in whichever part the key lives, and
moving keys over to the array part changes no look-up. A table therefore maps a value to what was
last stored under a raw-equal one.
-/
namespace LuaMachine

@[simp] theorem Value.isNil_iff {v : Value} : v.isNil = true ↔ v = .nil := by
  cases v <;> simp [isNil]

theorem Value.isNil_eq_false_iff {v : Value} : v.isNil = false ↔ v ≠ .nil := by
  rw [← Bool.not_eq_true, isNil_iff]

namespace Table
variable {t : Table} {k k' : Key} {v v' : Value} {p i : ℕ}

/-! ## The hash part -/

theorem hashGet_of_entry (he : t.entries[p]? = some (k, v)) : t.hashGet k = v := by
  have hp : t.positions[k]? = some p := (t.indexed k p).mpr (by rw [he]; rfl)
  simp [hashGet, hp, he]

/-- A key of the hash part has the value of its entry. -/
theorem hashGet_eq_iff (hv : v ≠ .nil) : t.hashGet k = v ↔ (k, v) ∈ t.entries := by
  constructor
  · intro hg
    unfold hashGet at hg
    cases hp : t.positions[k]? with
    | none => simp [hp, hv.symm] at hg
    | some p =>
      obtain ⟨⟨k', w⟩, he, rfl⟩ := Option.map_eq_some_iff.mp ((t.indexed k p).mp hp)
      obtain rfl : w = v := by simpa [hp, he] using hg
      exact Array.mem_of_getElem? he
  · intro hm
    obtain ⟨p, hp⟩ := Array.mem_iff_getElem?.mp hm
    exact hashGet_of_entry hp

/-- Look-ups depend on the entries with a value only. -/
theorem hashGet_congr {t' : Table}
    (he : ∀ v, v ≠ .nil → ((k, v) ∈ t'.entries ↔ (k, v) ∈ t.entries)) :
    t'.hashGet k = t.hashGet k := by
  by_cases hv : t'.hashGet k = .nil
  · by_contra hne
    have hw : t.hashGet k ≠ .nil := fun hw => hne (hv.trans hw.symm)
    have hmem := (he _ hw).mpr ((hashGet_eq_iff hw).mp rfl)
    exact hne ((hashGet_eq_iff hw).mpr hmem)
  · exact ((hashGet_eq_iff hv).mpr ((he _ hv).mp ((hashGet_eq_iff hv).mp rfl))).symm

theorem hashGet_compact (t : Table) (k : Key) : t.compact.hashGet k = t.hashGet k := by
  refine hashGet_congr fun v hv => ?_
  simp only [compact, Array.mem_filter, Bool.not_eq_eq_eq_not, Bool.not_true]
  refine ⟨fun hm => hm.1, fun hm => ⟨hm, ?_⟩⟩
  cases v <;> first | exact absurd rfl hv | rfl

/-- One key of the hash part has the value `v`, and the rest of the table is as it was. -/
structure Updated (t : Table) (k : Key) (v : Value) (s : Table) : Prop where
  array : s.array = t.array
  same : s.hashGet k = v
  other : ∀ k', k ≠ k' → s.hashGet k' = t.hashGet k'

/-- The entry of a key takes a value in its place. -/
theorem setEntry_updated (hp : t.positions[k]? = some p) (v : Value) :
    Updated t k v (t.setEntry p v) := by
  have hentry : ∀ q : ℕ, (t.setEntry p v).entries[q]? =
      if p = q then t.entries[q]?.map fun e => (e.1, v) else t.entries[q]? := by
    intro q
    rw [setEntry, Array.getElem?_modify]
  obtain ⟨e, hpe, rfl⟩ := Option.map_eq_some_iff.mp ((t.indexed k p).mp hp)
  have hsame : (t.setEntry p v).entries[p]? = some (e.1, v) := by simp [hentry, hpe]
  refine ⟨rfl, hashGet_of_entry hsame, fun k' hk => hashGet_congr fun w _ => ?_⟩
  -- The changed entry has another key, so it is not the one in question before or after.
  have hne : ∀ {q : ℕ} {e' : Key × Value}, t.entries[q]? = some e' → e'.1 = k' → p ≠ q := by
    rintro q e' hq rfl rfl
    exact hk (congrArg Prod.fst (Option.some.inj (hpe.symm.trans hq)))
  simp only [Array.mem_iff_getElem?]
  refine exists_congr fun q => ?_
  rw [hentry]
  split_ifs with hq
  · constructor
    · intro hm
      obtain ⟨e', he', heq⟩ := Option.map_eq_some_iff.mp hm
      exact absurd hq (hne he' (congrArg Prod.fst heq))
    · exact fun hm => absurd hq (hne hm rfl)
  · rfl

/-- A key without an entry gets one at the end. -/
theorem addEntry_updated (hk : t.positions[k]? = none) (v : Value) :
    Updated t k v (t.addEntry k v hk) := by
  have hsame : (t.addEntry k v hk).entries[t.entries.size]? = some (k, v) := by simp [addEntry]
  refine ⟨rfl, hashGet_of_entry hsame, fun k' hk' => hashGet_congr fun w _ => ?_⟩
  simp [addEntry, hk'.symm]

theorem Updated.of_compact {s : Table} (hs : Updated t.compact k v s) : Updated t k v s :=
  { hs with other := fun k' hk => (hs.other k' hk).trans (t.hashGet_compact k') }

/-- Storing a value in the hash part updates its key and no other. -/
theorem hashSet_updated (t : Table) (k : Key) (v : Value) : Updated t k v (t.hashSet k v) := by
  unfold hashSet
  split
  · next p hp => exact setEntry_updated hp v
  · next hp =>
    have hnone : t.hashGet k = .nil := by simp [hashGet, hp]
    split_ifs with hnil hsparse
    · obtain rfl : v = .nil := by
        cases v <;> first | rfl | cases hnil
      exact ⟨rfl, hnone, fun _ _ => rfl⟩
    · exact .of_compact (addEntry_updated _ v)
    · exact addEntry_updated hp v

/-! ## Both parts -/

theorem get_of_slot (hs : slot? k = some i) (hv : t.array[i]? = some v) : t.get k = v := by
  simp [get, hs, hv]

theorem get_of_hash (h : ∀ i, slot? k = some i → t.array.size ≤ i) : t.get k = t.hashGet k := by
  unfold get
  cases hs : slot? k with
  | none => rfl
  | some i => simp [h i hs]

theorem get_empty (k : Key) : empty.get k = .nil := by
  rw [get_of_hash (by simp [empty])]
  simp [hashGet, empty]

theorem getValue_empty (v : Value) : empty.getValue v = .nil := by
  unfold getValue
  cases v.toKey with
  | error why => rfl
  | ok k => exact get_empty k

/-- A look-up depends on the place of the key in the array part, or else on the hash part. -/
theorem get_congr {s : Table} (ha : ∀ i, slot? k = some i → s.array[i]? = t.array[i]?)
    (hh : s.hashGet k = t.hashGet k) : s.get k = t.get k := by
  unfold get
  cases hs : slot? k with
  | none => exact hh
  | some i => simp only [Option.bind_some, ha i hs, hh]

theorem slot?_eq_some : slot? k = some i ↔ ∃ n : Int64, k = .int n ∧ n.toInt = i + 1 := by
  cases k with
  | int n =>
    have hpos : 0 < n ↔ 0 < n.toInt := by rw [Int64.lt_iff_toInt_lt]; rfl
    simp only [slot?, Option.ite_none_right_eq_some, Option.some.injEq, hpos, Key.int.injEq,
      exists_eq_left']
    omega
  | _ => simp [slot?]

/-- Different keys have different places in the array part. -/
theorem slot?_inj (h : slot? k = some i) (h' : slot? k' = some i) : k = k' := by
  obtain ⟨n, rfl, hn⟩ := slot?_eq_some.mp h
  obtain ⟨m, rfl, hm⟩ := slot?_eq_some.mp h'
  rw [Int64.toInt_inj.mp (hn.trans hm.symm)]

theorem slot?_of_nextKey? (h : t.nextKey? = some k) : slot? k = some t.array.size := by
  unfold nextKey? at h
  split_ifs at h with hsize
  have hsize : t.array.size + 1 < 2 ^ 63 := hsize
  cases h
  refine slot?_eq_some.mpr ⟨_, rfl, ?_⟩
  rw [Int64.toInt_ofNat_of_lt hsize]
  rfl

/-- The array part takes over the key that follows it, which has to be erased from the hash part. -/
theorem get_push {s : Table} (h : Updated t k .nil s) (hs : slot? k = some t.array.size) :
    { s with array := s.array.push v }.get k' = if k = k' then v else t.get k' := by
  rw [h.array]
  split_ifs with hk
  · subst hk
    exact get_of_slot hs (by simp)
  · refine get_congr (fun i hi => ?_) (h.other k' hk)
    have hne : i ≠ t.array.size := by
      rintro rfl
      exact hk (slot?_inj hs hi)
    simp [Array.getElem?_push, hne]

theorem get_setArray (hs : slot? k = some i) (hi : i < t.array.size) :
    { t with array := t.array.setIfInBounds i v }.get k' = if k = k' then v else t.get k' := by
  split_ifs with hk
  · subst hk
    exact get_of_slot hs (by simp [hi])
  · refine get_congr (fun j hj => ?_) rfl
    have hne : i ≠ j := by
      rintro rfl
      exact hk (slot?_inj hs hj)
    exact Array.getElem?_setIfInBounds_ne hne

theorem get_updated {s : Table} (h : Updated t k v s)
    (hs : ∀ i, slot? k = some i → t.array.size ≤ i) :
    s.get k' = if k = k' then v else t.get k' := by
  split_ifs with hk
  · subst hk
    rw [get_of_hash (by rwa [h.array]), h.same]
  · exact get_congr (by simp [h.array]) (h.other k' hk)

theorem get_migrate (t : Table) (fuel : ℕ) (k : Key) : (t.migrate fuel).get k = t.get k := by
  induction fuel generalizing t with
  | zero => rfl
  | succ fuel ih =>
    unfold migrate
    cases hnext : t.nextKey? with
    | none => rfl
    | some next =>
      dsimp only
      split_ifs with hnil
      · rfl
      · have hslot := slot?_of_nextKey? hnext
        rw [ih, get_push (t.hashSet_updated next .nil) hslot]
        split_ifs with hk
        · subst hk
          refine (get_of_hash fun i hi => ?_).symm
          rw [hslot] at hi
          cases hi
          exact le_refl _
        · rfl

/-- Storing a value updates its key and no other, in whichever part it lives. -/
theorem get_set (t : Table) (k : Key) (v : Value) (k' : Key) :
    (t.set k v).get k' = if k = k' then v else t.get k' := by
  unfold set
  cases hs : slot? k with
  | none => exact get_updated (t.hashSet_updated k v) (by simp [hs])
  | some i =>
    dsimp only
    split
    · next hlt => exact get_setArray hs hlt
    · next hlt =>
      split
      · next hnext =>
        obtain ⟨rfl, -⟩ := hnext
        rw [get_migrate]
        exact get_push (t.hashSet_updated k .nil) hs
      · refine get_updated (t.hashSet_updated k v) fun j hj => ?_
        rw [hs] at hj
        cases hj
        omega

end Table

/-! ## Sequences of stores -/

/-- A value to be stored under another one, which has a key. -/
structure Store where
  index : Value
  value : Value
  key : Key
  valid : index.toKey = .ok key

/-- What was stored last under a value that is raw-equal to `k`, nil if nothing was. -/
def lastStored (stores : List Store) (k : Value) : Value :=
  (stores.reverse.find? fun s => s.index.rawEqual k).elim .nil Store.value

section LastStored
variable {stores later : List Store} {s s' : Store} {k : Value}

theorem lastStored_concat (stores : List Store) (s : Store) (k : Value) :
    lastStored (stores ++ [s]) k = if s.index.rawEqual k then s.value else lastStored stores k := by
  cases h : s.index.rawEqual k <;> simp [lastStored, h]

theorem lastStored_of_toKey_error {why : InvalidKey} (h : k.toKey = .error why) :
    lastStored stores k = .nil := by
  have hnone : stores.reverse.find? (fun s => s.index.rawEqual k) = none := by
    rw [List.find?_eq_none]
    intro s _
    rw [Value.rawEqual_of_toKey_error s.valid h]
    exact Bool.false_ne_true
  rw [lastStored, hnone]
  rfl

/-- No value is raw-equal to two values that are not raw-equal to each other. -/
theorem rawEqual_unique (h : s.index.rawEqual s'.index = false) (hk : s.index.rawEqual k = true) :
    s'.index.rawEqual k = false := by
  cases hkey : k.toKey with
  | error why => exact Value.rawEqual_of_toKey_error s'.valid hkey
  | ok key =>
    have he : s.key = key := (Value.toKey_eq_iff s.valid hkey).mpr hk
    rw [Bool.eq_false_iff, ne_eq, ← Value.toKey_eq_iff s'.valid hkey]
    intro he'
    have := (Value.toKey_eq_iff s.valid s'.valid).mp (he.trans he'.symm)
    rw [h] at this
    cases this

/-- The order of two stores under different keys does not matter. -/
theorem lastStored_swap (h : s.index.rawEqual s'.index = false) :
    lastStored (stores ++ s :: s' :: later) k = lastStored (stores ++ s' :: s :: later) k := by
  induction later using List.reverseRecOn with
  | nil =>
    have hpair : ∀ a b : Store, stores ++ [a, b] = stores ++ [a] ++ [b] := by simp
    rw [hpair, hpair, lastStored_concat, lastStored_concat, lastStored_concat, lastStored_concat]
    cases hs : s.index.rawEqual k with
    | false => rfl
    | true => simp [rawEqual_unique h hs]
  | append_singleton rest t ih =>
    have hlast : ∀ a b : Store, stores ++ a :: b :: (rest ++ [t]) = stores ++ a :: b :: rest ++
        [t] := by simp
    rw [hlast, hlast, lastStored_concat, lastStored_concat, ih]

end LastStored

namespace Table

theorem getValue_set (t : Table) (s : Store) (k : Value) :
    (t.set s.key s.value).getValue k = if s.index.rawEqual k then s.value else t.getValue k := by
  unfold getValue
  cases hk : k.toKey with
  | error why => simp [Value.rawEqual_of_toKey_error s.valid hk]
  | ok key =>
    dsimp only
    rw [get_set]
    exact if_congr (Value.toKey_eq_iff s.valid hk) rfl rfl

/-- After a sequence of stores, every value maps to what was last stored under it. -/
theorem getValue_foldl_set (stores : List Store) (k : Value) :
    (stores.foldl (fun t s => t.set s.key s.value) empty).getValue k = lastStored stores k := by
  induction stores using List.reverseRecOn with
  | nil => exact getValue_empty k
  | append_singleton rest s ih =>
    simp only [List.foldl_append, List.foldl_cons, List.foldl_nil]
    rw [getValue_set, lastStored_concat, ih]

end Table

namespace Heap
variable {h h' : Heap} {r : TableRef} {listed keyed : ℕ}

/-- Stores values in a table one after another. -/
def storeAll (h : Heap) (r : TableRef) (stores : List Store) : Heap :=
  stores.foldl (fun h s => h.rawSet r s.key s.value) h

/-- Storing a value in a table that exists changes its content and no other table. -/
theorem tableAt_rawSet (hr : r.index < h.tables.size) (k : Key) (v : Value) (r' : TableRef) :
    (h.rawSet r k v).tableAt r' =
      if r' = r then { h.tableAt r' with content := (h.tableAt r').content.set k v }
      else h.tableAt r' := by
  simp only [tableAt, rawSet, Array.getElem?_modify]
  split_ifs with hi he he
  · rw [← hi, Array.getElem?_eq_getElem hr]
    rfl
  · exact absurd (congrArg TableRef.mk hi).symm he
  · exact absurd (congrArg TableRef.index he).symm hi
  · rfl

theorem tableAt_storeAll (hr : r.index < h.tables.size) (stores : List Store) :
    ((h.storeAll r stores).tableAt r).content =
      stores.foldl (fun t s => t.set s.key s.value) (h.tableAt r).content := by
  induction stores generalizing h with
  | nil => rfl
  | cons s rest ih =>
    have hset : ((h.rawSet r s.key s.value).tableAt r).content =
        (h.tableAt r).content.set s.key s.value := by
      rw [tableAt_rawSet hr, if_pos rfl]
    show (((h.rawSet r s.key s.value).storeAll r rest).tableAt r).content = _
    rw [ih (by simpa [rawSet] using hr), hset]
    rfl

theorem newTable_of_newTableOfSize (hnew : h.newTableOfSize listed keyed = .ok (r, h')) :
    h.newTable = (r, h') := by
  unfold newTableOfSize at hnew
  cases ha : Checked.reserve listed Value.bytes with
  | error why => simp [ha, bind, Except.bind] at hnew
  | ok _ =>
    cases hb : Checked.reserve keyed (2 * Value.bytes) with
    | error why => simp [ha, hb, bind, Except.bind] at hnew
    | ok _ => simpa only [ha, hb, bind, Except.bind, pure, Except.pure, Except.ok.injEq] using hnew

/-- A new table is filled from nothing, whatever size was asked for. -/
theorem content_storeAll (hnew : h.newTableOfSize listed keyed = .ok (r, h'))
    (stores : List Store) :
    ((h'.storeAll r stores).tableAt r).content =
      stores.foldl (fun t s => t.set s.key s.value) Table.empty := by
  have hpair := newTable_of_newTableOfSize hnew
  obtain ⟨hr, hempty⟩ : r.index < h'.tables.size ∧ (h'.tableAt r).content = Table.empty := by
    cases hpair
    simp [tableAt, Table.empty]
  rw [tableAt_storeAll hr, hempty]

/-- A new table maps every value to what was last stored under it. -/
theorem rawGetValue_storeAll (hnew : h.newTableOfSize listed keyed = .ok (r, h'))
    (stores : List Store) (k : Value) :
    (h'.storeAll r stores).rawGetValue r k = lastStored stores k := by
  unfold rawGetValue
  rw [content_storeAll hnew]
  exact Table.getValue_foldl_set stores k

/-- A table is a finite map. A value is mapped to what was last stored under a raw-equal one, nil
and NaN to nil. Storing under one key leaves the values of all others alone, and stores under
different keys commute. -/
theorem storeAll_finiteMap (hnew : h.newTableOfSize listed keyed = .ok (r, h'))
    (stores : List Store) :
    (∀ k, (h'.storeAll r stores).rawGetValue r k = lastStored stores k) ∧
    (∀ k why, k.toKey = .error why → (h'.storeAll r stores).rawGetValue r k = .nil) ∧
    (∀ (s : Store) k, s.index.rawEqual k = false →
      (h'.storeAll r (stores ++ [s])).rawGetValue r k = (h'.storeAll r stores).rawGetValue r k) ∧
    ∀ (s s' : Store) later k, s.index.rawEqual s'.index = false →
      (h'.storeAll r (stores ++ s :: s' :: later)).rawGetValue r k =
        (h'.storeAll r (stores ++ s' :: s :: later)).rawGetValue r k := by
  have hget := rawGetValue_storeAll hnew
  refine ⟨hget stores, fun k why hk => ?_, fun s k hk => ?_, fun s s' later k hs => ?_⟩
  · rw [hget, lastStored_of_toKey_error hk]
  · rw [hget, hget, lastStored_concat, hk]
    rfl
  · rw [hget, hget, lastStored_swap hs]

/-- The key 3 waits in the hash part while 1 is erased and set, and 2 joins them all in the array
part. The floats 2 and 3 are the same keys as the integers. -/
def regrown : List Store := [
  ⟨.int 3, .ofText "c", .int 3, rfl⟩,
  ⟨.int 1, .nil, .int 1, rfl⟩,
  ⟨.int 1, .ofText "a", .int 1, rfl⟩,
  ⟨.float 2, .ofText "b", .int 2, by decide +kernel⟩,
  ⟨.float 3, .ofText "d", .int 3, by decide +kernel⟩]

/-- A value under a host function, which is the same key under another name. -/
def named : Store := ⟨.host ⟨64, "print"⟩, .ofText "e", .host 64, rfl⟩

theorem storeAll_finiteMap_regrown :
    ∃ h', newTableOfSize {} 4 2 = .ok (⟨0⟩, h') ∧
      (h'.storeAll ⟨0⟩ (regrown ++ [named])).rawGetValue ⟨0⟩ (.int 3) = .ofText "d" ∧
      (h'.storeAll ⟨0⟩ (regrown ++ [named])).rawGetValue ⟨0⟩ (.host ⟨64, "write"⟩) = .ofText "e" ∧
      (h'.storeAll ⟨0⟩ (regrown ++ [named])).rawGetValue ⟨0⟩ .nil = .nil := by
  have hnew : newTableOfSize {} 4 2 = .ok (⟨0⟩, (newTable {}).2) := rfl
  obtain ⟨hlast, hinvalid, -, -⟩ := storeAll_finiteMap hnew (regrown ++ [named])
  refine ⟨_, hnew, ?_, ?_, hinvalid .nil .isNil rfl⟩
  · rw [hlast]
    decide +kernel
  · rw [hlast]
    decide +kernel

end Heap

end LuaMachine
