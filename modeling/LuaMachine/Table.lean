import Std.Data.HashMap
import LuaMachine.Value.Basic

/-!
# Tables

A table keeps the values of the keys `1, 2, …` in an array part and every other key in a hash part.
The hash part lists its entries in the order of insertion; an erased entry stays behind with the
value nil until the next compaction, and `dead` counts such entries. `positions` finds the entry of
a key. The array part only grows: when its next key receives a value, that key and the ones that
follow it move over from the hash part.
-/
namespace LuaMachine

/-- Without entries no key has a position. -/
theorem Table.indexed_empty (k : Key) (p : Nat) :
    ({} : Std.HashMap Key Nat)[k]? = some p ↔
      (#[] : Array (Key × Value))[p]?.map Prod.fst = some k := by
  simp

/-- The content of a table. -/
structure Table where
  array : Array Value := #[]
  entries : Array (Key × Value) := #[]
  positions : Std.HashMap Key Nat := {}
  dead : Nat := 0
  /-- Every entry is found by its key, and nothing else is. -/
  indexed (k : Key) (p : Nat) :
    positions[k]? = some p ↔ entries[p]?.map Prod.fst = some k := by exact Table.indexed_empty

namespace Table

/-- A table without entries. -/
def empty : Table := {}

instance : Inhabited Table := ⟨empty⟩

/-- The position in the array part that a positive integer key would have. -/
def slot? : Key → Option Nat
  | .int n => if 0 < n then some (n.toInt - 1).toNat else none
  | _ => none

/-- The value of a key in the hash part, nil if there is no entry. -/
def hashGet (t : Table) (k : Key) : Value :=
  match t.positions[k]? with
  | some p => (t.entries[p]?.map (·.2)).getD .nil
  | none => .nil

/-- The value of a key, nil if it has none. -/
def get (t : Table) (k : Key) : Value :=
  match (slot? k).bind (t.array[·]?) with
  | some v => v
  | none => t.hashGet k

/-- The value at an arbitrary value. Nil and NaN are never present. -/
def getValue (t : Table) (v : Value) : Value :=
  match v.toKey with
  | .ok k => t.get k
  | .error _ => .nil

/-- No key has two entries. -/
theorem nodup (t : Table) : (t.entries.toList.map Prod.fst).Nodup := by
  rw [List.Nodup, List.pairwise_iff_getElem]
  intro i j hi hj hij heq
  rw [List.length_map, Array.length_toList] at hi hj
  simp only [List.getElem_map, Array.getElem_toList] at heq
  have hpi := (t.indexed t.entries[i].1 i).mpr (by simp [hi])
  have hpj := (t.indexed t.entries[i].1 j).mpr (by simp [hj, heq])
  rw [hpi] at hpj
  cases hpj
  omega

theorem positions_eq_none {t : Table} {k : Key} :
    t.positions[k]? = none ↔ ∀ e ∈ t.entries, e.1 ≠ k := by
  rw [Option.eq_none_iff_forall_ne_some]
  constructor
  · rintro hn e he rfl
    obtain ⟨p, hp⟩ := Array.mem_iff_getElem?.mp he
    exact hn p ((t.indexed e.1 p).mpr (by rw [hp]; rfl))
  · intro hn p hp
    obtain ⟨e, he, rfl⟩ := Option.map_eq_some_iff.mp ((t.indexed k p).mp hp)
    exact hn e (Array.mem_of_getElem? he) rfl

/-- The positions of entries in order. -/
def numbered (entries : List (Key × Value)) : Std.HashMap Key Nat :=
  .ofList (entries.zipIdx.map fun e => (e.1.1, e.2))

/-- Numbering entries with different keys finds each of them. -/
theorem getElem?_numbered {entries : List (Key × Value)} (h : (entries.map Prod.fst).Nodup)
    (k : Key) (p : Nat) : (numbered entries)[k]? = some p ↔ entries[p]?.map Prod.fst = some k := by
  have hdistinct : (entries.zipIdx.map fun e => (e.1.1, e.2)).Pairwise
      fun a b => (a.1 == b.1) = false := by
    rw [List.Nodup, List.pairwise_iff_getElem] at h
    rw [List.pairwise_iff_getElem]
    intro i j hi hj hij
    simp only [List.length_map, List.length_zipIdx] at h hi hj
    have hne := h i j hi hj hij
    simp only [List.getElem_map] at hne
    simpa using hne
  have hfound : ∀ q, entries[q]?.map Prod.fst = some k → (numbered entries)[k]? = some q := by
    intro q hq
    obtain ⟨e, he, rfl⟩ := Option.map_eq_some_iff.mp hq
    refine Std.HashMap.getElem?_ofList_of_mem BEq.rfl hdistinct ?_
    exact List.mem_map.mpr ⟨(e, q), List.mem_zipIdx_iff_getElem?.mpr he, rfl⟩
  refine ⟨fun hp => ?_, hfound p⟩
  cases hk : ((entries.zipIdx.map fun e => (e.1.1, e.2)).map Prod.fst).contains k with
  | false =>
    rw [numbered, Std.HashMap.getElem?_ofList_of_contains_eq_false hk] at hp
    cases hp
  | true =>
    obtain ⟨⟨e, q⟩, hmem, rfl⟩ : ∃ e ∈ entries.zipIdx, e.1.1 = k := by simpa using hk
    have hq : entries[q]?.map Prod.fst = some e.1 := by
      rw [List.mem_zipIdx_iff_getElem?.mp hmem]
      rfl
    rw [hfound q hq] at hp
    cases hp
    exact hq

/-- Drops the dead entries and numbers the others anew. -/
def compact (t : Table) : Table where
  array := t.array
  entries := t.entries.filter fun e => !e.2.isNil
  positions := numbered (t.entries.filter fun e => !e.2.isNil).toList
  indexed k p := by
    rw [getElem?_numbered, Array.getElem?_toList]
    rw [Array.toList_filter]
    exact t.nodup.sublist (List.filter_sublist.map _)

/-- The dead entries after the value at an entry changes from `old` to `new`. -/
def deadAfter (dead : Nat) (old new : Value) : Nat :=
  match old.isNil, new.isNil with
  | false, true => dead + 1
  | true, false => dead - 1
  | _, _ => dead

/-- Whether enough entries are dead for a compaction to come before the next insertion. -/
def isSparse (t : Table) : Bool :=
  0 < t.dead && t.entries.size ≤ t.dead * 2

/-- Gives the entry at a position another value. -/
def setEntry (t : Table) (p : Nat) (v : Value) : Table :=
  { t with
    entries := t.entries.modify p fun e => (e.1, v)
    dead := deadAfter t.dead ((t.entries[p]?.map (·.2)).getD .nil) v
    indexed k q := by
      rw [t.indexed k q, Array.getElem?_modify]
      split <;> simp [Function.comp_def] }

/-- Adds an entry for a key that has none. -/
def addEntry (t : Table) (k : Key) (v : Value) (h : t.positions[k]? = none) : Table :=
  { t with
    entries := t.entries.push (k, v)
    positions := t.positions.insert k t.entries.size
    indexed k' q := by
      have hold := t.indexed k' q
      rw [Std.HashMap.getElem?_insert, Array.getElem?_push]
      by_cases hk : k = k'
      · subst hk
        rw [h] at hold
        by_cases hq : q = t.entries.size <;> simp_all [eq_comm]
      · by_cases hq : q = t.entries.size <;> simp_all }

theorem compact_positions_eq_none {t : Table} {k : Key} (h : t.positions[k]? = none) :
    t.compact.positions[k]? = none :=
  positions_eq_none.mpr fun e he => positions_eq_none.mp h e (Array.mem_filter.mp he).1

/-- Stores a value in the hash part. A new key is appended, after a compaction when half of the
entries are dead. -/
def hashSet (t : Table) (k : Key) (v : Value) : Table :=
  match h : t.positions[k]? with
  | some p => t.setEntry p v
  | none =>
    if v.isNil then t
    else if t.isSparse then t.compact.addEntry k v (compact_positions_eq_none h)
    else t.addEntry k v h

/-- The key that follows the array part. There is none after the largest integer. -/
def nextKey? (t : Table) : Option Key :=
  if t.array.size + 1 < Nat.pow 2 63 then some (.int (Int64.ofNat (t.array.size + 1))) else none

/-- Moves the keys that follow the array part over from the hash part, at most as many as there are
entries. -/
def migrate : Nat → Table → Table
  | 0, t => t
  | fuel + 1, t =>
    match t.nextKey? with
    | none => t
    | some next =>
      let v := t.hashGet next
      if v.isNil then t
      else
        let t := t.hashSet next .nil
        migrate fuel { t with array := t.array.push v }

/-- Maps a key to a value. The value nil removes the mapping. -/
def set (t : Table) (k : Key) (v : Value) : Table :=
  match slot? k with
  | none => t.hashSet k v
  | some i =>
    if i < t.array.size then { t with array := t.array.setIfInBounds i v }
    else if i = t.array.size ∧ !v.isNil then
      let t := t.hashSet k .nil
      let t := { t with array := t.array.push v }
      t.migrate t.entries.size
    else t.hashSet k v

/-- Searches `array` for a position `i` with a value there, or zero, and nil after it, between a
known `i` and a known nil at `j`. -/
def searchBorder (array : Array Value) : Nat → Nat → Nat → Nat
  | 0, i, _ => i
  | fuel + 1, i, j =>
    if j - i > 1 then
      let m := (i + j) / 2
      if (array[m - 1]?.getD .nil).isNil then searchBorder array fuel i m
      else searchBorder array fuel m j
    else i

/-- Walks up from `n` while the hash part holds the next key. There is none after the largest
integer. -/
def walkBorder (t : Table) : Nat → Nat → Nat
  | 0, n => n
  | fuel + 1, n =>
    if n + 1 < Nat.pow 2 63 ∧ !(t.hashGet (.int (Int64.ofNat (n + 1)))).isNil then t.walkBorder fuel
      (n + 1) else n

/-- A border: a length `n` such that the key `n` has a value, unless `n` is zero, and `n + 1` has
none. -/
def border (t : Table) : Nat :=
  let n := t.array.size
  if 0 < n ∧ (t.array[n - 1]?.getD .nil).isNil then searchBorder t.array n 0 n
  else t.walkBorder t.entries.size n

/-- How many keys of the hash part have a value. -/
def hashSize (t : Table) : Nat :=
  t.entries.size - t.dead

end Table

/-- The largest table part that a size operand can ask for in advance. -/
def maxSizeHint : Nat := 65536

/-- Reads an operand `eeeeexxx` as `(8 + xxx) * 2 ^ (eeeee - 1)`, small ones standing for
themselves. Bits beyond 64 are lost, and a shift by the whole width has no result. -/
def sizeOfOperand? (x : Nat) : Option Nat :=
  if x < 8 then some x
  else if x / 8 - 1 < 64 then some ((x % 8 + 8) * Nat.pow 2 (x / 8 - 1) % Nat.pow 2 64)
  else none

/-- The size an operand asks for, capped. -/
def sizeHint? (x : Nat) : Option Nat :=
  (sizeOfOperand? x).map (min maxSizeHint)

end LuaMachine
