import LuaMachine.Proofs.References

/-!
# Assignments through chains of handlers

An assignment follows its handlers as a look-up does. What decides it is the same: a table that has
the key already, an object without a handler, or a function. So it changes the entry of one key in
one table, calls one handler, or fails and leaves every table as it was. The tables are those of a
heap in order, as every heap is that comes of making, storing and running with tables there are.
-/
namespace LuaMachine

/-! ## One entry -/

namespace Heap
variable {h : Heap} {r : TableRef} {v : Value} {k : Key}

/-- The heap `h'` differs from `h` in what one table has at one key. -/
structure Remapped (h : Heap) (r : TableRef) (key value : Value) (h' : Heap) : Prop where
  entries : ∀ r' k, h'.rawGetValue r' k = if r' = r ∧
    key.rawEqual k = true then value else h.rawGetValue r' k
  metatables : ∀ r', (h'.tableAt r').metatable = (h.tableAt r').metatable
  tables : h'.tables.size = h.tables.size
  closures : h'.closures = h.closures
  userdata : h'.userdata = h.userdata

theorem remapped_rawSet {key : Value} (hr : r.index < h.tables.size) (hk : key.toKey = .ok k)
    (v : Value) : h.Remapped r key v (h.rawSet r k v) := by
  refine ⟨fun r' k' => ?_, fun r' => ?_, by simp, rfl, rfl⟩
  · rw [rawGetValue, tableAt_rawSet hr]
    by_cases he : r' = r
    · rw [if_pos he]
      have hset := Table.getValue_set (h.tableAt r').content ⟨key, v, k, hk⟩ k'
      simp only [he, true_and] at hset ⊢
      exact hset
    · rw [if_neg he, if_neg fun h => he h.1]
      rfl
  · rw [tableAt_rawSet hr]
    split_ifs <;> rfl

end Heap

namespace Vm
variable {vm : Vm} {obj key value o : Value} {i links fuel : Nat} {first : Bool}

theorem has_link (hi : vm.heap.Intact) (ho : vm.heap.Has obj) (event : String) (i : Nat) :
    vm.heap.Has (vm.link event obj i) := by
  induction i generalizing obj with
  | zero => exact ho
  | succ i ih =>
    rw [link_succ]
    exact ih (hi.metafield vm.types obj event)

theorem intact_ringHost (event : String) : (ringHost event).heap.Intact := by
  rintro ⟨_ | _ | _ | _ | n⟩
  · exact Table.all_empty _
  · exact (Table.all_empty _).set trivial (.ofText event) (v := .table ⟨2⟩) (show 2 < 4 by decide)
  · exact (Table.all_empty _).set trivial (.bool true) (v := .int 7) trivial
  · exact (Table.all_empty _).set trivial (.ofText event) (v := .table ⟨0⟩) (show 0 < 4 by decide)
  · exact Table.all_empty _

theorem intact_answeringHost (event : String) : (answeringHost event).heap.Intact := by
  rintro ⟨_ | _ | n⟩
  · exact Table.all_empty _
  · exact (Table.all_empty _).set trivial (.ofText event) (v := .closure ⟨0⟩) trivial
  · exact Table.all_empty _

/-! ## Where an assignment goes -/

/-- A table takes an assignment, any other value refuses it. -/
def takeIn (o : Value) : Except Cause Heap.Assignment :=
  match o with
  | .table r => .ok (.store r)
  | _ => .error (.cannotIndex o.type)

/-- What an object that decides an assignment does with it. -/
def assignReply (vm : Vm) (key value o : Value) : Except Cause Heap.Assignment :=
  if vm.entry key o ≠ .nil ∨ vm.metafield o "__newindex" = .nil then takeIn o
  else .ok (.call (vm.metafield o "__newindex") [o, key, value])

/-- One link of an assignment. The own value of the first object was looked at already. -/
theorem followNewIndex_eq (vm : Vm) (key value o : Value) (links : Nat) (first : Bool) :
    vm.heap.followNewIndex vm.types key value (links + 1) first o =
      if !(if first then .nil else vm.entry key o).isNil then (takeIn o).map some
      else if (vm.metafield o "__newindex").isNil then if first then .ok none
        else (takeIn o).map some
      else if (vm.metafield o "__newindex").isFunction then
        .ok (some (.call (vm.metafield o "__newindex") [o, key, value]))
      else vm.heap.followNewIndex vm.types key value links false (vm.metafield o "__newindex") := by
  cases o with
  | table r =>
    cases first with
    | true => rfl
    | false =>
      rw [Heap.followNewIndex]
      simp only [entry, Bool.false_eq_true, if_false]
      cases (vm.heap.rawGetValue r key).isNil <;> rfl
  | _ => cases first <;> rfl

theorem followNewIndex_of_undecided (links : Nat) (first : Bool) (o : Value)
    (h : ¬ vm.Decides "__newindex" key o) :
    vm.heap.followNewIndex vm.types key value (links + 1) first o =
      vm.heap.followNewIndex vm.types key value links false (vm.metafield o "__newindex") := by
  simp only [Decides, not_or, not_not, Bool.not_eq_true] at h
  obtain ⟨hentry, hhandler, hobject⟩ := h
  simp [followNewIndex_eq, hentry, hhandler, hobject]

theorem followNewIndex_of_decides (links : Nat) (first : Bool) (o : Value)
    (h : vm.Decides "__newindex" key o) (hfirst : first = true → vm.entry key o = .nil) :
    vm.heap.followNewIndex vm.types key value (links + 1) first o =
      if first = true ∧ vm.metafield o "__newindex" = .nil then .ok none
      else (vm.assignReply key value o).map some := by
  rw [followNewIndex_eq, assignReply]
  by_cases hentry : vm.entry key o = .nil
  · by_cases hhandler : vm.metafield o "__newindex" = .nil
    · cases first <;> simp [hentry, hhandler]
    · have hfunction : (vm.metafield o "__newindex").isFunction = true := by
        simpa [Decides, hentry, hhandler] using h
      simp [hentry, hhandler, hfunction, Except.map]
  · obtain rfl : first = false := by
      cases first with
      | true => exact absurd (hfirst rfl) hentry
      | false => rfl
    simp [hentry]

/-- Where an assignment goes with the standard hooks. -/
def place (vm : Vm) (obj key value : Value) : Except Cause Heap.Assignment :=
  if vm.entry key obj ≠ .nil then takeIn obj
  else
    match vm.heap.followNewIndex vm.types key value maxChain true obj with
    | .ok (some assignment) => .ok assignment
    | .ok none => takeIn obj
    | .error c => .error c

/-- An assignment goes where the link that decides its chain sends it. -/
theorem place_of_decidedAt (h : vm.DecidedAt "__newindex" obj key i) :
    vm.place obj key value = vm.assignReply key value (vm.link "__newindex" obj i) := by
  by_cases hentry : vm.entry key obj = .nil
  · rw [place, if_neg (not_not.mpr hentry),
      walk_of_decidedAt followNewIndex_of_undecided followNewIndex_of_decides h hentry]
    by_cases hnone : i = 0 ∧ vm.metafield obj "__newindex" = .nil
    · obtain ⟨rfl, hhandler⟩ := hnone
      rw [if_pos ⟨rfl, hhandler⟩, show vm.link "__newindex" obj 0 = obj from rfl, assignReply,
        if_pos (.inr hhandler)]
    · rw [if_neg hnone]
      cases vm.assignReply key value (vm.link "__newindex" obj i) <;> rfl
  · obtain rfl := h.eq_zero hentry
    rw [place, if_pos hentry, assignReply]
    exact (if_pos (.inl hentry)).symm

theorem place_of_undecided
    (h : ∀ j, j < maxChain → ¬ vm.Decides "__newindex" key (vm.link "__newindex" obj j)) :
    vm.place obj key value = .error (.chainTooLong "__newindex") := by
  rw [place, if_neg (not_not.mpr (entry_of_undecided h)),
    walk_of_undecided followNewIndex_of_undecided h]
  rfl

/-- Carries out an assignment. -/
def carryOut (fuel : Nat) (key value : Value) : Heap.Assignment → Exec Unit
  | .store r => rawAssign r key value
  | .call handler args => discard (callFunction fuel handler args)

/-- How the host goes on after an assignment that may ask for a call. -/
def fulfilAssign (fuel : Nat) : Reply Unit → Exec Unit
  | .done _ => pure ()
  | .call handler args => discard (callFunction fuel handler args)

theorem rawAssign_fulfilAssign (fuel : Nat) (r : TableRef) (key value : Value) (vm : Vm) :
    ((rawAssign r key value >>= fun _ => pure (.done ())) >>= fulfilAssign fuel) vm =
      rawAssign r key value vm := by
  unfold rawAssign
  cases key.toKey <;> rfl

theorem setIndex_eq (hh : vm.hooks = .standard) (fuel : Nat) (obj key value : Value) :
    ∃ log, (vm.consultations = none → log = none) ∧ setIndex fuel obj key value vm =
      (settle (vm.place obj key value) >>= carryOut fuel key value)
      { vm with consultations := log } := by
  have hset : setIndex fuel obj key value = newIndex obj key value >>= fulfilAssign fuel := rfl
  rw [hset]
  by_cases hentry : vm.entry key obj = .nil
  · obtain ⟨log, hlog, hconsult⟩ := consult_returned "new_index" [obj, key, value] vm
    refine ⟨log, hlog, ?_⟩
    have hnil : (vm.entry key obj).isNil = true := Value.isNil_iff.mpr hentry
    rw [place, if_neg (not_not.mpr hentry)]
    unfold newIndex
    rw [bind_assoc, Exec.bind_of_returned (rawEntry_eq obj key vm), hnil]
    split
    next heq => cases heq
    next obj _ _ _ =>
      rw [bind_assoc, Exec.bind_of_returned hconsult]
      simp only [bind, Exec.bind, Exec.look, hh]
      cases vm.heap.followNewIndex vm.types key value maxChain true obj with
      | error c => rfl
      | ok found =>
        rcases found with _ | ⟨r⟩ | ⟨handler, args⟩
        · cases obj with
          | table r => exact rawAssign_fulfilAssign fuel r key value _
          | _ => rfl
        · exact rawAssign_fulfilAssign fuel r key value _
        · rfl
  · refine ⟨vm.consultations, fun h => h, ?_⟩
    have hnil : (vm.entry key obj).isNil = false :=
      Bool.eq_false_iff.mpr (mt Value.isNil_iff.mp hentry)
    rw [place, if_pos hentry]
    unfold newIndex
    rw [bind_assoc, Exec.bind_of_returned (rawEntry_eq obj key vm), hnil]
    cases obj with
    | table r => exact rawAssign_fulfilAssign fuel r key value vm
    | _ => exact absurd rfl hentry

/-- The object `o` decides an assignment in the state `vm`, and the outcome is accordingly. A table
that has the key or no handler takes the value, if the key is valid. Another object without a
handler refuses it. A function is called with the object, the key and the value, and its error is
passed on. -/
structure AssignedBy (fuel : Nat) (key value o : Value) (vm : Vm) (outcome : Outcome Unit) :
    Prop where
  stored : ∀ r k, o = .table r → vm.entry key o ≠ .nil ∨ vm.metafield o "__newindex" = .nil →
    key.toKey = .ok k →
    ∃ heap, outcome = .returned () { vm with heap } ∧ vm.heap.Remapped r key value heap ∧
      (vm.heap.Has value → heap.Intact)
  invalid : ∀ r why, o = .table r → vm.entry key o ≠ .nil ∨ vm.metafield o "__newindex" = .nil →
    key.toKey = .error why → outcome = .raised { cause := .invalidKey why } vm
  refused : o.isTable = false → vm.metafield o "__newindex" = .nil →
    outcome = .raised { cause := .cannotIndex o.type } vm
  asked : vm.entry key o = .nil → (vm.metafield o "__newindex").isFunction = true →
    outcome =
        (discard (callFunction fuel (vm.metafield o "__newindex") [o, key, value]) : Exec Unit) vm ∧
      HandlerGives fuel (vm.metafield o "__newindex") [o, key, value] (fun _ => ()) vm outcome

theorem assignedBy_assignReply (vm : Vm) (hi : vm.heap.Intact) (ho : vm.heap.Has o) (fuel : Nat)
    (key value : Value) :
    AssignedBy fuel key value o vm
      ((settle (vm.assignReply key value o) >>= carryOut fuel key value) vm) := by
  unfold assignReply
  refine ⟨?_, ?_, ?_, ?_⟩
  · rintro r k rfl htakes hk
    refine ⟨vm.heap.rawSet r k value, ?_, Heap.remapped_rawSet ho hk value,
      fun hv => hi.rawSet ho k hv⟩
    rw [if_pos htakes]
    show rawAssign r key value vm = _
    rw [rawAssign, hk]
    rfl
  · rintro r why rfl htakes hk
    rw [if_pos htakes]
    show rawAssign r key value vm = _
    rw [rawAssign, hk]
    rfl
  · intro htable hhandler
    rw [if_pos (.inr hhandler)]
    cases o with
    | table r => cases htable
    | _ => rfl
  · intro hentry hfunction
    have hhandler : vm.metafield o "__newindex" ≠ .nil := by
      intro hnil
      rw [hnil] at hfunction
      cases hfunction
    rw [if_neg (by simp [hentry, hhandler])]
    exact ⟨rfl, callFunction_gives fuel _ [o, key, value] (fun _ => ()) vm⟩

/-- An assignment that no function handles stores its value under one key of one table, or fails and
changes no table. Which table it is, and whether a handler is called, is up to the first link that
decides its chain. -/
theorem assignment_decided_by_chain (hh : vm.hooks = .standard) (hi : vm.heap.Intact)
    (ho : vm.heap.Has obj) (fuel : Nat) (key value : Value) :
    ∃ log, (vm.consultations = none → log = none) ∧
      (∀ i, vm.DecidedAt "__newindex" obj key i →
        AssignedBy fuel key value (vm.link "__newindex" obj i) { vm with consultations := log }
          (setIndex fuel obj key value vm)) ∧
      ((∀ i, ¬ vm.DecidedAt "__newindex" obj key i) → setIndex fuel obj key value vm =
        .raised { cause := .chainTooLong "__newindex" } { vm with consultations := log }) := by
  obtain ⟨log, hlog, hset⟩ := setIndex_eq hh fuel obj key value
  refine ⟨log, hlog, fun i hi' => ?_, fun hnone => ?_⟩
  · rw [hset, place_of_decidedAt hi']
    exact assignedBy_assignReply { vm with consultations := log } hi (has_link hi ho "__newindex" i)
      fuel key value
  · rw [hset, place_of_undecided fun j hj hd => (exists_decidedAt hj hd).elim hnone]
    rfl

/-- An assignment to the first table of the ring goes to the second one, which has the key. With any
other key it goes round and changes nothing. A function is called with it and returns. -/
theorem assignment_decided_by_chain_ring :
    (ringHost "__newindex").hooks = .standard ∧ (ringHost "__newindex").heap.Intact ∧
      (ringHost "__newindex").heap.Has (.table ⟨0⟩) ∧
      (∃ heap, setIndex 0 (.table ⟨0⟩) (.bool true) (.int 8) (ringHost "__newindex") =
          .returned () { ringHost "__newindex" with heap } ∧
        (ringHost "__newindex").heap.Remapped ⟨2⟩ (.bool true) (.int 8) heap) ∧
      setIndex 0 (.table ⟨0⟩) (.bool false) (.int 8) (ringHost "__newindex") =
        .raised { cause := .chainTooLong "__newindex" } (ringHost "__newindex") ∧
      ∃ after, setIndex 1 (.table ⟨0⟩) (.bool false) (.int 8) (answeringHost "__newindex") =
        .returned () after := by
  have hhooks : (ringHost "__newindex").hooks = .standard := rfl
  have hintact := intact_ringHost "__newindex"
  have hhas : (ringHost "__newindex").heap.Has (.table ⟨0⟩) := show 0 < 4 by decide
  refine ⟨hhooks, hintact, hhas, ?_, ?_, ?_⟩
  · obtain ⟨log, hlog, hdecided, -⟩ :=
      assignment_decided_by_chain hhooks hintact hhas 0 (.bool true) (.int 8)
    obtain rfl := hlog rfl
    have hassigned : AssignedBy 0 _ _ _ (ringHost "__newindex") _ :=
      hdecided 1 (decidedAt_ringHost "__newindex")
    rw [(link_ringHost "__newindex").1] at hassigned
    have hown : (ringHost "__newindex").entry (.bool true) (.table ⟨2⟩) ≠ .nil := by
      rw [(entry_ringHost "__newindex" true).2]
      exact Value.noConfusion
    obtain ⟨heap, hreturned, hremapped, -⟩ :=
      hassigned.stored ⟨2⟩ (.bool true) rfl (.inl hown) rfl
    exact ⟨heap, hreturned, hremapped⟩
  · obtain ⟨log, hlog, -, hlong⟩ :=
      assignment_decided_by_chain hhooks hintact hhas 0 (.bool false) (.int 8)
    obtain rfl := hlog rfl
    exact hlong fun i hat => undecided_link_ringHost "__newindex" i hat.decides
  · obtain ⟨log, hlog, hdecided, -⟩ := assignment_decided_by_chain
      (show (answeringHost "__newindex").hooks = .standard from rfl)
      (intact_answeringHost "__newindex")
      (show (answeringHost "__newindex").heap.Has (.table ⟨0⟩) from show 0 < 2 by decide)
      1 (.bool false) (.int 8)
    obtain rfl := hlog rfl
    have hassigned : AssignedBy 1 _ _ (.table ⟨0⟩) (answeringHost "__newindex") _ :=
      hdecided 0 (decidedAt_answeringHost "__newindex" _)
    have hhandler := metafield_answeringHost "__newindex"
    obtain ⟨-, hgives⟩ :=
      hassigned.asked (entry_answeringHost "__newindex" _) (by rw [hhandler]; rfl)
    rw [hhandler] at hgives
    obtain ⟨pushed, after, hpush, hcall, hslice⟩ :=
      returned_answeringHost "__newindex" [.table ⟨0⟩, .bool false, .int 8] (.bool false)
        (by decide +kernel)
    exact ⟨_, hgives.answered pushed after [.bool false] hpush hcall hslice⟩

end Vm

end LuaMachine
