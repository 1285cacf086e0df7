import Mathlib.Logic.Function.Iterate
import LuaMachine.Proofs.HandlerCalls
import LuaMachine.Proofs.TableMap

/-!
# Chains of handlers

An index goes from object to object as long as the handler of each is neither nil nor a function.
The first object that has a value of its own, no handler or a function for a handler decides what
comes of it. Metatables may form any graph: a chain is followed for a bounded number of links, so
that a look-up in a cycle ends with an error of its own.
-/
namespace LuaMachine

namespace Vm
variable {vm : Vm} {event : String} {obj key o : Value} {i j links : Nat} {first : Bool}

/-! ## Links -/

/-- The raw value of an object at a key. Only a table has one. -/
def entry (vm : Vm) (key : Value) : Value → Value
  | .table r => vm.heap.rawGetValue r key
  | _ => .nil

/-- The object that `i` handlers lead to from `obj`. Handlers that are nil or functions lead
nowhere, but a chain that meets one is decided there. -/
def link (vm : Vm) (event : String) (obj : Value) (i : Nat) : Value :=
  (fun o => vm.metafield o event)^[i] obj

/-- The object decides an index: it has a value of its own at the key, no handler for the event, or
a function. -/
def Decides (vm : Vm) (event : String) (key o : Value) : Prop :=
  vm.entry key o ≠ .nil ∨ vm.metafield o event = .nil ∨ (vm.metafield o event).isFunction = true

instance instDecidableDecides (vm : Vm) (event : String) (key o : Value) :
    Decidable (vm.Decides event key o) :=
  inferInstanceAs (Decidable (_ ∨ _ ∨ _))

/-- The chain of handlers from `obj` is decided by its link `i`, the first one that decides. -/
structure DecidedAt (vm : Vm) (event : String) (obj key : Value) (i : Nat) : Prop where
  lt : i < maxChain
  decides : vm.Decides event key (vm.link event obj i)
  undecided : ∀ j, j < i → ¬ vm.Decides event key (vm.link event obj j)

theorem link_succ (obj : Value) (i : Nat) :
    vm.link event obj (i + 1) = vm.link event (vm.metafield obj event) i :=
  Function.iterate_succ_apply _ i obj

theorem link_add (obj : Value) (i j : Nat) :
    vm.link event obj (i + j) = vm.link event (vm.link event obj j) i :=
  Function.iterate_add_apply _ i j obj

/-- A chain that comes back to a link goes round from there. -/
theorem link_of_cycle (hij : i < j) (h : vm.link event obj i = vm.link event obj j) (k : Nat) :
    ∃ l, l < j ∧ vm.link event obj k = vm.link event obj l := by
  induction k using Nat.strong_induction_on with
  | _ k ih =>
    by_cases hk : k < j
    · exact ⟨k, hk, rfl⟩
    · obtain ⟨l, hl, hlink⟩ := ih (k - j + i) (by omega)
      refine ⟨l, hl, ?_⟩
      rw [← hlink, link_add, h, ← link_add, Nat.sub_add_cancel (Nat.le_of_not_lt hk)]

/-- A chain that comes back to a link before any link decides is never decided. -/
theorem undecided_of_cycle (hij : i < j) (h : vm.link event obj i = vm.link event obj j)
    (hn : ∀ k, k < j → ¬ vm.Decides event key (vm.link event obj k)) (k : Nat) :
    ¬ vm.Decides event key (vm.link event obj k) := by
  obtain ⟨l, hl, hlink⟩ := link_of_cycle hij h k
  rw [hlink]
  exact hn l hl

/-- Of the links that decide there is a first one. -/
theorem exists_decidedAt (hlt : i < maxChain) (h : vm.Decides event key (vm.link event obj i)) :
    ∃ j, vm.DecidedAt event obj key j := by
  have hex : ∃ j, vm.Decides event key (vm.link event obj j) := ⟨i, h⟩
  exact ⟨Nat.find hex, Nat.lt_of_le_of_lt (Nat.find_min' hex h) hlt, Nat.find_spec hex,
    fun _ => Nat.find_min hex⟩

/-- An object that has a value of its own decides at once. -/
theorem DecidedAt.eq_zero (h : vm.DecidedAt event obj key i) (hentry : vm.entry key obj ≠ .nil) :
    i = 0 := by
  by_contra hne
  exact h.undecided 0 (Nat.pos_of_ne_zero hne) (.inl hentry)

theorem entry_of_undecided (h : ∀ j, j < maxChain → ¬ vm.Decides event key (vm.link event obj j)) :
    vm.entry key obj = .nil := by
  by_contra hne
  exact h 0 (by decide) (.inl hne)

/-- A walk along a chain hands over at every link that does not decide. So it comes to the first one
that does, or runs out of links. -/
theorem walk_link {α : Type} {walk : Nat → Bool → Value → α}
    (hwalk : ∀ links first o, ¬ vm.Decides event key o →
      walk (links + 1) first o = walk links false (vm.metafield o event))
    (h : ∀ j, j < i → ¬ vm.Decides event key (vm.link event obj j)) :
    walk (links + i) first obj = walk links (first && i = 0) (vm.link event obj i) := by
  induction i generalizing obj first with
  | zero => simp [link]
  | succ i ih =>
    have hhead : ¬ vm.Decides event key obj := h 0 (Nat.zero_lt_succ i)
    have hrest : ∀ j, j < i →
        ¬ vm.Decides event key (vm.link event (vm.metafield obj event) j) := by
      intro j hj
      rw [← link_succ]
      exact h (j + 1) (Nat.succ_lt_succ hj)
    rw [← Nat.add_assoc, hwalk _ _ _ hhead, ih hrest, link_succ]
    simp

/-- A walk ends with the reply of the link that decides, except that it is left to the caller if
that is the first one and it has no handler. -/
theorem walk_of_decidedAt {α : Type} {walk : Nat → Bool → Value → Except Cause (Option α)}
    {reply : Value → Except Cause α}
    (hwalk : ∀ links first o, ¬ vm.Decides event key o →
      walk (links + 1) first o = walk links false (vm.metafield o event))
    (hends : ∀ links first o, vm.Decides event key o → (first = true → vm.entry key o = .nil) →
      walk (links + 1) first o =
      if first = true ∧ vm.metafield o event = .nil then .ok none else (reply o).map some)
    (h : vm.DecidedAt event obj key i) (hentry : vm.entry key obj = .nil) :
    walk maxChain true obj =
      if i = 0 ∧ vm.metafield obj event = .nil then .ok none
      else (reply (vm.link event obj i)).map some := by
  have hlt := h.lt
  rw [show maxChain = maxChain - i - 1 + 1 + i by omega, walk_link hwalk h.undecided, Bool.true_and]
  rw [hends _ _ _ h.decides fun hi => by rw [of_decide_eq_true hi]; exact hentry]
  simp only [decide_eq_true_eq]
  by_cases hi : i = 0
  · subst hi
    rfl
  · rw [if_neg fun hnone => hi hnone.1, if_neg fun hnone => hi hnone.1]

theorem walk_of_undecided {α : Type} {walk : Nat → Bool → Value → α}
    (hwalk : ∀ links first o, ¬ vm.Decides event key o →
      walk (links + 1) first o = walk links false (vm.metafield o event))
    (h : ∀ j, j < maxChain → ¬ vm.Decides event key (vm.link event obj j)) :
    walk maxChain true obj = walk 0 false (vm.link event obj maxChain) := by
  have hwhole : walk (0 + maxChain) true obj = _ := walk_link hwalk h
  rwa [Nat.zero_add] at hwhole

/-! ## A ring of tables -/

/-- A metatable that leads to another table. -/
def leadingTo (event : String) (target : TableRef) : TableObject :=
  { content := Table.empty.set (.ofText event) (.table target) }

/-- Two tables that lead to each other. The second one has a value of its own. -/
def ringHost (event : String) : Vm :=
  .new {} .standard {
    tables := #[{ metatable := some ⟨1⟩ }, leadingTo event ⟨2⟩,
      { content := Table.empty.set (.bool true) (.int 7), metatable := some ⟨3⟩ },
        leadingTo event ⟨0⟩] } {}

theorem metafield_ringHost (event : String) :
    (ringHost event).metafield (.table ⟨0⟩) event = .table ⟨2⟩ ∧
      (ringHost event).metafield (.table ⟨2⟩) event = .table ⟨0⟩ := by
  have hleads : ∀ target, (leadingTo event target).content.get (.ofText event) = .table target := by
    intro target
    rw [leadingTo, Table.get_set, if_pos rfl]
  exact ⟨hleads ⟨2⟩, hleads ⟨0⟩⟩

theorem entry_ringHost (event : String) (b : Bool) :
    (ringHost event).entry (.bool b) (.table ⟨0⟩) = .nil ∧
      (ringHost event).entry (.bool b) (.table ⟨2⟩) = if b then .int 7 else .nil := by
  refine ⟨Table.getValue_empty (.bool b), ?_⟩
  show (Table.empty.set (.bool true) (.int 7)).get (.bool b) = _
  rw [Table.get_set, Table.get_empty]
  cases b <;> rfl

/-- Only the value of its own decides at the second table, and nothing at the first one. -/
theorem undecided_ringHost (event : String) :
    (∀ b, ¬ (ringHost event).Decides event (.bool b) (.table ⟨0⟩)) ∧
      ¬ (ringHost event).Decides event (.bool false) (.table ⟨2⟩) := by
  obtain ⟨hfirst, hsecond⟩ := metafield_ringHost event
  refine ⟨fun b => ?_, ?_⟩
  · rw [Decides, (entry_ringHost event b).1, hfirst]
    simp [Value.isFunction]
  · rw [Decides, (entry_ringHost event false).2, hsecond]
    simp [Value.isFunction]

theorem link_ringHost (event : String) :
    (ringHost event).link event (.table ⟨0⟩) 1 = .table ⟨2⟩ ∧
      (ringHost event).link event (.table ⟨0⟩) 2 = .table ⟨0⟩ := by
  obtain ⟨hfirst, hsecond⟩ := metafield_ringHost event
  rw [link_succ, link_succ, hfirst, link_succ, hsecond]
  exact ⟨rfl, rfl⟩

/-- A chain for a key without a value goes round. -/
theorem undecided_link_ringHost (event : String) (i : Nat) :
    ¬ (ringHost event).Decides event (.bool false)
      ((ringHost event).link event (.table ⟨0⟩) i) := by
  obtain ⟨hlink, hround⟩ := link_ringHost event
  obtain ⟨hfirst, hsecond⟩ := undecided_ringHost event
  refine undecided_of_cycle (show 0 < 2 by decide) hround.symm (fun k hk => ?_) i
  obtain rfl | rfl : k = 0 ∨ k = 1 := by omega
  · exact hfirst false
  · rw [hlink]
    exact hsecond

theorem decidedAt_ringHost (event : String) :
    (ringHost event).DecidedAt event (.table ⟨0⟩) (.bool true) 1 := by
  refine ⟨by decide, .inl ?_, fun j hj => ?_⟩
  · rw [(link_ringHost event).1, (entry_ringHost event true).2]
    exact Value.noConfusion
  · obtain rfl : j = 0 := by omega
    exact (undecided_ringHost event).1 true

/-! ## Looking up -/

/-- What an object that decides a look-up has to say: its own value, nil if it is a table without
one, or that its handler has to be called. -/
def indexReply (vm : Vm) (key o : Value) : Except Cause (Reply Value) :=
  if vm.entry key o ≠ .nil then .ok (.done (vm.entry key o))
  else if vm.metafield o "__index" = .nil then
    if o.isTable then .ok (.done .nil) else .error (.cannotIndex o.type)
  else .ok (.call (vm.metafield o "__index") [o, key])

/-- One link of a look-up. The own value of the first object was looked at already. -/
theorem followIndex_eq (vm : Vm) (key o : Value) (links : Nat) (first : Bool) :
    vm.heap.followIndex vm.types key (links + 1) first o =
      if !(if first then .nil else vm.entry key o).isNil then .ok (some (.done (vm.entry key o)))
      else if (vm.metafield o "__index").isNil then
        if first then .ok none else if o.isTable then .ok (some (.done .nil))
        else .error (.cannotIndex o.type)
      else if (vm.metafield o "__index").isFunction then .ok
        (some (.call (vm.metafield o "__index") [o, key]))
      else vm.heap.followIndex vm.types key links false (vm.metafield o "__index") := by
  cases first <;> cases o <;> rfl

theorem followIndex_of_undecided (links : Nat) (first : Bool) (o : Value)
    (h : ¬ vm.Decides "__index" key o) :
    vm.heap.followIndex vm.types key (links + 1) first o =
      vm.heap.followIndex vm.types key links false (vm.metafield o "__index") := by
  simp only [Decides, not_or, not_not, Bool.not_eq_true] at h
  obtain ⟨hentry, hhandler, hobject⟩ := h
  simp [followIndex_eq, hentry, hhandler, hobject]

/-- A link that decides ends the chain with its reply, except that at the first one it is left to
the caller if there is no handler. -/
theorem followIndex_of_decides (links : Nat) (first : Bool) (o : Value)
    (h : vm.Decides "__index" key o) (hfirst : first = true → vm.entry key o = .nil) :
    vm.heap.followIndex vm.types key (links + 1) first o =
      if first = true ∧ vm.metafield o "__index" = .nil then .ok none
      else (vm.indexReply key o).map some := by
  rw [followIndex_eq, indexReply]
  by_cases hentry : vm.entry key o = .nil
  · by_cases hhandler : vm.metafield o "__index" = .nil
    · cases first <;> cases o.isTable <;> simp [hentry, hhandler, Except.map]
    · have hfunction : (vm.metafield o "__index").isFunction = true := by
        simpa [Decides, hentry, hhandler] using h
      simp [hentry, hhandler, hfunction, Except.map]
  · obtain rfl : first = false := by
      cases first with
      | true => exact absurd (hfirst rfl) hentry
      | false => rfl
    simp [hentry, Except.map]

theorem rawEntry_eq (obj key : Value) (vm : Vm) :
    rawEntry obj key vm = .returned (vm.entry key obj) vm := by
  cases obj <;> rfl

/-- The hooks were consulted, which only the record of consultations shows. -/
theorem consult_returned (event : String) (args : List Value) (vm : Vm) :
    ∃ log, (vm.consultations = none → log = none) ∧
      consult event args vm = .returned () { vm with consultations := log } := by
  rw [consult_eq]
  refine ⟨_, fun h => ?_, rfl⟩
  rw [h, Option.map_none]

/-- What comes of a look-up with the standard hooks. -/
def lookUp (vm : Vm) (obj key : Value) : Except Cause (Reply Value) :=
  if vm.entry key obj ≠ .nil then .ok (.done (vm.entry key obj))
  else
    match vm.heap.followIndex vm.types key maxChain true obj with
    | .ok (some reply) => .ok reply
    | .ok none => if obj.isTable then .ok (.done .nil) else .error (.cannotIndex obj.type)
    | .error c => .error c

theorem index_eq (hh : vm.hooks = .standard) (obj key : Value) :
    ∃ log, (vm.consultations = none → log = none) ∧
      index obj key vm = settle (vm.lookUp obj key) { vm with consultations := log } := by
  by_cases hentry : vm.entry key obj = .nil
  · obtain ⟨log, hlog, hconsult⟩ := consult_returned "index" [obj, key] vm
    refine ⟨log, hlog, ?_⟩
    rw [index, Exec.bind_of_returned (rawEntry_eq obj key vm), hentry]
    show (consult "index" [obj, key] >>= _) vm = _
    rw [Exec.bind_of_returned hconsult, lookUp, if_neg (not_not.mpr hentry)]
    simp only [bind, Exec.bind, Exec.look, hh]
    cases vm.heap.followIndex vm.types key maxChain true obj with
    | error c => rfl
    | ok found =>
      cases found with
      | some reply => rfl
      | none => cases obj.isTable <;> rfl
  · refine ⟨vm.consultations, fun h => h, ?_⟩
    have hnil : (vm.entry key obj).isNil = false :=
      Bool.eq_false_iff.mpr (mt Value.isNil_iff.mp hentry)
    rw [index, Exec.bind_of_returned (rawEntry_eq obj key vm), lookUp, if_pos hentry, hnil]
    rfl

/-- A look-up ends with the reply of the link that decides its chain. -/
theorem lookUp_of_decidedAt (h : vm.DecidedAt "__index" obj key i) :
    vm.lookUp obj key = vm.indexReply key (vm.link "__index" obj i) := by
  by_cases hentry : vm.entry key obj = .nil
  · rw [lookUp, if_neg (not_not.mpr hentry),
      walk_of_decidedAt followIndex_of_undecided followIndex_of_decides h hentry]
    by_cases hnone : i = 0 ∧ vm.metafield obj "__index" = .nil
    · obtain ⟨rfl, hhandler⟩ := hnone
      rw [if_pos ⟨rfl, hhandler⟩, show vm.link "__index" obj 0 = obj from rfl, indexReply,
        if_neg (not_not.mpr hentry), if_pos hhandler]
    · rw [if_neg hnone]
      cases vm.indexReply key (vm.link "__index" obj i) <;> rfl
  · obtain rfl := h.eq_zero hentry
    rw [lookUp, if_pos hentry, indexReply]
    exact (if_pos hentry).symm

theorem lookUp_of_undecided
    (h : ∀ j, j < maxChain → ¬ vm.Decides "__index" key (vm.link "__index" obj j)) :
    vm.lookUp obj key = .error (.chainTooLong "__index") := by
  rw [lookUp, if_neg (not_not.mpr (entry_of_undecided h)),
    walk_of_undecided followIndex_of_undecided h]
  rfl

/-- The object `o` decides a look-up in the state `vm`, and the outcome is accordingly: its own
value, nil if it is a table without a value and a handler, an error that names its type if it is no
table, or what a call of its handler with the object and the key delivers: its first result, or nil
if it has none, or its error. -/
structure LookedUp (fuel : Nat) (key o : Value) (vm : Vm) (outcome : Outcome Value) : Prop where
  own : vm.entry key o ≠ .nil → outcome = .returned (vm.entry key o) vm
  absent : vm.entry key o = .nil → vm.metafield o "__index" = .nil → o.isTable = true →
    outcome = .returned .nil vm
  refused : vm.entry key o = .nil → vm.metafield o "__index" = .nil → o.isTable = false →
    outcome = .raised { cause := .cannotIndex o.type } vm
  asked : vm.entry key o = .nil → (vm.metafield o "__index").isFunction = true →
    outcome = callOnce fuel (vm.metafield o "__index") [o, key] vm ∧
      HandlerGives fuel (vm.metafield o "__index") [o, key] (·.headD .nil) vm outcome

theorem lookedUp_indexReply (fuel : Nat) (key o : Value) (vm : Vm) :
    LookedUp fuel key o vm ((settle (vm.indexReply key o) >>= fulfil fuel) vm) := by
  unfold indexReply
  refine ⟨fun hentry => ?_, fun hentry hhandler htable => ?_, fun hentry hhandler htable => ?_,
    fun hentry hfunction => ?_⟩
  · rw [if_pos hentry]
    rfl
  · rw [if_neg (not_not.mpr hentry), if_pos hhandler, if_pos htable]
    rfl
  · rw [if_neg (not_not.mpr hentry), if_pos hhandler, if_neg (Bool.eq_false_iff.mp htable)]
    rfl
  · have hhandler : vm.metafield o "__index" ≠ .nil := by
      intro hnil
      rw [hnil] at hfunction
      cases hfunction
    rw [if_neg (not_not.mpr hentry), if_neg hhandler]
    exact ⟨rfl, callFunction_gives fuel _ [o, key] (·.headD .nil) vm⟩

/-- A look-up always ends. The first link that decides its chain determines the outcome, and a chain
that is not decided within its bound, as one that goes round, is an error. Nothing but a handler
that is called changes a table. -/
theorem index_decided_by_chain (hh : vm.hooks = .standard) (fuel : Nat) (obj key : Value) :
    ∃ log, (vm.consultations = none → log = none) ∧
      (∀ i, vm.DecidedAt "__index" obj key i →
        LookedUp fuel key (vm.link "__index" obj i) { vm with consultations := log }
          (getIndex fuel obj key vm)) ∧
      ((∀ i, ¬ vm.DecidedAt "__index" obj key i) →
        getIndex fuel obj key vm = .raised { cause := .chainTooLong "__index" }
          { vm with consultations := log }) ∧
      ∀ i j, i < j → vm.link "__index" obj i = vm.link "__index" obj j →
        (∀ k, k < j → ¬ vm.Decides "__index" key (vm.link "__index" obj k)) →
        getIndex fuel obj key vm = .raised { cause := .chainTooLong "__index" }
          { vm with consultations := log } := by
  obtain ⟨log, hlog, hindex⟩ := index_eq hh obj key
  have hget : getIndex fuel obj key vm =
      (settle (vm.lookUp obj key) >>= fulfil fuel) { vm with consultations := log } := by
    show Exec.bind (index obj key) (fulfil fuel) vm = Exec.bind _ _ _
    rw [Exec.bind, Exec.bind, hindex]
  have hlong : (∀ i, ¬ vm.DecidedAt "__index" obj key i) →
      getIndex fuel obj key vm = .raised { cause := .chainTooLong "__index" }
        { vm with consultations := log } := by
    intro hnone
    rw [hget, lookUp_of_undecided fun j hj hd => (exists_decidedAt hj hd).elim hnone]
    rfl
  refine ⟨log, hlog, fun i hi => ?_, hlong, fun i j hij hcycle hn => hlong fun k hk => ?_⟩
  · rw [hget, lookUp_of_decidedAt hi]
    exact lookedUp_indexReply fuel key _ { vm with consultations := log }
  · exact undecided_of_cycle hij hcycle hn k hk.decides

/-- Returns its second parameter. -/
def returnSecond : Prototype where
  paramCount := 2
  maxStackSize := 2
  code := #[⟨0x01000066⟩]

/-- A table with a function as its handler. -/
def answeringHost (event : String) : Vm :=
  .new {} .standard {
    tables := #[{ metatable := some ⟨1⟩ },
      { content := Table.empty.set (.ofText event) (.closure ⟨0⟩) }]
    closures := #[{ proto := returnSecond, upvalues := #[] }] } {}

theorem metafield_answeringHost (event : String) :
    (answeringHost event).metafield (.table ⟨0⟩) event = .closure ⟨0⟩ := by
  show (Table.empty.set (.ofText event) (.closure ⟨0⟩)).get (.ofText event) = _
  rw [Table.get_set, if_pos rfl]

theorem entry_answeringHost (event : String) (key : Value) :
    (answeringHost event).entry key (.table ⟨0⟩) = .nil :=
  Table.getValue_empty key

/-- The handler decides at once. -/
theorem decidedAt_answeringHost (event : String) (key : Value) :
    (answeringHost event).DecidedAt event (.table ⟨0⟩) key 0 := by
  refine ⟨by decide, .inr (.inr ?_), fun j hj => absurd hj (Nat.not_lt_zero j)⟩
  show ((answeringHost event).metafield (.table ⟨0⟩) event).isFunction = true
  rw [metafield_answeringHost]
  rfl

/-- The function returns the key, if a run of one step shows it. -/
theorem returned_answeringHost (event : String) (args : List Value) (v : Value)
    (h : ((pushAll (.closure ⟨0⟩ :: args) (answeringHost event)).result?.any fun p =>
      (call 1 0 .all p.2).result?.any fun q =>
        q.2.top == 1 && 1 ≤ q.2.stack.size && q.2.stack.Holds 0 [v]) = true) :
    ∃ pushed after, pushAll (.closure ⟨0⟩ :: args) (answeringHost event) = .returned () pushed ∧
      call 1 0 .all pushed = .returned () after ∧ after.stack.slice 0 after.top = .ok [v] := by
  obtain ⟨⟨_, pushed⟩, hpush, h⟩ := (Option.any_eq_true _ _).mp h
  obtain ⟨⟨_, after⟩, hcall, hfacts⟩ := (Option.any_eq_true _ _).mp h
  simp only [Bool.and_eq_true, beq_iff_eq, decide_eq_true_eq, and_assoc] at hfacts
  obtain ⟨htop, hsize, hheld⟩ := hfacts
  exact ⟨pushed, after, Outcome.result?_eq_some hpush, Outcome.result?_eq_some hcall,
    RegisterStack.slice_eq_ok_iff.mpr ⟨htop.symm, htop ▸ hsize, hheld⟩⟩

/-- The ring decides a look-up of the value at its second link. A look-up of anything else goes
round. A function is called with the table and the key, and the key is its first result. -/
theorem index_decided_by_chain_ring :
    (ringHost "__index").hooks = .standard ∧
      getIndex 0 (.table ⟨0⟩) (.bool true) (ringHost "__index") =
        .returned (.int 7) (ringHost "__index") ∧
      getIndex 0 (.table ⟨0⟩) (.bool false) (ringHost "__index") =
        .raised { cause := .chainTooLong "__index" } (ringHost "__index") ∧
      ∃ after, getIndex 1 (.table ⟨0⟩) (.bool false) (answeringHost "__index") =
        .returned (.bool false) after := by
  have hhooks : (ringHost "__index").hooks = .standard := rfl
  refine ⟨hhooks, ?_, ?_, ?_⟩
  · obtain ⟨log, hlog, hdecided, -⟩ :=
      index_decided_by_chain hhooks 0 (.table ⟨0⟩) (.bool true)
    obtain rfl := hlog rfl
    have hlooked : LookedUp 0 _ _ (ringHost "__index") _ :=
      hdecided 1 (decidedAt_ringHost "__index")
    have hown := (entry_ringHost "__index" true).2
    rw [(link_ringHost "__index").1] at hlooked
    rw [hlooked.own (by rw [hown]; exact Value.noConfusion), hown]
    rfl
  · obtain ⟨log, hlog, -, -, hcycle⟩ :=
      index_decided_by_chain hhooks 0 (.table ⟨0⟩) (.bool false)
    obtain rfl := hlog rfl
    exact hcycle 0 2 (by decide) (link_ringHost "__index").2.symm
      fun k _ => undecided_link_ringHost "__index" k
  · obtain ⟨log, hlog, hdecided, -⟩ := index_decided_by_chain
      (show (answeringHost "__index").hooks = .standard from rfl) 1 (.table ⟨0⟩) (.bool false)
    obtain rfl := hlog rfl
    have hlooked : LookedUp 1 _ (.table ⟨0⟩) (answeringHost "__index") _ :=
      hdecided 0 (decidedAt_answeringHost "__index" _)
    have hhandler := metafield_answeringHost "__index"
    obtain ⟨-, hgives⟩ := hlooked.asked (entry_answeringHost "__index" _) (by rw [hhandler]; rfl)
    rw [hhandler] at hgives
    obtain ⟨pushed, after, hpush, hcall, hslice⟩ :=
      returned_answeringHost "__index" [.table ⟨0⟩, .bool false] (.bool false) (by decide +kernel)
    exact ⟨_, hgives.answered pushed after [.bool false] hpush hcall hslice⟩

end Vm

end LuaMachine
