import Mathlib.Data.List.TakeWhile
import Mathlib.Tactic
import LuaMachine.Machine.Run

/-!
# Concatenation

The binary operation joins two strings or numbers and leaves any other pair to a hook. A
concatenation of many operands goes from the right, and takes whole runs of strings and numbers at
once. What a hook returns takes part in the next run. The hook may have effects of any kind, so the
two ways to concatenate are compared as computations in an arbitrary monad: where they are equal,
they consult the hook with the same operands in the same order, and pass on its errors alike.
-/
namespace LuaMachine

theorem Value.isConcatenable_iff {v : Value} :
    v.isConcatenable = true ↔ ∃ s, v.toBytes? = some s := by
  cases v <;> simp [isConcatenable, isString, isNumber, toBytes?]

namespace Vm
variable {m : Type → Type} [Monad m] (hook : Value → Value → m (Option Value))
  (refuse : Cause → m Value) {v l r : Value} {rest values more : List Value} {rounds : ℕ}

/-! ## Pairs -/

/-- The result of a pair that the hook was asked about. If it has declined, the first operand that
is neither a string nor a number is to blame. -/
def settlePair (lhs rhs : Value) : Option Value → m Value
  | some v => pure v
  | none => refuse (.cannotConcat (if lhs.isConcatenable then rhs else lhs).type)

/-- `lhs .. rhs`: the string forms joined, or else what the hook says. -/
def concatPair (lhs rhs : Value) : m Value :=
  match lhs.toBytes?, rhs.toBytes? with
  | some l, some r => pure (.string (l ++ r))
  | _, _ => hook lhs rhs >>= settlePair refuse lhs rhs

theorem concatPair_of_bytes {a b : ByteArray} (hl : l.toBytes? = some a)
    (hr : r.toBytes? = some b) : concatPair hook refuse l r = pure (.string (a ++ b)) := by
  simp only [concatPair, hl, hr]

theorem concatPair_of_hook (h : (l.isConcatenable && r.isConcatenable) = false) :
    concatPair hook refuse l r = hook l r >>= settlePair refuse l r := by
  unfold concatPair
  split
  · next a b hl hr =>
    rw [Value.isConcatenable_iff.mpr ⟨a, hl⟩, Value.isConcatenable_iff.mpr ⟨b, hr⟩] at h
    cases h
  · rfl

/-- Concatenates pair by pair from the right: `last` with the operands before it, which stand in
reverse. -/
def concatPairs (last : Value) (reversed : List Value) : m Value :=
  reversed.foldlM (fun acc l => concatPair hook refuse l acc) last

theorem concatPairs_cons (v l : Value) (rest : List Value) :
    concatPairs hook refuse v (l :: rest) = concatPair hook refuse l v >>= fun w =>
      concatPairs hook refuse w rest :=
  List.foldlM_cons

/-! ## Runs -/

section Runs
variable [LawfulMonad m]

/-- Strings and numbers that stand before a string are put before it one after another. -/
theorem concatPairs_run {run : List Value} (hrun : ∀ v ∈ run, v.isConcatenable = true)
    (s : ByteArray) :
    concatPairs hook refuse (.string s) (run ++ rest) =
      concatPairs hook refuse
        (.string (run.foldl (fun acc v => v.toBytes?.getD .empty ++ acc) s)) rest := by
  induction run generalizing s with
  | nil => rfl
  | cons l run ih =>
    obtain ⟨a, ha⟩ := Value.isConcatenable_iff.mp (hrun l List.mem_cons_self)
    rw [List.cons_append, concatPairs_cons, concatPair_of_bytes hook refuse ha rfl, pure_bind,
      ih fun v hv => hrun v (List.mem_cons_of_mem l hv), List.foldl_cons, ha, Option.getD_some]

/-- A run of at least two strings and numbers is joined at once. -/
theorem concatPairs_joined {run : List Value} (rest : List Value) (hv : v.isConcatenable = true)
    (hl : l.isConcatenable = true) (hrun : ∀ v ∈ run, v.isConcatenable = true) :
    concatPairs hook refuse v (l :: (run ++ rest)) =
      concatPairs hook refuse (.string (joinReversed (v :: l :: run))) rest := by
  obtain ⟨a, ha⟩ := Value.isConcatenable_iff.mp hv
  obtain ⟨b, hb⟩ := Value.isConcatenable_iff.mp hl
  rw [concatPairs_cons, concatPair_of_bytes hook refuse hb ha, pure_bind,
    concatPairs_run hook refuse hrun]
  simp only [joinReversed, List.foldl_cons, ha, hb, Option.getD_some, ByteArray.append_empty]

/-- Joining what needs no hook leaves the concatenation pair by pair as it is. It ends when
everything is joined, or before a pair that has to go to the hook. -/
theorem joinRun_cases (v : Value) (rest : List Value) :
    (∃ w, joinRun (v :: rest) = .done w ∧ concatPairs hook refuse v rest = pure w) ∨
    ∃ l r left, joinRun (v :: rest) = .ask l r left ∧
    (l.isConcatenable && r.isConcatenable) = false ∧
      left.length < rest.length ∧ concatPairs hook refuse v rest =
        concatPairs hook refuse r (l :: left) := by
  cases rest with
  | nil => exact .inl ⟨v, rfl, rfl⟩
  | cons l rest =>
    unfold joinRun
    dsimp only
    split_ifs with hpair
    · obtain ⟨hl, hv⟩ := Bool.and_eq_true_iff.mp hpair
      have hrun : ∀ w ∈ rest.takeWhile Value.isConcatenable, w.isConcatenable = true :=
        fun w hw => List.mem_takeWhile_imp hw
      have hjoined :=
        concatPairs_joined hook refuse (rest.dropWhile Value.isConcatenable) hv hl hrun
      rw [List.takeWhile_append_dropWhile] at hjoined
      rw [List.takeWhile_cons_of_pos hv, List.takeWhile_cons_of_pos hl,
        List.dropWhile_cons_of_pos hv, List.dropWhile_cons_of_pos hl, hjoined]
      cases hleft : rest.dropWhile Value.isConcatenable with
      | nil => exact .inl ⟨_, rfl, rfl⟩
      | cons next left =>
        have hnext :=
          List.head_dropWhile_not Value.isConcatenable (l := rest)
            (by rw [hleft]; exact List.cons_ne_nil _ _)
        simp only [hleft, List.head_cons] at hnext
        have hlength := (List.dropWhile_suffix Value.isConcatenable (l := rest)).length_le
        rw [hleft, List.length_cons] at hlength
        refine .inr ⟨next, _, left, rfl, by rw [hnext, Bool.false_and], ?_, rfl⟩
        rw [List.length_cons]
        omega
    · exact .inr ⟨l, v, rest, rfl, Bool.eq_false_iff.mpr hpair, Nat.lt_succ_self _, rfl⟩

/-- Rounds of joining and asking are the concatenation pair by pair. A refusal ends both. -/
theorem joinWith_eq_concatPairs
    (hends : ∀ (c : Cause) (f : Value → m Value), refuse c >>= f = refuse c)
    (hlength : rest.length < rounds) :
    joinWith hook refuse rounds (v :: rest) = concatPairs hook refuse v rest := by
  induction rounds generalizing v rest with
  | zero => omega
  | succ rounds ih =>
    unfold joinWith
    rcases joinRun_cases hook refuse v rest with ⟨w, hjoin, hpairs⟩ | ⟨l, r, left, hjoin, hhook,
      hleft, hpairs⟩
    · rw [hjoin, hpairs]
    · rw [hjoin, hpairs, concatPairs_cons, concatPair_of_hook hook refuse hhook, bind_assoc]
      refine bind_congr fun reply => ?_
      cases reply with
      | none => exact (hends _ _).symm
      | some w =>
        rw [settlePair, pure_bind]
        exact ih (by omega)

end Runs

/-! ## Strings and numbers only -/

/-- The string forms of values, joined in order. -/
def joined (values : List Value) : ByteArray :=
  values.foldr (fun v acc => v.toBytes?.getD .empty ++ acc) .empty

theorem joined_append (values more : List Value) :
    joined (values ++ more) = joined values ++ joined more := by
  induction values with
  | nil => exact ByteArray.empty_append.symm
  | cons v values ih =>
    show _ ++ joined (values ++ more) = (_ ++ joined values) ++ joined more
    rw [ih, ByteArray.append_assoc]

/-- The concatenation of strings and numbers. A single one stays what it is. -/
def concatenated : List Value → Value
  | [v] => v
  | values => .string (joined values)

theorem concatenated_append (hl : values ≠ []) (hr : more ≠ []) :
    concatenated (values ++ more) = .string (joined values ++ joined more) := by
  rw [← joined_append]
  obtain ⟨v, values, rfl⟩ := List.exists_cons_of_ne_nil hl
  obtain ⟨w, more, rfl⟩ := List.exists_cons_of_ne_nil hr
  cases values <;> rfl

theorem toBytes?_concatenated (h : ∀ v ∈ values, v.isConcatenable = true) :
    values ≠ [] → (concatenated values).toBytes? = some (joined values) := by
  intro hne
  obtain ⟨v, values, rfl⟩ := List.exists_cons_of_ne_nil hne
  cases values with
  | nil =>
    obtain ⟨a, ha⟩ := Value.isConcatenable_iff.mp (h v List.mem_cons_self)
    simp [concatenated, joined, ha]
  | cons w values => rfl

/-- A way to put operands together in pairs. -/
inductive Grouping where
  | operand (v : Value)
  | pair (lhs rhs : Grouping)

namespace Grouping

def operands : Grouping → List Value
  | operand v => [v]
  | pair lhs rhs => lhs.operands ++ rhs.operands

/-- Concatenates the operands as they are grouped. -/
def eval : Grouping → m Value
  | operand v => pure v
  | pair lhs rhs => do
    let r ← rhs.eval
    let l ← lhs.eval
    concatPair hook refuse l r

/-- The grouping in which every operand is put before all that follow it. -/
def fromRight (front : List Value) (last : Value) : Grouping :=
  front.foldr (fun v g => pair (operand v) g) (operand last)

theorem operands_fromRight (front : List Value) (last : Value) :
    (fromRight front last).operands = front ++ [last] := by
  induction front with
  | nil => rfl
  | cons v front ih => exact congrArg (v :: ·) ih

theorem operands_ne_nil (g : Grouping) : g.operands ≠ [] := by
  induction g with
  | operand v => exact List.cons_ne_nil v []
  | pair lhs rhs ih _ => exact List.append_ne_nil_of_left_ne_nil ih _

theorem eval_fromRight [LawfulMonad m] (front : List Value) (last : Value) :
    (fromRight front last).eval hook refuse = front.foldrM (concatPair hook refuse) last := by
  induction front with
  | nil => rfl
  | cons v front ih =>
    rw [List.foldrM_cons, ← ih]
    show (fromRight front last).eval hook refuse >>= _ = _
    simp only [eval, pure_bind]

/-- Strings and numbers are concatenated to the same, however they are grouped. -/
theorem eval_eq [LawfulMonad m] (g : Grouping) (h : ∀ v ∈ g.operands, v.isConcatenable = true) :
    g.eval hook refuse = pure (concatenated g.operands) := by
  induction g with
  | operand v => rfl
  | pair lhs rhs ihl ihr =>
    have hl : ∀ v ∈ lhs.operands, v.isConcatenable = true :=
      fun v hv => h v (List.mem_append_left _ hv)
    have hr : ∀ v ∈ rhs.operands, v.isConcatenable = true :=
      fun v hv => h v (List.mem_append_right _ hv)
    rw [eval, ihl hl, ihr hr, pure_bind, pure_bind, operands,
      concatenated_append lhs.operands_ne_nil rhs.operands_ne_nil]
    exact concatPair_of_bytes hook refuse (toBytes?_concatenated hl lhs.operands_ne_nil)
      (toBytes?_concatenated hr rhs.operands_ne_nil)

end Grouping

/-! ## The concatenation of a list -/

theorem concatWith_eq_foldrM [LawfulMonad m]
    (hends : ∀ (c : Cause) (f : Value → m Value), refuse c >>= f = refuse c) (front : List Value)
    (last : Value) :
    concatWith hook refuse (front ++ [last]) = front.foldrM (concatPair hook refuse) last := by
  unfold concatWith
  rw [List.reverse_append, List.reverse_singleton, List.singleton_append,
    joinWith_eq_concatPairs hook refuse hends (by simp), concatPairs, List.foldlM_reverse]

/-- A concatenation with any hook does what the binary operation does pair by pair from the right,
effects of the hook and errors included. Strings and numbers come to their string forms in order, in
whatever way they are grouped. The machine concatenates in this way with its own hook. -/
theorem concat_pairwise [LawfulMonad m]
    (hends : ∀ (c : Cause) (f : Value → m Value), refuse c >>= f = refuse c) :
    (∀ front last, concatWith hook refuse (front ++ [last]) =
      front.foldrM (concatPair hook refuse) last) ∧
    (∀ g : Grouping, (∀ v ∈ g.operands, v.isConcatenable = true) →
      g.eval hook refuse = pure (concatenated g.operands) ∧
      concatWith hook refuse g.operands = pure (concatenated g.operands) ∧
      (concatenated g.operands).toBytes? = some (joined g.operands)) ∧
    ∀ fuel front last,
      concatAll fuel (front ++ [last]) =
        front.foldrM (concatPair (concatHook fuel) Exec.raise) last := by
  refine ⟨concatWith_eq_foldrM hook refuse hends, fun g hg => ⟨g.eval_eq hook refuse hg, ?_, ?_⟩,
    fun fuel => ?_⟩
  · obtain ⟨front, last, hsplit⟩ : ∃ front last, g.operands = front ++ [last] :=
      ⟨_, _, (List.dropLast_append_getLast g.operands_ne_nil).symm⟩
    have hright := (Grouping.fromRight front last).eval_eq hook refuse
    rw [Grouping.operands_fromRight, ← hsplit, Grouping.eval_fromRight] at hright
    rw [← hright hg, hsplit, concatWith_eq_foldrM hook refuse hends]
  · exact toBytes?_concatenated hg g.operands_ne_nil
  · exact concatWith_eq_foldrM (concatHook fuel) Exec.raise fun _ _ => rfl

/-- A hook that keeps a list of the pairs it was asked about. It declines a pair whose right operand
is a table. -/
def listingHook (lhs rhs : Value) :
    StateT (List (Value × Value)) (Except Cause) (Option Value) := do
  modify (· ++ [(lhs, rhs)])
  return if rhs.type = .table then none else some (.ofText "t")

/-- `1 .. t .. 2 .. "b"` asks about the table and the string that its right neighbours make.
`t .. 1 .. t` is refused at its first pair. `(1 .. "b") .. 2` asks about nothing. -/
theorem concat_pairwise_listing :
    (concatWith listingHook throw [.int 1, .table ⟨0⟩, .int 2, .ofText "b"]).run [] =
      .ok (.ofText "1t", [(.table ⟨0⟩, .ofText "2b")]) ∧
    (concatWith listingHook throw [.table ⟨0⟩, .int 1, .table ⟨0⟩]).run [] =
      .error (.cannotConcat .table) ∧
    ((Grouping.pair (.pair (.operand (.int 1)) (.operand (.ofText "b"))) (.operand (.int 2))).eval
      listingHook throw).run [] = .ok (.ofText "1b2", []) := by
  obtain ⟨hfold, hgroup, -⟩ := concat_pairwise listingHook throw fun _ _ => rfl
  refine ⟨?_, ?_, ?_⟩
  · rw [show [Value.int 1, .table ⟨0⟩, .int 2, .ofText "b"] = [.int 1, .table ⟨0⟩, .int 2] ++
      [.ofText "b"] from rfl, hfold]
    rfl
  · rw [show [Value.table ⟨0⟩, .int 1, .table ⟨0⟩] =
      [.table ⟨0⟩, .int 1] ++ [.table ⟨0⟩] from rfl, hfold]
    rfl
  · rw [(hgroup _ (by decide)).1]
    rfl

end Vm

end LuaMachine
