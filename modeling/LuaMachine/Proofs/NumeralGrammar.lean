import Mathlib.Data.Int.ModEq
import Mathlib.Data.List.TakeWhile
import Mathlib.Data.Nat.Digits.Defs
import Mathlib.Data.Set.List
import Mathlib.Tactic
import LuaMachine.Number.Numeral

/-!
# The grammar of numerals

The grammar is given as syntax trees with their text, and the value of a tree without regard to how
it is read. The reader accepts exactly the texts of the trees. It reads greedily, and that is
enough: what may follow a number is a blank, and no blank continues one.
-/
namespace LuaMachine.Numeral

section Grammar

/-- The two notations. -/
inductive Base where
  | decimal
  | hexadecimal

def Base.radix : Base → Nat
  | .decimal => 10
  | .hexadecimal => 16

/-- The letter before an exponent, `e` or `p`, which may be a capital. -/
def Base.mark : Base → Bool → UInt8
  | .decimal, capital => if capital then 69 else 101
  | .hexadecimal, capital => if capital then 80 else 112

/-- A digit with its value. From ten on it is a letter, which may be a capital. -/
structure Digit (b : Base) where
  value : Fin b.radix
  capital : Bool

def Digit.byte {b : Base} (d : Digit b) : UInt8 :=
  UInt8.ofNat (if d.value.val < 10 then 48 + d.value.val
    else if d.capital then 55 + d.value.val else 87 + d.value.val)

/-- Digits before the point and perhaps a point with digits after it, or a point and the digits
after it. -/
inductive Mantissa (b : Base) where
  | digits (first : Digit b) (rest : List (Digit b)) (fraction : Option (List (Digit b)))
  | point (first : Digit b) (rest : List (Digit b))

/-- The digits before the point. -/
def Mantissa.whole {b : Base} : Mantissa b → List (Digit b)
  | .digits first rest _ => first :: rest
  | .point _ _ => []

/-- The digits after the point, if there is a point. -/
def Mantissa.fraction {b : Base} : Mantissa b → Option (List (Digit b))
  | .digits _ _ fraction => fraction
  | .point first rest => some (first :: rest)

def textOf {b : Base} (ds : List (Digit b)) : List UInt8 :=
  ds.map Digit.byte

def fractionText {b : Base} : Option (List (Digit b)) → List UInt8
  | none => []
  | some ds => 46 :: textOf ds

def Mantissa.text {b : Base} (m : Mantissa b) : List UInt8 :=
  textOf m.whole ++ fractionText m.fraction

inductive Sign where
  | none
  | plus
  | minus

def Sign.text : Sign → List UInt8
  | .none => []
  | .plus => [43]
  | .minus => [45]

def Sign.negative : Sign → Bool
  | .minus => true
  | _ => false

/-- An exponent: its mark, a sign and decimal digits. -/
structure Exponent where
  capital : Bool
  sign : Sign
  first : Digit .decimal
  rest : List (Digit .decimal)

def Exponent.digits (e : Exponent) : List (Digit .decimal) :=
  e.first :: e.rest

def exponentText (b : Base) : Option Exponent → List UInt8
  | none => []
  | some e => b.mark e.capital :: (e.sign.text ++ textOf e.digits)

/-- A number without its sign and base mark. -/
structure Unsigned (b : Base) where
  mantissa : Mantissa b
  exponent : Option Exponent

def Unsigned.text {b : Base} (u : Unsigned b) : List UInt8 :=
  u.mantissa.text ++ exponentText b u.exponent

/-- A number in one of the notations. A hexadecimal one has a mark, whose letter may be a
capital. -/
inductive Body where
  | decimal (u : Unsigned .decimal)
  | hexadecimal (capital : Bool) (u : Unsigned .hexadecimal)

def Body.text : Body → List UInt8
  | .decimal u => u.text
  | .hexadecimal capital u => 48 :: (if capital then 88 else 120) :: u.text

inductive Blank where
  | space
  | tab
  | lineFeed
  | verticalTab
  | formFeed
  | carriageReturn

def Blank.byte : Blank → UInt8
  | .space => 32
  | .tab => 9
  | .lineFeed => 10
  | .verticalTab => 11
  | .formFeed => 12
  | .carriageReturn => 13

/-- A numeral: a signed number between blanks. -/
structure Written where
  before : List Blank
  sign : Sign
  body : Body
  after : List Blank

def Written.text (w : Written) : List UInt8 :=
  w.before.map Blank.byte ++ (w.sign.text ++ (w.body.text ++ w.after.map Blank.byte))

end Grammar

section Meaning

/-- The number that digits stand for, the most significant one first. -/
def valueOf {b : Base} (ds : List (Digit b)) : Nat :=
  Nat.ofDigits b.radix (ds.reverse.map fun d => d.value.val)

/-- There are digits only. -/
def Unsigned.Plain {b : Base} (u : Unsigned b) : Prop :=
  u.mantissa.fraction = none ∧ u.exponent = none

/-- The digits before the point as a number with the sign. -/
def Written.value (w : Written) : Int :=
  let magnitude := match w.body with
    | .decimal u => valueOf u.mantissa.whole
    | .hexadecimal _ u => valueOf u.mantissa.whole
  if w.sign.negative then -(magnitude : Int) else magnitude

/-- The numerals of integers: those of digits only, of which a decimal one has to be in range. -/
def Written.IsInteger (w : Written) : Prop :=
  match w.body with
  | .decimal u => u.Plain ∧ -2 ^ 63 ≤ w.value ∧ w.value < 2 ^ 63
  | .hexadecimal _ u => u.Plain

/-- The integer of a numeral: the value of a decimal one, and that of a hexadecimal one up to
multiples of `2 ^ 64`. -/
def Written.Denotes (w : Written) (n : Int64) : Prop :=
  match w.body with
  | .decimal _ => n.toInt = w.value
  | .hexadecimal _ _ => n.toInt ≡ w.value [ZMOD 2 ^ 64]

end Meaning

section Bytes
variable {b : Base} {c : UInt8}

/-- The bytes that the reader takes for digits. -/
def Base.isDigit : Base → UInt8 → Bool
  | .decimal => Numeral.isDigit
  | .hexadecimal => isHexDigit

theorem Digit.value_lt (d : Digit b) : d.value.val < 16 :=
  lt_of_lt_of_le d.value.isLt (by cases b <;> decide)

theorem Digit.toNat_byte (d : Digit b) : d.byte.toNat = if d.value.val < 10 then 48 + d.value.val
    else if d.capital then 55 + d.value.val else 87 + d.value.val := by
  have hv := d.value_lt
  unfold byte
  apply UInt8.toNat_ofNat_of_lt'
  split_ifs <;> norm_num <;> omega

theorem isDigit_iff : Numeral.isDigit c = true ↔ 48 ≤ c.toNat ∧ c.toNat ≤ 57 := by
  simp [Numeral.isDigit, UInt8.le_iff_toNat_le]

theorem isHexDigit_iff : isHexDigit c = true ↔
    (48 ≤ c.toNat ∧ c.toNat ≤ 57) ∨ (97 ≤ c.toNat ∧ c.toNat ≤ 102) ∨
      (65 ≤ c.toNat ∧ c.toNat ≤ 70) := by
  simp [isHexDigit, isDigit_iff, UInt8.le_iff_toNat_le, or_assoc]

theorem hexValue_eq (c : UInt8) : hexValue c = if 48 ≤ c.toNat ∧ c.toNat ≤ 57 then c.toNat - 48
    else if 97 ≤ c.toNat then c.toNat - 87 else c.toNat - 55 := by
  simp [hexValue, isDigit_iff, UInt8.le_iff_toNat_le]

theorem hexValue_byte (d : Digit b) : hexValue d.byte = d.value := by
  have hv := d.value_lt
  have hb := d.toNat_byte
  rw [hexValue_eq]
  split_ifs at * <;> omega

theorem isDigit_byte (d : Digit b) : b.isDigit d.byte = true := by
  have hv := d.value_lt
  have hb := d.toNat_byte
  cases b with
  | decimal =>
    have hten : d.value.val < 10 := d.value.isLt
    rw [if_pos hten] at hb
    exact isDigit_iff.mpr (by omega)
  | hexadecimal =>
    apply isHexDigit_iff.mpr
    split_ifs at hb <;> omega

/-- The digit of a value and a letter case is the one that has its byte. -/
theorem Digit.byte_eq {value : Fin b.radix} {capital : Bool}
    (h : c.toNat = if value.val < 10 then 48 + value.val else if capital then 55 + value.val
      else 87 + value.val) :
    Digit.byte ⟨value, capital⟩ = c := by
  apply UInt8.toNat_inj.mp
  rw [toNat_byte, h]

theorem exists_byte (h : b.isDigit c = true) : ∃ d : Digit b, d.byte = c := by
  cases b with
  | decimal =>
    have hc := isDigit_iff.mp h
    have hlt : c.toNat - 48 < 10 := by omega
    refine ⟨⟨⟨c.toNat - 48, hlt⟩, false⟩, Digit.byte_eq ?_⟩
    simp only [hlt, if_true]
    omega
  | hexadecimal =>
    have hc := isHexDigit_iff.mp h
    have hlt : hexValue c < 16 := by
      rw [hexValue_eq]
      split_ifs <;> omega
    refine ⟨⟨⟨hexValue c, hlt⟩, decide (c.toNat ≤ 70)⟩, Digit.byte_eq ?_⟩
    simp only [hexValue_eq, decide_eq_true_eq]
    split_ifs <;> omega

theorem isBlank_byte (k : Blank) : isBlank k.byte = true := by
  cases k <;> decide

theorem exists_blank (h : isBlank c = true) : ∃ k : Blank, k.byte = c := by
  have hc : c = 32 ∨ c = 9 ∨ c = 10 ∨ c = 11 ∨ c = 12 ∨ c = 13 := by
    simp only [isBlank, UInt8.le_iff_toNat_le, UInt8.reduceToNat, Bool.and_eq_true, Bool.or_eq_true,
      decide_eq_true_eq, beq_iff_eq, ← UInt8.toNat_inj] at *
    omega
  rcases hc with rfl | rfl | rfl | rfl | rfl | rfl
  · exact ⟨.space, rfl⟩
  · exact ⟨.tab, rfl⟩
  · exact ⟨.lineFeed, rfl⟩
  · exact ⟨.verticalTab, rfl⟩
  · exact ⟨.formFeed, rfl⟩
  · exact ⟨.carriageReturn, rfl⟩

theorem isBlank_digit (d : Digit b) : isBlank d.byte = false := by
  have hd := isDigit_byte d
  by_contra h
  obtain ⟨k, hk⟩ := exists_blank (Bool.eq_true_of_not_eq_false h)
  rw [← hk] at hd
  revert hd
  cases b <;> cases k <;> decide

theorem exists_textOf {l : List UInt8} (h : ∀ c ∈ l, b.isDigit c = true) :
    ∃ ds : List (Digit b), textOf ds = l := by
  have hl : l ∈ Set.range (List.map (Digit.byte (b := b))) := by
    rw [Set.range_list_map]
    exact fun c hc => exists_byte (h c hc)
  exact hl

theorem exists_blanks {l : List UInt8} (h : ∀ c ∈ l, isBlank c = true) :
    ∃ ks : List Blank, ks.map Blank.byte = l := by
  have hl : l ∈ Set.range (List.map Blank.byte) := by
    rw [Set.range_list_map]
    exact fun c hc => exists_blank (h c hc)
  exact hl

theorem isDigit_of_mem (ds : List (Digit b)) (hc : c ∈ textOf ds) : b.isDigit c = true := by
  obtain ⟨d, -, rfl⟩ := List.mem_map.mp hc
  exact isDigit_byte d

/-- Reading digits one by one gives the number they stand for. -/
theorem digitsValue_textOf (ds : List (Digit b)) :
    digitsValue b.radix (textOf ds) = valueOf ds := by
  induction ds using List.reverseRecOn with
  | nil => simp [digitsValue, textOf, valueOf]
  | append_singleton ds d ih =>
    simp only [digitsValue, textOf, valueOf, List.map_append, List.foldl_append,
      List.reverse_append] at *
    simp [ih, hexValue_byte, Nat.ofDigits_cons]
    ring

end Bytes

section Reading
variable {b : Base} {t : List UInt8}

/-- The text does not begin with a byte of the class. -/
def Apart (p : UInt8 → Bool) (t : List UInt8) : Prop :=
  ∀ c ∈ t.head?, p c = false

theorem Apart.nil {p : UInt8 → Bool} : Apart p [] := by
  intro c hc
  cases hc

theorem Apart.cons {p : UInt8 → Bool} {c : UInt8} (h : p c = false) : Apart p (c :: t) := by
  intro c' hc
  cases hc
  exact h

theorem Apart.append {p : UInt8 → Bool} {l : List UInt8} (hl : ∀ c ∈ l, p c = false)
    (ht : Apart p t) : Apart p (l ++ t) := by
  cases l with
  | nil => exact ht
  | cons c l => exact .cons (hl c List.mem_cons_self)

theorem Apart.blanks {p : UInt8 → Bool} (h : ∀ k : Blank, p k.byte = false) (ks : List Blank) :
    Apart p (ks.map Blank.byte) := by
  cases ks with
  | nil => exact .nil
  | cons k ks => exact .cons (h k)

/-- Bytes of a class before a text apart from it are all that is taken of them. -/
theorem takeWhile_append_of_apart {p : UInt8 → Bool} {l : List UInt8} (hl : ∀ c ∈ l, p c = true)
    (ht : Apart p t) : (l ++ t).takeWhile p = l ∧ (l ++ t).dropWhile p = t := by
  rw [List.takeWhile_append_of_pos hl, List.dropWhile_append_of_pos hl]
  cases t with
  | nil => simp
  | cons c t =>
    have hc : p c = false := ht c rfl
    simp [hc]

/-- What the reader makes of an exponent. -/
def Exponent.value (e : Exponent) : Int :=
  Binary64.signed e.sign.negative (digitsValue 10 (textOf e.digits))

/-- What the reader makes of a number. -/
def Unsigned.pieces (u : Unsigned b) : Pieces :=
  ⟨textOf u.mantissa.whole, u.mantissa.fraction.map textOf, u.exponent.map Exponent.value⟩

section Signs

/-- The bytes that the reader takes for a sign. -/
def isSign (c : UInt8) : Bool :=
  c == 43 || c == 45

theorem splitSign_text (sign : Sign) (ht : Apart isSign t) :
    splitSign (sign.text ++ t) = (sign.negative, t) := by
  cases sign with
  | none =>
    cases t with
    | nil => rfl
    | cons c t =>
      have hc : isSign c = false := ht c rfl
      simp only [isSign, Bool.or_eq_false_iff, beq_eq_false_iff_ne] at hc
      simp only [Sign.text, List.nil_append, splitSign, Sign.negative]
      split <;> simp_all
  | plus => rfl
  | minus => rfl

theorem isSign_byte (d : Digit b) : isSign d.byte = false := by
  have hd := isDigit_byte d
  by_contra h
  simp only [isSign, Bool.not_eq_false, Bool.or_eq_true, beq_iff_eq] at h
  rcases h with h | h <;> rw [h] at hd <;> revert hd <;> cases b <;> decide

theorem exists_sign (s : List UInt8) :
    ∃ sign : Sign, sign.negative = (splitSign s).1 ∧ sign.text ++ (splitSign s).2 = s := by
  unfold splitSign
  split
  · exact ⟨.plus, rfl, rfl⟩
  · exact ⟨.minus, rfl, rfl⟩
  · exact ⟨.none, rfl, rfl⟩

end Signs

section Fractions

theorem splitFraction_text (f : Option (List (Digit b))) (hd : Apart b.isDigit t)
    (hp : Apart (· == 46) t) :
    splitFraction b.isDigit (fractionText f ++ t) = (f.map textOf, t) := by
  cases f with
  | none =>
    cases t with
    | nil => rfl
    | cons c t =>
      have hc : (c == 46) = false := hp c rfl
      simp only [fractionText, List.nil_append, splitFraction]
      split <;> simp_all
  | some ds =>
    obtain ⟨htake, hdrop⟩ := takeWhile_append_of_apart (fun c => isDigit_of_mem ds) hd
    simp [fractionText, splitFraction, htake, hdrop]

theorem exists_fraction (s : List UInt8) : ∃ f : Option (List (Digit b)),
    f.map textOf = (splitFraction b.isDigit s).1 ∧
      fractionText f ++ (splitFraction b.isDigit s).2 = s := by
  unfold splitFraction
  split
  · next rest =>
    obtain ⟨ds, hds⟩ := exists_textOf (b := b) (l := rest.takeWhile b.isDigit) fun c =>
      List.mem_takeWhile_imp
    refine ⟨some ds, by simp [hds], ?_⟩
    simp [fractionText, hds]
  · exact ⟨none, rfl, rfl⟩

end Fractions

section Exponents

theorem splitExponent_text (e : Option Exponent) (hd : Apart Numeral.isDigit t)
    (hm : ∀ capital, Apart (· == b.mark capital) t) :
    splitExponent (b.mark false) (b.mark true) (exponentText b e ++ t) =
      (e.map Exponent.value, t) := by
  cases e with
  | none =>
    cases t with
    | nil => rfl
    | cons c t =>
      have hlower : (c == b.mark false) = false := hm false c rfl
      have hupper : (c == b.mark true) = false := hm true c rfl
      simp [exponentText, splitExponent, hlower, hupper]
  | some e =>
    have hmark : (b.mark e.capital == b.mark false || b.mark e.capital == b.mark true) = true := by
      cases e.capital <;> simp
    have hsign : Apart isSign (textOf e.digits ++ t) := .cons (isSign_byte e.first)
    obtain ⟨htake, hdrop⟩ :=
      takeWhile_append_of_apart (p := Numeral.isDigit) (fun c => isDigit_of_mem e.digits) hd
    simp only [exponentText, List.cons_append, List.append_assoc, splitExponent, hmark, if_true,
      splitSign_text e.sign hsign, htake, hdrop]
    rfl

theorem exists_exponent (s : List UInt8) : ∃ e : Option Exponent,
    e.map Exponent.value = (splitExponent (b.mark false) (b.mark true) s).1 ∧
      exponentText b e ++ (splitExponent (b.mark false) (b.mark true) s).2 = s := by
  unfold splitExponent
  split
  · next c rest =>
    split_ifs with hmark
    · obtain ⟨sign, hneg, htext⟩ := exists_sign rest
      obtain ⟨ds, hds⟩ :=
        exists_textOf (b := .decimal) (l := (splitSign rest).2.takeWhile Numeral.isDigit)
          fun c => List.mem_takeWhile_imp
      have hall : textOf ds ++ (splitSign rest).2.dropWhile Numeral.isDigit =
          (splitSign rest).2 := by
        rw [hds, List.takeWhile_append_dropWhile]
      obtain ⟨capital, rfl⟩ : ∃ capital, b.mark capital = c := by
        rcases (by simpa using hmark : c = b.mark false ∨ c = b.mark true) with rfl | rfl
        · exact ⟨false, rfl⟩
        · exact ⟨true, rfl⟩
      simp only [← hds]
      cases ds with
      | nil => exact ⟨none, rfl, rfl⟩
      | cons first others =>
        refine ⟨some ⟨capital, sign, first, others⟩, ?_, ?_⟩
        · simp [Exponent.value, hneg, Exponent.digits, textOf]
        · simp only [exponentText, Exponent.digits, List.cons_append, List.append_assoc]
          simp only [textOf, List.map_cons] at hall ⊢
          rw [hall, htext]
    · exact ⟨none, rfl, rfl⟩
  · exact ⟨none, rfl, rfl⟩

end Exponents

section Numbers

/-- A number is read as its pieces, up to the blanks that follow. -/
theorem splitPieces_text (u : Unsigned b) (after : List Blank) :
    splitPieces b.isDigit (b.mark false) (b.mark true) (u.text ++ after.map Blank.byte) =
      some (u.pieces, after.map Blank.byte) := by
  obtain ⟨m, e⟩ := u
  have hexponent :
      splitExponent (b.mark false) (b.mark true) (exponentText b e ++ after.map Blank.byte) =
      (e.map Exponent.value, after.map Blank.byte) := by
    apply splitExponent_text
    · exact .blanks (by intro k; cases k <;> decide) after
    · intro capital
      exact .blanks (by intro k; cases k <;> cases b <;> cases capital <;> decide) after
  have hdigit : Apart b.isDigit (exponentText b e ++ after.map Blank.byte) := by
    cases e with
    | none => exact .blanks (by intro k; cases k <;> cases b <;> decide) after
    | some e => exact .cons (by cases b <;> cases e.capital <;> decide)
  have hpoint : Apart (· == 46) (exponentText b e ++ after.map Blank.byte) := by
    cases e with
    | none => exact .blanks (by intro k; cases k <;> decide) after
    | some e => exact .cons (by cases b <;> cases e.capital <;> decide)
  have hwhole :
      Apart b.isDigit (fractionText m.fraction ++ (exponentText b e ++ after.map Blank.byte)) := by
    cases m.fraction with
    | none => exact hdigit
    | some ds => exact .cons (by cases b <;> decide)
  obtain ⟨htake, hdrop⟩ := takeWhile_append_of_apart (fun c => isDigit_of_mem m.whole) hwhole
  have hdigits :
      Pieces.hasDigits ⟨textOf m.whole, m.fraction.map textOf, e.map Exponent.value⟩ = true := by
    cases m <;> simp [Pieces.hasDigits, Mantissa.whole, Mantissa.fraction, textOf]
  simp only [Unsigned.text, Mantissa.text, List.append_assoc, splitPieces, htake, hdrop,
    splitFraction_text m.fraction hdigit hpoint, hexponent, hdigits, if_true, Unsigned.pieces]

/-- What is read as the pieces of a number is the text of one. -/
theorem exists_unsigned {s rest : List UInt8} {p : Pieces}
    (h : splitPieces b.isDigit (b.mark false) (b.mark true) s = some (p, rest)) :
    ∃ u : Unsigned b, u.pieces = p ∧ u.text ++ rest = s := by
  obtain ⟨ds, hds⟩ := exists_textOf (b := b) (l := s.takeWhile b.isDigit) fun c =>
    List.mem_takeWhile_imp
  obtain ⟨f, hf, hftext⟩ := exists_fraction (b := b) (s.dropWhile b.isDigit)
  obtain ⟨e, he, hetext⟩ :=
    exists_exponent (b := b) (splitFraction b.isDigit (s.dropWhile b.isDigit)).2
  simp only [splitPieces, Option.ite_none_right_eq_some, Option.some.injEq, Prod.mk.injEq] at h
  obtain ⟨hdigits, rfl, rfl⟩ := h
  rw [← hds, ← hf, ← he] at hdigits ⊢
  have htext : textOf ds ++ (fractionText f ++ (exponentText b e ++
      (splitExponent (b.mark false) (b.mark true)
        (splitFraction b.isDigit (s.dropWhile b.isDigit)).2).2)) = s := by
    rw [hetext, hftext, hds, List.takeWhile_append_dropWhile]
  cases ds with
  | cons first others =>
    refine ⟨⟨.digits first others f, e⟩, rfl, ?_⟩
    simpa [Unsigned.text, Mantissa.text, Mantissa.whole, Mantissa.fraction] using htext
  | nil =>
    -- Without a digit before the point there is a point with a digit after it.
    cases f with
    | none => simp [Pieces.hasDigits, textOf] at hdigits
    | some fs =>
      cases fs with
      | nil => simp [Pieces.hasDigits, textOf] at hdigits
      | cons first others =>
        refine ⟨⟨.point first others, e⟩, rfl, ?_⟩
        simpa [Unsigned.text, Mantissa.text, Mantissa.whole, Mantissa.fraction] using htext

section Hexadecimal

/-- The letters of a base mark. -/
def isBaseLetter (c : UInt8) : Bool :=
  c == 120 || c == 88

theorem splitHex_of_apart {c : UInt8} (ht : Apart isBaseLetter t) : splitHex (c :: t) = none := by
  cases t with
  | nil => simp [splitHex]
  | cons x t =>
    have hx : (x == 120 || x == 88) = false := ht x rfl
    unfold splitHex
    split
    · simp_all
    · rfl

/-- A decimal number is not taken for a hexadecimal one: no byte of it is the letter of a base
mark. -/
theorem splitHex_decimal (u : Unsigned .decimal) (after : List Blank) :
    splitHex (u.text ++ after.map Blank.byte) = none := by
  obtain ⟨m, e⟩ := u
  have hdigits : ∀ (ds : List (Digit .decimal)), ∀ c ∈ textOf ds, isBaseLetter c = false := by
    intro ds c hc
    have hd := isDigit_of_mem ds hc
    by_contra h
    simp only [isBaseLetter, Bool.not_eq_false, Bool.or_eq_true, beq_iff_eq] at h
    rcases h with rfl | rfl <;> revert hd <;> decide
  have hexponent : Apart isBaseLetter (exponentText .decimal e ++ after.map Blank.byte) := by
    cases e with
    | none => exact .blanks (by intro k; cases k <;> decide) after
    | some e => exact .cons (by cases e.capital <;> decide)
  simp only [Unsigned.text, Mantissa.text, List.append_assoc]
  cases m with
  | digits first others f =>
    apply splitHex_of_apart
    refine .append (hdigits others) ?_
    cases f with
    | none => exact hexponent
    | some ds => exact .cons (by decide)
  | point first others => exact splitHex_of_apart (.append (hdigits (first :: others)) hexponent)

theorem splitHex_text (capital : Bool) (u : Unsigned .hexadecimal) (after : List Blank) :
    splitHex ((Body.hexadecimal capital u).text ++ after.map Blank.byte) =
      some (hexNumber u.pieces, after.map Blank.byte) := by
  have hpieces : splitPieces isHexDigit 112 80 (u.text ++ after.map Blank.byte) =
      some (u.pieces, after.map Blank.byte) := splitPieces_text u after
  cases capital <;> simp [Body.text, splitHex, hpieces]

theorem exists_hexadecimal {s rest : List UInt8} {n : Number} (h : splitHex s = some (n, rest)) :
    ∃ capital u, hexNumber u.pieces = n ∧ (Body.hexadecimal capital u).text ++ rest = s := by
  unfold splitHex at h
  split at h
  · next x text =>
    split_ifs at h with hx
    obtain ⟨⟨p, rest'⟩, hp, he⟩ := Option.map_eq_some_iff.mp h
    obtain ⟨rfl, rfl⟩ := Prod.mk.inj he
    obtain ⟨u, rfl, rfl⟩ := exists_unsigned (b := .hexadecimal) hp
    rcases (by simpa using hx : x = 120 ∨ x = 88) with rfl | rfl
    · exact ⟨false, u, rfl, rfl⟩
    · exact ⟨true, u, rfl, rfl⟩
  · cases h

end Hexadecimal

/-- What the reader makes of a number with a sign. -/
def Body.number (negative : Bool) : Body → Number
  | .decimal u => decimalNumber negative u.pieces
  | .hexadecimal _ u => if negative then (hexNumber u.pieces).neg else hexNumber u.pieces

/-- A number begins with a digit or a point. -/
theorem apart_body {p : UInt8 → Bool} (hd : ∀ {b : Base} (d : Digit b), p d.byte = false)
    (hp : p 46 = false) (body : Body) : Apart p (body.text ++ t) := by
  cases body with
  | decimal u =>
    obtain ⟨m, e⟩ := u
    cases m with
    | digits first others f => exact .cons (hd first)
    | point first others => exact .cons hp
  | hexadecimal capital u => exact .cons (hd (b := .decimal) ⟨⟨0, by decide⟩, false⟩)

theorem splitNumber_text (sign : Sign) (body : Body) (after : List Blank) :
    splitNumber (sign.text ++ (body.text ++ after.map Blank.byte)) =
      some (body.number sign.negative, after.map Blank.byte) := by
  have hsign : Apart isSign (body.text ++ after.map Blank.byte) :=
    apart_body isSign_byte (by decide) body
  simp only [splitNumber, splitSign_text sign hsign]
  cases body with
  | decimal u =>
    have hpieces : splitPieces Numeral.isDigit 101 69 (u.text ++ after.map Blank.byte) =
        some (u.pieces, after.map Blank.byte) := splitPieces_text u after
    simp only [Body.text, splitHex_decimal, hpieces]
    rfl
  | hexadecimal capital u =>
    simp only [splitHex_text]
    rfl

theorem exists_body {s rest : List UInt8} {n : Number} (h : splitNumber s = some (n, rest)) :
    ∃ (sign : Sign) (body : Body), body.number sign.negative = n ∧
      sign.text ++ (body.text ++ rest) = s := by
  obtain ⟨sign, hneg, htext⟩ := exists_sign s
  simp only [splitNumber, ← hneg] at h
  split at h
  · next m rest' hm =>
    obtain ⟨capital, u, rfl, hu⟩ := exists_hexadecimal hm
    obtain ⟨rfl, rfl⟩ := Prod.mk.inj (Option.some.inj h)
    exact ⟨sign, .hexadecimal capital u, rfl, by rw [hu, htext]⟩
  · obtain ⟨⟨p, rest'⟩, hp, he⟩ := Option.map_eq_some_iff.mp h
    obtain ⟨rfl, rfl⟩ := Prod.mk.inj he
    obtain ⟨u, rfl, hu⟩ := exists_unsigned (b := .decimal) hp
    exact ⟨sign, .decimal u, rfl, by rw [Body.text, hu, htext]⟩

end Numbers

section Numerals

/-- What the reader makes of a numeral. -/
def Written.number (w : Written) : Number :=
  w.body.number w.sign.negative

theorem read_text (w : Written) : read w.text = some w.number := by
  have hblank : Apart isBlank (w.sign.text ++ (w.body.text ++ w.after.map Blank.byte)) := by
    cases w.sign with
    | none =>
      exact apart_body isBlank_digit (by decide) w.body
    | plus => exact .cons (by decide)
    | minus => exact .cons (by decide)
  have hbefore := takeWhile_append_of_apart (p := isBlank) (l := w.before.map Blank.byte) (by
    intro c hc
    obtain ⟨k, -, rfl⟩ := List.mem_map.mp hc
    exact isBlank_byte k) hblank
  have hafter : (w.after.map Blank.byte).dropWhile isBlank = [] := by
    simp [List.dropWhile_eq_nil_iff, isBlank_byte]
  simp only [read, Written.text, hbefore.2, splitNumber_text, hafter]
  rfl

theorem exists_written {s : List UInt8} {n : Number} (h : read s = some n) :
    ∃ w : Written, w.text = s := by
  unfold read at h
  split at h
  · next m rest hm =>
    split_ifs at h with hrest
    obtain ⟨sign, body, -, htext⟩ := exists_body hm
    obtain ⟨before, hbefore⟩ := exists_blanks (l := s.takeWhile isBlank) fun c =>
      List.mem_takeWhile_imp
    obtain ⟨after, hafter⟩ :=
      exists_blanks (l := rest) (List.dropWhile_eq_nil_iff.mp (by simpa using hrest))
    refine ⟨⟨before, sign, body, after⟩, ?_⟩
    simp only [Written.text, hbefore, hafter, htext, List.takeWhile_append_dropWhile]
  · cases h

end Numerals

end Reading

section Values
variable {b : Base} {u : Unsigned b}

theorem plain_iff : u.Plain ↔ u.pieces.fraction = none ∧ u.pieces.exponent = none := by
  simp [Unsigned.Plain, Unsigned.pieces]

/-- A hexadecimal number is an integer exactly when it has digits only. -/
theorem hexNumber_cases (u : Unsigned .hexadecimal) :
    u.Plain ∧ hexNumber u.pieces = .int (Int64.ofNat (valueOf u.mantissa.whole)) ∨
      ¬ u.Plain ∧ ∃ x, hexNumber u.pieces = .float x := by
  rw [plain_iff, ← digitsValue_textOf]
  unfold hexNumber
  split
  · next hf he => exact .inl ⟨⟨hf, he⟩, rfl⟩
  · next hnot => exact .inr ⟨fun h => hnot h.1 h.2, _, rfl⟩

/-- A decimal number is an integer exactly when it has digits only and is in range with its sign. -/
theorem decimalNumber_cases (negative : Bool) (u : Unsigned .decimal) {m : Int}
    (hm : Binary64.signed negative (valueOf u.mantissa.whole) = m) :
    (u.Plain ∧ -2 ^ 63 ≤ m ∧ m < 2 ^ 63) ∧
      (∃ n, decimalNumber negative u.pieces = .int n ∧ n.toInt = m) ∨
      ¬ (u.Plain ∧ -2 ^ 63 ≤ m ∧ m < 2 ^ 63) ∧ ∃ x, decimalNumber negative u.pieces = .float x := by
  rw [plain_iff, ← hm, ← digitsValue_textOf]
  unfold decimalNumber
  split
  · next hf he =>
    dsimp only
    split
    · next n hn =>
      have hvalue :
          n.toInt = Binary64.signed negative
            (digitsValue Base.decimal.radix (textOf u.mantissa.whole)) :=
        int64OfInt?_eq_some.mp hn
      exact .inl ⟨⟨⟨hf, he⟩, hvalue ▸ n.le_toInt, hvalue ▸ n.toInt_lt⟩, n, rfl, hvalue⟩
    · next hn =>
      refine .inr ⟨?_, _, rfl⟩
      rintro ⟨-, hrange⟩
      have hfits := int64OfInt?_eq_some.mpr (Int64.toInt_ofInt_of_le hrange.1 hrange.2)
      exact absurd (hn.symm.trans hfits) (by simp)
  · next hnot => exact .inr ⟨fun h => hnot h.1.1 h.1.2, _, rfl⟩

/-- The integer that wraps around from the value is congruent to it. -/
theorem toInt_ofInt_modEq (m : Int) : (Int64.ofInt m).toInt ≡ m [ZMOD 2 ^ 64] := by
  rw [Int64.toInt_ofInt]
  exact Int.bmod_emod

theorem number_cases (w : Written) :
    w.IsInteger ∧ (∃ n, w.number = .int n ∧ w.Denotes n) ∨ ¬ w.IsInteger ∧ ∃ x,
      w.number = .float x := by
  obtain ⟨before, sign, body, after⟩ := w
  cases body with
  | decimal u => exact decimalNumber_cases sign.negative u rfl
  | hexadecimal capital u =>
    simp only [Written.IsInteger, Written.Denotes, Written.number, Body.number, Written.value]
    rcases hexNumber_cases u with ⟨hplain, hn⟩ | ⟨hplain, x, hx⟩
    · refine .inl ⟨hplain, ?_⟩
      rw [hn, ← Int64.ofInt_eq_ofNat]
      cases sign.negative with
      | false => exact ⟨_, rfl, toInt_ofInt_modEq _⟩
      | true => exact ⟨_, rfl, by rw [Int64.neg_ofInt]; exact toInt_ofInt_modEq _⟩
    · refine .inr ⟨hplain, ?_⟩
      rw [hx]
      cases sign.negative with
      | false => exact ⟨x, rfl⟩
      | true => exact ⟨-x, rfl⟩

/-- The reader accepts exactly the numerals of the grammar. It gives an integer, and then the right
one, exactly for the numerals of integers, and a float for all others. -/
theorem read_accepts_grammar :
    (∀ s, (read s).isSome ↔ ∃ w : Written, w.text = s) ∧
    ∀ w : Written,
      ((∃ n, read w.text = some (.int n)) ↔ w.IsInteger) ∧
      (∀ n, read w.text = some (.int n) → w.Denotes n) ∧
      (¬ w.IsInteger → ∃ x, read w.text = some (.float x)) := by
  refine ⟨?_, ?_⟩
  · intro s
    constructor
    · intro h
      obtain ⟨n, hn⟩ := Option.isSome_iff_exists.mp h
      exact exists_written hn
    · rintro ⟨w, rfl⟩
      rw [read_text]
      rfl
  · intro w
    simp only [read_text, Option.some.injEq]
    rcases number_cases w with ⟨hint, n, hn, hden⟩ | ⟨hint, x, hx⟩
    · simp only [hn, Number.int.injEq, hint]
      exact ⟨⟨fun _ => trivial, fun _ => ⟨n, rfl⟩⟩, fun _ h => h ▸ hden, fun h => absurd trivial h⟩
    · simp [hx, hint]

/-- The numeral ` -0x10`. -/
theorem read_accepts_grammar_hexadecimal :
    ∃ n, read [32, 45, 48, 120, 49, 48] = some (.int n) ∧ n.toInt ≡ -16 [ZMOD 2 ^ 64] := by
  let one : Digit .hexadecimal := ⟨⟨1, by decide⟩, false⟩
  let zero : Digit .hexadecimal := ⟨⟨0, by decide⟩, false⟩
  let w : Written := ⟨[.space], .minus, .hexadecimal false ⟨.digits one [zero] none, none⟩, []⟩
  obtain ⟨n, hn⟩ := (read_accepts_grammar.2 w).1.mpr ⟨rfl, rfl⟩
  exact ⟨n, hn, (read_accepts_grammar.2 w).2.1 n hn⟩

end Values

end LuaMachine.Numeral
