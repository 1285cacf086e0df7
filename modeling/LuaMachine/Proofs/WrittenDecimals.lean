import Mathlib.Tactic
import LuaMachine.Arith
import LuaMachine.Proofs.NumeralGrammar

/-!
# Decimal texts and their values

What is written in decimal digits is read as the number that the digits stand for. An integer is
written with its sign and its digits, and so it is read back, the least one included: its digits
alone are beyond the largest integer, but the range is tested with the sign.
-/
namespace LuaMachine

namespace Numeral

section Bytes

/-- The bytes of a text. -/
def bytesOf (s : String) : List UInt8 :=
  s.toUTF8.data.toList

theorem bytesOf_append (s t : String) : bytesOf (s ++ t) = bytesOf s ++ bytesOf t := by
  simp only [bytesOf, String.toUTF8_eq_toByteArray, String.toByteArray_append,
    ByteArray.toList_data_append]

/-- The bytes of characters that have one byte each. -/
def codes (cs : List Char) : List UInt8 :=
  cs.map fun c => UInt8.ofNat c.toNat

theorem bytesOf_ofList {cs : List Char} (h : ∀ c ∈ cs, c.toNat < 128) :
    bytesOf (String.ofList cs) = codes cs := by
  have hbytes : bytesOf (String.ofList cs) = cs.flatMap String.utf8EncodeChar := by
    simp only [bytesOf, String.toUTF8_eq_toByteArray, String.toByteArray_ofList, List.utf8Encode,
      List.toList_data_toByteArray]
  have hsingle : ∀ c ∈ cs, String.utf8EncodeChar c = [UInt8.ofNat c.toNat] := by
    intro c hc
    have hle : c.val.toNat ≤ 127 := Nat.le_of_lt_succ (h c hc)
    rw [String.utf8EncodeChar, if_pos hle]
    rfl
  rw [hbytes, List.flatMap_congr hsingle, codes, List.map_eq_flatMap]

end Bytes

section Digits
variable {cs : List Char}

/-- All characters are decimal digits. -/
def DigitsOnly (cs : List Char) : Prop :=
  ∀ c ∈ cs, 48 ≤ c.toNat ∧ c.toNat ≤ 57

theorem DigitsOnly.append {cs ds : List Char} (hcs : DigitsOnly cs) (hds : DigitsOnly ds) :
    DigitsOnly (cs ++ ds) := by
  intro c hc
  rcases List.mem_append.mp hc with hc | hc
  · exact hcs c hc
  · exact hds c hc

theorem DigitsOnly.replicate (n : ℕ) : DigitsOnly (List.replicate n '0') := by
  intro c hc
  rw [List.eq_of_mem_replicate hc]
  decide

theorem DigitsOnly.toDigits (n : ℕ) : DigitsOnly (Nat.toDigits 10 n) := by
  intro c hc
  have hdigit := Nat.isDigit_of_mem_toDigits (by norm_num) le_rfl hc
  simpa [Char.isDigit, UInt32.le_iff_toNat_le] using hdigit

theorem DigitsOnly.sublist {cs ds : List Char} (h : DigitsOnly ds) (hsub : cs.Sublist ds) :
    DigitsOnly cs :=
  fun c hc => h c (hsub.subset hc)

theorem DigitsOnly.bytesOf (h : DigitsOnly cs) : bytesOf (String.ofList cs) = codes cs :=
  bytesOf_ofList fun c hc => by
    have := h c hc
    omega

theorem DigitsOnly.isDigit (h : DigitsOnly cs) : ∀ c ∈ codes cs, isDigit c = true := by
  intro c hc
  obtain ⟨d, hd, rfl⟩ := List.mem_map.mp hc
  have := h d hd
  rw [isDigit_iff, UInt8.toNat_ofNat_of_lt' (by norm_num; omega)]
  exact this

/-- The value that is read off the bytes is that of the digits. -/
theorem DigitsOnly.digitsValue (h : DigitsOnly cs) :
    digitsValue 10 (codes cs) = Nat.ofDigitChars 10 cs 0 := by
  have hstep : ∀ acc : ℕ, (codes cs).foldl (fun acc c => acc * 10 + hexValue c) acc =
      Nat.ofDigitChars 10 cs acc := by
    induction cs with
    | nil => exact fun acc => rfl
    | cons c cs ih =>
      intro acc
      have hc := h c List.mem_cons_self
      have hvalue : hexValue (UInt8.ofNat c.toNat) = c.toNat - '0'.toNat := by
        rw [hexValue_eq, UInt8.toNat_ofNat_of_lt' (by norm_num; omega), if_pos hc]
        rfl
      rw [Nat.ofDigitChars_cons, codes, List.map_cons, List.foldl_cons, hvalue, mul_comm acc]
      exact ih (fun d hd => h d (List.mem_cons_of_mem c hd)) _
  exact hstep 0

end Digits

section Reading

/-- A point and what follows it. -/
def pointed : Option (List UInt8) → List UInt8
  | none => []
  | some ds => 46 :: ds

/-- Digits with a sign, and perhaps a point with digits after it, are read as such between
blanks. -/
theorem read_decimal (before after : List Blank) (sign : Sign) {whole : List UInt8}
    (fraction : Option (List UInt8)) (hne : whole ≠ []) (hwhole : ∀ c ∈ whole, isDigit c = true)
    (hfraction : ∀ ds ∈ fraction, ∀ c ∈ ds, isDigit c = true) :
    read (before.map Blank.byte ++
        (sign.text ++ (whole ++ pointed fraction) ++ after.map Blank.byte)) =
      some (decimalNumber sign.negative ⟨whole, fraction, none⟩) := by
  obtain ⟨ds, rfl⟩ := exists_textOf (b := .decimal) hwhole
  obtain ⟨f, rfl⟩ : ∃ f : Option (List (Digit .decimal)), f.map textOf = fraction := by
    cases fraction with
    | none => exact ⟨none, rfl⟩
    | some l =>
      obtain ⟨fs, rfl⟩ := exists_textOf (b := .decimal) (hfraction l rfl)
      exact ⟨some fs, rfl⟩
  cases ds with
  | nil => exact absurd rfl hne
  | cons first others =>
    let w : Written := ⟨before, sign, .decimal ⟨.digits first others f, none⟩, after⟩
    have htext : w.text = before.map Blank.byte ++
        (sign.text ++ (textOf (first :: others) ++ pointed (f.map textOf)) ++
          after.map Blank.byte) := by
      cases f <;> simp [w, Written.text, Body.text, Unsigned.text, Mantissa.text, Mantissa.whole,
        Mantissa.fraction, fractionText, exponentText, pointed]
    rw [← htext, read_text]
    rfl

end Reading

end Numeral

open Numeral

/-- The sign of an integer and the bytes of its digits. -/
theorem bytesOf_intText (n : ℤ) : ∃ sign : Sign, sign.negative = decide (n < 0) ∧
    bytesOf (Binary64.intText n) = sign.text ++ codes (Nat.toDigits 10 n.natAbs) := by
  have hdigits : bytesOf (Binary64.natText n.natAbs) = codes (Nat.toDigits 10 n.natAbs) :=
    (DigitsOnly.toDigits _).bytesOf
  unfold Binary64.intText
  split_ifs with hneg
  · refine ⟨.minus, by simp [Sign.negative, hneg], ?_⟩
    rw [bytesOf_append, hdigits]
    rfl
  · exact ⟨.none, by simp [Sign.negative, hneg], by simp [hdigits, Sign.text]⟩

/-- The text of an integer between blanks is read as the integer. -/
theorem read_intText (n : Int64) (before after : List Blank) :
    read (before.map Blank.byte ++ (bytesOf (Number.int n).text ++ after.map Blank.byte)) =
      some (.int n) := by
  obtain ⟨sign, hsign, hbytes⟩ := bytesOf_intText n.toInt
  have hdecimal := DigitsOnly.toDigits n.toInt.natAbs
  have hne : codes (Nat.toDigits 10 n.toInt.natAbs) ≠ [] := by simp [codes, Nat.toDigits_ne_nil]
  have hread := read_decimal before after sign none hne hdecimal.isDigit (by simp)
  simp only [pointed, List.append_nil] at hread
  have hnumber : decimalNumber sign.negative ⟨codes (Nat.toDigits 10 n.toInt.natAbs), none, none⟩ =
      .int n := by
    have hfits : int64OfInt? n.toInt = some n := int64OfInt?_eq_some.mpr rfl
    simp only [decimalNumber, hdecimal.digitsValue, Nat.ofDigitChars_ten_toDigits, hsign,
      Binary64.signed_natAbs, hfits]
  rw [Number.text, hbytes, hread, hnumber]

/-- An integer survives its text, also between blanks. So it does as a value: the string that it
converts to has the integer as its value, and bitwise operators take the one for the other on both
sides. -/
theorem Number.int_survives_text (n : Int64) (before after : List Blank) :
    read (before.map Blank.byte ++ (bytesOf (Number.int n).text ++ after.map Blank.byte)) =
      some (.int n) ∧ ∃ s, (Value.int n).toBytes? = some s ∧ (Value.string s).toInt? = some n ∧
        ∀ (op : ArithOp) (v : Value), op.isBitwise = true →
          op.applyRaw (.string s) v = op.applyRaw (.int n) v ∧
            op.applyRaw v (.string s) = op.applyRaw v (.int n) := by
  have hplain : read (bytesOf (Number.int n).text) = some (.int n) := by
    simpa using read_intText n [] []
  have hback : (Value.string (Number.int n).text.toUTF8).toInt? = some n :=
    congrArg (fun r : Option Number => r.bind (Number.toInt? .exact)) hplain
  refine ⟨read_intText n before after, _, rfl, hback, fun op v hop => ?_⟩
  have hself : (Value.int n).toInt? = some n := rfl
  simp only [ArithOp.applyRaw, if_pos hop, hback, hself, and_self]

/-- The least integer, with a blank on either side. -/
theorem Number.int_survives_text_least :
    (Number.int Int64.minValue).text = "-9223372036854775808" ∧
      read (32 :: (bytesOf (Number.int Int64.minValue).text ++ [9])) = some (.int Int64.minValue) :=
  ⟨by decide +kernel, (Number.int_survives_text Int64.minValue [.space] [.tab]).1⟩

end LuaMachine
