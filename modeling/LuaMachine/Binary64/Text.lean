import LuaMachine.Binary64.Shortest

/-!
# Decimal texts of floats

Two layouts of the shortest decimal: positional, and scientific with a bare exponent.
-/
namespace LuaMachine.Binary64

/-- The decimal digits of a natural number. -/
def natText (n : Nat) : String :=
  String.ofList (Nat.toDigits 10 n)

/-- The decimal digits of an integer, with a minus sign when negative. -/
def intText (n : Int) : String :=
  if n < 0 then "-" ++ natText n.natAbs else natText n.natAbs

/-- `count` zeros. -/
def zeros (count : Nat) : String :=
  String.ofList (List.replicate count '0')

/-- Positional layout with at least `places` digits after the point. Without any the point is left
out. -/
def Decimal.positional (d : Decimal) (places : Nat) : String :=
  let digits := Nat.toDigits 10 d.digits
  let whole := digits.take d.point.toNat
  let fraction := digits.drop d.point.toNat
  let wholeText :=
    if d.point ≤ 0 then "0" else String.ofList whole ++ zeros (d.point.toNat - digits.length)
  let fractionText := zeros (-d.point).toNat ++ String.ofList fraction
  let padded := fractionText ++ zeros (places - fractionText.length)
  if padded.isEmpty then wholeText else wholeText ++ "." ++ padded

/-- Scientific layout: one digit before the point, the others after it, and the exponent without
padding. -/
def Decimal.scientific (d : Decimal) : String :=
  let exponent := "e" ++ intText (d.point - 1)
  match Nat.toDigits 10 d.digits with
  | [] => exponent
  | [c] => String.singleton c ++ exponent
  | c :: rest => String.singleton c ++ "." ++ String.ofList rest ++ exponent

/-- A minus sign or nothing. -/
def signText (negative : Bool) : String :=
  if negative then "-" else ""

/-- The shortest decimal written positionally, with at least `places` digits after the point. -/
def positionalText (x : Float) (places : Nat) : String :=
  match parts x with
  | .nan => "NaN"
  | .infinite s => signText s ++ "inf"
  | .finite s 0 _ => signText s ++ (if places = 0 then "0" else "0." ++ zeros places)
  | .finite s m q => signText s ++ (shortest m q).positional places

/-- The shortest decimal, positional from `10 ^ -4` up to `10 ^ 16` with at least one digit after
the point and scientific elsewhere. -/
def generalText (x : Float) : String :=
  match parts x with
  | .finite _ 0 _ => positionalText x 1
  | .finite s m q =>
    let d := shortest m q
    if -3 ≤ d.point ∧ d.point ≤ 16 then signText s ++ d.positional 1 else signText s ++ d.scientific
  | _ => positionalText x 0

end LuaMachine.Binary64
