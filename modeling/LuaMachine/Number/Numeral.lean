import LuaMachine.Number.Basic

/-!
# Reading numerals

A numeral is an optional sign followed by a hexadecimal or a decimal number, with blanks around it.
A hexadecimal number with neither fraction nor binary exponent is an integer modulo `2 ^ 64`; a
decimal number made of digits only is an integer if it fits; every other numeral is a float. Decimal
floats are rounded once. Hexadecimal floats gather their digits in a float, rounding at each digit,
and are scaled by one multiplication with a power of two, whose exponent is kept in a word of 32
bits.
-/
namespace LuaMachine.Numeral

/-- Space, tab, line feed, vertical tab, form feed and carriage return. -/
def isBlank (c : UInt8) : Bool :=
  c == 32 || (9 ≤ c && c ≤ 13)

def isDigit (c : UInt8) : Bool :=
  48 ≤ c && c ≤ 57

def isHexDigit (c : UInt8) : Bool :=
  isDigit c || (97 ≤ c && c ≤ 102) || (65 ≤ c && c ≤ 70)

/-- The value of a hexadecimal digit. -/
def hexValue (c : UInt8) : Nat :=
  if isDigit c then c.toNat - 48
  else if 97 ≤ c then c.toNat - 87
  else c.toNat - 55

/-- The value of a string of digits in the given base. -/
def digitsValue (base : Nat) (digits : List UInt8) : Nat :=
  digits.foldl (fun acc c => acc * base + hexValue c) 0

/-- An optional sign: whether it was a minus, and what follows. -/
def splitSign : List UInt8 → Bool × List UInt8
  | 43 :: rest => (false, rest)
  | 45 :: rest => (true, rest)
  | s => (false, s)

/-- An exponent after one of the two marks: a sign and at least one decimal digit. Otherwise nothing
is read. -/
def splitExponent (mark₁ mark₂ : UInt8) (s : List UInt8) : Option Int × List UInt8 :=
  match s with
  | c :: rest =>
    if c == mark₁ || c == mark₂ then
      let (negative, digits) := splitSign rest
      match digits.takeWhile isDigit with
      | [] => (none, s)
      | ds => (some (Binary64.signed negative (digitsValue 10 ds)), digits.dropWhile isDigit)
    else (none, s)
  | [] => (none, s)

/-- A point and the digits after it, of which there may be none. -/
def splitFraction (isDigit : UInt8 → Bool) : List UInt8 → Option (List UInt8) × List UInt8
  | 46 :: rest => (some (rest.takeWhile isDigit), rest.dropWhile isDigit)
  | s => (none, s)

/-- The pieces of an unsigned number: digits before the point, digits after it if there is a point,
and the exponent. -/
structure Pieces where
  whole : List UInt8
  fraction : Option (List UInt8)
  exponent : Option Int

/-- Whether at least one digit was written. -/
def Pieces.hasDigits (p : Pieces) : Bool :=
  !p.whole.isEmpty || !(p.fraction.getD []).isEmpty

/-- Splits off an unsigned number without its base mark. There has to be a digit. -/
def splitPieces (isDigit : UInt8 → Bool) (mark₁ mark₂ : UInt8) (s : List UInt8) :
    Option (Pieces × List UInt8) :=
  let whole := s.takeWhile isDigit
  let (fraction, rest) := splitFraction isDigit (s.dropWhile isDigit)
  let (exponent, rest) := splitExponent mark₁ mark₂ rest
  let p := ⟨whole, fraction, exponent⟩
  if p.hasDigits then some (p, rest) else none

/-- Adds a hexadecimal digit to a float, rounding. -/
def pushHexDigit (acc : Float) (c : UInt8) : Float :=
  acc * 16 + (UInt64.ofNat (hexValue c)).toFloat

/-- The word of 32 bits that is nearest to an integer. -/
def saturate (n : Int) : Int :=
  max (-Int.pow 2 31) (min n (Int.pow 2 31 - 1))

/-- An exponent whose magnitude is cut to a word of 32 bits. -/
def cutExponent (e : Int) : Int :=
  Binary64.signed (e < 0) (min e.natAbs (Nat.pow 2 31 - 1))

/-- The binary exponent of a hexadecimal float: four places less for each digit after the point.
Both the places and the sum stop at the ends of a word. -/
def hexScale (places : Nat) (e : Int) : Int :=
  saturate (saturate (-4 * places) + cutExponent e)

/-- The value of a hexadecimal number. -/
def hexNumber (p : Pieces) : Number :=
  match p.fraction, p.exponent with
  | none, none => .int (Int64.ofNat (digitsValue 16 p.whole))
  | _, _ =>
    let fraction := p.fraction.getD []
    let mantissa := (p.whole ++ fraction).foldl pushHexDigit 0
    .float (mantissa * Binary64.twoPow (hexScale fraction.length (p.exponent.getD 0)))

/-- The nearest float to `n * 10 ^ e`. -/
def scaleTen (n : Nat) (e : Int) : Float :=
  Float.ofScientific n (e < 0) e.natAbs

/-- The value of a decimal number with its sign. -/
def decimalNumber (negative : Bool) (p : Pieces) : Number :=
  let exact : Option Int64 :=
    match p.fraction, p.exponent with
    | none, none => int64OfInt? (Binary64.signed negative (digitsValue 10 p.whole))
    | _, _ => none
  match exact with
  | some n => .int n
  | none =>
    let fraction := p.fraction.getD []
    let x := scaleTen (digitsValue 10 (p.whole ++ fraction)) (p.exponent.getD 0 - fraction.length)
    .float (if negative then -x else x)

/-- A hexadecimal number with its base mark. -/
def splitHex : List UInt8 → Option (Number × List UInt8)
  | 48 :: x :: rest =>
    if x == 120 || x == 88 then
      (splitPieces isHexDigit 112 80 rest).map fun (p, rest) => (hexNumber p, rest)
    else none
  | _ => none

/-- A signed number at the front of the text. -/
def splitNumber (s : List UInt8) : Option (Number × List UInt8) :=
  let (negative, body) := splitSign s
  match splitHex body with
  | some (n, rest) => some (if negative then n.neg else n, rest)
  | none => (splitPieces isDigit 101 69 body).map fun (p, rest) => (decimalNumber negative p, rest)

/-- Reads a whole text as a numeral. -/
def read (s : List UInt8) : Option Number :=
  match splitNumber (s.dropWhile isBlank) with
  | some (n, rest) => if (rest.dropWhile isBlank).isEmpty then some n else none
  | none => none

end LuaMachine.Numeral
