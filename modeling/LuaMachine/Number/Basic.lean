import LuaMachine.Binary64.Basic

/-!
# Numbers

A number is a 64-bit integer or a binary64 float. Integer operations wrap around, an operation with
a float operand is done in floats, division and exponentiation always are. The divisions that round
their quotient down refuse an integer zero divisor.
-/
namespace LuaMachine

/-- A number of one of the two subtypes. -/
inductive Number where
  | int (n : Int64)
  | float (x : Float)
  deriving DecidableEq

/-- How a float with a fraction is turned into an integer. -/
inductive IntRounding where
  | exact
  | floor
  | ceil
  deriving DecidableEq, Repr

/-- An integer as a 64-bit word, if it is in range. -/
def int64OfInt? (n : Int) : Option Int64 :=
  if -Int.pow 2 63 ≤ n ∧ n < Int.pow 2 63 then some (Int64.ofInt n) else none

theorem int64OfInt?_eq_some {m : Int} {n : Int64} : int64OfInt? m = some n ↔ n.toInt = m := by
  simp only [int64OfInt?, Option.ite_none_right_eq_some, Option.some.injEq]
  constructor
  · rintro ⟨⟨hlow, hhigh⟩, rfl⟩
    exact Int64.toInt_ofInt_of_le hlow hhigh
  · rintro rfl
    exact ⟨⟨n.le_toInt, n.toInt_lt⟩, Int64.ofInt_toInt n⟩

/-- Converts a float to an integer. There is no result for NaN, out of range, or for a fraction with
`exact`. -/
def floatToInt? (mode : IntRounding) (x : Float) : Option Int64 :=
  (match mode with
    | .exact => Binary64.exactInt? x
    | .floor => Binary64.floorInt? x
    | .ceil => Binary64.ceilInt? x).bind int64OfInt?

/-- The remainder of `m` by `n` with the sign of `n`. There is none for `n = 0`. -/
def intMod? (m n : Int64) : Option Int64 :=
  if n = 0 then none
  else if n = -1 then some 0
  else
    let r := m % n
    if r ≠ 0 ∧ (r ^^^ n) < 0 then some (r + n) else some r

/-- The quotient of `m` by `n` rounded down, wrapping around. There is none for `n = 0`. -/
def intDiv? (m n : Int64) : Option Int64 :=
  if n = 0 then none
  else if n = -1 then some (-m)
  else
    let q := m / n
    if (m ^^^ n) < 0 ∧ m % n ≠ 0 then some (q - 1) else some q

/-- The remainder of `a` by `b` with the sign of `b`. -/
def floatMod (a b : Float) : Float :=
  let m := Binary64.remainder a b
  let differs := if m > 0 then b < 0 else m < 0 ∧ b != m
  if differs then m + b else m

/-- Shifts left, filling with zeros. A negative amount shifts right, and 64 places or more leave
nothing. -/
def shiftLeft (x y : Int64) : Int64 :=
  if y ≤ -64 ∨ 64 ≤ y then 0
  else if y < 0 then (x.toUInt64 >>> (-y).toUInt64).toInt64
  else (x.toUInt64 <<< y.toUInt64).toInt64

namespace Number

/-- The integer of the same value, rounding floats as asked. -/
def toInt? (mode : IntRounding) : Number → Option Int64
  | .int n => some n
  | .float x => floatToInt? mode x

/-- The nearest float. Integers beyond `2 ^ 53` may lose precision. -/
def toFloat : Number → Float
  | .int n => Binary64.ofInt64 n
  | .float x => x

def isFloat : Number → Bool
  | .int _ => false
  | .float _ => true

/-- A count as a number: an integer when it fits, the nearest float beyond. -/
def ofNat (n : Nat) : Number :=
  if n < Nat.pow 2 63 then .int (Int64.ofNat n) else .float (UInt64.ofNat n).toFloat

/-- Applies the integer operation to two integers and the float operation to any other pair. -/
def lift (onInts : Int64 → Int64 → Int64) (onFloats : Float → Float → Float) :
    Number → Number → Number
  | .int m, .int n => .int (onInts m n)
  | a, b => .float (onFloats a.toFloat b.toFloat)

def add : Number → Number → Number := lift (· + ·) (· + ·)

def sub : Number → Number → Number := lift (· - ·) (· - ·)

def mul : Number → Number → Number := lift (· * ·) (· * ·)

def neg : Number → Number
  | .int n => .int (-n)
  | .float x => .float (-x)

/-- Float division. -/
def div (a b : Number) : Number :=
  .float (a.toFloat / b.toFloat)

/-- Float exponentiation. -/
def pow (a b : Number) : Number :=
  .float (Float.pow a.toFloat b.toFloat)

/-- The remainder of the division rounded down. Only an integer zero divisor has none. -/
def mod? : Number → Number → Option Number
  | .int m, .int n => (intMod? m n).map .int
  | a, b => some (.float (floatMod a.toFloat b.toFloat))

/-- The quotient rounded down. Only an integer zero divisor has none. -/
def floorDiv? : Number → Number → Option Number
  | .int m, .int n => (intDiv? m n).map .int
  | a, b => some (.float (Binary64.floor (a.toFloat / b.toFloat)))

end Number

end LuaMachine
