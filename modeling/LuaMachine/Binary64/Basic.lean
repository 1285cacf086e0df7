/-!
# Binary64 numbers taken apart exactly

A finite float is `± m · 2 ^ q` with a natural `m < 2 ^ 53`. Rounding to an integer, the remainder
of a division and powers of two are computed on that pair with integers, so every result is exact by
construction.
-/
namespace LuaMachine.Binary64

/-- The exact content of a float. A finite one is `m * 2 ^ q`, negated when `negative`. -/
inductive Parts where
  | nan
  | infinite (negative : Bool)
  | finite (negative : Bool) (m : Nat) (q : Int)
  deriving DecidableEq, Repr

/-- Whether the sign bit is set. -/
def isNegative (x : Float) : Bool :=
  x.toBits.toNat / Nat.pow 2 63 == 1

/-- Splits the bit pattern into sign, exponent and fraction. Subnormals share the exponent
`-1074`. -/
def parts (x : Float) : Parts :=
  let bits := x.toBits.toNat
  let negative := isNegative x
  let exponent : Nat := bits / Nat.pow 2 52 % Nat.pow 2 11
  let fraction := bits % Nat.pow 2 52
  if exponent = 2047 then
    if fraction = 0 then .infinite negative else .nan
  else if exponent = 0 then .finite negative fraction (-1074)
  else .finite negative (fraction + Nat.pow 2 52) ((exponent : Int) - 1075)

/-- The float `± m * 2 ^ q` for `m < 2 ^ 53` and `-1074 ≤ q ≤ 971`, which is always
representable. -/
def ofParts (negative : Bool) (m : Nat) (q : Int) : Float :=
  let shift := min (52 - m.log2) (q + 1074).toNat
  let scaled := m * Nat.pow 2 shift
  let sign := if negative then Nat.pow 2 63 else 0
  let magnitude :=
    if scaled < Nat.pow 2 52 then scaled
    else scaled - Nat.pow 2 52 + (q - shift + 1075).toNat * Nat.pow 2 52
  Float.ofBits (UInt64.ofNat (sign + magnitude))

/-- Positive infinity. -/
def infinity : Float := Float.ofBits 0x7ff0000000000000

/-- The quiet NaN with positive sign. -/
def nan : Float := Float.ofBits 0x7ff8000000000000

/-- `m` with the sign of the number. -/
def signed (negative : Bool) (m : Nat) : Int :=
  if negative then -(m : Int) else m

theorem signed_natAbs (n : Int) : signed (n < 0) n.natAbs = n := by
  unfold signed
  by_cases h : n < 0
  · rw [decide_eq_true h, if_pos rfl]
    omega
  · rw [decide_eq_false h, if_neg Bool.false_ne_true]
    omega

/-- The largest integer not above the number, for finite numbers. -/
def floorInt? (x : Float) : Option Int :=
  match parts x with
  | .finite s m q =>
    if 0 ≤ q then some (signed s m * Int.pow 2 q.toNat)
    else some (Int.fdiv (signed s m) (Int.pow 2 (-q).toNat))
  | _ => none

/-- The least integer not below the number, for finite numbers. -/
def ceilInt? (x : Float) : Option Int :=
  match parts x with
  | .finite s m q =>
    if 0 ≤ q then some (signed s m * Int.pow 2 q.toNat)
    else some (-Int.fdiv (-signed s m) (Int.pow 2 (-q).toNat))
  | _ => none

/-- The integer the number equals, if there is one. -/
def exactInt? (x : Float) : Option Int :=
  match parts x with
  | .finite s m q =>
    if 0 ≤ q then some (signed s m * Int.pow 2 q.toNat)
    else if m % Nat.pow 2 (-q).toNat = 0 then some (signed s (m / Nat.pow 2 (-q).toNat))
    else none
  | _ => none

/-- The nearest float to an integer, ties to the even significand. -/
def ofInt64 (n : Int64) : Float :=
  let magnitude := (UInt64.ofNat n.toInt.natAbs).toFloat
  if n < 0 then -magnitude else magnitude

/-- The largest integral float not above `x`. Integral numbers, zeros of both signs, infinities and
NaN stay as they are. -/
def floor (x : Float) : Float :=
  match exactInt? x, floorInt? x with
  | none, some n => ofInt64 (Int64.ofInt n)
  | _, _ => x

/-- The remainder of the division of `x` by `y` with the quotient rounded toward zero. It is exact
and has the sign of `x`. -/
def remainder (x y : Float) : Float :=
  match parts x, parts y with
  | .finite s m q, .finite _ n p =>
    if n = 0 then nan
    else
      let e := min q p
      ofParts s (m * Nat.pow 2 (q - e).toNat % (n * Nat.pow 2 (p - e).toNat)) e
  | .finite _ _ _, .infinite _ => x
  | _, _ => nan

/-- `2 ^ n` by repeated multiplication: infinite above the range, and for a negative `n` the
reciprocal of `2 ^ |n|`, which is zero as soon as that power is infinite. -/
def twoPow (n : Int) : Float :=
  if 1024 ≤ n then infinity
  else if n ≤ -1024 then 0
  else ofParts false 1 n

end LuaMachine.Binary64
