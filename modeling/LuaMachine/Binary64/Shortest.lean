import LuaMachine.Binary64.Basic

/-!
# The shortest decimal that reads back

Every finite positive float owns an interval of reals that round to it. Among the decimals in that
interval the ones with the fewest digits are shortest, and of two such neighbours the nearer one is
chosen, an exact tie going up. The search tries 1, 2, … 17 digits and tests the two neighbours of
the value on each decimal grid, with all comparisons made between natural numbers.
-/
namespace LuaMachine.Binary64

/-- A positive decimal: `digits` without trailing or leading zeros, the value being
`0.d₁d₂… * 10 ^ point`. -/
structure Decimal where
  digits : Nat
  count : Nat
  point : Int
  deriving DecidableEq, Repr

/-- A positive rational over a common denominator, with the ends of the interval that rounds to it.
`closed` says whether the ends belong to the interval. -/
structure RoundingInterval where
  low : Nat
  value : Nat
  high : Nat
  den : Nat
  closed : Bool

/-- The interval of reals that round to `m * 2 ^ q`. The gap below a power of two is half the gap
above, and the ends are included exactly when `m` is even. -/
def roundingInterval (m : Nat) (q : Int) : RoundingInterval :=
  let up := Nat.pow 2 q.toNat
  let den := 4 * Nat.pow 2 (-q).toNat
  let below := if m = Nat.pow 2 52 ∧ -1074 < q then 1 else 2
  { low := (4 * m - below) * up, value := 4 * m * up, high := (4 * m + 2) * up, den,
    closed := m % 2 == 0 }

/-- Whether the decimal `d * 10 ^ k` lies in the interval. -/
def RoundingInterval.contains (i : RoundingInterval) (d : Nat) (k : Int) : Bool :=
  let x := d * Nat.pow 10 k.toNat * i.den
  let scale := Nat.pow 10 (-k).toNat
  if i.closed then i.low * scale ≤ x && x ≤ i.high * scale
  else i.low * scale < x && x < i.high * scale

/-- Of the two neighbours `d` and `d + 1` on the grid of multiples of `10 ^ k`, the nearest one in
the interval. -/
def RoundingInterval.pick (i : RoundingInterval) (k : Int) : Option Nat :=
  let den := i.den * Nat.pow 10 k.toNat
  let num := i.value * Nat.pow 10 (-k).toNat
  let d := num / den
  let downHit := 0 < d && i.contains d k
  let upHit := i.contains (d + 1) k
  match downHit, upHit with
  | true, true => if 2 * (num % den) < den then some d else some (d + 1)
  | true, false => some d
  | false, true => some (d + 1)
  | false, false => none

/-- The number of decimal digits of a natural number, one for zero. -/
def digitCount (n : Nat) : Nat :=
  (Nat.toDigits 10 n).length

/-- The least `e` with `value < 10 ^ e`, so that the leading digit stands just after the point of
`0.d₁… * 10 ^ e`. -/
def RoundingInterval.magnitude (i : RoundingInterval) : Int :=
  if i.den ≤ i.value then digitCount (i.value / i.den)
  else
    let estimate : Int := 1 - digitCount (i.den / i.value)
    if i.value * Nat.pow 10 (-estimate).toNat < i.den then estimate else estimate + 1

/-- Drops trailing zeros of a positive number. -/
def stripZeros : Nat → Nat → Nat
  | 0, n => n
  | fuel + 1, n => if n ≠ 0 ∧ n % 10 = 0 then stripZeros fuel (n / 10) else n

/-- Tries grids of `count`, `count + 1`, … digits. -/
def RoundingInterval.search (i : RoundingInterval) (e : Int) : Nat → Nat → Decimal
  | 0, count => ⟨i.value / i.den, count, e⟩
  | tries + 1, count =>
    match i.pick (e - count) with
    | some d =>
      let point := if Nat.pow 10 count ≤ d then e + 1 else e
      let digits := stripZeros count d
      ⟨digits, digitCount digits, point⟩
    | none => i.search e tries (count + 1)

/-- The shortest decimal that rounds to `m * 2 ^ q`, for `0 < m`. Seventeen digits always
suffice. -/
def shortest (m : Nat) (q : Int) : Decimal :=
  let i := roundingInterval m q
  i.search i.magnitude 17 1

end LuaMachine.Binary64
